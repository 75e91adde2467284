import BitSliced.Batch

/-!
# Dealing in rounds

Identifiers are dealt out in rounds, one for each worker. All rounds take from the same identifiers,
each one from where the round before it stopped: every round takes its share, and the last one also
takes the remainder. A round that takes nothing makes no batch.

How much a round takes is worked out by dividing and subtracting. Both can go wrong, by a division
by zero or below zero, and are here as operations that then have no result. Dealing in rounds never
comes to that, and it makes the batches.

## Main definitions

* `BitSliced.quotient?`, `BitSliced.difference?` — division and subtraction where they are defined.
* `BitSliced.Plan` — how many rounds there are, and what they take.
* `BitSliced.Dealing` — the identifiers that are left, and the batches so far.
* `BitSliced.dealInRounds?` — the batches of a set, dealt out in rounds.

## Main results

* `BitSliced.Plan.of?_eq_some` — plans can be made, and take all identifiers.
* `BitSliced.Dealing.dealt_foldl_take` — what is dealt after some rounds.
* `BitSliced.dealInRounds?_eq_some` — dealing in rounds makes the batches.
-/

namespace BitSliced

/-- The quotient of two numbers; there is none by zero. -/
def quotient? (m n : Nat) : Option Nat := if n = 0 then none else some (m / n)

/-- The difference of two numbers; there is none below zero. -/
def difference? (m n : Nat) : Option Nat := if m < n then none else some (m - n)

/-- How identifiers are dealt out. -/
structure Plan where
  /-- The number of rounds. -/
  rounds : Nat
  /-- What every round takes. -/
  share : Nat
  /-- What the last round takes on top. -/
  remainder : Nat
  deriving DecidableEq, Repr

/-- What is left to be dealt out, and the batches so far. -/
structure Dealing where
  /-- The identifiers that are left, in order. -/
  rest : List UInt64
  /-- The batches, in order. -/
  dealt : List (List UInt64)
  deriving DecidableEq, Repr

/-- Deals a batch out of what is left, unless it would be empty. -/
def Dealing.take (d : Dealing) (size : Nat) : Dealing :=
  if size = 0 then d else ⟨d.rest.drop size, d.dealt ++ [d.rest.take size]⟩

namespace Plan

/-- The plan for so many identifiers and workers. There is a single round when there are more
workers than identifiers. -/
def of? (n degree : Nat) : Option Plan := do
  let rounds := if n < degree then 1 else degree
  let share ← quotient? n rounds
  let remainder ← difference? n (share * rounds)
  return ⟨rounds, share, remainder⟩

/-- What round `i` takes. -/
def size? (plan : Plan) (i : Nat) : Option Nat := do
  let last ← difference? plan.rounds 1
  return if i = last then plan.share + plan.remainder else plan.share

/-- Round `i`. -/
def round? (plan : Plan) (d : Dealing) (i : Nat) : Option Dealing := do
  let size ← plan.size? i
  return d.take size

end Plan

/-- The batches of a set, dealt out in rounds. -/
def dealInRounds? (p : Parallelism) (found : IdSet) : Option (List (List UInt64)) := do
  let plan ← Plan.of? found.size p.degree
  let d ← (List.range plan.rounds).foldlM plan.round? ⟨found.toList, []⟩
  return d.dealt

/-! ### Working out what rounds take -/

theorem quotient?_eq_some {m n : Nat} (h : 0 < n) : quotient? m n = some (m / n) :=
  if_neg (Nat.ne_of_gt h)

theorem difference?_eq_some {m n : Nat} (h : n ≤ m) : difference? m n = some (m - n) :=
  if_neg (Nat.not_lt.2 h)

namespace Plan

/-- A plan can be made for any number of identifiers and at least one worker. It has at least one
round, and all rounds together take all identifiers. -/
theorem of?_eq_some (n : Nat) {degree : Nat} (h : 0 < degree) :
    ∃ plan, of? n degree = some plan ∧ plan.rounds = (if n < degree then 1 else degree) ∧
      0 < plan.rounds ∧ plan.share = n / plan.rounds ∧
      plan.share * plan.rounds + plan.remainder = n := by
  have hpos : 0 < if n < degree then 1 else degree := by split <;> omega
  rw [of?]
  generalize (if n < degree then 1 else degree) = rounds at hpos
  have hwithin := Nat.div_mul_le_self n rounds
  refine ⟨⟨rounds, n / rounds, n - n / rounds * rounds⟩, ?_, rfl, hpos, rfl,
    Nat.add_sub_of_le hwithin⟩
  rw [quotient?_eq_some hpos, Option.bind_eq_bind, Option.bind_some, difference?_eq_some hwithin]
  rfl

/-- What round `i` takes of a plan that has any rounds. -/
def size (plan : Plan) (i : Nat) : Nat :=
  if i = plan.rounds - 1 then plan.share + plan.remainder else plan.share

theorem round?_eq_some {plan : Plan} (h : 0 < plan.rounds) (d : Dealing) (i : Nat) :
    plan.round? d i = some (d.take (plan.size i)) := by
  rw [round?, size?, difference?_eq_some h]
  rfl

/-- All rounds but the last take one share each. -/
theorem map_size_range {plan : Plan} (h : 0 < plan.rounds) :
    (List.range plan.rounds).map plan.size =
      List.replicate (plan.rounds - 1) plan.share ++ [plan.share + plan.remainder] := by
  have hlast : List.range plan.rounds = List.range (plan.rounds - 1) ++ [plan.rounds - 1] := by
    rw [← List.range_succ, Nat.succ_eq_add_one, Nat.sub_add_cancel h]
  rw [hlast, List.map_append, List.map_singleton, size, if_pos rfl]
  congr 1
  refine List.eq_replicate_iff.2 ⟨by simp, fun share hmem => ?_⟩
  obtain ⟨i, hi, rfl⟩ := List.mem_map.1 hmem
  exact if_neg (Nat.ne_of_lt (List.mem_range.1 hi))

end Plan

/-! ### Rounds -/

/-- After rounds for some sizes, what was left is dealt out in pieces of the sizes that are not
zero. -/
theorem Dealing.dealt_foldl_take (sizes : List Nat) (d : Dealing) :
    (sizes.foldl Dealing.take d).dealt = d.dealt ++ deal (sizes.filter (0 < ·)) d.rest := by
  induction sizes generalizing d with
  | nil => simp [deal]
  | cons size sizes ih =>
    rw [List.foldl_cons, ih, take]
    split
    · next hzero => simp [hzero]
    · next hpos => simp [Nat.pos_of_ne_zero hpos, deal]

/-- Dealing in rounds never fails, and makes the batches. -/
theorem dealInRounds?_eq_some (p : Parallelism) (found : IdSet) :
    dealInRounds? p found = some (batches p found) := by
  obtain ⟨plan, hmade, hrounds, hpos, hshare, hall⟩ := Plan.of?_eq_some found.size p.degree_pos
  have hremainder : plan.remainder = found.size % plan.rounds := by
    have := Nat.div_add_mod found.size plan.rounds
    rw [← hshare, Nat.mul_comm] at this
    omega
  have hsizes : (List.range plan.rounds).map plan.size = batchSizes found.size p.degree := by
    rw [Plan.map_size_range hpos, batchSizes, ← hrounds, hshare, hremainder]
  have hrun : (List.range plan.rounds).foldlM plan.round? ⟨found.toList, []⟩ =
      some ((batchSizes found.size p.degree).foldl Dealing.take ⟨found.toList, []⟩) := by
    rw [← hsizes, List.foldl_map]
    simp only [funext fun d => funext fun i => Plan.round?_eq_some hpos d i]
    exact List.foldlM_pure
  rw [dealInRounds?, hmade, Option.bind_eq_bind, Option.bind_some, hrun, Option.bind_eq_bind,
    Option.bind_some, Dealing.dealt_foldl_take]
  rfl

end BitSliced
