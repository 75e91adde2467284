import BitSliced.Index.Ripple
import BitSliced.Proofs.Addition
import BitSliced.Proofs.Planes.Width

/-!
# Counting a single identifier

One is added for a single identifier by clearing its bits up to the first clear one, and for the
identifiers of a set by rippling a carry. Planes are appended on the way in the one case, and when
anything carries over in the other. For the set of one identifier both leave the same index, with
the same number of planes, whatever the planes have and however long the carry runs. That the carry
runs out of the last of 64 planes makes no difference either: it is lost, and all bits of the
identifier are cleared.

## Main results

* `BitSliced.Index.increment_single` — adding one for a set of one identifier.
* `BitSliced.Planes.addOne_of_full` — adding one where there is no clear bit.
* `BitSliced.Index.single_increment_agrees` — **one identifier is counted like a set of one**.
-/

namespace BitSliced

namespace Planes

/-- An identifier is in every plane when it has the greatest number there is room for. -/
theorem forall_contains_of_number_eq {planes : Planes} {id : UInt64}
    (hfull : planes.number id = 2 ^ planes.length - 1) : ∀ p ∈ planes, p.contains id = true := by
  intro p hmem
  obtain ⟨i, hfound⟩ := List.mem_iff_getElem?.1 hmem
  have hbelow : i < planes.length := (List.getElem?_eq_some_iff.1 hfound).1
  have hbit := testBit_number planes id i
  rw [hfull, Nat.testBit_two_pow_sub_one, decide_eq_true hbelow, hfound, Option.any_some] at hbit
  exact hbit.symm

/-- Where there is neither a clear bit nor room for another one, adding one clears all bits. -/
theorem addOne_of_full {planes : Planes} {id : UInt64}
    (hfull : ∀ p ∈ planes, p.contains id = true) :
    addOne planes.length id planes = planes.map (·.erase id) := by
  induction planes with
  | nil => rfl
  | cons p ps ih =>
    obtain ⟨hown, hothers⟩ := List.forall_mem_cons.1 hfull
    rw [List.length_cons, addOne, if_pos hown, ih hothers, List.map_cons]

end Planes

namespace Index

variable {b : Index} {id : UInt64}

/-- Adding one for a set of one identifier is adding one for the identifier. -/
theorem increment_single (b : Index) (id : UInt64) :
    b.increment (.single id) = b.incrementId id := by
  rw [increment, incrementId, Bitmap.union_single, Planes.addOne_eq_addDigit]

theorem number_incrementId (hfew : b.width ≤ Planes.limit) (id : UInt64) :
    (b.incrementId id).planes.number id = (b.planes.number id + 1) % 2 ^ Planes.limit :=
  Planes.number_addOne_self id hfew

/-- An identifier that has every bit of 64 planes loses all of them. -/
theorem planes_incrementId_of_full (hfew : b.width ≤ 64) (hfull : b.planes.number id = 2 ^ 64 - 1) :
    (b.incrementId id).planes = b.planes.map (·.erase id) := by
  have hwide : b.planes.length = Planes.limit := by
    refine Nat.le_antisymm hfew (Nat.le_of_not_lt fun hless => ?_)
    have hbound : b.planes.number id < 2 ^ 63 := Nat.lt_of_lt_of_le (b.planes.number_lt id)
      (Nat.pow_le_pow_right (by decide) (Nat.le_of_lt_succ hless))
    omega
  rw [incrementId, ← hwide]
  refine Planes.addOne_of_full (Planes.forall_contains_of_number_eq ?_)
  rw [hfull, hwide]
  rfl

/-- **One identifier is counted like a set of one.** Let an index of at most 64 planes, whatever
they have, count a single identifier, and let it count the set of this identifier. Going from
position to position comes to an end in both cases, and both leave the same index, with the same
planes, the same number of planes and the same holders.

The number of the identifier goes up by one, modulo `2 ^ 64`, and the identifier holds it. When it
had every bit of 64 planes, all of them are cleared, no plane is appended, and the identifier holds
zero. No other identifier is touched. -/
theorem single_increment_agrees (hfew : b.width ≤ 64) (id : UInt64) :
    let single : Bitmap := .single id
    let counted := b.incrementId id
    b.incrementIdInTurn? id = some counted ∧
    b.incrementInTurn? single = some (b.increment single) ∧
    counted = b.increment single ∧ (counted == b.increment single) = true ∧
    counted.contains id = true ∧
    counted.planes.number id = (b.planes.number id + 1) % 2 ^ 64 ∧
    (b.planes.number id = 2 ^ 64 - 1 →
      counted.planes = b.planes.map (·.erase id) ∧ counted.get? id = some 0) ∧
    ∀ other ≠ id, counted.planes.number other = b.planes.number other ∧
      counted.contains other = b.contains other ∧ counted.get? other = b.get? other := by
  intro single counted
  have hsame : counted = b.increment single := (increment_single b id).symm
  have hheld : counted.contains id = true := Bitmap.contains_insert_self ..
  refine ⟨incrementIdInTurn?_eq_some b id, incrementInTurn?_eq_some b single, hsame, ?_, hheld,
    number_incrementId hfew id, fun hfull => ⟨planes_incrementId_of_full hfew hfull, ?_⟩,
    fun other hne => ?_⟩
  · rw [← hsame]
    exact BEq.rfl
  · have hzero : counted.planes.number id = 0 := by
      rw [number_incrementId hfew, hfull]
      rfl
    rw [get?, if_pos hheld, patternOf, hzero]
    rfl
  · have hnumber : counted.planes.number other = b.planes.number other :=
      Planes.number_addOne_of_ne Planes.limit hne b.planes
    have hcontains : counted.contains other = b.contains other :=
      Bitmap.contains_insert_of_ne b.existence hne
    refine ⟨hnumber, hcontains, ?_⟩
    rw [get?, get?, hcontains, patternOf, patternOf, hnumber]

/-- The identifier `1` has all 64 bits, and the carry is lost; `2` keeps its number, and `3` gets
its first one. -/
theorem single_increment_agrees_wraps :
    let b := (auto.put 1 (-1)).put 2 5
    b.width ≤ 64 ∧ b.planes.number 1 = 2 ^ 64 - 1 ∧ (2 : UInt64) ≠ 1 ∧
      (b.incrementId 1).get? 1 = some 0 ∧ (b.incrementId 1).get? 2 = some 5 ∧
      b.incrementInTurn? (.single 1) = some (b.incrementId 1) ∧
      (b.incrementId 1 == b.increment (.single 1)) = true ∧
      (b.incrementId 3).planes.number 3 = 1 := by
  intro b
  have hfew : b.width ≤ 64 := by decide +kernel
  have hfull : b.planes.number 1 = 2 ^ 64 - 1 := by decide +kernel
  have hne : (2 : UInt64) ≠ 1 := by decide
  obtain ⟨-, hturn, hsame, hequal, -, -, hwraps, hothers⟩ := single_increment_agrees hfew 1
  obtain ⟨-, -, -, -, -, hthree, -, -⟩ := single_increment_agrees hfew 3
  refine ⟨hfew, hfull, hne, (hwraps hfull).2, (hothers 2 hne).2.2.trans ?_, hturn.trans ?_, hequal,
    hthree.trans ?_⟩
  · decide +kernel
  · rw [hsame]
  · decide +kernel

end Index

end BitSliced
