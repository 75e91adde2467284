import BitSliced.Batch.Rounds
import BitSliced.Proofs.Gathering

/-!
# Batches lose nothing

The batches of a set are read off their sizes: every batch has the size that was meant for it, since
all sizes together are the size of the set. Sizes of zero come up only where there are no
identifiers at all. So there is a batch for every worker, or a single batch when there are more
workers than identifiers, or none when there is nothing to deal out; and whatever the number of
batches, they hold the identifiers of the set in ascending order, each of them once.

## Main results

* `BitSliced.map_length_batches` — the sizes of batches are those that were meant.
* `BitSliced.filter_batchSizes_of_pos` — no size is zero where there are identifiers.
* `BitSliced.batches_partition` — **batches lose nothing**.
-/

namespace BitSliced

/-! ### Sizes of batches -/

/-- Pieces have the sizes that were asked for, as far as the list goes. -/
theorem map_length_deal {α : Type} {sizes : List Nat} {l : List α} (h : sizes.sum ≤ l.length) :
    (deal sizes l).map List.length = sizes := by
  induction sizes generalizing l with
  | nil => rfl
  | cons size sizes ih =>
    rw [List.sum_cons] at h
    have hrest : sizes.sum ≤ (l.drop size).length := by
      rw [List.length_drop]
      omega
    rw [deal, List.map_cons, ih hrest, List.length_take, Nat.min_eq_left (by omega)]

/-- Batches have the sizes that are meant for them, but for sizes of zero. -/
theorem map_length_batches (p : Parallelism) (found : IdSet) :
    (batches p found).map List.length =
      (batchSizes found.size p.degree).filter (0 < ·) := by
  refine map_length_deal (Nat.le_of_eq ?_)
  rw [sum_filter_pos, sum_batchSizes _ p.degree_pos, Std.ExtTreeSet.length_toList]

theorem filter_batchSizes_zero {degree : Nat} (h : 0 < degree) :
    (batchSizes 0 degree).filter (0 < ·) = [] := by
  simp [batchSizes, h]

/-- Where there are identifiers, no size is zero: every batch but the last has the quotient for its
size, and the last one takes the remainder. -/
theorem filter_batchSizes_of_pos {n degree : Nat} (hn : 0 < n) (hd : 0 < degree) :
    (batchSizes n degree).filter (0 < ·) =
      List.replicate ((if n < degree then 1 else degree) - 1) (n / degree) ++
        [n / degree + n % degree] := by
  rw [batchSizes]
  split
  · next hmore =>
    rw [Nat.div_eq_of_lt hmore, Nat.mod_eq_of_lt hmore]
    simp [hn, Nat.mod_one]
  · next henough =>
    have hpos : 0 < n / degree := Nat.div_pos (Nat.not_lt.1 henough) hd
    simp [hpos, Nat.add_pos_left hpos]

/-! ### Batches -/

theorem map_length_batches_of_pos (p : Parallelism) {found : IdSet} (hpos : 0 < found.size) :
    (batches p found).map List.length =
      List.replicate ((if found.size < p.degree then 1 else p.degree) - 1)
        (found.size / p.degree) ++ [found.size / p.degree + found.size % p.degree] := by
  rw [map_length_batches, filter_batchSizes_of_pos hpos p.degree_pos]

/-- There are as many batches as workers, or a single one for fewer identifiers than workers, or
none for no identifiers. -/
theorem length_batches (p : Parallelism) (found : IdSet) : (batches p found).length =
    if found.size = 0 then 0 else if found.size < p.degree then 1 else p.degree := by
  have hdegree := p.degree_pos
  rw [← List.length_map List.length]
  split
  · next hzero => rw [map_length_batches, hzero, filter_batchSizes_zero hdegree, List.length_nil]
  · next hpos =>
    rw [map_length_batches_of_pos p (Nat.pos_of_ne_zero hpos), List.length_append,
      List.length_replicate, List.length_singleton]
    split <;> omega

/-- No batch is empty. -/
theorem ne_nil_of_mem_batches {p : Parallelism} {found : IdSet} {batch : List UInt64}
    (h : batch ∈ batches p found) : batch ≠ [] := by
  have hsize := List.mem_map_of_mem (f := List.length) h
  rw [map_length_batches, List.mem_filter, decide_eq_true_iff] at hsize
  exact List.length_pos_iff.1 hsize.2

theorem size_pos_of_mem_batches {p : Parallelism} {found : IdSet} {batch : List UInt64}
    (h : batch ∈ batches p found) : 0 < found.size := by
  refine Nat.pos_of_ne_zero fun hzero => ?_
  have hnone := length_batches p found
  rw [if_pos hzero, List.length_eq_zero_iff] at hnone
  rw [hnone] at h
  exact List.not_mem_nil h

/-- All batches but the last have the quotient for their size. -/
theorem length_of_mem_dropLast_batches {p : Parallelism} {found : IdSet} {batch : List UInt64}
    (h : batch ∈ (batches p found).dropLast) : batch.length = found.size / p.degree := by
  have hpos := size_pos_of_mem_batches (List.dropLast_subset _ h)
  have hsize := List.mem_map_of_mem (f := List.length) h
  rw [List.map_dropLast, map_length_batches_of_pos p hpos, List.dropLast_concat] at hsize
  exact List.eq_of_mem_replicate hsize

/-- The last batch also takes the remainder. -/
theorem length_of_mem_getLast?_batches {p : Parallelism} {found : IdSet} {batch : List UInt64}
    (h : batch ∈ (batches p found).getLast?) :
    batch.length = found.size / p.degree + found.size % p.degree := by
  have hpos := size_pos_of_mem_batches (List.mem_of_getLast? h)
  have hsize := congrArg (Option.map List.length) h
  rw [← List.getLast?_map, map_length_batches_of_pos p hpos, List.getLast?_concat] at hsize
  exact (Option.some.inj hsize).symm

/-- **Batches lose nothing.** For every set of identifiers and every degree of parallelism, which is
at least one, dealing in rounds comes to an end without a division by zero or a difference below
zero, and its batches in order hold the identifiers of the set in ascending order. No batch is
empty. There are no batches for no identifiers, one when there are more workers than identifiers,
and else one for every worker. All batches but the last have the same size, the quotient of
identifiers and workers, and the last one also takes the remainder.

What the rounds take is worked out without leaving the numbers up to the size of the set: all shares
and the remainder together are that size. -/
theorem batches_partition (p : Parallelism) (found : IdSet) :
    let n := found.size
    let degree := p.degree
    0 < degree ∧
    (∃ plan, Plan.of? n degree = some plan ∧ 0 < plan.rounds ∧
      plan.share * plan.rounds + plan.remainder = n) ∧
    dealInRounds? p found = some (batches p found) ∧
    (batches p found).flatten = found.toList ∧ found.toList.Pairwise (· < ·) ∧
    (∀ batch ∈ batches p found, batch ≠ []) ∧
    (batches p found).length = (if n = 0 then 0 else if n < degree then 1 else degree) ∧
    (∀ batch ∈ (batches p found).dropLast, batch.length = n / degree) ∧
    ∀ batch ∈ (batches p found).getLast?, batch.length = n / degree + n % degree := by
  intro n degree
  obtain ⟨plan, hmade, -, hrounds, -, hall⟩ := Plan.of?_eq_some n p.degree_pos
  have hascending : found.toList.Pairwise (· < ·) :=
    Std.ExtTreeSet.ordered_toList.imp fun h => Std.compare_eq_lt.1 h
  exact ⟨p.degree_pos, ⟨plan, hmade, hrounds, hall⟩, dealInRounds?_eq_some p found,
    flatten_batches p found, hascending, fun _ => ne_nil_of_mem_batches, length_batches p found,
    fun _ => length_of_mem_dropLast_batches, fun _ => length_of_mem_getLast?_batches⟩

/-- Seven identifiers are dealt out to three workers, to the nine threads of a machine, and to as
many workers as can be asked for. -/
theorem batches_partition_uneven :
    let found : IdSet := .ofList [1, 2, 4, 8, 16, 32, 64]
    batches ⟨3, 1⟩ found = [[1, 2], [4, 8], [16, 32, 64]] ∧
      dealInRounds? ⟨3, 1⟩ found = some [[1, 2], [4, 8], [16, 32, 64]] ∧
      [4, 8].length = 7 / 3 ∧ [16, 32, 64].length = 7 / 3 + 7 % 3 ∧
      (batches ⟨0, 9⟩ found).length = 1 ∧ (batches ⟨-1, 1⟩ found).flatten = found.toList ∧
      (batches ⟨-1, 1⟩ found).length = 1 := by
  intro found
  have hdealt : batches ⟨3, 1⟩ found = [[1, 2], [4, 8], [16, 32, 64]] := by decide +kernel
  obtain ⟨-, -, hrounds, -, -, -, -, hshare, hlast⟩ := batches_partition ⟨3, 1⟩ found
  obtain ⟨-, -, -, -, -, -, hnine, -⟩ := batches_partition ⟨0, 9⟩ found
  obtain ⟨-, -, -, hall, -, -, hmost, -⟩ := batches_partition ⟨-1, 1⟩ found
  rw [hdealt] at hrounds hshare hlast
  refine ⟨hdealt, hrounds, (hshare [4, 8] (by decide)).trans (by decide +kernel),
    (hlast _ rfl).trans (by decide +kernel), hnine.trans (by decide +kernel), hall,
    hmost.trans (by decide +kernel)⟩

end BitSliced
