import BitSliced.Batch
import BitSliced.Index.Comparison
import Mathlib.Algebra.Ring.Nat

/-!
# What batches find

The sizes of the batches of a set add up to its size, so the batches in order hold the identifiers
of the set in ascending order. What is found batch by batch, by a test of single identifiers or by
what is made of them, is therefore what is found in the whole set, for every degree of parallelism.

## Main results

* `BitSliced.sum_batchSizes`, `BitSliced.flatten_batches`.
* `BitSliced.mem_gather_filter`, `BitSliced.mem_gather_map` — what all batches find together.
-/

namespace BitSliced

/-! ### Sizes -/

/-- The sizes of the batches add up to the number of identifiers. -/
theorem sum_batchSizes (n : Nat) {degree : Nat} (h : 0 < degree) :
    (batchSizes n degree).sum = n := by
  have key (count : Nat) (h : 0 < count) :
      (List.replicate (count - 1) (n / count) ++ [n / count + n % count]).sum = n := by
    rw [List.sum_append_nat, List.sum_replicate_nat, List.sum_singleton, ← Nat.add_assoc,
      ← Nat.succ_mul, show (count - 1).succ = count by omega, Nat.div_add_mod]
  unfold batchSizes
  split
  · exact key 1 Nat.one_pos
  · exact key degree h

/-- Leaving sizes of zero out changes no sum. -/
theorem sum_filter_pos (sizes : List Nat) : (sizes.filter (0 < ·)).sum = sizes.sum := by
  induction sizes with
  | nil => rfl
  | cons size sizes ih =>
    by_cases h : 0 < size
    · simp [h, ih]
    · simp [ih, Nat.eq_zero_of_not_pos h]

/-- Pieces that are as large as a list together hold the list. -/
theorem flatten_deal {α : Type} {sizes : List Nat} {l : List α} (h : sizes.sum = l.length) :
    (deal sizes l).flatten = l := by
  induction sizes generalizing l with
  | nil => simpa [deal, eq_comm] using h
  | cons size sizes ih =>
    rw [List.sum_cons] at h
    rw [deal, List.flatten_cons, ih (by rw [List.length_drop]; omega), List.take_append_drop]

/-- The batches in order hold the identifiers of the set in ascending order. -/
theorem flatten_batches (p : Parallelism) (s : IdSet) : (batches p s).flatten = s.toList := by
  have hsizes : ((batchSizes s.size p.degree).filter (0 < ·)).sum = s.toList.length := by
    rw [sum_filter_pos, sum_batchSizes _ p.degree_pos, Std.ExtTreeSet.length_toList]
  exact flatten_deal hsizes

/-! ### What is found -/

/-- The members of a set are dealt out to its batches. -/
theorem mem_iff_exists_mem_batches (p : Parallelism) {found : IdSet} {id : UInt64} :
    id ∈ found ↔ ∃ batch ∈ batches p found, id ∈ batch := by
  rw [← Std.ExtTreeSet.mem_toList, ← flatten_batches p, List.mem_flatten]

/-- A test that is made in every batch is made for the whole set. -/
theorem mem_gather_filter {p : Parallelism} {found : IdSet} {test : UInt64 → Bool}
    {id : UInt64} : id ∈ gather p found (·.filter test) ↔ id ∈ found ∧ test id = true := by
  rw [mem_gather, mem_iff_exists_mem_batches p]
  simp only [List.mem_filter]
  constructor
  · rintro ⟨batch, hb, hid, ht⟩
    exact ⟨⟨batch, hb, hid⟩, ht⟩
  · rintro ⟨⟨batch, hb, hid⟩, ht⟩
    exact ⟨batch, hb, hid, ht⟩

/-- What is made of the members of every batch is made of the members of the whole set. -/
theorem mem_gather_map {p : Parallelism} {found : IdSet} {f : UInt64 → UInt64} {v : UInt64} :
    v ∈ gather p found (·.map f) ↔ ∃ id ∈ found, f id = v := by
  rw [mem_gather]
  simp only [List.mem_map, mem_iff_exists_mem_batches p]
  constructor
  · rintro ⟨batch, hb, id, hid, rfl⟩
    exact ⟨id, ⟨batch, hb, hid⟩, rfl⟩
  · rintro ⟨id, ⟨batch, hb, hid⟩, rfl⟩
    exact ⟨batch, hb, id, hid, rfl⟩

end BitSliced
