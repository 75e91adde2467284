import BitSliced.Proofs.Joined
import BitSliced.Proofs.Limit
import BitSliced.Proofs.StreamBuffers
import BitSliced.Proofs.Total

/-!
# Stray bits

A plane may have bits of an identifier that holds no number. Operations that put and take numbers
leave no such *stray* bits behind, but they can be read from a stream or restored from buffers, and
nothing is done about them then. Looking a number up asks the existence bitmap first and does not
see them. Totals, increments, additions and joins work on planes alone, and do: a total has the
stray bits of the set in it, and an identifier that comes to hold a number, by being counted up or
because the other index holds one for it, starts from its stray bits and not from zero.

This module says exactly how far stray bits show. They show in none of these operations exactly when
there are none.

## Main definitions

* `BitSliced.Index.strayOf` — the stray bits of an identifier.
* `BitSliced.Index.AgreeOnHolders` — indexes that differ in stray bits only.

## Main results

* `BitSliced.Index.enclosed_iff_strayOf_eq_zero` — enclosed planes have no stray bits.
* `BitSliced.Index.total_eq_add_strays`, `BitSliced.Index.get?_increment` — stray bits in totals and
  increments.
* `BitSliced.Index.stray_bits_count` — **how far stray bits show**.
-/

namespace BitSliced.Index

variable {b t x y : Index}

theorem toInt64_inj {v w : UInt64} : v.toInt64 = w.toInt64 ↔ v = w :=
  ⟨congrArg Int64.toUInt64, congrArg UInt64.toInt64⟩

/-- The bits that the planes have for an identifier that holds no number; zero for all others. -/
def strayOf (b : Index) (id : UInt64) : UInt64 := if b.contains id then 0 else b.patternOf id

theorem strayOf_of_contains {id : UInt64} (hheld : b.contains id = true) : b.strayOf id = 0 :=
  if_pos hheld

theorem strayOf_of_not_contains {id : UInt64} (hmissing : ¬ b.contains id = true) :
    b.strayOf id = b.patternOf id :=
  if_neg hmissing

/-- The pattern of an identifier is the number that it holds, or else its stray bits. -/
theorem toInt64_patternOf_eq_add (b : Index) (id : UInt64) :
    (b.patternOf id).toInt64 = (b.get? id).getD 0 + (b.strayOf id).toInt64 := by
  rw [get?]
  split
  · next hheld =>
    rw [strayOf_of_contains hheld]
    exact (Int64.add_zero _).symm
  · next hmissing =>
    rw [strayOf_of_not_contains hmissing]
    exact (Int64.zero_add _).symm

/-- Enclosed planes are those without stray bits. -/
theorem enclosed_iff_strayOf_eq_zero (hb : b.width ≤ Planes.limit) :
    b.Enclosed ↔ ∀ id, b.strayOf id = 0 := by
  rw [enclosed_iff]
  refine forall_congr' fun id => ?_
  rw [strayOf, ← UInt64.toNat_inj]
  cases b.contains id
  · simp [toNat_patternOf hb]
  · simp

/-! ### Operations with stray bits -/

/-- A total is the sum of the numbers held in the set and of all stray bits in it. -/
theorem total_eq_add_strays (b : Index) (found : IdSet) :
    (b.total found).1 = (found.toList.map fun id => (b.get? id).getD 0).sum +
      (found.toList.map b.strayOf).sum.toInt64 := by
  rw [total_eq]
  dsimp only
  induction found.toList with
  | nil => rfl
  | cons id ids ih =>
    simp only [List.map_cons, List.sum_cons, UInt64.toInt64_add, ih, toInt64_patternOf_eq_add]
    ac_rfl

/-- An identifier of the set that held no number starts from its stray bits. -/
theorem get?_increment (hb : b.width ≤ Planes.limit) (found : Bitmap) (id : UInt64) :
    (b.increment found).get? id =
      if id ∈ found then some ((b.get? id).getD 0 + (b.strayOf id).toInt64 + 1) else b.get? id := by
  rw [get?, contains_increment, patternOf_increment hb]
  by_cases hcounted : id ∈ found
  · rw [if_pos hcounted, Bitmap.contains_iff.2 hcounted, Bool.or_true, if_pos rfl,
      UInt64.toInt64_add, toInt64_patternOf_eq_add]
    rfl
  · rw [if_neg hcounted, Bool.eq_false_iff.2 (mt Bitmap.contains_iff.1 hcounted),
      Bool.or_false, get?]
    simp

theorem contains_join_singleton (t x : Index) (p : Parallelism) (id : UInt64) :
    (t.join p [x]).contains id = (t.contains id || x.contains id) := by
  rw [contains_join, List.any_cons, List.any_cons, List.any_nil, Bool.or_false]

/-- Joining takes the disjunction of patterns. -/
theorem patternOf_join (ht : t.width ≤ Planes.limit) (hx : x.width ≤ Planes.limit)
    (p : Parallelism) (id : UInt64) :
    (t.join p [x]).patternOf id = t.patternOf id ||| x.patternOf id := by
  have hnarrow : ∀ b ∈ [t, x], b.width ≤ Planes.limit := by simp [ht, hx]
  rw [← UInt64.toNat_inj, toNat_patternOf (width_join_le ht p [x]), UInt64.toNat_or,
    toNat_patternOf ht, toNat_patternOf hx, number_join hnarrow]
  rfl

/-! ### Indexes that differ in stray bits only -/

/-- Two indexes *agree on holders* when they have the same bounds, width and existence, and the same
plane bits for every identifier that holds a number. They may differ in stray bits only. -/
structure AgreeOnHolders (x y : Index) : Prop where
  maxValue_eq : x.maxValue = y.maxValue
  minValue_eq : x.minValue = y.minValue
  width_eq : x.width = y.width
  existence_eq : x.existence.ids = y.existence.ids
  number_eq : ∀ id, x.contains id = true → x.planes.number id = y.planes.number id

namespace AgreeOnHolders

theorem contains_eq (h : x.AgreeOnHolders y) (id : UInt64) : x.contains id = y.contains id :=
  congrArg (·.contains id) h.existence_eq

theorem patternOf_eq (h : x.AgreeOnHolders y) {id : UInt64} (hheld : x.contains id = true) :
    x.patternOf id = y.patternOf id :=
  congrArg UInt64.ofNat (h.number_eq id hheld)

/-- Looking numbers up does not tell stray bits. -/
theorem get?_eq (h : x.AgreeOnHolders y) (id : UInt64) : x.get? id = y.get? id := by
  rw [get?, get?, ← h.contains_eq]
  split
  · next hheld => rw [h.patternOf_eq hheld]
  · rfl

/-- Both indexes hold the same number for an identifier and have no stray bits for it, or hold none
and have nothing but stray bits. -/
theorem held_or_stray (h : x.AgreeOnHolders y) (id : UInt64) :
    (x.contains id = true ∧ y.contains id = true ∧ x.patternOf id = y.patternOf id ∧
      x.strayOf id = 0 ∧ y.strayOf id = 0) ∨
    (x.contains id = false ∧ y.contains id = false ∧ x.patternOf id = x.strayOf id ∧
      y.patternOf id = y.strayOf id) := by
  have hsame := h.contains_eq id
  by_cases hheld : x.contains id = true
  · have hheld' := hsame ▸ hheld
    exact .inl ⟨hheld, hheld', h.patternOf_eq hheld, strayOf_of_contains hheld,
      strayOf_of_contains hheld'⟩
  · have hmissing := Bool.eq_false_iff.2 hheld
    exact .inr ⟨hmissing, hsame ▸ hmissing, (strayOf_of_not_contains hheld).symm,
      (strayOf_of_not_contains (hsame ▸ hheld)).symm⟩

theorem total_eq_iff (h : x.AgreeOnHolders y) (found : IdSet) : x.total found = y.total found ↔
    (found.toList.map x.strayOf).sum = (found.toList.map y.strayOf).sum := by
  have hheld : (found.toList.map fun id => (x.get? id).getD 0).sum =
      (found.toList.map fun id => (y.get? id).getD 0).sum := by
    simp only [h.get?_eq]
  have hsizes : (x.total found).2 = (y.total found).2 := rfl
  rw [Prod.ext_iff, and_iff_left hsizes, total_eq_add_strays, total_eq_add_strays, hheld,
    Int64.add_right_inj, toInt64_inj]

theorem get?_increment_eq_iff (h : x.AgreeOnHolders y) (hx : x.width ≤ Planes.limit)
    (found : Bitmap) (id : UInt64) : (x.increment found).get? id = (y.increment found).get? id ↔
      (id ∈ found → x.strayOf id = y.strayOf id) := by
  have hy : y.width ≤ Planes.limit := h.width_eq ▸ hx
  rw [get?_increment hx, get?_increment hy, h.get?_eq]
  by_cases hcounted : id ∈ found
  · rw [if_pos hcounted, if_pos hcounted, Option.some_inj, Int64.add_left_inj, Int64.add_right_inj,
      toInt64_inj, forall_prop_of_true hcounted]
  · simp [hcounted]

/-- Where an operation combines the patterns of an index with those of another one, stray bits show
for the identifiers that hold a number in the first one. -/
theorem get?_combined_eq_iff (h : x.AgreeOnHolders y) {f : UInt64 → UInt64 → UInt64}
    {r r' : Index} {id : UInt64} (hheld : r.contains id = (t.contains id || x.contains id))
    (hheld' : r'.contains id = (t.contains id || y.contains id))
    (hcombined : r.patternOf id = f (t.patternOf id) (x.patternOf id))
    (hcombined' : r'.patternOf id = f (t.patternOf id) (y.patternOf id)) :
    r.get? id = r'.get? id ↔
      (t.contains id = true →
        f (t.patternOf id) (x.strayOf id) = f (t.patternOf id) (y.strayOf id)) := by
  rw [get?, get?, hheld, hheld', hcombined, hcombined']
  obtain ⟨hx, hy, hsame, hsx, hsy⟩ | ⟨hx, hy, hsx, hsy⟩ := h.held_or_stray id
  · simp [hx, hy, hsame, hsx, hsy]
  · rw [hx, hy, hsx, hsy, Bool.or_false]
    split
    · next hthere => rw [Option.some_inj, toInt64_inj, forall_prop_of_true hthere]
    · next hmissing => simp [hmissing]

theorem get?_add_eq_iff (h : x.AgreeOnHolders y) (hx : x.width ≤ Planes.limit)
    (ht : t.width ≤ Planes.limit) (id : UInt64) : (t.add x).get? id = (t.add y).get? id ↔
      (t.contains id = true → x.strayOf id = y.strayOf id) := by
  have hy : y.width ≤ Planes.limit := h.width_eq ▸ hx
  rw [h.get?_combined_eq_iff (contains_add ..) (contains_add ..) (patternOf_add ht hx id)
    (patternOf_add ht hy id)]
  simp only [UInt64.add_right_inj]

theorem get?_join_eq_iff (h : x.AgreeOnHolders y) (hx : x.width ≤ Planes.limit)
    (ht : t.width ≤ Planes.limit) (p : Parallelism) (id : UInt64) :
    (t.join p [x]).get? id = (t.join p [y]).get? id ↔
      (t.contains id = true →
        t.patternOf id ||| x.strayOf id = t.patternOf id ||| y.strayOf id) :=
  have hy : y.width ≤ Planes.limit := h.width_eq ▸ hx
  h.get?_combined_eq_iff (contains_join_singleton ..) (contains_join_singleton ..)
    (patternOf_join ht hx p id) (patternOf_join ht hy p id)

end AgreeOnHolders

/-- **How far stray bits show.** Let two indexes of at most 64 planes differ in stray bits only.
Looking a number up does not tell them apart, and all else depends on the stray bits in question:

* A total is the sum of the numbers held in the set and of all stray bits in it. So the totals are
  the same when the sums of the stray bits are.
* After adding one, the identifiers of the set that held no number hold one more than their stray
  bits, and the numbers are the same when the stray bits in the set are.
* After adding the indexes to a third one, or joining them to it, the numbers are the same when the
  stray bits of its holders are, in a disjunction with the number held for a join.

None of this tells indexes apart that have no stray bits at all, which are those with enclosed
planes. -/
theorem stray_bits_count (h : x.AgreeOnHolders y) (hx : x.width ≤ 64) :
    (∀ id, x.get? id = y.get? id) ∧
    (∀ found, (x.total found).1 = (found.toList.map fun id => (x.get? id).getD 0).sum +
        (found.toList.map x.strayOf).sum.toInt64 ∧
      (x.total found = y.total found ↔
        (found.toList.map x.strayOf).sum = (found.toList.map y.strayOf).sum)) ∧
    (∀ found id,
      (id ∈ found → x.get? id = none →
        (x.increment found).get? id = some ((x.strayOf id).toInt64 + 1)) ∧
      ((x.increment found).get? id = (y.increment found).get? id ↔
        (id ∈ found → x.strayOf id = y.strayOf id))) ∧
    (∀ t : Index, t.width ≤ 64 → ∀ id,
      ((t.add x).get? id = (t.add y).get? id ↔
        (t.contains id = true → x.strayOf id = y.strayOf id)) ∧
      ∀ p, (t.join p [x]).get? id = (t.join p [y]).get? id ↔
        (t.contains id = true →
          t.patternOf id ||| x.strayOf id = t.patternOf id ||| y.strayOf id)) ∧
    (x.Enclosed ↔ ∀ id, x.strayOf id = 0) := by
  refine ⟨h.get?_eq, fun found => ⟨x.total_eq_add_strays found, h.total_eq_iff found⟩,
    fun found id => ⟨fun hcounted hmissing => ?_, h.get?_increment_eq_iff hx found id⟩,
    fun t ht id => ⟨h.get?_add_eq_iff hx ht id, fun p => h.get?_join_eq_iff hx ht p id⟩,
    enclosed_iff_strayOf_eq_zero hx⟩
  rw [get?_increment hx, if_pos hcounted, hmissing, Option.getD_none, Int64.zero_add]

/-! ### Where stray bits come from -/

/-- Any planes can be restored as nothing but stray bits. -/
theorem restore_without_holders {planes : Planes} (hfew : planes.length ≤ Planes.limit) :
    auto.restore ([] :: planes.map (·.encode)) = .ok { auto with planes } := by
  rw [auto.restore_of_held (.cons holds_nil (forall₂_holds_encode planes)) hfew,
    takeOver_of_le (Nat.zero_le _)]
  rfl

/-- Indexes without holders agree on them. -/
theorem agreeOnHolders_without_holders {planes planes' : Planes}
    (hwidths : planes.length = planes'.length) :
    ({ auto with planes } : Index).AgreeOnHolders { auto with planes := planes' } :=
  ⟨rfl, rfl, hwidths, rfl, fun _ hheld => absurd hheld Bool.false_ne_true⟩

/-- Two indexes without holders, of which the second one has a stray bit for the identifier `9`. -/
theorem stray_bits_count_nine :
    let x : Index := { auto with planes := [∅, ∅] }
    let y : Index := { auto with planes := [.ofIds (.ofList [9]), ∅] }
    let found : IdSet := .ofList [9]
    let t := auto.put 9 4
    x.AgreeOnHolders y ∧ x.width ≤ 64 ∧ t.width ≤ 64 ∧ (∀ id, x.get? id = y.get? id) ∧
      x.total found ≠ y.total found ∧
      (x.increment (.ofIds found)).get? 9 ≠ (y.increment (.ofIds found)).get? 9 ∧
      (t.add x).get? 9 ≠ (t.add y).get? 9 ∧
      (t.join ⟨1, 1⟩ [x]).get? 9 ≠ (t.join ⟨1, 1⟩ [y]).get? 9 := by
  intro x y found t
  have hagree : x.AgreeOnHolders y := agreeOnHolders_without_holders rfl
  have hnarrow : x.width ≤ 64 := by decide
  have hnarrow' : t.width ≤ 64 := by decide
  obtain ⟨hsame, htotal, hincrement, hcombined, -⟩ := stray_bits_count hagree hnarrow
  refine ⟨hagree, hnarrow, hnarrow', hsame, ?_, ?_, ?_, ?_⟩
  · rw [Ne, (htotal found).2]
    decide +kernel
  · rw [Ne, (hincrement (.ofIds found) 9).2]
    decide +kernel
  · rw [Ne, (hcombined t hnarrow' 9).1]
    decide +kernel
  · rw [Ne, (hcombined t hnarrow' 9).2]
    decide +kernel

/-- A single stray bit, restored from buffers, shows in the total of a set whose only member holds
no number, in the number that this member is counted up to, and in numbers that are added or
joined. -/
theorem stray_bit_shows :
    let x : Index := { auto with planes := [∅, ∅] }
    let y : Index := { auto with planes := [.ofIds (.ofList [9]), ∅] }
    let found : IdSet := .ofList [9]
    let t := auto.put 9 4
    auto.restore ([] :: x.planes.map (·.encode)) = .ok x ∧
      auto.restore ([] :: y.planes.map (·.encode)) = .ok y ∧ x.AgreeOnHolders y ∧
      y.get? 9 = none ∧ x.total found = (0, 1) ∧ y.total found = (1, 1) ∧
      (x.increment (.ofIds found)).get? 9 = some 1 ∧
      (y.increment (.ofIds found)).get? 9 = some 2 ∧
      (t.add x).get? 9 = some 4 ∧ (t.add y).get? 9 = some 5 ∧
      (t.join ⟨1, 1⟩ [x]).get? 9 = some 4 ∧ (t.join ⟨1, 1⟩ [y]).get? 9 = some 5 := by
  intro x y found t
  refine ⟨restore_without_holders (by decide), restore_without_holders (by decide),
    agreeOnHolders_without_holders rfl, ?_⟩
  decide +kernel

end BitSliced.Index
