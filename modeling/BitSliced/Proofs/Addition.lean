import BitSliced.Proofs.WellFormed

/-!
# Sums are exact modulo `2 ^ 64`

Adding an index adds plane by plane, for all identifiers at once, and every plane of the other index
ripples a carry of its own. What comes out is the sum of the numbers that the planes keep for each
identifier, as far as 64 planes can hold it, whether the identifier holds a number or not. Where the
planes of both indexes are enclosed, an identifier that holds no number has the number zero, so that
the sum of the planes is the sum of the numbers held.

## Main results

* `BitSliced.Index.number_add`, `BitSliced.Index.number_increment` — what the planes keep after
  adding an index, and after adding one.
* `BitSliced.Index.Enclosed.toInt64_patternOf` — the pattern of an identifier is the number it
  holds, and zero when it holds none.
* `BitSliced.Index.add_pointwise` — **adding adds pointwise**.
-/

namespace BitSliced.Index

variable {b other : Index}

/-! ### Patterns -/

theorem number_add (hb : b.width ≤ Planes.limit) (ho : other.width ≤ Planes.limit) (id : UInt64) :
    (b.add other).planes.number id =
      (b.planes.number id + other.planes.number id) % 2 ^ Planes.limit := by
  have hwide : other.planes.length ≤ (b.planes.grow other.width).length := by
    rw [Planes.length_grow, Nat.min_eq_left ho]
    exact Nat.le_max_right ..
  rw [add, Planes.number_addDigits (length_grow_le hb _) hwide, Planes.number_grow]

theorem width_add_le (hb : b.width ≤ Planes.limit) (other : Index) :
    (b.add other).width ≤ Planes.limit :=
  Planes.length_addDigits_le _ (length_grow_le hb _)

theorem number_increment (hb : b.width ≤ Planes.limit) (found : Bitmap) (id : UInt64) :
    (b.increment found).planes.number id =
      (b.planes.number id + (found.contains id).toNat) % 2 ^ Planes.limit :=
  Planes.number_addDigit found hb id

theorem width_increment_le (hb : b.width ≤ Planes.limit) (found : Bitmap) :
    (b.increment found).width ≤ Planes.limit :=
  Planes.length_addDigit_le found hb

/-- The pattern of a sum is the wrapping sum of the patterns. -/
theorem patternOf_add (hb : b.width ≤ Planes.limit) (ho : other.width ≤ Planes.limit)
    (id : UInt64) : (b.add other).patternOf id = b.patternOf id + other.patternOf id := by
  rw [← UInt64.toNat_inj, toNat_patternOf (width_add_le hb other), number_add hb ho,
    UInt64.toNat_add, toNat_patternOf hb, toNat_patternOf ho]
  rfl

theorem patternOf_increment (hb : b.width ≤ Planes.limit) (found : Bitmap) (id : UInt64) :
    (b.increment found).patternOf id =
      b.patternOf id + UInt64.ofNat (found.contains id).toNat := by
  rw [← UInt64.toNat_inj, toNat_patternOf (width_increment_le hb found), number_increment hb,
    UInt64.toNat_add, toNat_patternOf hb]
  cases found.contains id <;> rfl

/-! ### Numbers held -/

theorem contains_add (b other : Index) (id : UInt64) :
    (b.add other).contains id = (b.contains id || other.contains id) :=
  Bitmap.contains_union ..

theorem contains_increment (b : Index) (found : Bitmap) (id : UInt64) :
    (b.increment found).contains id = (b.contains id || found.contains id) :=
  Bitmap.contains_union ..

/-- Where planes are enclosed, the pattern of an identifier is that of the number it holds, and zero
when it holds none. -/
theorem Enclosed.toInt64_patternOf (h : b.Enclosed) (id : UInt64) :
    (b.patternOf id).toInt64 = (b.get? id).getD 0 := by
  rw [get?]
  split
  · rfl
  · next hmissing =>
    rw [patternOf, enclosed_iff.1 h id (Bool.eq_false_iff.2 hmissing)]
    rfl

/-- **Adding adds pointwise.** For two indexes of at most 64 planes, whatever their planes have for
identifiers that hold no number, the planes of the sum keep the sum of both numbers modulo `2 ^ 64`
for every identifier. An identifier holds a number in the sum when it held one in either index, and
the bounds and the settings stay.

So when the planes of both indexes are enclosed, the number held in the sum is the wrapping sum of
the numbers held in the two indexes, a missing number counting as zero, and there is none exactly
for the identifiers that held none in either. -/
theorem add_pointwise (hb : b.width ≤ 64) (ho : other.width ≤ 64) :
    let sum := b.add other
    sum.width ≤ 64 ∧
    (∀ id, sum.planes.number id = (b.planes.number id + other.planes.number id) % 2 ^ 64) ∧
    sum.existence.ids = b.existence.ids ∪ other.existence.ids ∧
    sum.maxValue = b.maxValue ∧ sum.minValue = b.minValue ∧ sum.settings = b.settings ∧
    (b.Enclosed → other.Enclosed → ∀ id, sum.get? id =
      if b.get? id = none ∧ other.get? id = none then none
      else some ((b.get? id).getD 0 + (other.get? id).getD 0)) := by
  refine ⟨width_add_le hb other, number_add hb ho, rfl, rfl, rfl, rfl, fun heb heo id => ?_⟩
  have hvalue : ((b.add other).patternOf id).toInt64 =
      (b.get? id).getD 0 + (other.get? id).getD 0 := by
    rw [patternOf_add hb ho, UInt64.toInt64_add, heb.toInt64_patternOf, heo.toInt64_patternOf]
  have hmissing : b.get? id = none ∧ other.get? id = none ↔ (b.add other).contains id = false := by
    rw [get?_eq_none_iff, get?_eq_none_iff, contains_add, Bool.or_eq_false_iff]
  split
  · next hneither => exact get?_eq_none_iff.2 (hmissing.1 hneither)
  · next heither =>
    have hheld : (b.add other).contains id = true :=
      Bool.of_not_eq_false fun h => heither (hmissing.2 h)
    rw [get?, if_pos hheld, hvalue]

/-- The identifier `1` holds `-1` in 64 planes, and the carry out of the last one is lost. -/
theorem add_pointwise_wraps :
    let b := (auto.put 1 (-1)).put 3 4
    let other := (auto.put 1 2).put 2 7
    b.width ≤ 64 ∧ other.width ≤ 64 ∧ b.Enclosed ∧ other.Enclosed ∧
      (b.add other).get? 1 = some 1 ∧ (b.add other).get? 2 = some 7 ∧
      (b.add other).get? 3 = some 4 ∧ (b.add other).get? 4 = none := by
  intro b other
  have hb : b.WellFormed := ((WellFormed.ofBounds 0 0).put 1 (-1)).put 3 4
  have ho : other.WellFormed := ((WellFormed.ofBounds 0 0).put 1 2).put 2 7
  obtain ⟨-, -, -, -, -, -, hsum⟩ := add_pointwise hb.width_le ho.width_le
  have hsum := hsum hb.enclosed ho.enclosed
  refine ⟨hb.width_le, ho.width_le, hb.enclosed, ho.enclosed, ?_, ?_, ?_, ?_⟩
  · rw [hsum]; decide +kernel
  · rw [hsum]; decide +kernel
  · rw [hsum]; decide +kernel
  · rw [hsum]; decide +kernel

end BitSliced.Index
