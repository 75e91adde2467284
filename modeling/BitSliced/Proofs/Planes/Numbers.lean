import BitSliced.Index.Addition
import Mathlib.Algebra.Ring.Nat

/-!
# The numbers that planes keep

What every operation on planes does to the number of each identifier. None of this depends on the
layouts of the bitmaps.

## Main results

* `BitSliced.bitLength_le_iff` — how many bits a number has.
* `BitSliced.Planes.number_lt`, `BitSliced.Planes.testBit_number` — numbers have as many bits as
  there are planes, and each plane has one.
* `BitSliced.Planes.number_write_self`, `BitSliced.Planes.number_write_of_ne` — writing a number.
* `BitSliced.Planes.number_union` — the union has the bitwise disjunction of the numbers.
* `BitSliced.Planes.number_addDigit`, `BitSliced.Planes.number_addDigits`,
  `BitSliced.Planes.number_addOne_self` — sums, within the room there is.
* `BitSliced.Index.toNat_patternOf` — within 64 planes a pattern is the number that planes keep.
-/

namespace BitSliced

/-- A number has at most `k` bits exactly when it is below `2 ^ k`. -/
theorem bitLength_le_iff {n k : Nat} : bitLength n ≤ k ↔ n < 2 ^ k := by
  unfold bitLength
  split
  · next h => exact iff_of_true (Nat.zero_le k) (h ▸ Nat.two_pow_pos k)
  · next h => rw [Nat.succ_le_iff, Nat.log2_lt h]

namespace Planes

/-! ### Numbers -/

@[simp]
theorem number_nil (id : UInt64) : number [] id = 0 := rfl

@[simp]
theorem number_cons (p : Bitmap) (ps : Planes) (id : UInt64) :
    number (p :: ps) id = (p.contains id).toNat + 2 * number ps id := rfl

/-- Numbers have as many bits as there are planes. -/
theorem number_lt (ps : Planes) (id : UInt64) : number ps id < 2 ^ ps.length := by
  induction ps with
  | nil => simp
  | cons p ps ih =>
    have := Bool.toNat_le (p.contains id)
    rw [number_cons, List.length_cons, Nat.pow_succ]
    omega

/-- Bit `i` of a number is read off plane `i`. -/
theorem testBit_number (ps : Planes) (id : UInt64) (i : Nat) :
    (number ps id).testBit i = (ps[i]?.any (·.contains id)) := by
  induction ps generalizing i with
  | nil => simp
  | cons p ps ih =>
    cases i with
    | zero =>
      have h : number (p :: ps) id % 2 = (p.contains id).toNat := by
        have := Bool.toNat_le (p.contains id)
        rw [number_cons]
        omega
      rw [Nat.testBit_zero, h]
      cases hp : p.contains id <;> simp [hp]
    | succ i =>
      have h : number (p :: ps) id / 2 = number ps id := by
        have := Bool.toNat_le (p.contains id)
        rw [number_cons]
        omega
      rw [Nat.testBit_succ, h, ih, List.getElem?_cons_succ]

/-- An identifier has the number zero when it is in no plane. -/
theorem number_eq_zero_iff {ps : Planes} {id : UInt64} :
    number ps id = 0 ↔ ∀ p ∈ ps, p.contains id = false := by
  induction ps with
  | nil => simp
  | cons p ps ih =>
    rw [number_cons, List.forall_mem_cons, ← ih]
    cases p.contains id
    · simp only [Bool.toNat_false, true_and]
      omega
    · simp

@[simp]
theorem number_blank (width : Nat) (id : UInt64) : number (blank width) id = 0 := by
  induction width with
  | zero => rfl
  | succ width ih =>
    rw [blank, List.replicate_succ, number_cons, ← blank, ih]
    rfl

/-- Planes on top count from the width of those below. -/
theorem number_append (ps qs : Planes) (id : UInt64) :
    number (ps ++ qs) id = number ps id + 2 ^ ps.length * number qs id := by
  induction ps with
  | nil => simp
  | cons p ps ih =>
    rw [List.cons_append, number_cons, ih, number_cons, List.length_cons, Nat.pow_succ']
    rw [Nat.mul_add, Nat.add_assoc, Nat.mul_assoc]

/-! ### Growing and writing -/

/-- Growing keeps every number. -/
@[simp]
theorem number_grow (ps : Planes) (width : Nat) (id : UInt64) :
    number (grow ps width) id = number ps id := by
  simp [grow, number_append]

/-- A number that was written is read back, but for the bits above the planes. -/
theorem number_write_self (ps : Planes) (id : UInt64) (n : Nat) :
    number (write ps id n) id = n % 2 ^ ps.length := by
  induction ps generalizing n with
  | nil => simp [write, Nat.mod_one]
  | cons p ps ih =>
    rw [write, number_cons, ih, List.length_cons, Nat.pow_succ', Nat.mod_mul]
    split
    · next h => simp [h]
    · next h => simp; omega

/-- Writing a number for an identifier keeps the numbers of all others. -/
theorem number_write_of_ne (ps : Planes) {id other : UInt64} (h : other ≠ id) (n : Nat) :
    number (write ps id n) other = number ps other := by
  induction ps generalizing n with
  | nil => rfl
  | cons p ps ih =>
    rw [write, number_cons, ih, number_cons]
    split
    · rw [Bitmap.contains_insert_of_ne p h]
    · rw [Bitmap.contains_erase_of_ne p h]

/-! ### Unions, and planes restricted to a bitmap -/

private theorem any_getElem?_union {ps qs : Planes} (h : qs.length ≤ ps.length) (id : UInt64)
    (i : Nat) : ((union ps qs)[i]?.any (·.contains id)) =
      (ps[i]?.any (·.contains id) || qs[i]?.any (·.contains id)) := by
  induction ps generalizing qs i with
  | nil => simp [List.length_eq_zero_iff.1 (Nat.le_zero.1 h), union]
  | cons p ps ih =>
    cases qs with
    | nil => simp [union]
    | cons q qs =>
      cases i with
      | zero => exact Bitmap.contains_union p q id
      | succ i => simpa [union] using ih (Nat.le_of_succ_le_succ h) i

/-- The union has the bitwise disjunction of the numbers. -/
theorem number_union {ps qs : Planes} (h : qs.length ≤ ps.length) (id : UInt64) :
    number (union ps qs) id = number ps id ||| number qs id := by
  apply Nat.eq_of_testBit_eq
  intro i
  rw [Nat.testBit_or, testBit_number, testBit_number, testBit_number, any_getElem?_union h]

/-- Taking a set out of every plane clears the numbers of its members. -/
theorem number_map_diff (ps : Planes) (s : Bitmap) (id : UInt64) :
    number (ps.map (·.diff s)) id = if s.contains id then 0 else number ps id := by
  induction ps with
  | nil => simp
  | cons p ps ih =>
    rw [List.map_cons, number_cons, ih, number_cons, Bitmap.contains_diff]
    cases s.contains id <;> simp

/-- Keeping a set in every plane clears the numbers of all other identifiers. -/
theorem number_map_inter (ps : Planes) (s : Bitmap) (id : UInt64) :
    number (ps.map (·.inter s)) id = if s.contains id then number ps id else 0 := by
  induction ps with
  | nil => simp
  | cons p ps ih =>
    rw [List.map_cons, number_cons, ih, number_cons, Bitmap.contains_inter]
    cases s.contains id <;> simp

/-! ### Adding a digit -/

/-- A half adder: the bit that stays and the bit that carries over. -/
theorem half_add (a b : Bool) :
    a.toNat + b.toNat = (a ^^ b).toNat + 2 * (a && b).toNat := by
  cases a <;> cases b <;> rfl

theorem toNat_add_mod (a : Bool) (m n : Nat) :
    (a.toNat + 2 * n) % (2 * m) = a.toNat + 2 * (n % m) := by
  have := Bool.toNat_le a
  rw [Nat.mod_mul, show (a.toNat + 2 * n) % 2 = a.toNat by omega,
    show (a.toNat + 2 * n) / 2 = n by omega]

/-- Adding a digit adds its bit to every number, within the room there is. -/
theorem number_addDigit {room : Nat} (digit : Bitmap) {ps : Planes} (h : ps.length ≤ room)
    (id : UInt64) :
    number (addDigit room digit ps) id =
      (number ps id + (digit.contains id).toNat) % 2 ^ room := by
  have hfits {ps : Planes} {room : Nat} (h : ps.length ≤ room) : number ps id < 2 ^ room :=
    Nat.lt_of_lt_of_le (number_lt ps id) (Nat.pow_le_pow_right (by omega) h)
  induction room generalizing digit ps with
  | zero =>
    rw [List.length_eq_zero_iff.1 (Nat.le_zero.1 h)]
    simp [addDigit, Nat.mod_one]
  | succ room ih =>
    cases ps with
    | nil =>
      have halone := toNat_add_mod (digit.contains id) (2 ^ room) 0
      rw [addDigit]
      split
      · next hempty => simp [Bitmap.contains_of_isEmpty hempty]
      · simpa [Nat.pow_succ', eq_comm] using halone
    | cons p ps =>
      rw [addDigit]
      split
      · next hempty =>
        rw [Bitmap.contains_of_isEmpty hempty, Bool.toNat_false, Nat.add_zero,
          Nat.mod_eq_of_lt (hfits h)]
      · have hhalf := half_add (p.contains id) (digit.contains id)
        rw [number_cons, ih _ (Nat.le_of_succ_le_succ h), Bitmap.contains_symmDiff,
          Bitmap.contains_inter, number_cons, Nat.pow_succ']
        rw [show (p.contains id).toNat + 2 * number ps id + (digit.contains id).toNat =
          (p.contains id ^^ digit.contains id).toNat +
            2 * (number ps id + (p.contains id && digit.contains id).toNat) by omega]
        rw [toNat_add_mod]

/-! ### Adding digits -/

/-- Adding the digits of further planes adds their numbers, within the room there is. -/
theorem number_addDigits {room : Nat} {ps qs : Planes} (hp : ps.length ≤ room)
    (hq : qs.length ≤ ps.length) (id : UInt64) :
    number (addDigits room qs ps) id =
      (number ps id + number qs id) % 2 ^ room := by
  induction qs generalizing room ps with
  | nil =>
    have := Nat.lt_of_lt_of_le (number_lt ps id) (Nat.pow_le_pow_right (by omega) hp)
    simp [addDigits, Nat.mod_eq_of_lt this]
  | cons q qs ih =>
    cases room with
    | zero => simp at hq; omega
    | succ room =>
      have hlower := length_le_length_addDigit (room + 1) q ps
      have hupper := length_addDigit_le q hp
      have hsum := number_addDigit q hp id
      rw [addDigits]
      cases hd : addDigit (room + 1) q ps with
      | nil =>
        rw [hd, List.length_nil] at hlower
        rw [List.length_cons] at hq
        omega
      | cons r rs =>
        rw [hd] at hlower hupper hsum
        simp only [List.length_cons] at hq hlower hupper
        rw [number_cons] at hsum
        rw [number_cons, ih (by omega) (by omega), number_cons, Nat.pow_succ', ← toNat_add_mod,
          Nat.mul_add, ← Nat.add_assoc, hsum, Nat.pow_succ', Nat.mod_add_mod]
        congr 1
        rw [Nat.add_assoc]

/-! ### Adding one -/

/-- Adding one for an identifier adds one to its number, within the room there is. -/
theorem number_addOne_self {room : Nat} (id : UInt64) {ps : Planes} (h : ps.length ≤ room) :
    number (addOne room id ps) id = (number ps id + 1) % 2 ^ room := by
  induction room generalizing ps with
  | zero =>
    rw [List.length_eq_zero_iff.1 (Nat.le_zero.1 h)]
    simp [addOne]
  | succ room ih =>
    cases ps with
    | nil =>
      have := toNat_add_mod true (2 ^ room) 0
      simpa [addOne, Nat.pow_succ', eq_comm] using this
    | cons p ps =>
      rw [addOne]
      split
      · next hp =>
        have := toNat_add_mod false (2 ^ room) (number ps id + 1)
        rw [number_cons, ih (Nat.le_of_succ_le_succ h), number_cons, hp, Nat.pow_succ']
        simp only [Bitmap.contains_erase_self, Bool.toNat_false, Nat.zero_add] at this ⊢
        rw [← this, Bool.toNat_true]
        congr 1
        omega
      · next hp =>
        have hbound := Nat.lt_of_lt_of_le (number_lt ps id)
          (Nat.pow_le_pow_right (by omega) (Nat.le_of_succ_le_succ h))
        rw [Bool.not_eq_true] at hp
        rw [number_cons, number_cons, hp, Bitmap.contains_insert_self, Nat.pow_succ',
          Nat.mod_eq_of_lt (by simp; omega)]
        simp
        omega

/-- Adding one for an identifier keeps the numbers of all others. -/
theorem number_addOne_of_ne (room : Nat) {id other : UInt64} (h : other ≠ id) (ps : Planes) :
    number (addOne room id ps) other = number ps other := by
  induction room generalizing ps with
  | zero => rfl
  | succ room ih =>
    cases ps with
    | nil =>
      simp [addOne, Bitmap.contains_insert_of_ne _ h]
    | cons p ps =>
      rw [addOne]
      split
      · rw [number_cons, ih, number_cons, Bitmap.contains_erase_of_ne p h]
      · rw [number_cons, number_cons, Bitmap.contains_insert_of_ne p h]

end Planes

/-- Within 64 planes a pattern is the number that the planes keep. -/
theorem Index.toNat_patternOf {b : Index} (h : b.width ≤ Planes.limit) (id : UInt64) :
    (b.patternOf id).toNat = b.planes.number id := by
  have hbound : b.planes.number id < 2 ^ 64 :=
    Nat.lt_of_lt_of_le (b.planes.number_lt id) (Nat.pow_le_pow_right (by omega) h)
  rw [patternOf, UInt64.toNat_ofNat', Nat.mod_eq_of_lt hbound]

end BitSliced
