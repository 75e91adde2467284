import BitSliced.Bitmap.Basic

/-!
# Planes

A list of bitmaps keeps one number for every identifier, bit by bit: the least significant bit is
in the first plane, and an identifier has a bit set when it is a member of the plane. Identifiers
in no plane have the number zero.

## Main definitions

* `BitSliced.Planes` — lists of planes, from the least significant bit on.
* `BitSliced.Planes.number` — the number that an identifier has.
* `BitSliced.Planes.write`, `BitSliced.Planes.grow`, `BitSliced.Planes.union` — write the number
  of an identifier, append empty planes, and take the union plane by plane.
-/

namespace BitSliced

/-- The number of bits of a natural number without leading zeros. -/
def bitLength (n : Nat) : Nat := if n = 0 then 0 else n.log2 + 1

/-- Planes from the least significant bit on. -/
abbrev Planes := List Bitmap

namespace Planes

/-- The most planes that an index has. -/
def limit : Nat := 64

/-- Empty planes. -/
def blank (width : Nat) : Planes := List.replicate width ∅

/-- The number of an identifier: bit `i` says whether it is in plane `i`. -/
def number : Planes → UInt64 → Nat
  | [], _ => 0
  | p :: ps, id => (p.contains id).toNat + 2 * number ps id

/-- Puts an identifier into the planes of the bits of a number, and takes it out of the others. Bits
above the planes are lost. -/
def write : Planes → UInt64 → Nat → Planes
  | [], _, _ => []
  | p :: ps, id, n => (if n % 2 = 1 then p.insert id else p.erase id) :: write ps id (n / 2)

/-- Appends empty planes up to a width, but not above the limit. -/
def grow (planes : Planes) (width : Nat) : Planes :=
  planes ++ blank (min width limit - planes.length)

/-- Adds the members of further planes, as far as there are planes for them. -/
def union : Planes → Planes → Planes
  | p :: ps, q :: qs => p.union q :: union ps qs
  | ps, _ => ps

/-! ### Widths -/

@[simp]
theorem length_blank (width : Nat) : (blank width).length = width := List.length_replicate

@[simp]
theorem length_grow (ps : Planes) (width : Nat) :
    (grow ps width).length = max ps.length (min width limit) := by
  simp only [grow, List.length_append, length_blank]
  omega

/-- Planes that are wide enough do not grow. -/
theorem grow_of_le {ps : Planes} {width : Nat} (h : width ≤ ps.length) : ps.grow width = ps := by
  rw [grow, Nat.sub_eq_zero_of_le (Nat.le_trans (Nat.min_le_left width limit) h)]
  exact List.append_nil ps

@[simp]
theorem length_write (ps : Planes) (id : UInt64) (n : Nat) :
    (write ps id n).length = ps.length := by
  induction ps generalizing n with
  | nil => rfl
  | cons p ps ih => simp [write, ih]

@[simp]
theorem length_union (ps qs : Planes) : (union ps qs).length = ps.length := by
  induction ps generalizing qs with
  | nil => simp [union]
  | cons p ps ih => cases qs <;> simp [union, ih]

end Planes

end BitSliced
