import BitSliced.Planes.Basic

/-!
# Addition plane by plane

Numbers are added for all identifiers at once. A bitmap stands for one binary digit of every
identifier; adding a digit at a plane flips the plane on its members, and the identifiers that were
in both carry over to the plane above. Planes are appended as carries need them, while there is room
for them; a carry out of the last one is lost, so that addition wraps.

## Main definitions

* `BitSliced.Planes.addDigit` — adds a digit at the first plane.
* `BitSliced.Planes.addDigits` — adds digits, each at its own plane.
* `BitSliced.Planes.addOne` — adds one for a single identifier.
-/

namespace BitSliced.Planes

/-- Adds a digit to planes of which `room` many are allowed, and ripples the carry up. -/
def addDigit : Nat → Bitmap → Planes → Planes
  | 0, _, planes => planes
  | _ + 1, digit, [] => if digit.isEmpty then [] else [digit]
  | room + 1, digit, p :: ps =>
    if digit.isEmpty then p :: ps
    else p.symmDiff digit :: addDigit room (p.inter digit) ps

/-- Adds digits, the least significant first, each at its own plane. There have to be as many
planes as digits. -/
def addDigits : Nat → Planes → Planes → Planes
  | _, [], planes => planes
  | 0, _, planes => planes
  | room + 1, digit :: digits, planes =>
    match addDigit (room + 1) digit planes with
    | [] => []
    | p :: ps => p :: addDigits room digits ps

/-- Adds one for an identifier: set bits are cleared up to the first clear one, which is set. -/
def addOne : Nat → UInt64 → Planes → Planes
  | 0, _, planes => planes
  | _ + 1, id, [] => [(∅ : Bitmap).insert id]
  | room + 1, id, p :: ps =>
    if p.contains id then p.erase id :: addOne room id ps else p.insert id :: ps

/-! ### Widths -/

/-- An empty digit leaves planes as they are. -/
theorem addDigit_of_isEmpty (room : Nat) {digit : Bitmap} (h : digit.isEmpty = true) (ps : Planes) :
    addDigit room digit ps = ps := by
  cases room <;> cases ps <;> simp [addDigit, h]

theorem length_le_length_addDigit (room : Nat) (digit : Bitmap) (ps : Planes) :
    ps.length ≤ (addDigit room digit ps).length := by
  induction room generalizing digit ps with
  | zero => exact Nat.le_refl _
  | succ room ih =>
    cases ps with
    | nil => simp
    | cons p ps =>
      rw [addDigit]
      split
      · exact Nat.le_refl _
      · simpa using ih (p.inter digit) ps

theorem length_addDigit_le {room : Nat} (digit : Bitmap) {ps : Planes} (h : ps.length ≤ room) :
    (addDigit room digit ps).length ≤ room := by
  induction room generalizing digit ps with
  | zero => exact h
  | succ room ih =>
    cases ps with
    | nil => rw [addDigit]; split <;> simp
    | cons p ps =>
      rw [addDigit]
      split
      · exact h
      · simpa using ih (p.inter digit) (Nat.le_of_succ_le_succ h)

end BitSliced.Planes
