import BitSliced.Index.Addition

/-!
# Carries that ripple from position to position

A carry moves up through the planes one position at a time. A half adder adds a set of bits to the
plane at a position, which is appended if it is not there, and what carries over goes on to the next
position, as long as anything carries over and there is room for it. For a single identifier there
is no need for sets: at one position after the other its bit is cleared, until a clear one is found
and set, and planes are appended on the way.

Planes are looked up by their position here, and a position without a plane gives no result. Neither
way of adding ever comes to that, and both leave the planes that addition leaves when it takes the
planes one by one. The planes below a position play no part in what happens from there on, which is
what the inductions run on.

## Main definitions

* `BitSliced.Planes.addBits?` — the half adder at a position.
* `BitSliced.Planes.ripple?`, `BitSliced.Planes.addDigitAt?` — adds a digit from a position on.
* `BitSliced.Planes.addOneAlong?` — adds one for a single identifier along some positions.
* `BitSliced.Index.incrementInTurn?`, `BitSliced.Index.incrementIdInTurn?`.

## Main results

* `BitSliced.Index.incrementInTurn?_eq_some`, `BitSliced.Index.incrementIdInTurn?_eq_some` — going
  from position to position is adding.
-/

namespace BitSliced

namespace Planes

/-- Adds bits to the plane at a position, which is appended if it is not there. Gives the bits that
carry over. Bits at the limit are lost. -/
def addBits? (planes : Planes) (bits : Bitmap) (position : Nat) : Option (Bitmap × Planes) :=
  if bits.isEmpty ∨ limit ≤ position then some (∅, planes)
  else do
    let planes := planes.grow (position + 1)
    let plane ← planes[position]?
    return (plane.inter bits, planes.set position (plane.symmDiff bits))

/-- Adds a carry at a position, and at those above what carries over. -/
def ripple? (planes : Planes) (carry : Bitmap) (position : Nat) : Option Planes :=
  if carry.isEmpty ∨ limit ≤ position then some planes
  else do
    let (carry, planes) ← planes.addBits? carry position
    planes.ripple? carry (position + 1)
termination_by limit - position

/-- Adds a digit at a position. -/
def addDigitAt? (planes : Planes) (digit : Bitmap) (position : Nat) : Option Planes := do
  let (carry, planes) ← planes.addBits? digit position
  planes.ripple? carry (position + 1)

/-- Adds one for an identifier along some positions: its bits are cleared up to the first clear one,
which is set. -/
def addOneAlong? (id : UInt64) : List Nat → Planes → Option Planes
  | [], planes => some planes
  | position :: positions, planes => do
    let planes := planes.grow (position + 1)
    let plane ← planes[position]?
    if plane.contains id then addOneAlong? id positions (planes.set position (plane.erase id))
    else return planes.set position (plane.insert id)

/-! ### The planes from a position on -/

theorem addDigit_succ (room : Nat) {digit : Bitmap} (hpos : ¬digit.isEmpty = true) (back : Planes) :
    addDigit (room + 1) digit back = (back.headD ∅).symmDiff digit ::
      addDigit room ((back.headD ∅).inter digit) back.tail := by
  cases back with
  | nil =>
    have hcarry := Bitmap.isEmpty_empty_inter digit
    show _ = (∅ : Bitmap).symmDiff digit :: addDigit room ((∅ : Bitmap).inter digit) []
    rw [addDigit, if_neg hpos, Bitmap.empty_symmDiff, addDigit_of_isEmpty room hcarry]
  | cons p ps =>
    rw [addDigit, if_neg hpos]
    rfl

theorem addOne_succ (room : Nat) (id : UInt64) (back : Planes) :
    addOne (room + 1) id back = if (back.headD ∅).contains id
      then (back.headD ∅).erase id :: addOne room id back.tail
      else (back.headD ∅).insert id :: back.tail := by
  cases back <;> rfl

variable {front : Planes} {position room : Nat}

/-- Growing by one position appends an empty plane, unless there is a plane already. -/
theorem grow_append_succ (hbelow : front.length = position) (h : position < limit)
    (back : Planes) :
    (front ++ back).grow (position + 1) = front ++ back.headD ∅ :: back.tail := by
  cases back with
  | nil =>
    have hmissing : min (position + 1) limit - (front ++ []).length = 1 := by
      rw [List.append_nil]
      omega
    rw [grow, hmissing, List.append_nil]
    rfl
  | cons p ps =>
    refine grow_of_le ?_
    rw [List.length_append, List.length_cons]
    omega

/-- The half adder leaves the planes below its position alone, and those above it. -/
theorem addBits?_append (hbelow : front.length = position) (h : position < limit) {bits : Bitmap}
    (hpos : ¬bits.isEmpty = true) (back : Planes) : (front ++ back).addBits? bits position =
      some ((back.headD ∅).inter bits, front ++ (back.headD ∅).symmDiff bits :: back.tail) := by
  rw [addBits?, if_neg (not_or.2 ⟨hpos, Nat.not_le.2 h⟩), grow_append_succ hbelow h]
  simp [← hbelow]

/-! ### Going from position to position -/

/-- From a position on, a carry that ripples is a digit added to the planes there. -/
theorem ripple?_append (hbelow : front.length = position) (hall : position + room = limit)
    (carry : Bitmap) (back : Planes) :
    (front ++ back).ripple? carry position = some (front ++ addDigit room carry back) := by
  -- The planes from the position on lose one plane with every round, and the room one position.
  induction room generalizing front position carry back with
  | zero =>
    rw [ripple?, if_pos (.inr (Nat.le_of_eq hall.symm))]
    rfl
  | succ room ih =>
    rw [ripple?]
    split
    · next hstop =>
      have hnone : carry.isEmpty = true := hstop.resolve_right (by omega)
      rw [addDigit_of_isEmpty _ hnone]
    · next hgo =>
      obtain ⟨hpos, -⟩ := not_or.1 hgo
      rw [addBits?_append hbelow (by omega) hpos, addDigit_succ room hpos]
      have hlonger : (front ++ [(back.headD ∅).symmDiff carry]).length = position + 1 := by
        simp [hbelow]
      have hrest := ih hlonger (by omega) ((back.headD ∅).inter carry) back.tail
      rwa [← List.append_cons, ← List.append_cons] at hrest

/-- Adding a digit at a position adds it to the planes from there on. -/
theorem addDigitAt?_append (hbelow : front.length = position) (hall : position + room = limit)
    (hroom : 0 < room) (digit : Bitmap) (back : Planes) :
    (front ++ back).addDigitAt? digit position = some (front ++ addDigit room digit back) := by
  have hfirst := ripple?_append hbelow hall digit back
  rw [ripple?] at hfirst
  rw [addDigitAt?, ← hfirst]
  split
  · next hstop =>
    have hnone : digit.isEmpty = true := hstop.resolve_right (by omega)
    rw [addBits?, if_pos (.inl hnone), Option.bind_eq_bind, Option.bind_some]
    show ripple? _ ∅ (position + 1) = _
    rw [ripple?, if_pos (.inl Std.ExtTreeSet.isEmpty_empty)]
  · rfl

/-- Going along the positions up to the limit adds one to the planes from the first position on. -/
theorem addOneAlong?_append (hbelow : front.length = position) (hall : position + room = limit)
    (id : UInt64) (back : Planes) :
    addOneAlong? id (List.range' position room) (front ++ back) =
      some (front ++ addOne room id back) := by
  induction room generalizing front position back with
  | zero => rfl
  | succ room ih =>
    have hplane : (front ++ back.headD ∅ :: back.tail)[position]? = some (back.headD ∅) := by
      simp [← hbelow]
    have hchange (p : Bitmap) : (front ++ back.headD ∅ :: back.tail).set position p =
        front ++ p :: back.tail := by
      simp [← hbelow]
    rw [List.range'_succ, addOneAlong?, grow_append_succ hbelow (by omega), hplane,
      Option.bind_eq_bind, Option.bind_some, hchange, hchange, addOne_succ]
    split
    · have hlonger : (front ++ [(back.headD ∅).erase id]).length = position + 1 := by
        simp [hbelow]
      have hrest := ih hlonger (by omega) back.tail
      rwa [← List.append_cons, ← List.append_cons] at hrest
    · rfl

end Planes

namespace Index

/-- Adds one for every identifier of a set, from position to position. -/
def incrementInTurn? (b : Index) (found : Bitmap) : Option Index := do
  let planes ← b.planes.addDigitAt? found 0
  return { b with planes, existence := b.existence.union found }

/-- Adds one for a single identifier, from position to position. -/
def incrementIdInTurn? (b : Index) (id : UInt64) : Option Index := do
  let planes ← Planes.addOneAlong? id (List.range Planes.limit) b.planes
  return { b with planes, existence := b.existence.insert id }

/-- Going from position to position is adding one for the identifiers of a set. -/
theorem incrementInTurn?_eq_some (b : Index) (found : Bitmap) :
    b.incrementInTurn? found = some (b.increment found) := by
  have hnil : ([] : Planes).length = 0 := rfl
  have hplanes :=
    Planes.addDigitAt?_append hnil (Nat.zero_add Planes.limit) (by decide) found b.planes
  rw [List.nil_append, List.nil_append] at hplanes
  rw [incrementInTurn?, hplanes]
  rfl

/-- Going from position to position is adding one for the identifier. -/
theorem incrementIdInTurn?_eq_some (b : Index) (id : UInt64) :
    b.incrementIdInTurn? id = some (b.incrementId id) := by
  have hnil : ([] : Planes).length = 0 := rfl
  have hplanes := Planes.addOneAlong?_append hnil (Nat.zero_add Planes.limit) id b.planes
  rw [List.nil_append, List.nil_append, ← List.range_eq_range'] at hplanes
  rw [incrementIdInTurn?, hplanes]
  rfl

end Index

end BitSliced
