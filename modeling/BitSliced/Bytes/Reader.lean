import BitSliced.Bytes.Word

/-!
# Reading from the front of some bytes

A reader takes bytes from the front and leaves the rest, or stops at a fault.

## Main definitions

* `BitSliced.Reader` — readers with faults of a given type.
* `BitSliced.Reader.bytes`, `BitSliced.Reader.word` — a number of bytes, a little-endian word.
* `BitSliced.Reader.many` — a counted repetition.
-/

namespace BitSliced

/-- Reads a value from the front of some bytes, or stops at a fault. -/
abbrev Reader (ε : Type) (α : Type) := StateT (List UInt8) (Except ε) α

namespace Reader

variable {ε α : Type}

/-- The next `n` bytes; the fault `short` when there are fewer. -/
def bytes (short : ε) (n : Nat) : Reader ε (List UInt8) := fun input =>
  let front := input.take n
  if front.length = n then .ok (front, input.drop n) else .error short

/-- A little-endian word of `width` bytes. -/
def word (short : ε) (width : Nat) : Reader ε Nat := do
  return Word.value (← bytes short width)

/-- The same reader `n` times. -/
def many (item : Reader ε α) : Nat → Reader ε (List α)
  | 0 => pure []
  | n + 1 => do
    let first ← item
    let rest ← many item n
    return first :: rest

end Reader

end BitSliced
