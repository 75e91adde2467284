import BitSliced.Failure

/-!
# Sources and sinks of bytes

A source gives out its bytes in order. It may have a fault: the first attempt to take a byte at or
behind the place of the fault fails, while the bytes in front of it are still given out. An attempt
to find out that the bytes have ended counts as well. Taking no bytes attempts nothing, and a fault
that merely interrupts is tried again, so that it shows in no answer.

A sink takes bytes in, possibly up to a limit. Of bytes that it has no room for, it takes those that
fit.

## Main definitions

* `BitSliced.Source`, with `BitSliced.Source.take` and `BitSliced.Source.takeExactly`.
* `BitSliced.Sink`, with `BitSliced.Sink.put`.
-/

namespace BitSliced

/-- A source of bytes. -/
structure Source where
  /-- The bytes that were not taken yet. -/
  rest : List UInt8
  /-- How many bytes were taken. -/
  position : Nat
  /-- Where the source fails, and how. -/
  fault : Option (Nat × Failure)
  deriving DecidableEq, Repr

namespace Source

/-- A source that never fails. -/
def ofBytes (bytes : List UInt8) : Source := ⟨bytes, 0, none⟩

/-- A source that fails once a byte at or behind a position is attempted. -/
def failingAt (bytes : List UInt8) (position : Nat) (failure : Failure) : Source :=
  ⟨bytes, 0, some (position, failure)⟩

/-- The failure met when `n` bytes are taken, if any. The place of the fault has to lie in front of
the last of these bytes, and not behind the end of the source. -/
def failure? (s : Source) (n : Nat) : Option Failure :=
  match s.fault with
  | some (place, failure) =>
    let ahead := place - s.position
    if failure.kind ≠ .interrupted ∧ ahead < n ∧ (s.rest.take ahead).length = ahead then
      some failure
    else none
  | none => none

/-- The next `n` bytes, or all that are left. -/
def take (s : Source) (n : Nat) : Except Failure (List UInt8 × Source) :=
  match s.failure? n with
  | some failure => .error failure
  | none =>
    let front := s.rest.take n
    .ok (front, { s with rest := s.rest.drop n, position := s.position + front.length })

/-- The next `n` bytes; a failure when fewer are left. -/
def takeExactly (s : Source) (n : Nat) : Except Failure (List UInt8 × Source) := do
  let (front, s) ← s.take n
  if front.length = n then return (front, s) else throw .endOfData

end Source

/-- A sink of bytes. -/
structure Sink where
  /-- The bytes taken in. -/
  bytes : List UInt8
  /-- How many more bytes the sink takes in; any number when there is no limit. -/
  room : Option Nat
  deriving DecidableEq, Repr

namespace Sink

/-- A sink without a limit. -/
def unlimited : Sink := ⟨[], none⟩

/-- A sink that takes in a number of bytes. -/
def limited (room : Nat) : Sink := ⟨[], some room⟩

/-- Puts bytes into a sink, as many as it has room for. It is a failure when these are not all. -/
def put (more : List UInt8) : EStateM Failure Sink Unit := fun s =>
  match s.room with
  | none => .ok () { s with bytes := s.bytes ++ more }
  | some room =>
    let s := { bytes := s.bytes ++ more.take room, room := some (room - more.length) }
    if more.length ≤ room then .ok () s else .error .sinkFull s

end Sink

end BitSliced
