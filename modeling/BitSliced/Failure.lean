/-!
# Failures of a source or a sink of bytes

A failure has a kind and a text. Each kind has a standing description, which is its text when
nothing more is known.

## Main definitions

* `BitSliced.FailureKind` — the kinds, with `BitSliced.FailureKind.description`.
* `BitSliced.Failure` — a kind together with a text.
* `BitSliced.FailureKind.blamesData` — whether the bytes themselves are at fault.
-/

namespace BitSliced

/-- What went wrong when bytes were read or written. -/
inductive FailureKind where
  | notFound
  | permissionDenied
  | connectionReset
  | brokenPipe
  | alreadyExists
  | wouldBlock
  | invalidInput
  | invalidData
  | timedOut
  | writeZero
  | interrupted
  | unsupported
  | unexpectedEof
  | outOfMemory
  | other
  /-- Any further kind, known by its description. -/
  | named (description : String)
  deriving DecidableEq, Repr

namespace FailureKind

/-- The text of a failure of which only the kind is known. -/
def description : FailureKind → String
  | notFound => "entity not found"
  | permissionDenied => "permission denied"
  | connectionReset => "connection reset"
  | brokenPipe => "broken pipe"
  | alreadyExists => "entity already exists"
  | wouldBlock => "operation would block"
  | invalidInput => "invalid input parameter"
  | invalidData => "invalid data"
  | timedOut => "timed out"
  | writeZero => "write zero"
  | interrupted => "operation interrupted"
  | unsupported => "unsupported"
  | unexpectedEof => "unexpected end of file"
  | outOfMemory => "out of memory"
  | other => "other error"
  | named description => description

/-- Invalid data, invalid input and an early end blame the bytes; every other kind blames the
source they come from. -/
def blamesData : FailureKind → Bool
  | invalidData | invalidInput | unexpectedEof => true
  | _ => false

end FailureKind

/-- A failure to read or to write. -/
structure Failure where
  /-- What went wrong. -/
  kind : FailureKind
  /-- The text shown for it. -/
  text : String
  deriving DecidableEq, Repr

namespace Failure

/-- The failure of which only the kind is known. -/
def ofKind (kind : FailureKind) : Failure := ⟨kind, kind.description⟩

/-- The bytes end before everything asked for was read. -/
def endOfData : Failure := ⟨.unexpectedEof, "failed to fill whole buffer"⟩

/-- The sink has no room for everything that was to be written. -/
def sinkFull : Failure := ⟨.writeZero, "failed to write whole buffer"⟩

end Failure

end BitSliced
