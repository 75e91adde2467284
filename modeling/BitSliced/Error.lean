import BitSliced.Failure

/-!
# Errors

An operation of the library fails in one of three ways: an argument is not acceptable, stored bytes
are malformed, or a source or sink of bytes fails.

## Main definitions

* `BitSliced.Error` — the three ways, and `BitSliced.Error.message`, the text shown.
* `BitSliced.Error.ofDecoding` — sorts a failure met while decoding an element.
* `BitSliced.Error.checkArgument`, `BitSliced.Error.checkFormat` — a condition that has to hold.
-/

namespace BitSliced

/-- The ways in which an operation fails. -/
inductive Error where
  /-- The argument `name` is not acceptable. -/
  | invalidArgument (name message : String)
  /-- The stored form of `element` is malformed. -/
  | invalidFormat (element message : String)
  /-- Reading or writing failed in the given context. -/
  | io (context : String) (source : Failure)
  deriving DecidableEq, Repr

namespace Error

/-- The text of an error. The text of a failed read or write ends in a single quote. -/
def message : Error → String
  | invalidArgument name message => "invalid argument " ++ name ++ ": " ++ message
  | invalidFormat element message =>
    "invalid storage format for '" ++ element ++ "': " ++ message
  | io context source => "IO error for '" ++ context ++ "': " ++ source.text ++ "'"

/-- The failure behind an error; only failed reads and writes have one. -/
def source? : Error → Option Failure
  | io _ source => some source
  | _ => none

/-- A failure without a context. -/
def ofFailure (source : Failure) : Error := io "" source

/-- A failure met while decoding an element: malformed when the bytes are to blame, and a failed
read otherwise. -/
def ofDecoding (element : String) (source : Failure) : Error :=
  if source.kind.blamesData then invalidFormat element source.text else io element source

/-- An argument has to meet a condition, whose text becomes the message. -/
def checkArgument (holds : Bool) (name condition : String) : Except Error Unit :=
  if holds then .ok () else .error (invalidArgument name condition)

/-- A stored element has to meet a condition, whose text becomes the message. -/
def checkFormat (holds : Bool) (element condition : String) : Except Error Unit :=
  if holds then .ok () else .error (invalidFormat element condition)

/-! ### Success -/

/-- Two computations in a row succeed when both do. -/
theorem bind_eq_ok {α β : Type} {x : Except Error α} {f : α → Except Error β} {b : β} :
    x >>= f = .ok b ↔ ∃ a, x = .ok a ∧ f a = .ok b := by
  cases x with
  | error e => simp [bind, Except.bind]
  | ok a => simp [bind, Except.bind]

end Error

end BitSliced
