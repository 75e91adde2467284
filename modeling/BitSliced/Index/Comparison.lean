import BitSliced.Batch
import BitSliced.Index.Basic
import BitSliced.Operation

/-!
# Comparing numbers with operands

A number is compared with an operand as two strings of digits are: bit by bit from the most
significant one down, and no further than the first difference decides. The number itself is never
put together. Numbers compare as unsigned patterns, and planes that the index lacks read as zero.

## Main definitions

* `BitSliced.Comparison` — an operation with its operands.
* `BitSliced.Comparison.holdsFor` — whether the number of an identifier satisfies it.
* `BitSliced.Index.select` — the identifiers whose numbers satisfy a comparison.
* `BitSliced.Index.selectAny` — the identifiers whose numbers are among some values, by looking each
  number up.

## Main results

* `BitSliced.gather_eq_unions`, `BitSliced.mem_gather` — what is found in all batches together.
-/

namespace BitSliced

/-- A comparison with its operands. -/
structure Comparison where
  /-- The operation. -/
  operation : Operation
  /-- The pattern of the operand, or of the lower one of a range. -/
  start : Nat
  /-- The pattern of the upper operand of a range, and zero for any other operation. -/
  stop : Nat
  /-- The number of bits to look at: those of the index and of both operands. -/
  width : Nat
  deriving DecidableEq, Repr

/-- How the bits of a number that were looked at compare with those of both operands. -/
structure Standing where
  /-- The number against the lower operand. -/
  start : Ordering
  /-- The number against the upper operand. -/
  stop : Ordering
  deriving DecidableEq, Repr

/-- One position of a comparison: the plane there, and the bits of both operands. -/
structure Position where
  /-- The identifiers whose number has the bit. -/
  plane : IdSet
  /-- The bit of the lower operand. -/
  start : Bool
  /-- The bit of the upper operand. -/
  stop : Bool

/-- The positions of the low bits of two operands, from the least significant one on. Missing planes
are empty. -/
def positionsOf : Nat → Planes → Nat → Nat → List Position
  | 0, _, _, _ => []
  | width + 1, [], start, stop =>
    ⟨∅, start % 2 = 1, stop % 2 = 1⟩ :: positionsOf width [] (start / 2) (stop / 2)
  | width + 1, p :: ps, start, stop =>
    ⟨p.ids, start % 2 = 1, stop % 2 = 1⟩ :: positionsOf width ps (start / 2) (stop / 2)

namespace Comparison

/-- A comparison on an index of some width. Asking for an extremum is no comparison. -/
def of (operation : Operation) (start stop : Int64) (width : Nat) : Except Error Comparison :=
  if operation.isComparison then
    let start := pattern start
    let stop := if operation = .range then pattern stop else 0
    .ok ⟨operation, start, stop, max width (max (bitLength start) (bitLength stop))⟩
  else
    .error (.invalidArgument "op" ("'" ++ operation.symbol ++ "' is not a comparison"))

/-- The positions to look at, from the most significant one down. -/
def positions (c : Comparison) (planes : Planes) : List Position :=
  (positionsOf c.width planes c.start c.stop).reverse

/-- Whether the bits looked at decide. A range is decided below its lower operand, above its upper
one, and strictly between the two. -/
def settled (operation : Operation) (s : Standing) : Bool :=
  match operation with
  | .range => s.start = .lt || s.stop = .gt || (s.start = .gt && s.stop = .lt)
  | _ => s.start ≠ .eq

/-- Looks at positions until the outcome is settled. -/
def scan (operation : Operation) (id : UInt64) : List Position → Standing → Standing
  | [], s => s
  | p :: ps, s =>
    let bit := p.plane.contains id
    let s := ⟨s.start.then (compare bit p.start), s.stop.then (compare bit p.stop)⟩
    if settled operation s then s else scan operation id ps s

/-- Whether a standing satisfies an operation. -/
def accepts (operation : Operation) (s : Standing) : Bool :=
  match operation with
  | .lt => s.start = .lt
  | .le => s.start ≠ .gt
  | .eq => s.start = .eq
  | .ge => s.start ≠ .lt
  | .gt => s.start = .gt
  | .range => s.start ≠ .lt && s.stop ≠ .gt
  | .min | .max => false

/-- Whether the number of an identifier satisfies a comparison at the given positions. -/
def holdsFor (c : Comparison) (positions : List Position) (id : UInt64) : Bool :=
  accepts c.operation (scan c.operation id positions ⟨.eq, .eq⟩)

end Comparison

/-- Joins what is found in each batch of a set. -/
def gather (p : Parallelism) (found : IdSet) (find : List UInt64 → List UInt64) : IdSet :=
  (batches p found).foldl (fun result batch => result ∪ IdSet.ofList (find batch)) ∅

/-- What is found in all batches is the union of what is found in each. -/
theorem gather_eq_unions (p : Parallelism) (found : IdSet) (find : List UInt64 → List UInt64) :
    gather p found find =
      IdSet.unions ((batches p found).map fun batch => IdSet.ofList (find batch)) := by
  rw [gather, IdSet.unions, List.foldl_map]

/-- What is found is found in some batch. -/
theorem mem_gather {p : Parallelism} {found : IdSet} {find : List UInt64 → List UInt64}
    {id : UInt64} : id ∈ gather p found find ↔ ∃ batch ∈ batches p found, id ∈ find batch := by
  rw [gather_eq_unions, IdSet.mem_unions_map]
  simp only [IdSet.mem_ofList]

namespace Index

/-- The identifiers of a set that hold a number; all that hold one when there is no set. -/
def holdersIn (b : Index) : Option IdSet → IdSet
  | some found => found ∩ b.existence.ids
  | none => b.existence.ids

/-- The holders in a set hold a number and are in the set, if there is one. -/
theorem mem_holdersIn {b : Index} {found : Option IdSet} {id : UInt64} :
    id ∈ b.holdersIn found ↔ b.contains id = true ∧ ∀ s ∈ found, id ∈ s := by
  cases found with
  | none => simp [holdersIn, contains, Bitmap.contains]
  | some s => simp [holdersIn, contains, Bitmap.contains, Std.ExtTreeSet.mem_inter_iff, and_comm]

/-- The identifiers whose numbers satisfy a comparison. The upper operand is looked at for a range
only. -/
def select (b : Index) (p : Parallelism) (operation : Operation) (start stop : Int64)
    (found : Option IdSet) : Except Error IdSet := do
  let c ← Comparison.of operation start stop b.width
  let positions := c.positions b.planes
  return gather p (b.holdersIn found) fun batch => batch.filter (c.holdsFor positions)

/-- The identifiers whose numbers are among some values. -/
def selectAny (b : Index) (p : Parallelism) (values : List Int64) : IdSet :=
  let wanted := Std.ExtTreeSet.ofList values
  if wanted.isEmpty then ∅
  else gather p b.existence.ids fun batch =>
    batch.filter fun id => wanted.contains (b.patternOf id).toInt64

end Index

end BitSliced
