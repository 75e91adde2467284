import BitSliced.Index.Comparison

/-!
# Extrema

The least or greatest number of a batch is found by narrowing candidates plane by plane, from the
most significant one down: whenever some candidates have the wanted bit, only they remain. The
extrema of the batches are then compared as unsigned patterns.

## Main definitions

* `BitSliced.Extremum` — least or greatest.
* `BitSliced.narrow` — the candidates that remain.
* `BitSliced.Index.extremum` — the extremum of the numbers of a set.
-/

namespace BitSliced

/-- Which extremum is wanted. -/
inductive Extremum where
  /-- The least number. -/
  | least
  /-- The greatest number. -/
  | greatest
  deriving DecidableEq, Repr

namespace Extremum

/-- The extremum that an operation asks for. A comparison asks for none. -/
def of : Operation → Except Error Extremum
  | .min => .ok least
  | .max => .ok greatest
  | operation =>
    .error (.invalidArgument "op" ("'" ++ operation.symbol ++ "' does not select an extremum"))

/-- The candidates with the wanted bit in a plane. -/
def keep : Extremum → IdSet → IdSet → IdSet
  | least, candidates, plane => candidates \ plane
  | greatest, candidates, plane => candidates ∩ plane

/-- The wanted one of two patterns. -/
def pick : Extremum → UInt64 → UInt64 → UInt64
  | least, a, b => min a b
  | greatest, a, b => max a b

end Extremum

/-- Narrows candidates by planes from the most significant one down. Planes that no candidate has
the wanted bit in are passed over, and a single candidate ends the search. -/
def narrow (wanted : Extremum) : Planes → IdSet → IdSet
  | [], candidates => candidates
  | p :: ps, candidates =>
    if candidates.size ≤ 1 then candidates
    else
      let kept := wanted.keep candidates p.ids
      narrow wanted ps (if kept.isEmpty then candidates else kept)

namespace Index

/-- The extremum of the patterns of a batch. -/
def batchExtremum (b : Index) (wanted : Extremum) (batch : List UInt64) : Option UInt64 :=
  (narrow wanted b.planes.reverse (.ofList batch)).toList.head?.map b.patternOf

/-- The extremum of the numbers of a set, read as unsigned patterns. There is none when no
identifier of the set holds a number. -/
def extremum (b : Index) (p : Parallelism) (operation : Operation) (found : IdSet) :
    Except Error (Option Int64) := do
  let wanted ← Extremum.of operation
  let extrema := (batches p (b.holdersIn (some found))).filterMap (b.batchExtremum wanted)
  return (match extrema with
    | [] => none
    | first :: rest => some (rest.foldl wanted.pick first).toInt64)

end Index

end BitSliced
