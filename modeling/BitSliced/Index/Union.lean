import BitSliced.Batch
import BitSliced.Index.Basic

/-!
# Joining and splitting indexes

Indexes are joined by union: every plane and the existence bitmap become the union of those of all
operands. Identifiers are expected in one operand only; one in several ends up with the bits of all
its numbers. An index is split by a set of identifiers into what is retained and what is left when
the set is cleared.

## Main definitions

* `BitSliced.Index.join` — joins indexes to an index.
* `BitSliced.Index.clear` — takes identifiers out of an index.
* `BitSliced.Index.retain` — the index of the given identifiers only.
-/

namespace BitSliced

namespace Index

/-- The width of the widest of some indexes. -/
def widest (b : Index) (others : List Index) : Nat :=
  (others.map width).foldl max b.width

/-- Joins indexes to an index, which first grows to the widest of them. The planes may be spread
over any number of workers; the union does not depend on it. -/
def join (b : Index) (_parallelism : Parallelism) (others : List Index) : Index :=
  { b with
    planes := others.foldl (fun planes other => planes.union other.planes)
      (b.planes.grow (b.widest others))
    existence := others.foldl (fun existence other => existence.union other.existence) b.existence }

/-- Takes the identifiers of a set out of the existence bitmap and of every plane. -/
def clear (b : Index) (found : Bitmap) : Index :=
  { b with
    planes := b.planes.map (·.diff found)
    existence := b.existence.diff found }

/-- The index of the identifiers of a set only, with the same bounds and settings. -/
def retain (b : Index) (found : Bitmap) : Index :=
  { b with
    planes := b.planes.map (·.inter found)
    existence := b.existence.inter found }

end Index

end BitSliced
