import BitSliced.Index.Addition
import BitSliced.Index.Comparison

/-!
# Turning an index around

The numbers of an index, read as identifiers, are the members of a set, and the identifiers of a
further index that counts how often each number is held.

## Main definitions

* `BitSliced.Index.numbers` — the set of the numbers held.
* `BitSliced.Index.histogram` — how many identifiers hold each number. Batches are counted one
  identifier at a time, and their counts are then added as indexes.
-/

namespace BitSliced.Index

/-- The numbers that the identifiers of a set hold, all numbers when there is no set. -/
def numbers (b : Index) (p : Parallelism) (found : Option IdSet) : IdSet :=
  gather p (b.holdersIn found) fun batch => batch.map b.patternOf

/-- Counts the numbers of a batch. A number that is not in the filter, if there is one, is left
out. -/
def countBatch (b : Index) (filter : Option IdSet) (batch : List UInt64) : Index :=
  batch.foldl
    (fun counts id =>
      let number := b.patternOf id
      if filter.all (·.contains number) then counts.incrementId number else counts)
    auto

/-- The counts of each batch of a set. -/
def partialCounts (b : Index) (p : Parallelism) (found filter : Option IdSet) : List Index :=
  (batches p (b.holdersIn found)).map (b.countBatch filter)

/-- How many identifiers of a set hold each number of the filter. The counts carry the settings
of the index that was counted. -/
def histogram (b : Index) (p : Parallelism) (found filter : Option IdSet) : Index :=
  let counts :=
    match b.partialCounts p found filter with
    | [] => auto
    | first :: rest => rest.foldl add first
  counts.withSettings b.settings

end BitSliced.Index
