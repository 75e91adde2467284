import BitSliced.Index.Histogram
import BitSliced.Index.Stream
import BitSliced.Index.Union

/-!
# The journal

Operations on an index announce what they do. This module has the announcements and, for every
operation that makes some, the list of them in order. An operation that refuses its arguments
announces nothing.

## Main definitions

* `BitSliced.Level`, `BitSliced.Message` — announcements, with `BitSliced.Message.text`.
* `BitSliced.Journal.ofJoin` and its siblings — the announcements of each operation.
-/

namespace BitSliced

/-- How important an announcement is. -/
inductive Level where
  /-- One for every operation. -/
  | debug
  /-- One for every batched run. -/
  | trace
  deriving DecidableEq, Repr

/-- The name of a level. -/
def Level.name : Level → String
  | debug => "DEBUG"
  | trace => "TRACE"

/-- What an operation announces. -/
inductive Message where
  /-- Indexes are joined to an index that has grown to some width. -/
  | joining (operands width : Nat)
  /-- An index of some width is added to one of some width. -/
  | adding (other own : Nat)
  /-- Some identifiers are cleared. -/
  | clearing (ids : Nat)
  /-- Identifiers are dealt out to batches. -/
  | dispatching (ids batches : Nat)
  /-- The counts of some batches are added up. -/
  | mergingCounts (batches : Nat)
  /-- An index was turned into buffers. -/
  | buffersMade (planes ids : Nat)
  /-- An index was restored from buffers. -/
  | buffersTaken (planes ids : Nat)
  /-- An index was written into a sink. -/
  | written (bytes planes : Nat)
  /-- An index was read from a source. -/
  | read (planes ids : Nat)
  deriving DecidableEq, Repr

namespace Message

/-- How important a message is. -/
def level : Message → Level
  | dispatching _ _ => .trace
  | _ => .debug

/-- The text of a message. -/
def text : Message → String
  | joining operands width => s!"par_or: merging {operands} indexes into {width} planes"
  | adding other own => s!"add: {other} planes into {own} planes"
  | clearing ids => s!"clear_values: {ids} ids"
  | dispatching ids batches => s!"dispatching {ids} ids in {batches} batches"
  | mergingCounts batches => s!"transpose_with_counts: merging {batches} partial histograms"
  | buffersMade planes ids => s!"marshal_binary: {planes} planes, {ids} ids"
  | buffersTaken planes ids => s!"unmarshal_binary: {planes} planes, {ids} ids"
  | written bytes planes => s!"write_to: {bytes} bytes, {planes} planes"
  | read planes ids => s!"read_from: {planes} planes, {ids} ids"

/-- The line of a message: its level and its text. -/
def line (m : Message) : String := m.level.name ++ " " ++ m.text

end Message

namespace Journal

/-- A batched run over a set. -/
def ofBatches (p : Parallelism) (found : IdSet) : List Message :=
  [.dispatching found.size (batches p found).length]

/-- Joining indexes to an index. -/
def ofJoin (b : Index) (others : List Index) : List Message :=
  [.joining others.length (b.grow (b.widest others)).width]

/-- Adding an index to an index. -/
def ofAdd (b other : Index) : List Message := [.adding other.width b.width]

/-- Adding indexes to an index one after the other. -/
def ofAddAll (b : Index) : List Index → List Message
  | [] => []
  | other :: others => ofAdd b other ++ ofAddAll (b.add other) others

/-- Clearing identifiers. -/
def ofClear (found : Bitmap) : List Message := [.clearing found.ids.size]

/-- Selecting by comparison. -/
def ofSelect (b : Index) (p : Parallelism) (operation : Operation) (found : Option IdSet) :
    List Message :=
  if operation.isComparison then ofBatches p (b.holdersIn found) else []

/-- Selecting by a list of values. -/
def ofSelectAny (b : Index) (p : Parallelism) (values : List Int64) : List Message :=
  if values.isEmpty then [] else ofBatches p b.existence.ids

/-- Finding an extremum. -/
def ofExtremum (b : Index) (p : Parallelism) (operation : Operation) (found : IdSet) :
    List Message :=
  if operation.isComparison then [] else ofBatches p (b.holdersIn (some found))

/-- Collecting the numbers held. -/
def ofNumbers (b : Index) (p : Parallelism) (found : Option IdSet) : List Message :=
  ofBatches p (b.holdersIn found)

/-- Counting the numbers held. -/
def ofHistogram (b : Index) (p : Parallelism) (found filter : Option IdSet) : List Message :=
  let counts := b.partialCounts p found filter
  ofBatches p (b.holdersIn found) ++ .mergingCounts counts.length ::
    match counts with
    | [] => []
    | first :: rest => ofAddAll first rest

/-- Turning an index into buffers. -/
def ofToBuffers (b : Index) : List Message := [.buffersMade b.width b.cardinality]

/-- Restoring an index from buffers, with the index that came out. -/
def ofRestore (buffers : List (List UInt8)) (restored : Index) : List Message :=
  if buffers.isEmpty then [] else [.buffersTaken restored.width restored.cardinality]

/-- Writing a number of bytes of an index into a sink. -/
def ofWrite (b : Index) (bytes : Nat) : List Message := [.written bytes b.width]

/-- Reading an index, with the index that came out. -/
def ofRead (result : Index) : List Message := [.read result.width result.cardinality]

end Journal

end BitSliced
