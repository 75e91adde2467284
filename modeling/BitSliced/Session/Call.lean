import BitSliced.Batch
import BitSliced.Bitmap.Basic
import BitSliced.Operation
import BitSliced.Settings
import BitSliced.Stream.Source

/-!
# Calls and answers

Whoever works with several indexes gives them names. A call names the indexes that it works on,
and has an answer. Calls that leave an index under a name say only that they are done; the index
can then be asked for.

## Main definitions

* `BitSliced.Detail` — what an index can be asked for without looking any number up.
* `BitSliced.Call` — what can be asked of named indexes.
* `BitSliced.Call.unscheduled` — a call without what it says about workers.
* `BitSliced.Answer` — what is answered.
-/

namespace BitSliced

/-- What an index can be asked for without looking any number up. -/
inductive Detail where
  /-- The greatest number that is declared. -/
  | maxValue
  /-- The least number that is declared. -/
  | minValue
  /-- Whether the width follows the numbers put. -/
  | auto
  /-- The number of planes. -/
  | width
  /-- The number of identifiers that hold a number. -/
  | cardinality
  /-- Whether no identifier holds a number. -/
  | empty
  deriving DecidableEq, Repr

/-- What can be asked of named indexes. The first name is that of the index worked on; calls that
make a further index have a last name, `into`, for it. -/
inductive Call where
  /-- The empty index for some bounds. -/
  | declare (name : String) (maxValue minValue : Int64)
  /-- Other settings. -/
  | configure (name : String) (settings : Settings)
  /-- A further name for a copy of the index. -/
  | copy (name into : String)
  /-- Numbers for some identifiers, one after the other. -/
  | put (name : String) (entries : List (UInt64 × Int64))
  /-- The numbers of another index added. -/
  | add (name other : String)
  /-- Other indexes joined. -/
  | join (name : String) (parallelism : Parallelism) (others : List String)
  /-- One added for the identifiers of a set. -/
  | increment (name : String) (found : Bitmap)
  /-- One added for all identifiers that hold a number. -/
  | incrementAll (name : String)
  /-- The identifiers of a set taken out. -/
  | clear (name : String) (found : Bitmap)
  /-- The index of the identifiers of a set. -/
  | retain (name : String) (found : Bitmap) (into : String)
  /-- How many identifiers hold each number. -/
  | histogram (name : String) (parallelism : Parallelism) (found filter : Option IdSet)
      (into : String)
  /-- The content replaced by that of some buffers. -/
  | restore (name : String) (buffers : List (List UInt8))
  /-- An index read from a source. -/
  | read (name : String) (source : Source)
  /-- A detail of the index. -/
  | detail (name : String) (detail : Detail)
  /-- The number that an identifier holds. -/
  | get (name : String) (id : UInt64)
  /-- Whether an identifier holds a number. -/
  | contains (name : String) (id : UInt64)
  /-- The identifiers that hold a number. -/
  | holders (name : String)
  /-- The identifiers in the plane of a bit. -/
  | plane (name : String) (bit : Nat)
  /-- The identifiers whose numbers satisfy a comparison. -/
  | select (name : String) (parallelism : Parallelism) (operation : Operation)
      (start stop : Int64) (found : Option IdSet)
  /-- The identifiers whose numbers are among some values. -/
  | selectAny (name : String) (parallelism : Parallelism) (values : List Int64)
  /-- The sum of the numbers of a set. -/
  | total (name : String) (found : IdSet)
  /-- The extremum of the numbers of a set. -/
  | extremum (name : String) (parallelism : Parallelism) (operation : Operation) (found : IdSet)
  /-- The numbers that the identifiers of a set hold. -/
  | numbers (name : String) (parallelism : Parallelism) (found : Option IdSet)
  /-- Whether two indexes are equal. -/
  | equal (name other : String)
  /-- The number of bytes of the stored bitmaps. -/
  | encodedSize (name : String)
  /-- The buffers of the index. -/
  | buffers (name : String)
  /-- The index written into a sink. -/
  | write (name : String) (sink : Sink)

/-- A call without what it says about workers: any degree of parallelism becomes that of one worker,
and any settings become the default ones. -/
def Call.unscheduled : Call → Call
  | configure name _ => configure name {}
  | join name _ others => join name ⟨1, 1⟩ others
  | histogram name _ found filter into => histogram name ⟨1, 1⟩ found filter into
  | select name _ operation start stop found => select name ⟨1, 1⟩ operation start stop found
  | selectAny name _ values => selectAny name ⟨1, 1⟩ values
  | extremum name _ operation found => extremum name ⟨1, 1⟩ operation found
  | numbers name _ found => numbers name ⟨1, 1⟩ found
  | call => call

/-- What is answered to a call. -/
inductive Answer where
  /-- The call has left an index under a name. -/
  | done
  /-- No index has the name. -/
  | noIndex (name : String)
  /-- The call failed. -/
  | failed (error : Error)
  /-- A number, if there is one. -/
  | number (value : Option Int64)
  /-- Yes or no. -/
  | truth (holds : Bool)
  /-- A set of identifiers. -/
  | set (ids : Bitmap)
  /-- The index has no such plane. -/
  | noPlane
  /-- A sum, and the size of the set it was taken over. -/
  | total (sum : Int64) (count : Nat)
  /-- A number of bytes. -/
  | size (bytes : Nat)
  /-- Some buffers. -/
  | buffers (buffers : List (List UInt8))
  /-- The number of bytes written, and the sink they are in. -/
  | written (bytes : Nat) (sink : Sink)
  /-- Writing failed, and the sink is as that left it. -/
  | cutOff (error : Error) (sink : Sink)
  /-- An index was read, and the source is at some position. -/
  | taken (position : Nat)

end BitSliced
