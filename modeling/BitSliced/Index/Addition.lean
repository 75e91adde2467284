import BitSliced.Index.Basic
import BitSliced.Planes.Addition

/-!
# Adding to the numbers of an index

The numbers of two indexes are added, and numbers are counted up by one. All of it works on
planes only: an identifier that holds no number counts with the bits that the planes have for it.

## Main definitions

* `BitSliced.Index.add` — adds the numbers of another index.
* `BitSliced.Index.increment`, `BitSliced.Index.incrementAll` — adds one for the identifiers of a
  set, and for all that hold a number.
* `BitSliced.Index.incrementId` — adds one for a single identifier.
-/

namespace BitSliced

namespace Index

/-- Adds the numbers of another index. An identifier that holds a number in either index holds one
afterwards. -/
def add (b other : Index) : Index :=
  { b with
    existence := b.existence.union other.existence
    planes := Planes.addDigits Planes.limit other.planes (b.planes.grow other.width) }

/-- Adds one for every identifier of a set. One that held no number counts from zero. -/
def increment (b : Index) (found : Bitmap) : Index :=
  { b with
    planes := Planes.addDigit Planes.limit found b.planes
    existence := b.existence.union found }

/-- Adds one for every identifier that holds a number. -/
def incrementAll (b : Index) : Index :=
  { b with planes := Planes.addDigit Planes.limit b.existence b.planes }

/-- Adds one for a single identifier. -/
def incrementId (b : Index) (id : UInt64) : Index :=
  { b with
    planes := Planes.addOne Planes.limit id b.planes
    existence := b.existence.insert id }

end Index

end BitSliced
