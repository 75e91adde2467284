import BitSliced.Bitmap.Stored
import BitSliced.Planes.Basic
import BitSliced.Settings

/-!
# Bit-sliced indexes

An index holds one number for each of some identifiers. Bit `i` of every number is kept in plane
`i`, the bitmap of the identifiers whose number has that bit. A further bitmap, the *existence*
bitmap, has the identifiers that hold a number at all.

Numbers are patterns of as many bits as the index has planes. The width follows from the declared
bounds, or grows as numbers are put when both bounds are zero. Nothing is sign-extended: a number
that is put into a narrow index keeps its low bits only.

## Main definitions

* `BitSliced.Index` — bounds, planes from the least significant bit on, existence and settings.
* `BitSliced.Index.ofBounds`, `BitSliced.Index.auto` — the empty index for some bounds.
* `BitSliced.Index.put`, `BitSliced.Index.get?` — puts and looks up the number of an identifier.
* `BitSliced.Index.patternOf` — the bits that the planes have for an identifier.
* `BitSliced.Index.grow` — appends empty planes.

Two indexes are equal as indexes, written `==`, when their bounds, existence bitmaps and planes are;
settings are not compared.
-/

namespace BitSliced

/-- The bit pattern of a signed number. -/
def pattern (value : Int64) : Nat := value.toUInt64.toNat

/-- The number of bits that the magnitudes of two bounds need. -/
def boundsWidth (maxValue minValue : Int64) : Nat :=
  bitLength (max maxValue.toInt.natAbs minValue.toInt.natAbs)

/-- Numbers for some identifiers, kept bit by bit. -/
structure Index where
  /-- The greatest number that is declared. -/
  maxValue : Int64
  /-- The least number that is declared. -/
  minValue : Int64
  /-- The planes, from the least significant bit on. -/
  planes : Planes
  /-- The identifiers that hold a number. -/
  existence : Bitmap
  /-- How work is spread over workers. -/
  settings : Settings

namespace Index

/-- The empty index as wide as the magnitudes of its bounds. A negative bound reserves no room for
negative numbers. -/
def ofBounds (maxValue minValue : Int64) : Index where
  maxValue
  minValue
  planes := .blank (boundsWidth maxValue minValue)
  existence := ∅
  settings := {}

/-- The empty index that grows as numbers are put. -/
def auto : Index := ofBounds 0 0

instance : Inhabited Index := ⟨auto⟩

/-- Replaces the settings. -/
def withSettings (b : Index) (settings : Settings) : Index := { b with settings }

/-- Whether the width follows the numbers put and not the bounds. -/
def isAuto (b : Index) : Bool := b.maxValue == 0 && b.minValue == 0

/-- The number of planes. -/
def width (b : Index) : Nat := b.planes.length

/-- The number of identifiers that hold a number. -/
def cardinality (b : Index) : Nat := b.existence.ids.size

/-- Whether no identifier holds a number. -/
def isEmpty (b : Index) : Bool := b.existence.ids.isEmpty

/-- Whether an identifier holds a number. -/
def contains (b : Index) (id : UInt64) : Bool := b.existence.contains id

/-- The plane of a bit, if the index is wide enough. -/
def plane? (b : Index) (i : Nat) : Option Bitmap := b.planes[i]?

/-- The bits that the planes have for an identifier, whether it holds a number or not. -/
def patternOf (b : Index) (id : UInt64) : UInt64 := UInt64.ofNat (b.planes.number id)

/-- The number that an identifier holds. -/
def get? (b : Index) (id : UInt64) : Option Int64 :=
  if b.contains id then some (b.patternOf id).toInt64 else none

/-- Appends empty planes up to a width. -/
def grow (b : Index) (width : Nat) : Index := { b with planes := b.planes.grow width }

/-- Puts a number for an identifier, in place of any other. An index without bounds first grows to
the bits of the number; with bounds, the bits above the width are lost. -/
def put (b : Index) (id : UInt64) (value : Int64) : Index :=
  let n := pattern value
  let planes := if b.isAuto then b.planes.grow (bitLength n) else b.planes
  { b with planes := planes.write id n, existence := b.existence.insert id }

/-- Puts numbers one after the other. -/
def putAll (b : Index) (entries : List (UInt64 × Int64)) : Index :=
  entries.foldl (fun b (id, value) => b.put id value) b

/-- The number of bytes of the stored bitmaps. -/
def encodedSize (b : Index) : Nat :=
  b.existence.encodedSize + totalSize (·.encodedSize) b.planes

/-- Indexes are equal when their bounds, existence bitmaps and planes are. -/
instance : BEq Index :=
  ⟨fun a b => a.maxValue == b.maxValue && a.minValue == b.minValue &&
    a.existence == b.existence && a.planes == b.planes⟩

instance : ReflBEq Index where
  rfl {b} := by
    show (b.maxValue == b.maxValue && b.minValue == b.minValue &&
      b.existence == b.existence && b.planes == b.planes) = true
    simp

/-! ### Looking numbers up -/

/-- An identifier holds a number when it exists and its pattern is that of the number. -/
theorem get?_eq_some_iff {b : Index} {id : UInt64} {value : Int64} :
    b.get? id = some value ↔ b.contains id = true ∧ b.patternOf id = value.toUInt64 := by
  unfold get?
  split
  · next h =>
    rw [Option.some_inj]
    constructor
    · rintro rfl
      exact ⟨h, rfl⟩
    · rintro ⟨-, hv⟩
      rw [hv]
      rfl
  · next h => simp [h]

theorem get?_eq_none_iff {b : Index} {id : UInt64} :
    b.get? id = none ↔ b.contains id = false := by
  simp [get?]

end Index

end BitSliced
