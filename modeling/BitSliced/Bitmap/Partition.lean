import BitSliced.Bitmap.Chunk

/-!
# Partitions of a stored bitmap

A partition holds the chunks of the identifiers that share their high 32 bits. It is stored as a
header, the descriptions of its chunks, the positions of their contents, and the contents. Which
header is used depends on whether some chunk is stored as runs: the header with runs has a mark for
every chunk, and leaves the positions out below four chunks.

## Main definitions

* `BitSliced.Partition` — a key and the chunks in ascending order of their keys.
* `BitSliced.Partition.encode`, `BitSliced.Partition.encodedSize` — the stored form, and its size by
  formula.
* `BitSliced.Partition.read` — reads a partition and leaves the bytes behind it.
-/

namespace BitSliced

/-- The chunks of the identifiers that share their high 32 bits. -/
structure Partition where
  /-- The high 32 bits. -/
  key : UInt32
  /-- The chunks, in ascending order of their keys. -/
  chunks : List Chunk
  deriving DecidableEq, Repr

namespace Partition

/-- The cookie of a header without marks. -/
def plainCookie : Nat := 12346

/-- The low 16 bits of the cookie of a header with marks; the high 16 bits hold the number of chunks
less one. -/
def markedCookie : Nat := 12347

/-- The number of chunks from which on a header with marks has positions. -/
def positionLimit : Nat := 4

/-- The most chunks of a partition. -/
def chunkLimit : Nat := 0x10000

/-- Whether some chunk is stored as runs. -/
def hasRuns (p : Partition) : Bool := p.chunks.any (·.asRuns)

/-! ### Writing -/

/-- Packs marks into bytes: the mark of chunk `i` is bit `i % 8` of byte `i / 8`. -/
def encodeMarks (chunks : List Chunk) : List UInt8 :=
  let marked := (chunks.zipIdx.filter (·.1.asRuns)).map (·.2)
  Chunk.packBits ((chunks.length + 7) / 8) 0 marked

/-- The description of a chunk: its key, and its number of offsets less one. -/
def encodeDescription (c : Chunk) : List UInt8 :=
  Word.encode 2 c.key ++ Word.encode 2 (c.offsets.length - 1)

/-- Where contents of the given sizes start when the first one starts at `start`. -/
def positions (start : Nat) : List Nat → List Nat
  | [] => []
  | size :: sizes => start :: positions (start + size) sizes

/-- Whether the positions of the contents are stored. -/
def storesPositions (hasRuns : Bool) (count : Nat) : Bool := !hasRuns || positionLimit ≤ count

/-- The number of bytes in front of the contents. -/
def headerSize (p : Partition) : Nat :=
  let count := p.chunks.length
  (if p.hasRuns then 4 + (count + 7) / 8 else 8) + 4 * count +
    (if storesPositions p.hasRuns count then 4 * count else 0)

/-- The number of bytes of a stored partition, its key left out. -/
def encodedSize (p : Partition) : Nat :=
  p.headerSize + totalSize (·.contentSize) p.chunks

/-- The stored form of a partition, its key left out. -/
def encode (p : Partition) : List UInt8 :=
  let count := p.chunks.length
  let cookie :=
    if p.hasRuns then
      Word.encode 4 (markedCookie + 0x10000 * (count - 1)) ++ encodeMarks p.chunks
    else
      Word.encode 4 plainCookie ++ Word.encode 4 count
  let starts :=
    if storesPositions p.hasRuns count then
      (positions p.headerSize (p.chunks.map (·.contentSize))).flatMap (Word.encode 4)
    else []
  cookie ++ p.chunks.flatMap encodeDescription ++ starts ++ p.chunks.flatMap (·.content)

/-! ### Reading -/

/-- The announcement of a chunk. -/
structure Description where
  /-- The key of the chunk. -/
  key : Nat
  /-- The number of offsets. -/
  cardinality : Nat
  deriving DecidableEq, Repr

/-- Reads a description. -/
def readDescription : Reader Fault Description := do
  let key ← Chunk.word 2
  let less ← Chunk.word 2
  return ⟨key, less + 1⟩

/-- Reads a header: the marks of the chunks, and whether positions follow the descriptions. -/
def readHeader : Reader Fault (List Bool × Bool) := do
  let cookie ← Chunk.word 4
  if cookie = plainCookie then
    let count ← Chunk.word 4
    if count ≤ chunkLimit then return (List.replicate count false, storesPositions false count)
    else throw .oversized
  else if cookie % 0x10000 = markedCookie then
    let count := cookie / 0x10000 + 1
    let bytes ← Reader.bytes .truncated ((count + 7) / 8)
    let marked := bytes.flatMap fun b => (List.range 8).map b.toNat.testBit
    return (marked.take count, storesPositions true count)
  else throw .unknownCookie

/-- Reads the contents of the announced chunks, whose keys have to ascend from above `floor`. -/
def readContents (floor : Option Nat) : List (Description × Bool) → Reader Fault (List Chunk)
  | [] => return []
  | (d, asRuns) :: rest => do
    if floor.any (d.key ≤ ·) then throw .unsortedKeys
    let chunk ← Chunk.readContent d.key d.cardinality asRuns
    return chunk :: (← readContents (some d.key) rest)

/-- Reads the partition with the given key. -/
def read (key : UInt32) : Reader Fault Partition := do
  let (marks, positioned) ← readHeader
  let descriptions ← Reader.many readDescription marks.length
  if positioned then
    let _ ← Reader.bytes .truncated (4 * marks.length)
  let chunks ← readContents none (descriptions.zip marks)
  return ⟨key, chunks⟩

end Partition

end BitSliced
