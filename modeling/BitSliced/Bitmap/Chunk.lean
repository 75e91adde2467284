import BitSliced.Bitmap.Fault
import BitSliced.Bytes.Reader
import BitSliced.Run

/-!
# Chunks of a stored bitmap

A chunk holds the offsets of up to 65536 identifiers that share their high 48 bits. Its content is
stored in one of three forms: as an array of offsets, as one bit for every possible offset, or as
runs. A chunk marked for runs is stored as runs; any other is an array up to 4096 offsets, and
bits above that.

## Main definitions

* `BitSliced.Chunk` — the key within the partition, the offsets, and the mark.
* `BitSliced.Chunk.content`, `BitSliced.Chunk.contentSize` — the stored content, and its size by
  formula.
* `BitSliced.Chunk.readContent` — reads the content of a chunk that was announced with a key, a
  number of offsets and a mark.
-/

namespace BitSliced

/-- The offsets of the identifiers that share their high 48 bits. -/
structure Chunk where
  /-- The number of the chunk within its partition. -/
  key : Nat
  /-- The offsets, in ascending order. -/
  offsets : List Nat
  /-- Whether the chunk is stored as runs. -/
  asRuns : Bool
  deriving DecidableEq, Repr

namespace Chunk

/-- The most offsets that are stored as an array. -/
def arrayLimit : Nat := 4096

/-- The number of bytes that hold one bit for every offset. -/
def bitsetSize : Nat := 8192

/-- The forms in which the content of a chunk is stored. -/
inductive Form where
  /-- One word for every offset. -/
  | array
  /-- One bit for every possible offset. -/
  | bitset
  /-- Two words for every run. -/
  | runs
  deriving DecidableEq, Repr

/-- The form for a number of offsets and a mark. -/
def formOf (asRuns : Bool) (cardinality : Nat) : Form :=
  if asRuns then .runs else if cardinality ≤ arrayLimit then .array else .bitset

/-- The form in which a chunk is stored. -/
def form (c : Chunk) : Form := formOf c.asRuns c.offsets.length

/-! ### One bit for every offset -/

/-- Packs ascending offsets from `start` on into bytes: bit `j` of byte `i` stands for the offset
`start + 8 * i + j`. -/
def packBits : Nat → Nat → List Nat → List UInt8
  | 0, _, _ => []
  | size + 1, start, offsets =>
    let inByte := offsets.takeWhile (· < start + 8)
    UInt8.ofNat (inByte.foldr (fun x bits => 1 <<< (x - start) ||| bits) 0) ::
      packBits size (start + 8) (offsets.dropWhile (· < start + 8))

/-- The offsets whose bits are set, when the bytes stand for the offsets from `start` on. -/
def unpackBits : Nat → List UInt8 → List Nat
  | _, [] => []
  | start, b :: bs =>
    ((List.range 8).filter b.toNat.testBit).map (start + ·) ++ unpackBits (start + 8) bs

/-! ### Writing -/

/-- The bytes of a run: its first offset, and how many more there are. -/
def encodeRun (r : Run) : List UInt8 :=
  Word.encode 2 r.first ++ Word.encode 2 (r.last - r.first)

/-- The stored content of a chunk. -/
def content (c : Chunk) : List UInt8 :=
  match c.form with
  | .array => c.offsets.flatMap (Word.encode 2)
  | .bitset => packBits bitsetSize 0 c.offsets
  | .runs =>
    let runs := Run.ofAscending c.offsets
    Word.encode 2 runs.length ++ runs.flatMap encodeRun

/-- The number of bytes of the stored content. -/
def contentSize (c : Chunk) : Nat :=
  match c.form with
  | .array => 2 * c.offsets.length
  | .bitset => bitsetSize
  | .runs => 2 + 4 * (Run.ofAscending c.offsets).length

/-! ### Reading -/

/-- A word of stored bytes. -/
def word (width : Nat) : Reader Fault Nat := Reader.word .truncated width

/-- A run: its first offset, and how many more there are. -/
def readRun : Reader Fault Run := do
  let first ← word 2
  let more ← word 2
  return ⟨first, first + more⟩

/-- Whether every run stays within the chunk and leaves a gap to the run in front of it. -/
def runsFit : List Run → Bool
  | [] => true
  | [r] => r.last < 0x10000
  | r :: s :: rest => r.last < 0x10000 && r.last + 1 < s.first && runsFit (s :: rest)

/-- The first fault in a list of offsets that has to ascend, where `previous` is in front of the
offset at position `index`. -/
def orderFault? (index previous : Nat) : List Nat → Option Fault
  | [] => none
  | x :: xs =>
    if x < previous then some (.outOfOrder index)
    else if x = previous then some (.duplicate index)
    else orderFault? (index + 1) x xs

/-- The content of an array: as many ascending offsets as announced. -/
def readArray (cardinality : Nat) : Reader Fault (List Nat) := do
  let offsets ← Reader.many (word 2) cardinality
  match offsets with
  | [] => return []
  | x :: xs =>
    match orderFault? 1 x xs with
    | some fault => throw fault
    | none => return x :: xs

/-- The content of a bitset: as many bits set as announced. -/
def readBitset (cardinality : Nat) : Reader Fault (List Nat) := do
  let bytes ← Reader.bytes .truncated bitsetSize
  let offsets := unpackBits 0 bytes
  if offsets.length = cardinality then return offsets
  else throw (.wrongCardinality cardinality offsets.length)

/-- The content of a chunk of runs. The number of offsets that was announced plays no part. -/
def readRuns : Reader Fault (List Nat) := do
  let count ← word 2
  if count = 0 then throw .noRuns
  let runs ← Reader.many readRun count
  if runsFit runs then return runs.flatMap Run.members else throw .invalidRuns

/-- The chunk that was announced with a key, a number of offsets and a mark. -/
def readContent (key cardinality : Nat) (asRuns : Bool) : Reader Fault Chunk := do
  let offsets ←
    match formOf asRuns cardinality with
    | .array => readArray cardinality
    | .bitset => readBitset cardinality
    | .runs => readRuns
  return ⟨key, offsets, asRuns⟩

end Chunk

end BitSliced
