import Std.Data.ExtTreeMap.Lemmas
import BitSliced.Bitmap.Basic
import BitSliced.Bitmap.Partition

/-!
# The stored form of bitmaps

A bitmap is stored as the number of its partitions followed by each partition with its key. Reading
accepts partitions in any order: of two partitions with the same key the later one counts, and bytes
behind the last partition are ignored.

## Main definitions

* `BitSliced.Bitmap.toPartitions`, `BitSliced.Bitmap.ofPartitions` — between a bitmap and its
  partitions.
* `BitSliced.Bitmap.encode`, `BitSliced.Bitmap.encodedSize` — the stored form, and its size by
  formula.
* `BitSliced.Bitmap.decode` — the bitmap that some bytes hold.
-/

namespace BitSliced

/-- Sorts a list into classes by a key. Each class keeps the order of the list. -/
def classify {α κ : Type} [Ord κ] [Std.TransOrd κ] (key : α → κ) (l : List α) :
    Std.ExtTreeMap κ (List α) :=
  l.foldr (fun a classes => classes.alter (key a) fun others => some (a :: others.getD [])) ∅

/-- A class holds the elements with its key, in the order of the list. -/
theorem getD_classify {α κ : Type} [Ord κ] [Std.TransOrd κ] [Std.LawfulEqOrd κ] [DecidableEq κ]
    (key : α → κ) (l : List α) (k : κ) :
    (classify key l).getD k [] = l.filter (key · = k) := by
  induction l with
  | nil => simp [classify]
  | cons a l ih =>
    rw [classify, List.foldr_cons, ← classify, Std.ExtTreeMap.getD_alter]
    by_cases h : key a = k
    · subst h
      simp [← ih, Std.ExtTreeMap.getD_eq_getD_getElem?]
    · simp [h, ih]

namespace Bitmap

/-- The chunks of a partition with the given members, in ascending order. A chunk is stored as runs
when `runs` has it. -/
def chunksOf (runs : Std.ExtTreeSet Nat) (members : List UInt64) : List Chunk :=
  (classify chunkOf members).toList.map fun (chunk, ids) =>
    ⟨chunk % 0x10000, ids.map offsetOf, runs.contains chunk⟩

/-- The partitions of a bitmap, in ascending order. -/
def toPartitions (b : Bitmap) : List Partition :=
  let members := classify partitionOf b.ids.toList
  b.partitions.toList.map fun key => ⟨key, chunksOf b.runs (members.getD key [])⟩

/-- The number of a chunk among the chunks of all partitions. -/
def chunkNumber (partition : UInt32) (c : Chunk) : Nat := partition.toNat * 0x10000 + c.key

/-- The members of a partition. -/
def membersOf (p : Partition) : List UInt64 :=
  p.chunks.flatMap fun c => c.offsets.map (idAt (chunkNumber p.key c))

/-- The bitmap that is stored as the given partitions. A later partition replaces an earlier one
with the same key. -/
def ofPartitions (partitions : List Partition) : Bitmap :=
  let kept := (Std.ExtTreeMap.ofList (partitions.map fun p => (p.key, p))).toList.map (·.2)
  fitted (IdSet.ofList (kept.flatMap membersOf))
    { hollow := Std.ExtTreeSet.ofList ((kept.filter (·.chunks.isEmpty)).map (·.key))
      runs := Std.ExtTreeSet.ofList
        (kept.flatMap fun p => (p.chunks.filter (·.asRuns)).map (chunkNumber p.key)) }

/-- The stored form of a bitmap. -/
def encode (b : Bitmap) : List UInt8 :=
  let partitions := b.toPartitions
  Word.encode 8 partitions.length ++
    partitions.flatMap fun p => Word.encode 4 p.key.toNat ++ p.encode

/-- The number of bytes of the stored form. -/
def encodedSize (b : Bitmap) : Nat :=
  8 + totalSize (fun p => 4 + p.encodedSize) b.toPartitions

/-- Reads a partition behind its key. -/
def readPartition : Reader Fault Partition := do
  let key ← Chunk.word 4
  Partition.read (UInt32.ofNat key)

/-- Reads a bitmap and leaves the bytes behind it. -/
def read : Reader Fault Bitmap := do
  let count ← Chunk.word 8
  let partitions ← Reader.many readPartition count
  return ofPartitions partitions

/-- The bitmap at the front of some bytes. -/
def decode (bytes : List UInt8) : Except Fault Bitmap :=
  read.run' bytes

end Bitmap

end BitSliced
