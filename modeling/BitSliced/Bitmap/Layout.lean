import BitSliced.IdSet

/-!
# Layouts

Stored sets of identifiers group their members twice: the high 32 bits of an identifier are its
*partition*, the high 48 bits its *chunk*, and the low 16 bits its *offset* within the chunk.

A set that was read from its stored form may differ from one that was built from its members: a
partition may be stored without any chunk, and a chunk may be stored as runs. A *layout* keeps these
two facts, so that the set can be stored again as it was. It fits a set of members if the partitions
that it keeps have none of them, and the chunks for runs have some.

## Main definitions

* `BitSliced.partitionOf`, `BitSliced.chunkOf`, `BitSliced.offsetOf`, `BitSliced.idAt` — the parts
  of an identifier.
* `BitSliced.vacant`, `BitSliced.held` — the partitions or chunks in which a set has no members, and
  those in which it has some.
* `BitSliced.Layout`, `BitSliced.Layout.Fits`.
* `BitSliced.Layout.fit` — as much of a layout as fits some members.
-/

namespace BitSliced

/-- The partition of an identifier: its high 32 bits. -/
def partitionOf (id : UInt64) : UInt32 := UInt32.ofNat (id.toNat / 0x100000000)

/-- The chunk of an identifier: its high 48 bits. -/
def chunkOf (id : UInt64) : Nat := id.toNat / 0x10000

/-- The offset of an identifier within its chunk: its low 16 bits. -/
def offsetOf (id : UInt64) : Nat := id.toNat % 0x10000

/-- The identifier at an offset of a chunk. -/
def idAt (chunk offset : Nat) : UInt64 := UInt64.ofNat (chunk * 0x10000 + offset)

/-- An identifier is made up of its chunk and its offset. -/
@[simp]
theorem idAt_chunkOf_offsetOf (id : UInt64) : idAt (chunkOf id) (offsetOf id) = id := by
  rw [idAt, chunkOf, offsetOf, Nat.div_add_mod', UInt64.ofNat_toNat]

/-! ### Partitions and chunks with and without members -/

section

variable {κ : Type} [Ord κ] [Std.TransOrd κ] {part : UInt64 → κ} {ids : IdSet}
  {parts : Std.ExtTreeSet κ} {p : κ}

/-- The parts that the identifiers of a set have. -/
def partsOf (part : UInt64 → κ) (ids : IdSet) : Std.ExtTreeSet κ := .ofList (ids.toList.map part)

/-- The parts among some that no identifier of a set has. -/
def vacant (part : UInt64 → κ) (ids : IdSet) (parts : Std.ExtTreeSet κ) : Std.ExtTreeSet κ :=
  if parts.isEmpty then ∅ else parts \ partsOf part ids

/-- The parts among some that an identifier of a set has. -/
def held (part : UInt64 → κ) (ids : IdSet) (parts : Std.ExtTreeSet κ) : Std.ExtTreeSet κ :=
  if parts.isEmpty then ∅ else parts ∩ partsOf part ids

@[simp]
theorem vacant_empty (part : UInt64 → κ) (ids : IdSet) : vacant part ids ∅ = ∅ :=
  if_pos Std.ExtTreeSet.isEmpty_empty

variable [Std.LawfulEqOrd κ] [DecidableEq κ]

@[simp]
theorem mem_partsOf : p ∈ partsOf part ids ↔ ∃ id ∈ ids, part id = p := by
  simp [partsOf]

@[simp]
theorem mem_vacant : p ∈ vacant part ids parts ↔ p ∈ parts ∧ ∀ id ∈ ids, part id ≠ p := by
  rw [vacant]
  split
  · next h => simp [Std.ExtTreeSet.isEmpty_iff.1 h]
  · rw [Std.ExtTreeSet.mem_diff_iff, mem_partsOf]
    simp

@[simp]
theorem mem_held : p ∈ held part ids parts ↔ p ∈ parts ∧ ∃ id ∈ ids, part id = p := by
  rw [held]
  split
  · next h => simp [Std.ExtTreeSet.isEmpty_iff.1 h]
  · rw [Std.ExtTreeSet.mem_inter_iff, mem_partsOf]

end

/-! ### Layouts -/

/-- What the stored form of a set shows beyond its members. -/
structure Layout where
  /-- Partitions that are stored without any member in them. -/
  hollow : Std.ExtTreeSet UInt32
  /-- Chunks that are stored as runs. -/
  runs : Std.ExtTreeSet Nat
  deriving DecidableEq

namespace Layout

variable {l : Layout} {ids : IdSet}

/-- The layout of a set that is built from its members. -/
def plain : Layout := ⟨∅, ∅⟩

/-- A layout fits a set when no member is in a hollow partition, and every chunk for runs has a
member. -/
structure Fits (l : Layout) (ids : IdSet) : Prop where
  vacant : ∀ key ∈ l.hollow, ∀ id ∈ ids, partitionOf id ≠ key
  held : ∀ chunk ∈ l.runs, ∃ id ∈ ids, chunkOf id = chunk

/-- As much of a layout as fits some members. -/
def fit (l : Layout) (ids : IdSet) : Layout :=
  ⟨vacant partitionOf ids l.hollow, held chunkOf ids l.runs⟩

theorem fits_plain (ids : IdSet) : plain.Fits ids :=
  ⟨fun _ h => absurd h Std.ExtTreeSet.not_mem_empty,
    fun _ h => absurd h Std.ExtTreeSet.not_mem_empty⟩

theorem fits_fit (l : Layout) (ids : IdSet) : (l.fit ids).Fits ids :=
  ⟨fun _ h => (mem_vacant.1 h).2, fun _ h => (mem_held.1 h).2⟩

end Layout

end BitSliced
