import BitSliced.Bitmap.Stored
import BitSliced.Proofs.Planes.Layouts
import BitSliced.Proofs.Stored.Partition

/-!
# Stored bitmaps are read back

Every bitmap is stored as well-formed partitions in the order of their keys, and nothing of its
layout is lost: the partitions without chunks are the hollow ones, and a chunk is marked when it is
one for runs. So a bitmap is read back as it was.

## Main results

* `BitSliced.Bitmap.ofPartitions_toPartitions` — a bitmap is made up of its partitions.
* `BitSliced.Bitmap.reads_encode` — a stored bitmap is read back.
* `BitSliced.Bitmap.length_encode` — the size of a stored bitmap by formula.
* `BitSliced.Bitmap.IsPlain.encodedSize_lt` — the size of a bitmap of plain layout is a word of
  eight bytes.
-/

namespace BitSliced

/-! ### Classes -/

section

variable {α κ : Type} [Ord κ] [Std.TransOrd κ] {key : α → κ} {l : List α} {k : κ} {members : List α}

theorem ne_nil_of_mem_classify (h : (classify key l)[k]? = some members) : members ≠ [] := by
  induction l with
  | nil => simp [classify] at h
  | cons a l ih =>
    rw [classify, List.foldr_cons, ← classify, Std.ExtTreeMap.getElem?_alter] at h
    split at h
    · obtain rfl := Option.some_inj.1 h
      exact List.cons_ne_nil _ _
    · exact ih h

variable [Std.LawfulEqOrd κ] [DecidableEq κ]

/-- The classes are those of the keys that some element has. -/
theorem mem_toList_classify : (k, members) ∈ (classify key l).toList ↔
    members = l.filter (key · = k) ∧ ∃ a ∈ l, key a = k := by
  have hown := getD_classify key l k
  have hsome : l.filter (key · = k) ≠ [] ↔ ∃ a ∈ l, key a = k := by simp
  rw [Std.ExtTreeMap.getD_eq_getD_getElem?] at hown
  rw [Std.ExtTreeMap.mem_toList_iff_getElem?_eq_some, ← hsome]
  constructor
  · intro h
    rw [h, Option.getD_some] at hown
    exact ⟨hown, hown ▸ ne_nil_of_mem_classify h⟩
  · rintro ⟨rfl, hnonempty⟩
    cases h : (classify key l)[k]? with
    | none =>
      rw [h, Option.getD_none] at hown
      exact absurd hown.symm hnonempty
    | some others => rw [← hown, h, Option.getD_some]

end

/-! ### Parts of an identifier -/

theorem toNat_partitionOf (id : UInt64) : (partitionOf id).toNat = id.toNat / 0x100000000 := by
  have := id.toNat_lt
  rw [partitionOf, UInt32.toNat_ofNat', Nat.mod_eq_of_lt (by omega)]

/-- The chunk of an identifier is made up of its partition and the key within it. -/
theorem chunkOf_eq (id : UInt64) :
    chunkOf id = (partitionOf id).toNat * 0x10000 + chunkOf id % 0x10000 := by
  rw [toNat_partitionOf, chunkOf]
  omega

theorem offsetOf_lt_of_lt {x y : UInt64} (h : x < y) (hsame : chunkOf x = chunkOf y) :
    offsetOf x < offsetOf y := by
  have : x.toNat < y.toNat := h
  rw [chunkOf, chunkOf] at hsame
  rw [offsetOf, offsetOf]
  omega

namespace Bitmap

/-! ### Chunks of some members -/

section

variable {runs : Std.ExtTreeSet Nat} {members : List UInt64} {key : UInt32} {c : Chunk}

/-- The chunk with a number, among the chunks of some members. -/
def chunkAt (runs : Std.ExtTreeSet Nat) (members : List UInt64) (chunk : Nat) : Chunk :=
  ⟨chunk % 0x10000, (members.filter (chunkOf · = chunk)).map offsetOf, runs.contains chunk⟩

theorem mem_offsets_chunkAt {id : UInt64} (h : id ∈ members) :
    offsetOf id ∈ (chunkAt runs members (chunkOf id)).offsets :=
  List.mem_map_of_mem (List.mem_filter.2 ⟨h, decide_eq_true rfl⟩)

/-- The chunks are those that some member is in. -/
theorem mem_chunksOf :
    c ∈ chunksOf runs members ↔ ∃ id ∈ members, chunkAt runs members (chunkOf id) = c := by
  rw [chunksOf, List.mem_map]
  constructor
  · rintro ⟨⟨chunk, ids⟩, hstored, rfl⟩
    obtain ⟨rfl, id, hid, rfl⟩ := mem_toList_classify.1 hstored
    exact ⟨id, hid, rfl⟩
  · rintro ⟨id, hid, rfl⟩
    exact ⟨(chunkOf id, _), mem_toList_classify.2 ⟨rfl, id, hid, rfl⟩, rfl⟩

theorem chunksOf_eq_nil_iff : chunksOf runs members = [] ↔ members = [] := by
  simp only [List.eq_nil_iff_forall_not_mem, mem_chunksOf, not_exists, not_and]
  constructor
  · intro hnone id hid
    exact hnone _ id hid rfl
  · intro hnone c id hid
    exact absurd hid (hnone id)

theorem wellFormed_of_mem_chunksOf (hsorted : members.Pairwise (· < ·))
    (h : c ∈ chunksOf runs members) : c.WellFormed := by
  obtain ⟨id, hid, rfl⟩ := mem_chunksOf.1 h
  constructor
  · exact Nat.mod_lt _ (by decide)
  · exact List.ne_nil_of_mem (mem_offsets_chunkAt hid)
  · refine List.pairwise_map.2 ((hsorted.filter _).imp_of_mem fun hx hy hbelow => ?_)
    refine offsetOf_lt_of_lt hbelow ?_
    rw [of_decide_eq_true (List.mem_filter.1 hx).2, of_decide_eq_true (List.mem_filter.1 hy).2]
  · exact List.forall_mem_map.2 fun x _ => Nat.mod_lt _ (by decide)

/-- The number of a chunk is found again from the partition and the key. -/
theorem chunkNumber_chunkAt (id : UInt64) :
    chunkNumber (partitionOf id) (chunkAt runs members (chunkOf id)) = chunkOf id :=
  (chunkOf_eq id).symm

variable (hinside : ∀ id ∈ members, partitionOf id = key)
include hinside

theorem pairwise_chunksOf : (chunksOf runs members).Pairwise (·.key < ·.key) := by
  refine List.pairwise_map.2 (Std.ExtTreeMap.ordered_keys_toList.imp_of_mem ?_)
  rintro ⟨chunk, ids⟩ ⟨chunk', ids'⟩ h h' hbelow
  obtain ⟨-, x, hx, rfl⟩ := mem_toList_classify.1 h
  obtain ⟨-, y, hy, rfl⟩ := mem_toList_classify.1 h'
  have hbelow : chunkOf x < chunkOf y := Nat.compare_eq_lt.1 hbelow
  rw [chunkOf_eq x, chunkOf_eq y, hinside x hx, hinside y hy] at hbelow
  exact Nat.lt_of_add_lt_add_left hbelow

theorem mem_membersOf {id : UInt64} :
    id ∈ membersOf ⟨key, chunksOf runs members⟩ ↔ id ∈ members := by
  rw [membersOf, List.mem_flatMap]
  constructor
  · rintro ⟨c, hc, hid⟩
    obtain ⟨x, hx, rfl⟩ := mem_chunksOf.1 hc
    obtain ⟨offset, hoffset, rfl⟩ := List.mem_map.1 hid
    obtain ⟨y, hy, rfl⟩ := List.mem_map.1 hoffset
    obtain ⟨hmember, hsame⟩ := List.mem_filter.1 hy
    rw [← hinside x hx, chunkNumber_chunkAt, ← of_decide_eq_true hsame, idAt_chunkOf_offsetOf]
    exact hmember
  · intro hmember
    refine ⟨_, mem_chunksOf.2 ⟨id, hmember, rfl⟩,
      List.mem_map.2 ⟨_, mem_offsets_chunkAt hmember, ?_⟩⟩
    rw [← hinside id hmember, chunkNumber_chunkAt, idAt_chunkOf_offsetOf]

end

/-! ### Partitions of a bitmap -/

section

variable {b : Bitmap} {key : UInt32}

/-- The members in a partition, in ascending order. -/
def membersIn (b : Bitmap) (key : UInt32) : List UInt64 :=
  b.ids.toList.filter (partitionOf · = key)

theorem mem_membersIn {id : UInt64} : id ∈ b.membersIn key ↔ id ∈ b ∧ partitionOf id = key := by
  simp [membersIn, mem_iff]

theorem partitionOf_of_mem_membersIn {id : UInt64} (h : id ∈ b.membersIn key) :
    partitionOf id = key := (mem_membersIn.1 h).2

theorem pairwise_membersIn : (b.membersIn key).Pairwise (· < ·) :=
  (Std.ExtTreeSet.ordered_toList.imp fun h => Std.compare_eq_lt.1 h).filter _

/-- The stored partition of a key. -/
def storedPartition (b : Bitmap) (key : UInt32) : Partition :=
  ⟨key, chunksOf b.runs (b.membersIn key)⟩

theorem toPartitions_eq (b : Bitmap) :
    b.toPartitions = b.partitions.toList.map b.storedPartition := by
  refine List.map_congr_left fun key _ => ?_
  rw [getD_classify]
  rfl

theorem wellFormed_storedPartition (b : Bitmap) (key : UInt32) :
    (b.storedPartition key).WellFormed where
  chunks _ hc := wellFormed_of_mem_chunksOf pairwise_membersIn hc
  ascending := pairwise_chunksOf fun _ => partitionOf_of_mem_membersIn

theorem pairwise_partitions : b.partitions.toList.Pairwise (· < ·) :=
  Std.ExtTreeSet.ordered_toList.imp fun h => Std.compare_eq_lt.1 h

/-- There are no more partitions than keys. -/
theorem length_toPartitions_le : b.toPartitions.length ≤ 2 ^ 32 := by
  have hkeys : (b.partitions.toList.map UInt32.toNat).Pairwise (· < ·) :=
    List.pairwise_map.2 pairwise_partitions
  rw [toPartitions_eq, List.length_map, ← List.length_map UInt32.toNat]
  exact length_le_of_ascending hkeys (List.forall_mem_map.2 fun k _ => ⟨Nat.zero_le _, k.toNat_lt⟩)

/-! ### The bitmap that is read back -/

/-- Partitions with different keys are all kept. -/
theorem mem_kept {ps : List Partition} (hdistinct : ps.Pairwise (·.key ≠ ·.key)) {p : Partition} :
    p ∈ ((Std.ExtTreeMap.ofList (ps.map fun p => (p.key, p))).toList.map (·.2)) ↔ p ∈ ps := by
  have hkept {q : Partition} (hq : q ∈ ps) :
      (Std.ExtTreeMap.ofList (ps.map fun p => (p.key, p)))[q.key]? = some q := by
    refine Std.ExtTreeMap.getElem?_ofList_of_mem Std.ReflCmp.compare_self ?_
      (List.mem_map_of_mem hq)
    exact List.pairwise_map.2
      (hdistinct.imp fun hother hsame => hother (Std.compare_eq_iff_eq.1 hsame))
  constructor
  · intro h
    obtain ⟨⟨k, q⟩, hstored, rfl⟩ := List.mem_map.1 h
    rw [Std.ExtTreeMap.mem_toList_iff_getElem?_eq_some] at hstored
    have hknown : k ∈ Std.ExtTreeMap.ofList (ps.map fun p => (p.key, p)) :=
      Std.ExtTreeMap.mem_iff_isSome_getElem?.2 (hstored ▸ rfl)
    obtain ⟨q', hq', rfl⟩ : ∃ q' ∈ ps, q'.key = k := by simpa using hknown
    rw [hkept hq'] at hstored
    exact Option.some_inj.1 hstored ▸ hq'
  · intro h
    have hstored := Std.ExtTreeMap.mem_toList_iff_getElem?_eq_some.2 (hkept h)
    exact List.mem_map.2 ⟨(p.key, p), hstored, rfl⟩

/-- The partitions that count when a bitmap is read back. -/
private abbrev keptOf (b : Bitmap) : List Partition :=
  (Std.ExtTreeMap.ofList (b.toPartitions.map fun p => (p.key, p))).toList.map (·.2)

private theorem mem_keptOf {p : Partition} :
    p ∈ keptOf b ↔ ∃ key ∈ b.partitions, b.storedPartition key = p := by
  have hdistinct : b.toPartitions.Pairwise (·.key ≠ ·.key) := by
    rw [toPartitions_eq]
    exact List.pairwise_map.2 (pairwise_partitions.imp fun h => UInt32.ne_of_lt h)
  rw [mem_kept hdistinct, toPartitions_eq, List.mem_map]
  simp

/-- The members are those of the bitmap. -/
theorem ids_ofPartitions_toPartitions (b : Bitmap) : (ofPartitions b.toPartitions).ids = b.ids := by
  refine IdSet.ext fun id => ?_
  have hmembers (key : UInt32) : id ∈ membersOf (b.storedPartition key) ↔ id ∈ b.membersIn key :=
    mem_membersOf fun _ => partitionOf_of_mem_membersIn
  show id ∈ IdSet.ofList ((keptOf b).flatMap membersOf) ↔ id ∈ b.ids
  rw [IdSet.mem_ofList, List.mem_flatMap]
  constructor
  · rintro ⟨p, hp, hid⟩
    obtain ⟨key, -, rfl⟩ := mem_keptOf.1 hp
    exact (mem_membersIn.1 ((hmembers key).1 hid)).1
  · intro hid
    exact ⟨b.storedPartition (partitionOf id),
      mem_keptOf.2 ⟨_, partitionOf_mem_partitions hid, rfl⟩,
      (hmembers _).2 (mem_membersIn.2 ⟨hid, rfl⟩)⟩

/-- The partitions that are kept without chunks are the hollow ones. -/
private theorem mem_hollow_keptOf :
    key ∈ Std.ExtTreeSet.ofList (((keptOf b).filter (·.chunks.isEmpty)).map (·.key)) ↔
      key ∈ b.hollow := by
  have hvacant : (b.storedPartition key).chunks.isEmpty = true ↔
      ∀ id ∈ b, partitionOf id ≠ key := by
    rw [List.isEmpty_iff, storedPartition, chunksOf_eq_nil_iff, List.eq_nil_iff_forall_not_mem]
    simp only [mem_membersIn, not_and, ne_eq]
  rw [Std.ExtTreeSet.mem_ofList, List.contains_iff_mem, List.mem_map, mem_hollow_iff]
  constructor
  · rintro ⟨p, hp, rfl⟩
    obtain ⟨hkept, hempty⟩ := List.mem_filter.1 hp
    obtain ⟨key, hkey, rfl⟩ := mem_keptOf.1 hkept
    exact ⟨hkey, hvacant.1 hempty⟩
  · rintro ⟨hkey, hempty⟩
    exact ⟨_, List.mem_filter.2 ⟨mem_keptOf.2 ⟨key, hkey, rfl⟩, hvacant.2 hempty⟩, rfl⟩

/-- The chunks that are kept with a mark are those for runs. -/
private theorem mem_runs_keptOf {chunk : Nat} :
    chunk ∈ Std.ExtTreeSet.ofList ((keptOf b).flatMap fun p =>
      (p.chunks.filter (·.asRuns)).map (chunkNumber p.key)) ↔ chunk ∈ b.runs := by
  rw [Std.ExtTreeSet.mem_ofList, List.contains_iff_mem, List.mem_flatMap]
  constructor
  · rintro ⟨p, hp, hstored⟩
    obtain ⟨key, -, rfl⟩ := mem_keptOf.1 hp
    obtain ⟨c, hc, rfl⟩ := List.mem_map.1 hstored
    obtain ⟨hc, hasRuns⟩ := List.mem_filter.1 hc
    obtain ⟨id, hid, rfl⟩ := mem_chunksOf.1 hc
    obtain ⟨hmember, rfl⟩ := mem_membersIn.1 hid
    rw [storedPartition, chunkNumber_chunkAt]
    exact hasRuns
  · intro hasRuns
    obtain ⟨id, hid, rfl⟩ := b.fits.held chunk hasRuns
    have hinside := mem_membersIn.2 ⟨hid, rfl⟩
    exact ⟨b.storedPartition (partitionOf id),
      mem_keptOf.2 ⟨_, partitionOf_mem_partitions hid, rfl⟩, List.mem_map.2
      ⟨_, List.mem_filter.2 ⟨mem_chunksOf.2 ⟨id, hinside, rfl⟩, hasRuns⟩, chunkNumber_chunkAt id⟩⟩

/-- A bitmap is made up of its partitions. -/
theorem ofPartitions_toPartitions (b : Bitmap) : ofPartitions b.toPartitions = b := by
  have hids := ids_ofPartitions_toPartitions b
  refine ext_of_layout (Std.ExtTreeSet.ext_mem fun key => mem_hollow_fitted.trans ?_)
    (Std.ExtTreeSet.ext_mem fun chunk => mem_runs_fitted.trans ?_)
    fun id => congrArg (·.contains id) hids
  · refine (and_congr mem_hollow_keptOf Iff.rfl).trans (and_iff_left_of_imp fun hhollow => ?_)
    show ∀ id ∈ (ofPartitions b.toPartitions).ids, partitionOf id ≠ key
    exact hids.symm ▸ b.fits.vacant key hhollow
  · refine (and_congr mem_runs_keptOf Iff.rfl).trans (and_iff_left_of_imp fun hasRuns => ?_)
    show ∃ id ∈ (ofPartitions b.toPartitions).ids, chunkOf id = chunk
    exact hids.symm ▸ b.fits.held chunk hasRuns

/-! ### Reading and sizes -/

/-- A stored bitmap is read back. -/
theorem reads_encode (b : Bitmap) : read.Reads b.encode b := by
  have hwellFormed : ∀ p ∈ b.toPartitions, p.WellFormed := by
    rw [toPartitions_eq]
    exact List.forall_mem_map.2 fun key _ => wellFormed_storedPartition b key
  have hpartition : ∀ p ∈ b.toPartitions,
      readPartition.Reads (Word.encode 4 p.key.toNat ++ p.encode) p := by
    intro p hp
    have key := Reader.reads_word Fault.truncated (show p.key.toNat < 256 ^ 4 from p.key.toNat_lt)
    refine key.bind ?_
    rw [UInt32.ofNat_toNat]
    exact Partition.reads_encode (hwellFormed p hp)
  have := b.length_toPartitions_le
  have hcount := Reader.reads_word Fault.truncated
    (show b.toPartitions.length < 256 ^ 8 by omega)
  refine hcount.bind ((Reader.reads_back_many hpartition).andThen ?_)
  rw [ofPartitions_toPartitions]
  exact Reader.reads_pure _

/-- The bitmap in front of some bytes is the one that was stored there. -/
theorem decode_encode (b : Bitmap) : decode b.encode = .ok b := by
  have hrun := reads_encode b []
  rw [List.append_nil] at hrun
  show (·.1) <$> read.run b.encode = _
  rw [hrun]
  rfl

/-- The stored form has the size that the formula gives. -/
theorem length_encode (b : Bitmap) : b.encode.length = b.encodedSize := by
  have hpartition (p : Partition) :
      (Word.encode 4 p.key.toNat ++ p.encode).length = 4 + p.encodedSize := by
    rw [List.length_append, Word.length_encode, Partition.length_encode]
  rw [encode, encodedSize, totalSize_eq_sum, List.length_append, Word.length_encode,
    List.length_flatMap, List.map_congr_left fun p _ => hpartition p]

/-- Without chunks for runs, the size of a stored bitmap is a word of eight bytes. -/
theorem IsPlain.encodedSize_lt (h : b.IsPlain) : b.encodedSize < 2 ^ 64 := by
  have hpartition : ∀ size ∈ b.toPartitions.map fun p => 4 + p.encodedSize, size ≤ 2 ^ 31 := by
    rw [toPartitions_eq, List.map_map]
    refine List.forall_mem_map.2 fun key _ => ?_
    have hplain : ∀ c ∈ (b.storedPartition key).chunks, c.asRuns = false := by
      intro c hc
      obtain ⟨id, -, rfl⟩ := mem_chunksOf.1 hc
      exact Bool.eq_false_iff.2 ((isPlain_iff.1 h).2 (chunkOf id))
    have := Partition.encodedSize_le (wellFormed_storedPartition b key) hplain
    show 4 + (b.storedPartition key).encodedSize ≤ 2 ^ 31
    omega
  have htotal := List.sum_le_card_nsmul _ _ hpartition
  have := b.length_toPartitions_le
  rw [List.length_map, Nat.nsmul_eq_mul] at htotal
  rw [encodedSize, totalSize_eq_sum]
  omega

end

end Bitmap

end BitSliced
