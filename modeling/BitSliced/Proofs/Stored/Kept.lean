import BitSliced.Proofs.Stored.Admitted
import BitSliced.Proofs.Stored.Bitmap
import Mathlib.Data.List.Perm.Subperm

/-!
# Bitmaps that are read are stored again

Partitions are read in any order, and of two with the same key the later one counts. Those that
count are exactly the partitions that the bitmap is stored as afterwards, in ascending order: no
chunk, no mark and no hollow partition is lost or made up. So a bitmap that was read takes up hardly
more space than the bytes that it was read from.

## Main definitions

* `BitSliced.Bitmap.kept` — the partitions that count.

## Main results

* `BitSliced.Bitmap.toPartitions_ofPartitions` — the partitions that count are stored again.
* `BitSliced.Bitmap.encodedSize_le_of_decode` — the size of a bitmap that was read.
-/

namespace BitSliced.Bitmap

/-! ### Identifiers from their parts -/

section

variable {chunk offset : Nat} (hc : chunk < 2 ^ 48) (ho : offset < 2 ^ 16)
include hc ho

theorem toNat_idAt : (idAt chunk offset).toNat = chunk * 2 ^ 16 + offset := by
  rw [idAt, UInt64.toNat_ofNat']
  exact Nat.mod_eq_of_lt (by omega)

theorem chunkOf_idAt : chunkOf (idAt chunk offset) = chunk := by
  rw [chunkOf, toNat_idAt hc ho]
  omega

theorem offsetOf_idAt : offsetOf (idAt chunk offset) = offset := by
  rw [offsetOf, toNat_idAt hc ho]
  omega

end

theorem chunkNumber_lt (key : UInt32) {c : Chunk} (h : c.key < 2 ^ 16) :
    chunkNumber key c < 2 ^ 48 := by
  have := key.toNat_lt
  rw [chunkNumber]
  omega

theorem partitionOf_eq_iff {id : UInt64} {key : UInt32} :
    partitionOf id = key ↔ chunkOf id / 2 ^ 16 = key.toNat := by
  rw [← UInt32.toNat_inj, toNat_partitionOf, chunkOf]
  omega

/-- The members of a well-formed partition are those whose offset is in their chunk. -/
theorem mem_membersOf_iff {p : Partition} (h : p.WellFormed) {id : UInt64} :
    id ∈ membersOf p ↔
      ∃ c ∈ p.chunks, chunkOf id = chunkNumber p.key c ∧ offsetOf id ∈ c.offsets := by
  rw [membersOf, List.mem_flatMap]
  refine exists_congr fun c => and_congr_right fun hc => ?_
  have hnumber := chunkNumber_lt p.key (h.chunks c hc).key_lt
  rw [List.mem_map]
  constructor
  · rintro ⟨offset, ho, rfl⟩
    have hbound := (h.chunks c hc).offset_lt offset ho
    rw [chunkOf_idAt hnumber hbound, offsetOf_idAt hnumber hbound]
    exact ⟨rfl, ho⟩
  · rintro ⟨hsame, ho⟩
    exact ⟨offsetOf id, ho, by rw [← hsame, idAt_chunkOf_offsetOf]⟩

theorem partitionOf_of_mem_membersOf {p : Partition} (h : p.WellFormed) {id : UInt64}
    (hmember : id ∈ membersOf p) : partitionOf id = p.key := by
  obtain ⟨c, hc, hsame, -⟩ := (mem_membersOf_iff h).1 hmember
  have := (h.chunks c hc).key_lt
  rw [partitionOf_eq_iff, hsame, chunkNumber]
  omega

/-! ### The partitions that count -/

/-- Of partitions with the same key the last one counts. -/
def kept (ps : List Partition) : List Partition :=
  (Std.ExtTreeMap.ofList (ps.map fun p => (p.key, p))).toList.map (·.2)

section

variable {ps : List Partition} {p q : Partition} {c d : Chunk} {id : UInt64}

private theorem mem_toList_byKey {key : UInt32}
    (h : (key, p) ∈ (Std.ExtTreeMap.ofList (ps.map fun p => (p.key, p))).toList) :
    p ∈ ps ∧ p.key = key := by
  rw [Std.ExtTreeMap.mem_toList_iff_getElem?_eq_some, Std.ExtTreeMap.ofList_eq_foldl,
    List.foldl_map] at h
  have hentries : ∀ p key, (ps.foldl (fun m (p : Partition) => m.insert p.key p)
      (∅ : Std.ExtTreeMap UInt32 Partition))[key]? = some p → p ∈ ps ∧ p.key = key := by
    refine List.foldlRecOn (motive := fun m : Std.ExtTreeMap UInt32 Partition =>
      ∀ p key, m[key]? = some p → p ∈ ps ∧ p.key = key) ps _ (fun p key h => ?_)
      fun m ih q hq p key h => ?_
    · rw [Std.ExtTreeMap.getElem?_empty] at h
      cases h
    · rw [Std.ExtTreeMap.getElem?_insert] at h
      split at h
      · next hsame =>
        obtain rfl := Option.some_inj.1 h
        exact ⟨hq, Std.compare_eq_iff_eq.1 hsame⟩
      · exact ih p key h
  exact hentries p key h

theorem mem_of_mem_kept (h : p ∈ kept ps) : p ∈ ps := by
  obtain ⟨⟨key, q⟩, hstored, rfl⟩ := List.mem_map.1 h
  exact (mem_toList_byKey hstored).1

/-- The partitions that count are in ascending order of their keys. -/
theorem pairwise_kept (ps : List Partition) : (kept ps).Pairwise (·.key < ·.key) := by
  refine List.pairwise_map.2 (Std.ExtTreeMap.ordered_keys_toList.imp_of_mem ?_)
  rintro ⟨key, p⟩ ⟨key', q⟩ hp hq hbelow
  rw [(mem_toList_byKey hp).2, (mem_toList_byKey hq).2]
  exact Std.compare_eq_lt.1 hbelow

/-- No two partitions that count have the same key. -/
theorem eq_of_key_eq (hp : p ∈ kept ps) (hq : q ∈ kept ps) (hsame : p.key = q.key) : p = q := by
  have hdistinct : ((kept ps).map (·.key)).Nodup :=
    List.pairwise_map.2 ((pairwise_kept ps).imp UInt32.ne_of_lt)
  exact List.inj_on_of_nodup_map hdistinct hp hq hsame

variable (hwellFormed : ∀ p ∈ ps, p.WellFormed)

theorem mem_ofPartitions : id ∈ ofPartitions ps ↔ ∃ p ∈ kept ps, id ∈ membersOf p := by
  show id ∈ IdSet.ofList ((kept ps).flatMap membersOf) ↔ _
  rw [IdSet.mem_ofList, List.mem_flatMap]

include hwellFormed

/-- A chunk is found again from its number. -/
theorem eq_of_chunkNumber_eq (hp : p ∈ kept ps) (hc : c ∈ p.chunks) (hq : q ∈ kept ps)
    (hd : d ∈ q.chunks) (hsame : chunkNumber p.key c = chunkNumber q.key d) : p = q ∧ c = d := by
  have hwp := hwellFormed p (mem_of_mem_kept hp)
  have hwq := hwellFormed q (mem_of_mem_kept hq)
  have hck := (hwp.chunks c hc).key_lt
  have hdk := (hwq.chunks d hd).key_lt
  rw [chunkNumber, chunkNumber] at hsame
  have key : p.key = q.key := UInt32.toNat_inj.1 (by omega)
  obtain rfl : p = q := eq_of_key_eq hp hq key
  have hdistinct : (p.chunks.map (·.key)).Nodup :=
    List.pairwise_map.2 (hwp.ascending.imp Nat.ne_of_lt)
  exact ⟨rfl, List.inj_on_of_nodup_map hdistinct hc hd (by omega)⟩

/-- The members of a chunk that is kept. -/
theorem mem_and_chunkOf_eq_iff (hp : p ∈ kept ps) (hc : c ∈ p.chunks) :
    id ∈ ofPartitions ps ∧ chunkOf id = chunkNumber p.key c ↔
      chunkOf id = chunkNumber p.key c ∧ offsetOf id ∈ c.offsets := by
  rw [mem_ofPartitions]
  constructor
  · rintro ⟨⟨q, hq, hmember⟩, hsame⟩
    obtain ⟨d, hd, hsame', hoffset⟩ :=
      (mem_membersOf_iff (hwellFormed q (mem_of_mem_kept hq))).1 hmember
    obtain ⟨rfl, rfl⟩ := eq_of_chunkNumber_eq hwellFormed hp hc hq hd (hsame.symm.trans hsame')
    exact ⟨hsame, hoffset⟩
  · rintro ⟨hsame, hoffset⟩
    refine ⟨⟨p, hp, ?_⟩, hsame⟩
    exact (mem_membersOf_iff (hwellFormed p (mem_of_mem_kept hp))).2 ⟨c, hc, hsame, hoffset⟩

/-- Chunks stay marked, as each of them has an offset. -/
theorem mem_runs_ofPartitions {chunk : Nat} : chunk ∈ (ofPartitions ps).runs ↔
    ∃ p ∈ kept ps, ∃ c ∈ p.chunks, c.asRuns = true ∧ chunkNumber p.key c = chunk := by
  have hstored : chunk ∈ Std.ExtTreeSet.ofList ((kept ps).flatMap fun p =>
      (p.chunks.filter (·.asRuns)).map (chunkNumber p.key)) ↔
        ∃ p ∈ kept ps, ∃ c ∈ p.chunks, c.asRuns = true ∧ chunkNumber p.key c = chunk := by
    rw [Std.ExtTreeSet.mem_ofList, List.contains_iff_mem, List.mem_flatMap]
    simp only [List.mem_map, List.mem_filter, and_assoc]
  refine mem_runs_fitted.trans ((and_congr_left' hstored).trans (and_iff_left_of_imp ?_))
  rintro ⟨p, hp, c, hc, -, rfl⟩
  have hown := (hwellFormed p (mem_of_mem_kept hp)).chunks c hc
  obtain ⟨x, hx⟩ := List.exists_mem_of_ne_nil _ hown.ne_nil
  have hnumber := chunkNumber_lt p.key hown.key_lt
  have hsame := chunkOf_idAt hnumber (hown.offset_lt x hx)
  have hoffset := offsetOf_idAt hnumber (hown.offset_lt x hx)
  exact ⟨_, ((mem_and_chunkOf_eq_iff hwellFormed hp hc).2 ⟨hsame, hoffset.symm ▸ hx⟩).1, hsame⟩

/-- Partitions without chunks stay, as no other partition of the same key counts. -/
theorem mem_hollow_ofPartitions {key : UInt32} : key ∈ (ofPartitions ps).hollow ↔
    ∃ p ∈ kept ps, p.chunks = [] ∧ p.key = key := by
  have hstored : key ∈ Std.ExtTreeSet.ofList
      (((kept ps).filter (·.chunks.isEmpty)).map (·.key)) ↔
        ∃ p ∈ kept ps, p.chunks = [] ∧ p.key = key := by
    rw [Std.ExtTreeSet.mem_ofList, List.contains_iff_mem]
    simp only [List.mem_map, List.mem_filter, List.isEmpty_iff, and_assoc]
  refine mem_hollow_fitted.trans ((and_congr_left' hstored).trans (and_iff_left_of_imp ?_))
  rintro ⟨p, hp, hempty, rfl⟩ id hmember hsame
  obtain ⟨q, hq, hheld⟩ := mem_ofPartitions.1 hmember
  have hown := hwellFormed q (mem_of_mem_kept hq)
  obtain rfl : p = q :=
    eq_of_key_eq hp hq (hsame.symm.trans (partitionOf_of_mem_membersOf hown hheld))
  obtain ⟨c, hc, -⟩ := (mem_membersOf_iff hown).1 hheld
  rw [hempty] at hc
  exact List.not_mem_nil hc

/-- A chunk that is kept is the one that is stored again under its number. -/
theorem chunkAt_chunkNumber (hp : p ∈ kept ps) (hc : c ∈ p.chunks) :
    chunkAt (ofPartitions ps).runs ((ofPartitions ps).membersIn p.key)
      (chunkNumber p.key c) = c := by
  have hown := (hwellFormed p (mem_of_mem_kept hp)).chunks c hc
  have hnumber := chunkNumber_lt p.key hown.key_lt
  have key : chunkNumber p.key c % 0x10000 = c.key := by
    have := hown.key_lt
    rw [chunkNumber]
    omega
  have hasRuns : (ofPartitions ps).runs.contains (chunkNumber p.key c) = c.asRuns := by
    rw [Bool.eq_iff_iff, ← Std.ExtTreeSet.mem_iff_contains, mem_runs_ofPartitions hwellFormed]
    constructor
    · rintro ⟨q, hq, d, hd, hmarked, hsame⟩
      obtain ⟨rfl, rfl⟩ := eq_of_chunkNumber_eq hwellFormed hp hc hq hd hsame.symm
      exact hmarked
    · intro hmarked
      exact ⟨p, hp, c, hc, hmarked, rfl⟩
  have hoffsets : (((ofPartitions ps).membersIn p.key).filter
      (chunkOf · = chunkNumber p.key c)).map offsetOf = c.offsets := by
    have hsorted : ((((ofPartitions ps).membersIn p.key).filter
        (chunkOf · = chunkNumber p.key c)).map offsetOf).Pairwise (· < ·) := by
      refine List.pairwise_map.2 ((pairwise_membersIn.filter _).imp_of_mem fun hx hy hbelow => ?_)
      refine offsetOf_lt_of_lt hbelow ?_
      rw [of_decide_eq_true (List.mem_filter.1 hx).2, of_decide_eq_true (List.mem_filter.1 hy).2]
    refine hsorted.eq_of_mem_iff hown.ascending fun x => ?_
    rw [List.mem_map]
    constructor
    · rintro ⟨id, hid, rfl⟩
      obtain ⟨hinside, hsame⟩ := List.mem_filter.1 hid
      have hsame := of_decide_eq_true hsame
      exact ((mem_and_chunkOf_eq_iff hwellFormed hp hc).1 ⟨(mem_membersIn.1 hinside).1, hsame⟩).2
    · intro hx
      have hbound := hown.offset_lt x hx
      have hchunk := chunkOf_idAt hnumber hbound
      have hoffset := offsetOf_idAt hnumber hbound
      obtain ⟨hmember, -⟩ :=
        (mem_and_chunkOf_eq_iff hwellFormed hp hc).2 ⟨hchunk, hoffset.symm ▸ hx⟩
      refine ⟨idAt (chunkNumber p.key c) x, List.mem_filter.2 ⟨mem_membersIn.2 ⟨hmember, ?_⟩,
        decide_eq_true hchunk⟩, hoffset⟩
      rw [partitionOf_eq_iff, hchunk, chunkNumber]
      have := hown.key_lt
      omega
  rw [chunkAt, key, hasRuns, hoffsets]

/-- A partition that is kept is the one that is stored again under its key. -/
theorem storedPartition_ofPartitions (hp : p ∈ kept ps) :
    (ofPartitions ps).storedPartition p.key = p := by
  have hirrefl : Std.Irrefl fun c d : Chunk => c.key < d.key := ⟨fun c => Nat.lt_irrefl c.key⟩
  have hantisymm : Std.Antisymm fun c d : Chunk => c.key < d.key :=
    ⟨fun _ _ h h' => absurd h' (Nat.lt_asymm h)⟩
  have hown := hwellFormed p (mem_of_mem_kept hp)
  have hchunks : chunksOf (ofPartitions ps).runs ((ofPartitions ps).membersIn p.key) =
      p.chunks := by
    refine (pairwise_chunksOf fun _ => partitionOf_of_mem_membersIn).eq_of_mem_iff hown.ascending
      fun c => ?_
    rw [mem_chunksOf]
    constructor
    · rintro ⟨id, hinside, rfl⟩
      obtain ⟨hmember, key⟩ := mem_membersIn.1 hinside
      obtain ⟨q, hq, hheld⟩ := mem_ofPartitions.1 hmember
      have key' := partitionOf_of_mem_membersOf (hwellFormed q (mem_of_mem_kept hq)) hheld
      obtain rfl : q = p := eq_of_key_eq hq hp (key'.symm.trans key)
      obtain ⟨d, hd, hsame, -⟩ := (mem_membersOf_iff hown).1 hheld
      rw [hsame, chunkAt_chunkNumber hwellFormed hp hd]
      exact hd
    · intro hc
      obtain ⟨x, hx⟩ := List.exists_mem_of_ne_nil _ (hown.chunks c hc).ne_nil
      have hnumber := chunkNumber_lt p.key (hown.chunks c hc).key_lt
      have hbound := (hown.chunks c hc).offset_lt x hx
      have hchunk := chunkOf_idAt hnumber hbound
      have hheld : idAt (chunkNumber p.key c) x ∈ membersOf p :=
        (mem_membersOf_iff hown).2 ⟨c, hc, hchunk, (offsetOf_idAt hnumber hbound).symm ▸ hx⟩
      refine ⟨_, mem_membersIn.2 ⟨mem_ofPartitions.2 ⟨p, hp, hheld⟩,
        partitionOf_of_mem_membersOf hown hheld⟩, ?_⟩
      rw [hchunk, chunkAt_chunkNumber hwellFormed hp hc]
  rw [storedPartition, hchunks]

/-- The partitions are those that are kept. -/
theorem toList_partitions_ofPartitions :
    (ofPartitions ps).partitions.toList = (kept ps).map (·.key) := by
  have hascending : ((kept ps).map (·.key)).Pairwise (· < ·) :=
    List.pairwise_map.2 (pairwise_kept ps)
  refine pairwise_partitions.eq_of_mem_iff hascending fun key => ?_
  rw [Std.ExtTreeSet.mem_toList, mem_partitions, List.mem_map, mem_hollow_ofPartitions hwellFormed]
  constructor
  · rintro (⟨id, hmember, rfl⟩ | ⟨p, hp, -, rfl⟩)
    · obtain ⟨p, hp, hheld⟩ := mem_ofPartitions.1 hmember
      exact ⟨p, hp, (partitionOf_of_mem_membersOf (hwellFormed p (mem_of_mem_kept hp)) hheld).symm⟩
    · exact ⟨p, hp, rfl⟩
  · rintro ⟨p, hp, rfl⟩
    have hown := hwellFormed p (mem_of_mem_kept hp)
    -- A partition is hollow, or has a chunk, which has an offset.
    cases hchunks : p.chunks with
    | nil => exact .inr ⟨p, hp, hchunks, rfl⟩
    | cons c rest =>
      have hstored := storedPartition_ofPartitions hwellFormed hp
      have hnonempty : (ofPartitions ps).membersIn p.key ≠ [] := by
        intro hnone
        have := congrArg Partition.chunks hstored
        rw [storedPartition, chunksOf_eq_nil_iff.2 hnone, hchunks] at this
        cases this
      obtain ⟨id, hid⟩ := List.exists_mem_of_ne_nil _ hnonempty
      obtain ⟨hmember, key⟩ := mem_membersIn.1 hid
      exact .inl ⟨id, hmember, key⟩

/-- **Partitions are stored again as they were read.** A bitmap that was read is stored as the
partitions that count, in the order of their keys. -/
theorem toPartitions_ofPartitions : (ofPartitions ps).toPartitions = kept ps := by
  rw [toPartitions_eq, toList_partitions_ofPartitions hwellFormed, List.map_map]
  refine (List.map_congr_left fun p hp => ?_).trans (List.map_id _)
  exact storedPartition_ofPartitions hwellFormed hp

end

/-! ### Sizes -/

/-- A bitmap is decoded from some bytes when it is read from their front. -/
theorem decode_eq_ok_iff {bytes : List UInt8} {b : Bitmap} :
    decode bytes = .ok b ↔ ∃ after, read.run bytes = .ok (b, after) := by
  show (·.1) <$> read.run bytes = .ok b ↔ _
  cases read.run bytes with
  | error fault => simp [Functor.map, Except.map]
  | ok taken => simp [Functor.map, Except.map, Prod.ext_iff]

theorem admits_readPartition : readPartition.Admits Partition.WellFormed
    fun p => 4 + (p.encodedSize - Partition.headerSlack) := by
  intro input p after h
  obtain ⟨key, behind, htaken, h⟩ := Reader.run_bind_eq_ok.1 h
  have hsize : 4 + behind.length ≤ input.length := (Reader.admits_word Fault.truncated 4 htaken).2
  obtain ⟨⟨hwellFormed, -⟩, hsize'⟩ := Partition.admits_partition (UInt32.ofNat key) h
  refine ⟨hwellFormed, ?_⟩
  dsimp only at hsize' ⊢
  omega

/-- Counting some partitions fewer makes for no greater size. -/
theorem sum_map_kept_le (ps : List Partition) (size : Partition → Nat) :
    ((kept ps).map size).sum ≤ (ps.map size).sum := by
  have hdistinct : (kept ps).Nodup := (pairwise_kept ps).imp fun hbelow hsame => by
    rw [hsame] at hbelow
    exact UInt32.lt_irrefl _ hbelow
  obtain ⟨l, hsame, hinside⟩ := List.subperm_of_subset hdistinct fun _ => mem_of_mem_kept
  rw [← (hsame.map size).sum_eq]
  exact (hinside.map size).sum_le_sum fun _ _ => Nat.zero_le _

/-- A bitmap that was read takes up no more space than the bytes that it was read from, but for the
headers of its partitions. -/
theorem encodedSize_le_of_decode {bytes : List UInt8} {b : Bitmap} (h : decode bytes = .ok b) :
    b.encodedSize ≤ bytes.length + Partition.headerSlack * 2 ^ 32 := by
  obtain ⟨after, h⟩ := decode_eq_ok_iff.1 h
  obtain ⟨count, behind, htaken, h⟩ := Reader.run_bind_eq_ok.1 h
  obtain ⟨ps, _, htaken', h⟩ := Reader.run_bind_eq_ok.1 h
  obtain ⟨rfl, rfl⟩ := Prod.mk.inj (Reader.run_pure_eq_ok.1 h)
  have hsize : 8 + behind.length ≤ bytes.length := (Reader.admits_word Fault.truncated 8 htaken).2
  obtain ⟨⟨-, hwellFormed⟩, hsize'⟩ := admits_readPartition.many count htaken'
  have hstored := toPartitions_ofPartitions hwellFormed
  have hfew := length_toPartitions_le (b := ofPartitions ps)
  have heach : ((kept ps).map fun p => 4 + p.encodedSize).sum ≤
      ((kept ps).map fun p => 4 + (p.encodedSize - Partition.headerSlack)).sum +
        Partition.headerSlack * (kept ps).length := by
    rw [Nat.mul_comm, ← List.sum_replicate_nat, ← List.map_const', ← List.sum_map_add]
    exact List.sum_le_sum fun p _ => by omega
  have hfewer := sum_map_kept_le ps fun p => 4 + (p.encodedSize - Partition.headerSlack)
  rw [hstored] at hfew
  have hslack := Nat.mul_le_mul_left Partition.headerSlack hfew
  rw [encodedSize, hstored, totalSize_eq_sum]
  dsimp only at hsize'
  omega

end BitSliced.Bitmap
