import BitSliced.Bitmap.Partition
import BitSliced.Proofs.Stored.Chunk
import Mathlib.Algebra.Order.BigOperators.Group.List
import Mathlib.Algebra.Order.Ring.Nat

/-!
# Stored partitions are read back

A partition is read back when its chunks are well-formed and their keys ascend. Both headers give
the same announcement: one mark for every chunk, and whether positions follow the descriptions. The
positions themselves are skipped, so that only their number matters.

## Main definitions

* `BitSliced.Partition.WellFormed` — the partitions that bitmaps are stored as.

## Main results

* `BitSliced.Partition.reads_encode` — a stored partition is read back.
* `BitSliced.Partition.length_encode` — the size of a stored partition by formula.
-/

namespace BitSliced.Partition

/-- The chunks of a stored partition are well-formed and their keys ascend. -/
structure WellFormed (p : Partition) : Prop where
  chunks : ∀ c ∈ p.chunks, c.WellFormed
  ascending : p.chunks.Pairwise (·.key < ·.key)

/-- There are no more chunks than keys. -/
theorem WellFormed.length_le {p : Partition} (h : p.WellFormed) : p.chunks.length ≤ chunkLimit := by
  have hkeys : (p.chunks.map (·.key)).Pairwise (· < ·) := List.pairwise_map.2 h.ascending
  have hbounds : ∀ k ∈ p.chunks.map (·.key), 0 ≤ k ∧ k < 2 ^ 16 :=
    List.forall_mem_map.2 fun c hc => ⟨Nat.zero_le _, (h.chunks c hc).key_lt⟩
  rw [← List.length_map (·.key)]
  exact length_le_of_ascending hkeys hbounds

/-! ### Marks -/

section

variable (chunks : List Chunk)

/-- The positions of the marked chunks. -/
private abbrev marked : List Nat := (chunks.zipIdx.filter (·.1.asRuns)).map (·.2)

private theorem pairwise_marked : (marked chunks).Pairwise (· < ·) := by
  have hpositions : (chunks.zipIdx.map (·.2)).Pairwise (· < ·) := by
    rw [List.zipIdx_map_snd]
    exact List.pairwise_lt_range'
  exact hpositions.sublist (List.filter_sublist.map _)

private theorem mem_marked {i : Nat} (h : i < chunks.length) :
    i ∈ marked chunks ↔ chunks[i].asRuns = true := by
  simp [marked, List.mem_zipIdx_iff_getElem?, h]

@[simp]
theorem length_encodeMarks : (encodeMarks chunks).length = (chunks.length + 7) / 8 :=
  Chunk.length_packBits _ _ _

/-- The marks are the first bits of the bytes that they were packed into. -/
theorem bits_encodeMarks :
    ((encodeMarks chunks).flatMap fun b => (List.range 8).map b.toNat.testBit).take chunks.length =
      chunks.map (·.asRuns) := by
  have hbits := @Chunk.bits_packBits ((chunks.length + 7) / 8) 0 (marked chunks)
    (pairwise_marked chunks) fun x _ => Nat.zero_le x
  rw [encodeMarks, hbits]
  refine List.ext_getElem ?_ fun i hi hi' => ?_
  · simp only [List.length_take, List.length_map, List.length_range']
    omega
  · rw [List.length_map] at hi'
    simp [mem_marked chunks hi']

end

/-! ### Headers -/

theorem reads_plainHeader {count : Nat} (h : count ≤ chunkLimit) :
    readHeader.Reads (Word.encode 4 plainCookie ++ Word.encode 4 count)
      (List.replicate count false, storesPositions false count) := by
  have hcookie := Reader.reads_word Fault.truncated (show plainCookie < 256 ^ 4 by decide)
  have hfits : count < 256 ^ 4 := by
    rw [chunkLimit] at h
    omega
  have hnumber := Reader.reads_word Fault.truncated hfits
  refine hcookie.bind ?_
  rw [if_pos rfl]
  refine hnumber.andThen ?_
  rw [if_pos h]
  exact Reader.reads_pure _

theorem reads_markedHeader {chunks : List Chunk} (hnonempty : chunks ≠ [])
    (h : chunks.length ≤ chunkLimit) :
    readHeader.Reads (Word.encode 4 (markedCookie + 0x10000 * (chunks.length - 1)) ++
      encodeMarks chunks) (chunks.map (·.asRuns), storesPositions true chunks.length) := by
  have hpos : 0 < chunks.length := List.length_pos_iff.2 hnonempty
  have hlow : (markedCookie + 0x10000 * (chunks.length - 1)) % 0x10000 = markedCookie := by
    rw [Nat.add_mul_mod_self_left]
    rfl
  have hhigh : (markedCookie + 0x10000 * (chunks.length - 1)) / 0x10000 + 1 = chunks.length := by
    rw [markedCookie]
    omega
  have hbound : markedCookie + 0x10000 * (chunks.length - 1) < 256 ^ 4 := by
    rw [markedCookie]
    rw [chunkLimit] at h
    omega
  have hother : markedCookie + 0x10000 * (chunks.length - 1) ≠ plainCookie := by
    rw [markedCookie, plainCookie]
    omega
  refine (Reader.reads_word Fault.truncated hbound).bind ?_
  rw [if_neg hother, if_pos hlow, hhigh]
  refine (Reader.reads_bytes Fault.truncated (length_encodeMarks chunks)).andThen ?_
  simp only [bits_encodeMarks]
  exact Reader.reads_pure _

/-! ### Descriptions and contents -/

/-- The announcement that a chunk is stored behind. -/
def describe (c : Chunk) : Description := ⟨c.key, c.offsets.length⟩

theorem reads_description {c : Chunk} (h : c.WellFormed) :
    readDescription.Reads (encodeDescription c) (describe c) := by
  have := h.length_pos
  have := h.length_le
  refine (Chunk.reads_short h.key_lt).bind ?_
  refine (Chunk.reads_short (show c.offsets.length - 1 < 2 ^ 16 by omega)).andThen ?_
  rw [Nat.sub_add_cancel h.length_pos]
  exact Reader.reads_pure _

/-- Contents are read back behind any floor that their keys are above. -/
theorem reads_contents {floor : Option Nat} {chunks : List Chunk}
    (hwellFormed : ∀ c ∈ chunks, c.WellFormed) (hascending : chunks.Pairwise (·.key < ·.key))
    (habove : ∀ k ∈ floor, ∀ c ∈ chunks, k < c.key) :
    (readContents floor (chunks.map fun c => (describe c, c.asRuns))).Reads
      (chunks.flatMap (·.content)) chunks := by
  -- Each key is the floor of the contents behind it.
  induction chunks generalizing floor with
  | nil => exact Reader.reads_pure []
  | cons c chunks ih =>
    obtain ⟨hown, hothers⟩ := List.forall_mem_cons.1 hwellFormed
    obtain ⟨hnext, hrest⟩ := List.pairwise_cons.1 hascending
    have hclear : floor.any (c.key ≤ ·) = false := by
      cases floor with
      | none => rfl
      | some k => exact decide_eq_false (Nat.not_le.2 (habove k rfl c List.mem_cons_self))
    have hcontents := @ih (some c.key) hothers hrest
      fun k hk d hd => Option.some_inj.1 hk ▸ hnext d hd
    rw [List.flatMap_cons, List.map_cons, readContents, describe]
    simp only [hclear, Bool.false_eq_true, if_false]
    exact (Chunk.reads_content hown).bind (hcontents.andThen (Reader.reads_pure _))

/-! ### Partitions -/

@[simp]
theorem length_positions (start : Nat) (sizes : List Nat) :
    (positions start sizes).length = sizes.length := by
  induction sizes generalizing start with
  | nil => rfl
  | cons size sizes ih => rw [positions, List.length_cons, ih, List.length_cons]

/-- The cookie of a partition, with the number of chunks and the marks. -/
private abbrev cookie (p : Partition) : List UInt8 :=
  if p.hasRuns then
    Word.encode 4 (markedCookie + 0x10000 * (p.chunks.length - 1)) ++ encodeMarks p.chunks
  else Word.encode 4 plainCookie ++ Word.encode 4 p.chunks.length

/-- The positions of the contents, where they are stored. -/
private abbrev starts (p : Partition) : List UInt8 :=
  if storesPositions p.hasRuns p.chunks.length then
    (positions p.headerSize (p.chunks.map (·.contentSize))).flatMap (Word.encode 4)
  else []

private theorem reads_cookie {p : Partition} (h : p.WellFormed) : readHeader.Reads (cookie p)
    (p.chunks.map (·.asRuns), storesPositions p.hasRuns p.chunks.length) := by
  rw [cookie]
  by_cases hruns : p.hasRuns = true
  · have hnonempty : p.chunks ≠ [] := by
      intro hnone
      rw [hasRuns, hnone] at hruns
      exact Bool.false_ne_true hruns
    rw [if_pos hruns, hruns]
    exact reads_markedHeader hnonempty h.length_le
  · have hplain : p.chunks.map (·.asRuns) = List.replicate p.chunks.length false := by
      rw [hasRuns, List.any_eq_true] at hruns
      refine List.eq_replicate_iff.2 ⟨List.length_map _, List.forall_mem_map.2 fun c hc => ?_⟩
      exact Bool.eq_false_iff.2 fun hown => hruns ⟨c, hc, hown⟩
    rw [if_neg hruns, Bool.eq_false_iff.2 hruns, hplain]
    exact reads_plainHeader h.length_le

private theorem length_starts (p : Partition) : (starts p).length =
    if storesPositions p.hasRuns p.chunks.length then 4 * p.chunks.length else 0 := by
  rw [starts]
  split
  · rw [length_flatMap_of_length (Word.length_encode 4), length_positions, List.length_map]
  · rfl

/-- A stored partition is read back. -/
theorem reads_encode {p : Partition} (h : p.WellFormed) : (read p.key).Reads p.encode p := by
  have hdescriptions := Reader.reads_many fun c hc => reads_description (h.chunks c hc)
  have hcontents : (readContents none ((p.chunks.map describe).zip (p.chunks.map (·.asRuns)))).Reads
      (p.chunks.flatMap (·.content)) p.chunks := by
    rw [List.zip_map']
    exact reads_contents h.chunks h.ascending fun k hk => absurd hk (Option.not_mem_none k)
  rw [encode, List.append_assoc, List.append_assoc]
  refine (reads_cookie h).bind ?_
  simp only [List.length_map]
  refine hdescriptions.bind ?_
  have hskipped := length_starts p
  by_cases hpositioned : storesPositions p.hasRuns p.chunks.length = true
  · rw [if_pos hpositioned] at hskipped ⊢
    refine (Reader.reads_bytes Fault.truncated hskipped).bind ?_
    exact hcontents.andThen (Reader.reads_pure p)
  · rw [if_neg hpositioned, if_neg hpositioned]
    exact hcontents.andThen (Reader.reads_pure p)

/-- The stored form of a partition has the size that the formula gives. -/
theorem length_encode (p : Partition) : p.encode.length = p.encodedSize := by
  have hdescribed : (p.chunks.flatMap encodeDescription).length = 4 * p.chunks.length :=
    length_flatMap_of_length (fun c => by simp [encodeDescription]) p.chunks
  have hcontents : (p.chunks.flatMap (·.content)).length = totalSize (·.contentSize) p.chunks := by
    rw [totalSize_eq_sum, List.length_flatMap,
      List.map_congr_left fun c _ => Chunk.length_content c]
  have hcookie : (cookie p).length = if p.hasRuns then 4 + (p.chunks.length + 7) / 8 else 8 := by
    rw [cookie]
    split <;> simp
  rw [encode, List.length_append, List.length_append, List.length_append, hcontents, hdescribed,
    hcookie, length_starts]
  rfl

/-- Without chunks for runs, a stored partition takes up no more than `2 ^ 30` bytes. -/
theorem encodedSize_le {p : Partition} (h : p.WellFormed)
    (hplain : ∀ c ∈ p.chunks, c.asRuns = false) : p.encodedSize ≤ 2 ^ 30 := by
  have hfew : p.chunks.length ≤ 2 ^ 16 := h.length_le
  have hheader : p.headerSize ≤ 2 ^ 20 := by
    rw [headerSize]
    split <;> split <;> omega
  have hcontents : totalSize (·.contentSize) p.chunks ≤ p.chunks.length * Chunk.bitsetSize := by
    have heach := List.sum_le_card_nsmul (p.chunks.map (·.contentSize)) Chunk.bitsetSize
      (List.forall_mem_map.2 fun c hc => Chunk.contentSize_le (hplain c hc))
    rwa [List.length_map, Nat.nsmul_eq_mul, ← totalSize_eq_sum] at heach
  rw [Chunk.bitsetSize] at hcontents
  rw [encodedSize]
  omega

end BitSliced.Partition
