import BitSliced.Proofs.Stored.Partition

/-!
# What is read as chunks and partitions

Reading accepts more bytes than are ever stored: a header may have a mark for every chunk without
marking any, positions may have any value, and what a chunk of runs announces plays no part.
Whatever is read is well-formed all the same. Storing it again takes up no more space than it was
read from, but for a header with marks that no chunk needs: the header without marks has positions
in any case, and takes up to 15 more bytes.

## Main results

* `BitSliced.Chunk.admits_content` — chunks that are read are well-formed, and their content takes
  up no more space when it is stored again.
* `BitSliced.Partition.admits_partition` — the same for partitions, up to the header.
-/

namespace BitSliced

/-! ### Runs of runs -/

namespace Run

theorem length_prepend_le (n : Nat) (runs : List Run) :
    (prepend n runs).length ≤ runs.length + 1 := by
  cases runs with
  | nil => exact Nat.le_refl 1
  | cons r rs =>
    rw [prepend]
    split
    · exact Nat.le_succ _
    · exact Nat.le_refl _

/-- Consecutive numbers in front of a list make for one more run at most. -/
theorem length_ofAscending_range'_append_le (first size : Nat) (ns : List Nat) :
    (ofAscending (List.range' first size ++ ns)).length ≤ (ofAscending ns).length + 1 := by
  induction size generalizing first with
  | zero => exact Nat.le_succ _
  | succ size ih =>
    have hothers := ih (first + 1)
    rw [List.range'_succ, List.cons_append, ofAscending_cons]
    cases size with
    | zero => exact length_prepend_le first _
    | succ size =>
      -- The first number joins the run of its successor, so that their number stays.
      rw [List.range'_succ, List.cons_append] at hothers ⊢
      obtain ⟨last, runs, hsplit⟩ := exists_ofAscending_cons (first + 1)
        (List.range' (first + 1 + 1) size ++ ns)
      rw [hsplit] at hothers ⊢
      rw [prepend, if_pos rfl]
      exact hothers

/-- The members of some runs have no more maximal runs than these. -/
theorem length_ofAscending_flatMap_members_le (runs : List Run) :
    (ofAscending (runs.flatMap members)).length ≤ runs.length := by
  induction runs with
  | nil => exact Nat.le_refl 0
  | cons r rs ih =>
    have := length_ofAscending_range'_append_le r.first (r.last + 1 - r.first) (rs.flatMap members)
    rw [List.flatMap_cons, members, List.length_cons]
    omega

theorem mem_members {r : Run} {x : Nat} : x ∈ r.members ↔ r.first ≤ x ∧ x ≤ r.last := by
  rw [members, List.mem_range'_1]
  omega

end Run

namespace Chunk

/-! ### Offsets -/

/-- Offsets that a chunk may have: at least one, in ascending order and two bytes wide. -/
structure AreOffsets (offsets : List Nat) : Prop where
  ne_nil : offsets ≠ []
  ascending : offsets.Pairwise (· < ·)
  lt : ∀ x ∈ offsets, x < 2 ^ 16

theorem AreOffsets.wellFormed {offsets : List Nat} (h : AreOffsets offsets) {key : Nat}
    (hkey_lt : key < 2 ^ 16) (asRuns : Bool) : WellFormed ⟨key, offsets, asRuns⟩ :=
  ⟨hkey_lt, h.ne_nil, h.ascending, h.lt⟩

/-- Offsets without a fault in their order ascend. -/
theorem pairwise_of_orderFault?_eq_none {index previous : Nat} {l : List Nat}
    (h : orderFault? index previous l = none) : (previous :: l).Pairwise (· < ·) := by
  rw [← List.isChain_iff_pairwise]
  induction l generalizing index previous with
  | nil => exact .singleton previous
  | cons x xs ih =>
    rw [orderFault?] at h
    split at h
    · cases h
    · split at h
      · cases h
      · exact .cons_cons (by omega) (ih h)

theorem admits_array {n : Nat} (hpos : 0 < n) :
    (readArray n).Admits (fun offsets => AreOffsets offsets ∧ offsets.length = n)
      fun _ => 2 * n := by
  intro input offsets after h
  obtain ⟨words, behind, htaken, h⟩ := Reader.run_bind_eq_ok.1 h
  obtain ⟨⟨hcount, hbound⟩, hsize⟩ := (Reader.admits_word Fault.truncated 2).many_const n htaken
  cases words with
  | nil => exact absurd hcount (Nat.ne_of_lt hpos)
  | cons x xs =>
    dsimp only at h
    cases hordered : orderFault? 1 x xs with
    | some fault =>
      rw [hordered] at h
      cases h
    | none =>
      rw [hordered] at h
      obtain ⟨rfl, rfl⟩ := Prod.mk.inj (Reader.run_pure_eq_ok.1 h)
      have hascending := pairwise_of_orderFault?_eq_none hordered
      exact ⟨⟨⟨List.cons_ne_nil x xs, hascending, hbound⟩, hcount⟩, hsize⟩

/-! ### Bits -/

theorem mem_unpackBits_bounds {start x : Nat} {bytes : List UInt8}
    (h : x ∈ unpackBits start bytes) : start ≤ x ∧ x < start + 8 * bytes.length := by
  induction bytes generalizing start with
  | nil => exact absurd h List.not_mem_nil
  | cons b bs ih =>
    rw [List.length_cons]
    rcases List.mem_append.1 h with hfirst | hothers
    · obtain ⟨j, hj, rfl⟩ := List.mem_map.1 hfirst
      have := List.mem_range.1 (List.mem_filter.1 hj).1
      omega
    · have := ih hothers
      omega

/-- Bits are unpacked in ascending order. -/
theorem pairwise_unpackBits (start : Nat) (bytes : List UInt8) :
    (unpackBits start bytes).Pairwise (· < ·) := by
  induction bytes generalizing start with
  | nil => exact .nil
  | cons b bs ih =>
    refine List.pairwise_append.2 ⟨?_, ih (start + 8), fun x hx y hy => ?_⟩
    · refine List.pairwise_map.2 ((List.pairwise_lt_range.filter _).imp fun hbelow => ?_)
      exact Nat.add_lt_add_left hbelow start
    · obtain ⟨j, hj, rfl⟩ := List.mem_map.1 hx
      have := List.mem_range.1 (List.mem_filter.1 hj).1
      have := (mem_unpackBits_bounds hy).1
      omega

theorem admits_bitset {n : Nat} (hpos : 0 < n) :
    (readBitset n).Admits (fun offsets => AreOffsets offsets ∧ offsets.length = n)
      fun _ => bitsetSize := by
  intro input offsets after h
  obtain ⟨bytes, behind, htaken, hcounted⟩ := Reader.run_bind_eq_ok.1 h
  obtain ⟨hsize, rfl⟩ := Reader.run_bytes_eq_ok.1 htaken
  dsimp only at hcounted
  split at hcounted
  · next hcount =>
    obtain ⟨rfl, rfl⟩ := Prod.mk.inj (Reader.run_pure_eq_ok.1 hcounted)
    refine ⟨⟨⟨List.length_pos_iff.1 (hcount ▸ hpos), pairwise_unpackBits 0 bytes, fun x hx => ?_⟩,
      hcount⟩, ?_⟩
    · have := (mem_unpackBits_bounds hx).2
      rw [hsize, bitsetSize] at this
      omega
    · rw [List.length_append, hsize]
  · cases hcounted

/-! ### Runs -/

theorem admits_run : readRun.Admits (fun r => r.first ≤ r.last) fun _ => 4 := by
  intro input r after h
  obtain ⟨first, behind, htaken, h⟩ := Reader.run_bind_eq_ok.1 h
  obtain ⟨more, _, htaken', h⟩ := Reader.run_bind_eq_ok.1 h
  obtain ⟨rfl, rfl⟩ := Prod.mk.inj (Reader.run_pure_eq_ok.1 h)
  have hsize : 2 + behind.length ≤ input.length := (Reader.admits_word Fault.truncated 2 htaken).2
  have hsize' : 2 + after.length ≤ behind.length := (Reader.admits_word Fault.truncated 2 htaken').2
  refine ⟨Nat.le_add_right first more, ?_⟩
  show 4 + after.length ≤ input.length
  omega

/-- The first run of some that fit starts in front of all others. -/
theorem first_le_of_runsFit {r : Run} {rest : List Run} (hfits : runsFit (r :: rest) = true)
    (hordered : ∀ s ∈ r :: rest, s.first ≤ s.last) : ∀ s ∈ r :: rest, r.first ≤ s.first := by
  induction rest generalizing r with
  | nil => exact List.forall_mem_singleton.2 (Nat.le_refl _)
  | cons t rest ih =>
    obtain ⟨hown, hothers⟩ := List.forall_mem_cons.1 hordered
    rw [runsFit, Bool.and_eq_true, Bool.and_eq_true, decide_eq_true_iff,
      decide_eq_true_iff] at hfits
    refine List.forall_mem_cons.2 ⟨Nat.le_refl _, fun s hs => ?_⟩
    have := ih hfits.2 hothers s hs
    omega

/-- The members of runs that fit ascend. -/
theorem pairwise_flatMap_members {runs : List Run} (hfits : runsFit runs = true)
    (hordered : ∀ r ∈ runs, r.first ≤ r.last) : (runs.flatMap Run.members).Pairwise (· < ·) := by
  induction runs with
  | nil => exact .nil
  | cons r rest ih =>
    rw [List.flatMap_cons]
    cases rest with
    | nil =>
      rw [List.flatMap_nil, List.append_nil]
      exact List.pairwise_lt_range'
    | cons s rest =>
      have hothers := (List.forall_mem_cons.1 hordered).2
      rw [runsFit, Bool.and_eq_true, Bool.and_eq_true, decide_eq_true_iff,
        decide_eq_true_iff] at hfits
      refine List.pairwise_append.2
        ⟨List.pairwise_lt_range', ih hfits.2 hothers, fun x hx y hy => ?_⟩
      obtain ⟨t, ht, hy⟩ := List.mem_flatMap.1 hy
      have := first_le_of_runsFit hfits.2 hothers t ht
      have := (Run.mem_members.1 hx).2
      have := (Run.mem_members.1 hy).1
      omega

theorem areOffsets_of_runsFit {runs : List Run} (hnonempty : runs ≠ [])
    (hfits : runsFit runs = true) (hordered : ∀ r ∈ runs, r.first ≤ r.last) :
    AreOffsets (runs.flatMap Run.members) where
  ne_nil := by
    obtain ⟨r, hr⟩ := List.exists_mem_of_ne_nil runs hnonempty
    exact List.ne_nil_of_mem (List.mem_flatMap.2
      ⟨r, hr, Run.mem_members.2 ⟨Nat.le_refl _, hordered r hr⟩⟩)
  ascending := pairwise_flatMap_members hfits hordered
  lt x hx := by
    obtain ⟨r, hr, hx⟩ := List.mem_flatMap.1 hx
    exact Nat.lt_of_le_of_lt (Run.mem_members.1 hx).2 (last_lt_of_runsFit hfits hr)

theorem admits_runs :
    readRuns.Admits AreOffsets fun offsets => 2 + 4 * (Run.ofAscending offsets).length := by
  intro input offsets after h
  obtain ⟨count, behind, htaken, h⟩ := Reader.run_bind_eq_ok.1 h
  have hsize : 2 + behind.length ≤ input.length := (Reader.admits_word Fault.truncated 2 htaken).2
  by_cases hzero : count = 0
  · rw [if_pos hzero] at h
    cases h
  · rw [if_neg hzero] at h
    obtain ⟨runs, behind', htaken', h⟩ := Reader.run_bind_eq_ok.1 h
    obtain ⟨⟨hlength, hordered⟩, hsize'⟩ := admits_run.many_const count htaken'
    split at h
    · next hfits =>
      obtain ⟨rfl, rfl⟩ := Prod.mk.inj (Reader.run_pure_eq_ok.1 h)
      have := Run.length_ofAscending_flatMap_members_le runs
      refine ⟨areOffsets_of_runsFit (List.length_pos_iff.1 ?_) hfits hordered, ?_⟩
      · rw [hlength]
        exact Nat.pos_of_ne_zero hzero
      · dsimp only at hsize' ⊢
        omega
    · cases h

/-! ### Contents -/

/-- A chunk that is read is well-formed, and its content takes up no more space when it is stored
again. -/
theorem admits_content {key cardinality : Nat} (asRuns : Bool) (hkey_lt : key < 2 ^ 16)
    (hpos : 0 < cardinality) : (readContent key cardinality asRuns).Admits
      (fun c => c.WellFormed ∧ c.key = key ∧ c.asRuns = asRuns) contentSize := by
  intro input c after h
  rw [readContent] at h
  cases hform : formOf asRuns cardinality with
  | array =>
    rw [hform] at h
    obtain ⟨offsets, _, htaken, h⟩ := Reader.run_bind_eq_ok.1 h
    obtain ⟨rfl, rfl⟩ := Prod.mk.inj (Reader.run_pure_eq_ok.1 h)
    obtain ⟨⟨hspread, hcount⟩, hsize⟩ := admits_array hpos htaken
    refine ⟨⟨hspread.wellFormed hkey_lt asRuns, rfl, rfl⟩, ?_⟩
    rw [contentSize, Chunk.form, hcount, hform]
    exact hsize
  | bitset =>
    rw [hform] at h
    obtain ⟨offsets, _, htaken, h⟩ := Reader.run_bind_eq_ok.1 h
    obtain ⟨rfl, rfl⟩ := Prod.mk.inj (Reader.run_pure_eq_ok.1 h)
    obtain ⟨⟨hspread, hcount⟩, hsize⟩ := admits_bitset hpos htaken
    refine ⟨⟨hspread.wellFormed hkey_lt asRuns, rfl, rfl⟩, ?_⟩
    rw [contentSize, Chunk.form, hcount, hform]
    exact hsize
  | runs =>
    rw [hform] at h
    obtain ⟨offsets, _, htaken, h⟩ := Reader.run_bind_eq_ok.1 h
    obtain ⟨rfl, rfl⟩ := Prod.mk.inj (Reader.run_pure_eq_ok.1 h)
    obtain ⟨hspread, hsize⟩ := admits_runs htaken
    have hmarked : asRuns = true := by
      cases asRuns with
      | true => rfl
      | false =>
        rw [formOf, if_neg Bool.false_ne_true] at hform
        split at hform <;> cases hform
    refine ⟨⟨hspread.wellFormed hkey_lt asRuns, rfl, rfl⟩, ?_⟩
    rw [contentSize, Chunk.form, formOf, if_pos hmarked]
    exact hsize

end Chunk

namespace Partition

/-! ### Partitions -/

theorem admits_description :
    readDescription.Admits (fun d => d.key < 2 ^ 16 ∧ 0 < d.cardinality) fun _ => 4 := by
  intro input d after h
  obtain ⟨key, behind, htaken, h⟩ := Reader.run_bind_eq_ok.1 h
  obtain ⟨less, _, htaken', h⟩ := Reader.run_bind_eq_ok.1 h
  obtain ⟨rfl, rfl⟩ := Prod.mk.inj (Reader.run_pure_eq_ok.1 h)
  obtain ⟨hkey_lt, hsize⟩ := Reader.admits_word Fault.truncated 2 htaken
  have hsize' : 2 + after.length ≤ behind.length := (Reader.admits_word Fault.truncated 2 htaken').2
  refine ⟨⟨hkey_lt, Nat.succ_pos less⟩, ?_⟩
  dsimp only at hsize ⊢
  omega

/-- A header without marks has positions behind it. A header with marks has at least one, and has
positions from four marks on. -/
theorem run_readHeader_eq_ok {input after : List UInt8} {marks : List Bool} {positioned : Bool}
    (h : readHeader.run input = .ok ((marks, positioned), after)) :
    (marks.any id = false ∧ positioned = true ∧ 8 + after.length ≤ input.length) ∨
    (0 < marks.length ∧ positioned = decide (positionLimit ≤ marks.length) ∧
      4 + (marks.length + 7) / 8 + after.length ≤ input.length) := by
  obtain ⟨cookie, behind, htaken, h⟩ := Reader.run_bind_eq_ok.1 h
  have hsize : 4 + behind.length ≤ input.length := (Reader.admits_word Fault.truncated 4 htaken).2
  by_cases hplain : cookie = plainCookie
  · rw [if_pos hplain] at h
    obtain ⟨count, behind', htaken', h⟩ := Reader.run_bind_eq_ok.1 h
    have hsize' : 4 + behind'.length ≤ behind.length :=
      (Reader.admits_word Fault.truncated 4 htaken').2
    split at h
    · obtain ⟨hsame, rfl⟩ := Prod.mk.inj (Reader.run_pure_eq_ok.1 h)
      obtain ⟨rfl, rfl⟩ := Prod.mk.inj hsame
      refine .inl ⟨?_, rfl, by omega⟩
      rw [List.any_replicate]
      split <;> rfl
    · cases h
  · rw [if_neg hplain] at h
    split at h
    · obtain ⟨bytes, behind', htaken', hreturned⟩ := Reader.run_bind_eq_ok.1 h
      obtain ⟨hlength, rfl⟩ := Reader.run_bytes_eq_ok.1 htaken'
      obtain ⟨hsame, rfl⟩ := Prod.mk.inj (Reader.run_pure_eq_ok.1 hreturned)
      obtain ⟨rfl, rfl⟩ := Prod.mk.inj hsame
      have hcount : ((bytes.flatMap fun b => (List.range 8).map b.toNat.testBit).take
          (cookie / 0x10000 + 1)).length = cookie / 0x10000 + 1 := by
        have hbits : (bytes.flatMap fun b => (List.range 8).map b.toNat.testBit).length =
            8 * bytes.length := by
          simp [List.length_flatMap, List.map_const', Nat.mul_comm]
        rw [List.length_take, hbits]
        omega
      rw [hcount]
      rw [List.length_append] at hsize
      exact .inr ⟨Nat.succ_pos _, rfl, by omega⟩
    · cases h

/-- Contents that are read are those of well-formed chunks, with the announced marks and with keys
that ascend from above the floor. -/
theorem admits_contents {floor : Option Nat} {announced : List (Description × Bool)}
    (h : ∀ a ∈ announced, a.1.key < 2 ^ 16 ∧ 0 < a.1.cardinality) :
    (readContents floor announced).Admits
      (fun chunks => (∀ c ∈ chunks, c.WellFormed) ∧ chunks.Pairwise (·.key < ·.key) ∧
        (∀ k ∈ floor, ∀ c ∈ chunks, k < c.key) ∧ chunks.map (·.asRuns) = announced.map (·.2))
      (totalSize (·.contentSize)) := by
  -- Each key that is read is the floor of what follows.
  induction announced generalizing floor with
  | nil =>
    intro input chunks after htaken
    obtain ⟨rfl, rfl⟩ := Prod.mk.inj (Reader.run_pure_eq_ok.1 htaken)
    simp
  | cons a announced ih =>
    obtain ⟨d, asRuns⟩ := a
    obtain ⟨⟨hkey_lt, hpos⟩, hothers⟩ := List.forall_mem_cons.1 h
    intro input chunks after htaken
    rw [readContents] at htaken
    split at htaken
    · cases htaken
    · next hclear =>
      obtain ⟨chunk, behind, hfirst, htaken⟩ := Reader.run_bind_eq_ok.1 htaken
      obtain ⟨rest, _, hsecond, htaken⟩ := Reader.run_bind_eq_ok.1 htaken
      obtain ⟨rfl, rfl⟩ := Prod.mk.inj (Reader.run_pure_eq_ok.1 htaken)
      obtain ⟨⟨hwellFormed, key, hmark⟩, hsize⟩ := Chunk.admits_content asRuns hkey_lt hpos hfirst
      obtain ⟨⟨hwellFormed', hascending, habove, hmarks⟩, hsize'⟩ := ih hothers hsecond
      have hnext : ∀ c ∈ rest, d.key < c.key := habove d.key rfl
      refine ⟨⟨List.forall_mem_cons.2 ⟨hwellFormed, hwellFormed'⟩,
        List.pairwise_cons.2 ⟨key ▸ hnext, hascending⟩, fun k hk => ?_, ?_⟩, ?_⟩
      · have : k < d.key := by
          obtain rfl := Option.mem_def.1 hk
          simpa using hclear
        refine List.forall_mem_cons.2 ⟨key ▸ this, fun c hc => ?_⟩
        exact Nat.lt_trans this (hnext c hc)
      · rw [List.map_cons, List.map_cons, hmark, hmarks]
      · rw [totalSize_cons]
        omega

/-- How many bytes the header of a partition can take up more than it was read from. -/
def headerSlack : Nat := 15

/-- The header of a partition takes up little more space than the header, the descriptions and the
positions that its chunks were announced with. -/
theorem headerSize_le_of_header (key : UInt32) {chunks : List Chunk} {positioned : Bool}
    {input after : List UInt8}
    (h : readHeader.run input = .ok ((chunks.map (·.asRuns), positioned), after)) :
    headerSize ⟨key, chunks⟩ + after.length ≤ input.length + 4 * chunks.length +
      (if positioned then 4 * chunks.length else 0) + headerSlack := by
  have hhasRuns : (⟨key, chunks⟩ : Partition).hasRuns = (chunks.map (·.asRuns)).any id := by
    rw [hasRuns, List.any_map]
    rfl
  rw [headerSize, hhasRuns, headerSlack]
  rcases run_readHeader_eq_ok h with ⟨hplain, rfl, hsize⟩ | ⟨-, rfl, hsize⟩
  · rw [hplain]
    simp only [storesPositions, Bool.not_false, Bool.true_or, Bool.false_eq_true, if_false, if_true]
    omega
  · rw [List.length_map] at hsize
    rw [List.length_map, storesPositions]
    dsimp only
    by_cases hmany : positionLimit ≤ chunks.length
    · rw [decide_eq_true hmany, Bool.or_true, if_pos rfl]
      split <;> omega
    · rw [decide_eq_false hmany, Bool.or_false]
      rw [positionLimit] at hmany
      cases (chunks.map (·.asRuns)).any id with
      | true =>
        simp only [Bool.not_true, Bool.false_eq_true, if_false, if_true]
        omega
      | false =>
        simp only [Bool.not_false, Bool.false_eq_true, if_false, if_true]
        omega

/-- A partition that is read is well-formed, and takes up no more space when it is stored again, but
for the header. -/
theorem admits_partition (key : UInt32) :
    (read key).Admits (fun p => p.WellFormed ∧ p.key = key)
      fun p => p.encodedSize - headerSlack := by
  intro input p after h
  obtain ⟨⟨marks, positioned⟩, behind, hheader, h⟩ := Reader.run_bind_eq_ok.1 h
  obtain ⟨descriptions, behind', htaken, h⟩ := Reader.run_bind_eq_ok.1 h
  obtain ⟨⟨hcount, hdescribed⟩, hsize⟩ := admits_description.many_const marks.length htaken
  have hpairs : ∀ a ∈ descriptions.zip marks, a.1.key < 2 ^ 16 ∧ 0 < a.1.cardinality :=
    fun a ha => hdescribed a.1 (List.of_mem_zip ha).1
  dsimp only at h
  -- The positions are skipped where there are any.
  have hcontents : ∃ behind'', (if positioned then 4 * marks.length else 0) + behind''.length ≤
      behind'.length ∧ ((readContents none (descriptions.zip marks) >>= fun chunks =>
        pure ⟨key, chunks⟩ : Reader Fault Partition).run behind'' = .ok (p, after)) := by
    split at h
    · next hpositioned =>
      obtain ⟨positions, behind'', hskipped, hrest⟩ := Reader.run_bind_eq_ok.1 h
      obtain ⟨hlength, rfl⟩ := Reader.run_bytes_eq_ok.1 hskipped
      refine ⟨behind'', ?_, hrest⟩
      rw [if_pos hpositioned, List.length_append, hlength]
    · next hpositioned => exact ⟨behind', by rw [if_neg hpositioned, Nat.zero_add], h⟩
  obtain ⟨behind'', hskipped, hrest⟩ := hcontents
  obtain ⟨chunks, _, hread, hreturned⟩ := Reader.run_bind_eq_ok.1 hrest
  obtain ⟨rfl, rfl⟩ := Prod.mk.inj (Reader.run_pure_eq_ok.1 hreturned)
  obtain ⟨⟨hwellFormed, hascending, -, hmarked⟩, hstored⟩ := admits_contents hpairs hread
  rw [List.map_snd_zip (Nat.le_of_eq hcount.symm)] at hmarked
  subst hmarked
  refine ⟨⟨⟨hwellFormed, hascending⟩, rfl⟩, ?_⟩
  have hslack := headerSize_le_of_header key hheader
  have hshorter : behind.length ≤ input.length := by
    rcases run_readHeader_eq_ok hheader with ⟨-, -, hsize⟩ | ⟨-, -, hsize⟩ <;> omega
  rw [List.length_map] at hsize hskipped
  dsimp only at hsize hstored ⊢
  rw [encodedSize]
  dsimp only
  omega

end Partition

end BitSliced
