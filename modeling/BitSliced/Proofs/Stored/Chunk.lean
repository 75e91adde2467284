import BitSliced.Proofs.Reading
import BitSliced.Proofs.Stored.Bits

/-!
# Stored chunks are read back

The content of a chunk is stored as an array, as bits or as runs, and each form is read back to the
same offsets. What the three forms rely on is that the offsets ascend and are below `2 ^ 16`: an
array is then in order, every bit stands for at most one offset, and the maximal runs leave gaps
between them. Two bytes also suffice for the number of runs, since a run and the gap behind it take
up two offsets at least.

## Main definitions

* `BitSliced.Chunk.WellFormed` — the chunks that bitmaps are stored as.

## Main results

* `BitSliced.Chunk.reads_content` — the content of a chunk is read back.
* `BitSliced.Chunk.length_content` — the size of the content by formula.
-/

namespace BitSliced

/-- Pieces of one length, one behind the other. -/
theorem length_flatMap_of_length {α : Type} {write : α → List UInt8} {n : Nat}
    (h : ∀ a, (write a).length = n) (l : List α) : (l.flatMap write).length = n * l.length := by
  rw [List.length_flatMap, List.map_congr_left fun a _ => h a, List.map_const',
    List.sum_replicate_nat, Nat.mul_comm]

namespace Run

/-- The first run starts at the first number. -/
theorem exists_ofAscending_cons (n : Nat) (ns : List Nat) :
    ∃ last rest, ofAscending (n :: ns) = ⟨n, last⟩ :: rest := by
  rw [ofAscending_cons]
  cases ofAscending ns with
  | nil => exact ⟨n, [], rfl⟩
  | cons r rs =>
    rw [prepend]
    split
    · exact ⟨r.last, rs, rfl⟩
    · exact ⟨n, r :: rs, rfl⟩

end Run

namespace Chunk

/-- A chunk of a stored bitmap has a key of two bytes and at least one offset; its offsets ascend
and are two bytes wide. -/
structure WellFormed (c : Chunk) : Prop where
  key_lt : c.key < 2 ^ 16
  ne_nil : c.offsets ≠ []
  ascending : c.offsets.Pairwise (· < ·)
  offset_lt : ∀ x ∈ c.offsets, x < 2 ^ 16

/-- Two bytes hold a key, an offset or a number of offsets less one. -/
theorem reads_short {n : Nat} (h : n < 2 ^ 16) : (word 2).Reads (Word.encode 2 n) n :=
  Reader.reads_word Fault.truncated (show n < 256 ^ 2 from h)

/-! ### Arrays -/

theorem orderFault?_eq_none {index previous : Nat} {l : List Nat}
    (h : (previous :: l).Pairwise (· < ·)) : orderFault? index previous l = none := by
  induction l generalizing index previous with
  | nil => rfl
  | cons x xs ih =>
    obtain ⟨habove, hrest⟩ := List.pairwise_cons.1 h
    have := habove x List.mem_cons_self
    rw [orderFault?, if_neg (by omega), if_neg (by omega), ih hrest]

theorem reads_array {offsets : List Nat} (h : offsets.Pairwise (· < ·))
    (hbound : ∀ x ∈ offsets, x < 2 ^ 16) :
    (readArray offsets.length).Reads (offsets.flatMap (Word.encode 2)) offsets := by
  have hwords := Reader.reads_back_many fun x hx => reads_short (hbound x hx)
  refine hwords.andThen ?_
  cases offsets with
  | nil => exact Reader.reads_pure []
  | cons x xs =>
    simp only [orderFault?_eq_none h]
    exact Reader.reads_pure (x :: xs)

/-! ### Bits -/

theorem reads_bitset {offsets : List Nat} (h : offsets.Pairwise (· < ·))
    (hbound : ∀ x ∈ offsets, x < 2 ^ 16) :
    (readBitset offsets.length).Reads (packBits bitsetSize 0 offsets) offsets := by
  have hunpacked : unpackBits 0 (packBits bitsetSize 0 offsets) = offsets :=
    unpackBits_packBits h fun x hx =>
      ⟨Nat.zero_le x, by have := hbound x hx; rw [bitsetSize]; omega⟩
  refine (Reader.reads_bytes Fault.truncated (length_packBits bitsetSize 0 offsets)).andThen ?_
  simp only [hunpacked, if_true]
  exact Reader.reads_pure offsets

/-! ### Runs -/

/-- Where the first run starts plays no part in whether runs fit. -/
theorem runsFit_cons_congr (first first' last : Nat) (rest : List Run) :
    runsFit (⟨first, last⟩ :: rest) = runsFit (⟨first', last⟩ :: rest) := by
  cases rest <;> rfl

/-- The maximal runs of ascending offsets stay within the chunk and leave gaps. -/
theorem runsFit_ofAscending {offsets : List Nat} (h : offsets.Pairwise (· < ·))
    (hbound : ∀ x ∈ offsets, x < 2 ^ 16) : runsFit (Run.ofAscending offsets) = true := by
  induction offsets with
  | nil => rfl
  | cons n ns ih =>
    obtain ⟨habove, hrest⟩ := List.pairwise_cons.1 h
    obtain ⟨hown, hothers⟩ := List.forall_mem_cons.1 hbound
    have hfits := ih hrest hothers
    cases ns with
    | nil => exact decide_eq_true hown
    | cons m ms =>
      -- The first run of the tail starts at `m`, so that only `n` and `m` have to be compared.
      have hnext := habove m List.mem_cons_self
      obtain ⟨last, runs, hsplit⟩ := Run.exists_ofAscending_cons m ms
      rw [hsplit] at hfits
      rw [Run.ofAscending_cons, hsplit, Run.prepend]
      by_cases hcontinued : m = n + 1
      · rw [if_pos hcontinued, runsFit_cons_congr n m]
        exact hfits
      · rw [if_neg hcontinued, runsFit, hfits, Bool.and_true, Bool.and_eq_true,
          decide_eq_true_iff, decide_eq_true_iff]
        exact ⟨hown, Nat.lt_of_le_of_ne hnext (Ne.symm hcontinued)⟩

theorem last_lt_of_runsFit {runs : List Run} (h : runsFit runs = true) {r : Run} (hr : r ∈ runs) :
    r.last < 2 ^ 16 := by
  induction runs with
  | nil => exact absurd hr List.not_mem_nil
  | cons s rest ih =>
    cases rest with
    | nil =>
      obtain rfl := List.mem_singleton.1 hr
      exact of_decide_eq_true h
    | cons t rest =>
      rw [runsFit, Bool.and_eq_true, Bool.and_eq_true] at h
      rcases List.mem_cons.1 hr with rfl | hr
      · exact of_decide_eq_true h.1.1
      · exact ih h.2 hr

/-- A run and the gap behind it take up two offsets at least. -/
theorem length_le_of_runsFit {r : Run} {rest : List Run} (h : runsFit (r :: rest) = true)
    (hordered : ∀ s ∈ r :: rest, s.first ≤ s.last) :
    r.first + 2 * (r :: rest).length ≤ 2 ^ 16 + 1 := by
  induction rest generalizing r with
  | nil =>
    have := hordered r List.mem_cons_self
    have : r.last < 2 ^ 16 := of_decide_eq_true h
    rw [List.length_singleton]
    omega
  | cons s rest ih =>
    obtain ⟨hown, hothers⟩ := List.forall_mem_cons.1 hordered
    rw [runsFit, Bool.and_eq_true, Bool.and_eq_true, decide_eq_true_iff, decide_eq_true_iff] at h
    have := ih h.2 hothers
    rw [List.length_cons]
    omega

theorem length_ofAscending_lt {offsets : List Nat} (h : offsets.Pairwise (· < ·))
    (hbound : ∀ x ∈ offsets, x < 2 ^ 16) : (Run.ofAscending offsets).length < 2 ^ 16 := by
  have hfits := runsFit_ofAscending h hbound
  have hordered : ∀ r ∈ Run.ofAscending offsets, r.first ≤ r.last := fun _ =>
    Run.first_le_last_of_mem
  cases hruns : Run.ofAscending offsets with
  | nil => exact Nat.two_pow_pos 16
  | cons r rest =>
    rw [hruns] at hfits hordered
    have := length_le_of_runsFit hfits hordered
    omega

theorem reads_run {r : Run} (hordered : r.first ≤ r.last) (hbound : r.last < 2 ^ 16) :
    readRun.Reads (encodeRun r) r := by
  have hfirst : r.first < 2 ^ 16 := by omega
  have hmore : r.last - r.first < 2 ^ 16 := by omega
  refine (reads_short hfirst).bind ((reads_short hmore).andThen ?_)
  rw [Nat.add_sub_of_le hordered]
  exact Reader.reads_pure r

@[simp]
theorem length_encodeRun (r : Run) : (encodeRun r).length = 4 := by
  simp [encodeRun]

theorem reads_runs {offsets : List Nat} (hnonempty : offsets ≠ []) (h : offsets.Pairwise (· < ·))
    (hbound : ∀ x ∈ offsets, x < 2 ^ 16) :
    readRuns.Reads (Word.encode 2 (Run.ofAscending offsets).length ++
      (Run.ofAscending offsets).flatMap encodeRun) offsets := by
  have hfits := runsFit_ofAscending h hbound
  have hpos : (Run.ofAscending offsets).length ≠ 0 := by
    obtain ⟨n, ns, rfl⟩ := List.exists_cons_of_ne_nil hnonempty
    obtain ⟨last, rest, hsplit⟩ := Run.exists_ofAscending_cons n ns
    rw [hsplit]
    exact Nat.succ_ne_zero rest.length
  have hcount := reads_short (length_ofAscending_lt h hbound)
  have hruns := Reader.reads_back_many fun r (hr : r ∈ Run.ofAscending offsets) =>
    reads_run (Run.first_le_last_of_mem hr) (last_lt_of_runsFit hfits hr)
  refine hcount.bind ?_
  simp only [if_neg hpos]
  refine hruns.andThen ?_
  simp only [hfits, if_true, Run.flatMap_members_ofAscending]
  exact Reader.reads_pure offsets

/-! ### Contents -/

namespace WellFormed

variable {c : Chunk}

theorem length_pos (h : c.WellFormed) : 0 < c.offsets.length :=
  List.length_pos_iff.2 h.ne_nil

theorem length_le (h : c.WellFormed) : c.offsets.length ≤ 2 ^ 16 :=
  length_le_of_ascending h.ascending fun x hx => ⟨Nat.zero_le x, h.offset_lt x hx⟩

end WellFormed

/-- The content of a chunk is read back from what was announced of the chunk. -/
theorem reads_content {c : Chunk} (h : c.WellFormed) :
    (readContent c.key c.offsets.length c.asRuns).Reads c.content c := by
  have hchunk {r : Reader Fault (List Nat)} {bytes : List UInt8}
      (hoffsets : r.Reads bytes c.offsets) :
      Reader.Reads (do return ⟨c.key, ← r, c.asRuns⟩) bytes c :=
    hoffsets.andThen (Reader.reads_pure c)
  rw [readContent, content, form]
  cases formOf c.asRuns c.offsets.length with
  | array => exact hchunk (reads_array h.ascending h.offset_lt)
  | bitset => exact hchunk (reads_bitset h.ascending h.offset_lt)
  | runs => exact hchunk (reads_runs h.ne_nil h.ascending h.offset_lt)

/-- The content has the size that the formula gives. -/
theorem length_content (c : Chunk) : c.content.length = c.contentSize := by
  rw [content, contentSize]
  cases c.form with
  | array => exact length_flatMap_of_length (Word.length_encode 2) c.offsets
  | bitset => exact length_packBits bitsetSize 0 c.offsets
  | runs =>
    rw [List.length_append, Word.length_encode, length_flatMap_of_length length_encodeRun]

/-- Unless it is stored as runs, the content of a chunk takes no more space than the bits of all
offsets. -/
theorem contentSize_le {c : Chunk} (h : c.asRuns = false) : c.contentSize ≤ bitsetSize := by
  rw [contentSize, form, formOf, h, if_neg Bool.false_ne_true]
  by_cases hfew : c.offsets.length ≤ arrayLimit
  · rw [if_pos hfew]
    exact Nat.mul_le_mul_left 2 hfew
  · rw [if_neg hfew]

end Chunk

end BitSliced
