import Mathlib.Data.List.Forall2
import BitSliced.Proofs.Stream
import BitSliced.Proofs.WellFormed

/-!
# Streams and buffers are read alike

An index can be read from a stream, or restored from the buffers that the stream has in its frames.
The two ways go about it differently: a stream is decoded from the existence bitmap on and its
planes are filled up to the width of the bounds at the end, while restoring starts from an index
that has this width, replaces its planes, empties those that no buffer is for, and decodes the
existence bitmap last. Both come down to decoding each buffer on its own. They accept the same
buffers, be they stored bitmaps, empty, or neither, and give the same index.

## Main definitions

* `BitSliced.streamOf` — the stream with given bounds and buffers, whatever the buffers are.

## Main results

* `BitSliced.run_readFrames`, `BitSliced.Index.run_read_streamOf` — reading frames is decoding their
  buffers.
* `BitSliced.Index.restore_ofBounds_eq_ok_iff` — what restoring makes of an empty index.
* `BitSliced.Index.read_iff_restore` — **streams and buffers are read alike**.
-/

namespace BitSliced

/-! ### Streams of arbitrary buffers -/

/-- The stream with some bounds and buffers: the header, and a frame for each buffer. -/
def streamOf (maxValue minValue : Int64) (buffers : List (List UInt8)) : List UInt8 :=
  Word.encode 4 streamMagic ++ (encodeSigned maxValue ++ (encodeSigned minValue ++
    (Word.encode 4 buffers.length ++ buffers.flatMap frame)))

/-- A stream is a header and the frames that it tells. -/
theorem Index.streamOf_eq (maxValue minValue : Int64) (buffers : List (List UInt8)) :
    streamOf maxValue minValue buffers =
      Index.headerOf maxValue minValue buffers.length ++ buffers.flatMap frame := by
  simp only [streamOf, Index.headerOf, List.append_assoc]

theorem Intake.Reads.run_bind {α β : Type} {r : Intake α} {front : List UInt8} {x : α}
    (hfirst : r.Reads front x) (next : α → Intake β) (rest : List UInt8) (position : Nat) :
    (r >>= next).run ⟨front ++ rest, position, none⟩ =
      (next x).run ⟨rest, position + front.length, none⟩ := by
  rw [StateT.run_bind, hfirst]
  rfl

/-- A condition that is met takes no bytes. -/
theorem Intake.run_check_bind {β : Type} {holds : Bool} (hmet : holds = true)
    (element condition : String) (next : Unit → Intake β) (source : Source) :
    ((liftM (Error.checkFormat holds element condition) : Intake Unit) >>= next).run source =
      (next ()).run source := by
  subst hmet
  rfl

/-- Reading a frame takes it off the source, and is decoding the buffer in it. -/
theorem run_readFrame (a : Allocator) {pool : Pool} (hclean : pool.Clean) (number : Nat)
    {buffer : List UInt8} (hfits : buffer.length < 2 ^ 64) :
    ∃ pool' : Pool, pool'.Clean ∧ ∀ rest position,
      (readFrame a pool number).run ⟨frame buffer ++ rest, position, none⟩ =
        (decodeBuffer ("frame " ++ toString number) buffer).map fun m =>
          ((m, pool'), ⟨rest, position + (frame buffer).length, none⟩) := by
  have hlength : Word.value (Word.encode 8 buffer.length) = buffer.length :=
    Word.value_encode_of_lt hfits
  have hborrowed := hclean.borrow a (min buffer.length readAhead)
  have hempty := hclean.bytes_borrow a (min buffer.length readAhead)
  refine ⟨_, hborrowed.handBack ((pool.borrow a (min buffer.length readAhead)).1.append a buffer),
    fun rest position => ?_⟩
  rw [frame, List.append_assoc, readFrame,
    (Intake.reads_field (Word.length_encode 8 buffer.length)).run_bind, hlength,
    (Intake.reads_take rfl).run_bind, Buffer.append, hempty, List.nil_append, List.length_append,
    ← Nat.add_assoc]
  dsimp only
  rw [Intake.run_check_bind (decide_eq_true rfl)]
  -- Both sides now do the same with the outcome of decoding.
  cases decodeBuffer ("frame " ++ toString number) buffer <;> rfl

/-- Reading frames takes them off the source, and is decoding the buffers in them one by one. -/
theorem run_readFrames (a : Allocator) {pool : Pool} (hclean : pool.Clean) (number : Nat)
    {buffers : List (List UInt8)} (hfits : ∀ buffer ∈ buffers, buffer.length < 2 ^ 64)
    (rest : List UInt8) (position : Nat) :
    (readFrames a pool number buffers.length).run ⟨buffers.flatMap frame ++ rest, position, none⟩ =
      (decodeEach (fun i => "frame " ++ toString i) number buffers).map fun ms =>
        (ms, ⟨rest, position + (buffers.flatMap frame).length, none⟩) := by
  induction buffers generalizing pool number position with
  | nil => rfl
  | cons buffer buffers ih =>
    obtain ⟨hown, hothers⟩ := List.forall_mem_cons.1 hfits
    obtain ⟨pool', hclean', hfirst⟩ := run_readFrame a hclean number hown
    rw [List.flatMap_cons, List.append_assoc, List.length_cons, readFrames, StateT.run_bind, hfirst,
      decodeEach]
    cases decodeBuffer ("frame " ++ toString number) buffer with
    | error e => rfl
    | ok m =>
      have hsecond := ih hclean' (number + 1) hothers (position + (frame buffer).length)
      rw [List.length_append, ← Nat.add_assoc]
      show ((readFrames a pool' (number + 1) buffers.length) >>= fun ms => pure (m :: ms)).run _ = _
      rw [StateT.run_bind, hsecond]
      cases decodeEach (fun i => "frame " ++ toString i) (number + 1) buffers <;> rfl

namespace Index

/-- Reading a stream is decoding its buffers one by one, and assembling what they hold. -/
theorem run_read_streamOf (a : Allocator) (maxValue minValue : Int64) {buffers : List (List UInt8)}
    (hnonempty : buffers ≠ []) (hfew : buffers.length ≤ Planes.limit + 1)
    (hfits : ∀ buffer ∈ buffers, buffer.length < 2 ^ 64) (rest : List UInt8) (position : Nat) :
    (Index.read a).run ⟨streamOf maxValue minValue buffers ++ rest, position, none⟩ =
      (decodeEach (fun i => "frame " ++ toString i) 0 buffers).map fun ms =>
        (assemble maxValue minValue ms,
          ⟨rest, position + (streamOf maxValue minValue buffers).length, none⟩) := by
  have hpos : 1 ≤ buffers.length := List.length_pos_iff.2 hnonempty
  rw [streamOf_eq, List.append_assoc, List.length_append, ← Nat.add_assoc, read_eq,
    (reads_header maxValue minValue hpos hfew).run_bind, StateT.run_bind,
    run_readFrames a Pool.clean_empty 0 hfits]
  cases decodeEach (fun i => "frame " ++ toString i) 0 buffers <;> rfl

/-- What is read from a stream: each buffer has to hold a bitmap, the bitmaps are assembled, and the
source is left behind the last frame. -/
theorem read_streamOf_eq_ok_iff (a : Allocator) {maxValue minValue : Int64}
    {buffers : List (List UInt8)} (hnonempty : buffers ≠ [])
    (hfew : buffers.length ≤ Planes.limit + 1) (hfits : ∀ buffer ∈ buffers, buffer.length < 2 ^ 64)
    {behind : List UInt8} {position : Nat} {b : Index} {rest : Source} :
    (Index.read a).run ⟨streamOf maxValue minValue buffers ++ behind, position, none⟩ =
        .ok (b, rest) ↔
      (∃ ms, List.Forall₂ Holds buffers ms ∧ b = assemble maxValue minValue ms) ∧
        rest = ⟨behind, position + (streamOf maxValue minValue buffers).length, none⟩ := by
  have hheld (ms : List Bitmap) : List.Forall₂ Holds buffers ms ↔
      decodeEach (fun i => "frame " ++ toString i) 0 buffers = .ok ms := decodeEach_eq_ok_iff.symm
  rw [run_read_streamOf a maxValue minValue hnonempty hfew hfits]
  simp only [hheld]
  cases decodeEach (fun i => "frame " ++ toString i) 0 buffers with
  | error e => simp [Except.map]
  | ok ms => simp [Except.map, eq_comm]

/-! ### Restoring -/

/-- The bounds need no more planes than there can be. -/
theorem boundsWidth_le (maxValue minValue : Int64) :
    boundsWidth maxValue minValue ≤ Planes.limit := by
  have hnarrow := (WellFormed.ofBounds maxValue minValue).width_le
  rwa [width, ofBounds, Planes.length_blank] at hnarrow

/-- What restoring makes of the empty index with some bounds: each buffer has to hold a bitmap, and
the bitmaps are assembled. -/
theorem restore_ofBounds_eq_ok_iff {maxValue minValue : Int64} {buffers : List (List UInt8)}
    (hnonempty : buffers ≠ []) (hfew : buffers.length ≤ Planes.limit + 1) {c : Index} :
    (ofBounds maxValue minValue).restore buffers = .ok c ↔
      ∃ ms, List.Forall₂ Holds buffers ms ∧ c = assemble maxValue minValue ms := by
  obtain ⟨first, others, rfl⟩ := List.exists_cons_of_ne_nil hnonempty
  have hfew : others.length ≤ Planes.limit := Nat.le_of_succ_le_succ hfew
  -- The planes that no buffer is for are those that assembling appends.
  have hsurplus (existence : Bitmap) (planes : Planes) :
      (ofBounds maxValue minValue).takeOver existence planes =
        assemble maxValue minValue (existence :: planes) := by
    have hwidth : (ofBounds maxValue minValue).width =
        min (boundsWidth maxValue minValue) Planes.limit :=
      (Planes.length_blank _).trans (Nat.min_eq_left (boundsWidth_le maxValue minValue)).symm
    rw [takeOver, hwidth]
    rfl
  rw [restore_cons_eq_ok_iff _ hfew]
  simp only [hsurplus]
  constructor
  · rintro ⟨existence, planes, hown, hdecoded, rfl⟩
    exact ⟨existence :: planes, .cons hown hdecoded, rfl⟩
  · rintro ⟨ms, hheld, rfl⟩
    obtain ⟨existence, planes, hown, hdecoded, rfl⟩ := List.forall₂_cons_left_iff.1 hheld
    exact ⟨existence, planes, hown, hdecoded, rfl⟩

/-! ### Agreement -/

/-- **Streams and buffers are read alike.** For all bounds and all lists of 1 to 65 buffers,
whatever bytes are in them, the stream with these bounds and buffers is read exactly when the
buffers can be restored into the empty index with these bounds, and both give the same index. The
length of a buffer has to fit the word in front of its frame. -/
theorem read_iff_restore (a : Allocator) (maxValue minValue : Int64) {buffers : List (List UInt8)}
    (hpos : 1 ≤ buffers.length) (hfew : buffers.length ≤ 65)
    (hfits : ∀ buffer ∈ buffers, buffer.length < 2 ^ 64) :
    let read := (Index.read a).run (.ofBytes (streamOf maxValue minValue buffers))
    let restored := (ofBounds maxValue minValue).restore buffers
    ((∃ b rest, read = .ok (b, rest)) ↔ ∃ c, restored = .ok c) ∧
    ∀ b rest c, read = .ok (b, rest) → restored = .ok c → (b == c) = true ∧ b = c := by
  intro read restored
  have hnonempty : buffers ≠ [] := List.length_pos_iff.1 hpos
  have hread_iff (b : Index) (rest : Source) : read = .ok (b, rest) ↔
      (∃ ms, List.Forall₂ Holds buffers ms ∧ b = assemble maxValue minValue ms) ∧
        rest = ⟨[], 0 + (streamOf maxValue minValue buffers).length, none⟩ := by
    rw [← read_streamOf_eq_ok_iff a hnonempty hfew hfits, List.append_nil]
    rfl
  have hrestored_iff (c : Index) : restored = .ok c ↔
      ∃ ms, List.Forall₂ Holds buffers ms ∧ c = assemble maxValue minValue ms :=
    restore_ofBounds_eq_ok_iff hnonempty hfew
  constructor
  · constructor
    · rintro ⟨b, rest, h⟩
      exact ⟨b, (hrestored_iff b).2 ((hread_iff b rest).1 h).1⟩
    · rintro ⟨c, h⟩
      exact ⟨c, _, (hread_iff c _).2 ⟨(hrestored_iff c).1 h, rfl⟩⟩
  · intro b rest c hb hc
    have hagain : restored = .ok b := (hrestored_iff b).2 ((hread_iff b rest).1 hb).1
    obtain rfl : b = c := Except.ok.inj (hagain.symm.trans hc)
    exact ⟨BEq.rfl, rfl⟩

/-- Three buffers for an index of seven planes, the second of them empty; and two that are no stored
bitmap. -/
theorem read_iff_restore_padded :
    let nine := (Bitmap.ofIds (.ofList [9])).encode
    let read buffers := (Index.read .doubling).run (.ofBytes (streamOf 100 (-3) buffers))
    let restored := (ofBounds 100 (-3)).restore
    (∀ buffer ∈ [nine, [], nine], buffer.length < 2 ^ 64) ∧
      (∃ b rest, read [nine, [], nine] = .ok (b, rest) ∧ restored [nine, [], nine] = .ok b ∧
        b.width = 7 ∧ b.get? 9 = some 2) ∧
      (∀ buffer ∈ [[1], []], List.length (α := UInt8) buffer < 2 ^ 64) ∧
      ¬ (∃ b rest, read [[1], []] = .ok (b, rest)) ∧ ¬ ∃ c, restored [[1], []] = .ok c := by
  intro nine read restored
  have hshort : nine.length < 2 ^ 64 := by
    rw [Bitmap.length_encode]
    exact (Bitmap.isPlain_ofIds _).encodedSize_lt
  have hfits : ∀ buffer ∈ [nine, [], nine], buffer.length < 2 ^ 64 :=
    List.forall_mem_cons.2 ⟨hshort, List.forall_mem_cons.2 ⟨by decide,
      List.forall_mem_singleton.2 hshort⟩⟩
  have hheld : Holds nine (.ofIds (.ofList [9])) := (Bitmap.ofIds _).holds_encode
  have hok : restored [nine, [], nine] = .ok _ :=
    (restore_ofBounds_eq_ok_iff (by simp) (by decide)).2
      ⟨_, .cons hheld (.cons rfl (.cons hheld .nil)), rfl⟩
  obtain ⟨hboth, hsame⟩ := read_iff_restore .doubling 100 (-3) (by decide) (by decide) hfits
  obtain ⟨b, rest, hb⟩ := hboth.2 ⟨_, hok⟩
  obtain ⟨-, rfl⟩ := hsame b rest _ hb hok
  have htiny : ∀ buffer ∈ [[1], []], List.length (α := UInt8) buffer < 2 ^ 64 := by decide
  have hbad : restored [[1], []] =
      .error (.invalidFormat "existence" "failed to fill whole buffer") := rfl
  have hnone : ¬ ∃ c, restored [[1], []] = .ok c := by simp [hbad]
  have hneither := (read_iff_restore .doubling 100 (-3) (by decide) (by decide) htiny).1
  exact ⟨hfits, ⟨_, rest, hb, hok, by decide, by decide +kernel⟩, htiny, hneither.not.2 hnone,
    hnone⟩

end Index

end BitSliced
