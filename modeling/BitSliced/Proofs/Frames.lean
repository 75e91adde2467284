import BitSliced.Proofs.Limit
import BitSliced.Proofs.StreamBuffers

/-!
# Arbitrary bytes as a stream

The bytes of a faultless source need not be a stream. They are found malformed unless they start
with a header that tells 1 to 65 frames, and then frames are taken off them as long as they start
with a whole frame and its buffer holds a bitmap. So whatever is not found malformed falls into a
header, some whole frames and a rest, and there are fewer frames than the header tells only where
one of their buffers is illegible.

## Main definitions

* `BitSliced.Legible` — buffers that hold a bitmap.
* `BitSliced.Intake.Refuses` — what is found malformed.
* `BitSliced.Intake.body` — the bytes of a frame, and the check that none is missing.

## Main results

* `BitSliced.readFrame_eq` — frames are read part by part.
* `BitSliced.Index.stream_or_illegible` — what bytes are like that are not refused.
* `BitSliced.Index.run_read_of_illegible` — the first illegible buffer decides.
-/

namespace BitSliced

/-! ### Legible buffers -/

/-- A buffer is *legible* when it holds a bitmap. -/
def Legible (buffer : List UInt8) : Prop := ∃ m, Holds buffer m

/-- Buffers are decoded one by one when all of them are legible. -/
theorem forall_legible_iff {buffers : List (List UInt8)} :
    (∀ buffer ∈ buffers, Legible buffer) ↔ ∃ ms, List.Forall₂ Holds buffers ms := by
  induction buffers with
  | nil => simp
  | cons buffer buffers ih =>
    rw [List.forall_mem_cons, ih]
    constructor
    · rintro ⟨⟨m, hown⟩, ms, hothers⟩
      exact ⟨m :: ms, .cons hown hothers⟩
    · rintro ⟨_, hheld⟩
      obtain ⟨m, ms, hown, hothers, -⟩ := List.forall₂_cons_left_iff.1 hheld
      exact ⟨⟨m, hown⟩, ms, hothers⟩

/-- Either all buffers are legible, or there is a first one that is not. -/
theorem legible_or_first_illegible (buffers : List (List UInt8)) :
    (∀ buffer ∈ buffers, Legible buffer) ∨
      ∃ before buffer after, buffers = before ++ buffer :: after ∧
        (∀ other ∈ before, Legible other) ∧ ¬ Legible buffer := by
  induction buffers with
  | nil => exact .inl fun _ h => absurd h List.not_mem_nil
  | cons buffer buffers ih =>
    by_cases hown : Legible buffer
    · rcases ih with hall | ⟨before, fault, after, rfl, hlegible, hillegible⟩
      · exact .inl (List.forall_mem_cons.2 ⟨hown, hall⟩)
      · exact .inr ⟨buffer :: before, fault, after, rfl, List.forall_mem_cons.2 ⟨hown, hlegible⟩,
          hillegible⟩
    · exact .inr ⟨[], buffer, buffers, rfl, fun _ h => absurd h List.not_mem_nil, hown⟩

/-- What is wrong with an illegible buffer is a fault of the bitmap in it. -/
theorem not_legible_iff {buffer : List UInt8} : ¬ Legible buffer ↔
    ∃ fault, Bitmap.decode buffer = .error fault ∧
      ∀ element, decodeBuffer element buffer = .error (.ofDecoding element fault.failure) := by
  unfold Legible Holds decodeBuffer
  split
  · simp
  · cases Bitmap.decode buffer <;> simp

/-! ### Refusing -/

namespace Intake

variable {α β : Type} {r : Intake α} {front bytes : List UInt8} {a : α} {next : α → Intake β}

/-- An intake *refuses* some bytes when it finds a faultless source of them malformed. -/
def Refuses (r : Intake α) (bytes : List UInt8) : Prop :=
  ∀ position, ∃ element text,
    r.run ⟨bytes, position, none⟩ = .error (.invalidFormat element text)

/-- Nothing is done any more with what was refused. -/
theorem Refuses.bind (hfirst : r.Refuses bytes) : (r >>= next).Refuses bytes := by
  intro position
  obtain ⟨element, text, h⟩ := hfirst position
  refine ⟨element, text, ?_⟩
  rw [StateT.run_bind, h]
  rfl

/-- Bytes may be refused for what is behind those that were read. -/
theorem Reads.bind_refuses (hfirst : r.Reads front a) (hsecond : (next a).Refuses bytes) :
    (r >>= next).Refuses (front ++ bytes) := by
  intro position
  rw [hfirst.run_bind]
  exact hsecond _

/-- A source with too few bytes for a field is malformed. -/
theorem field_refuses {n : Nat} (hshort : bytes.length < n) : (field n).Refuses bytes := by
  intro position
  have hfew : ¬ (bytes.take n).length = n := by
    rw [List.length_take]
    omega
  have hstopped : Source.takeExactly ⟨bytes, position, none⟩ n = .error .endOfData := if_neg hfew
  refine ⟨"bsi stream", Failure.endOfData.text, ?_⟩
  rw [StateT.run, field, ofSource, hstopped]
  rfl

/-- The bytes of a frame, of which none may be missing. -/
def body (n : Nat) : Intake (List UInt8) := do
  let bytes ← ofSource (·.take n)
  Error.checkFormat (bytes.length = n) "frame_length" "read as u64 == len"
  return bytes

theorem body_refuses {n : Nat} (hshort : bytes.length < n) : (body n).Refuses bytes := by
  intro position
  have hfew : decide ((bytes.take n).length = n) = false := by
    rw [List.length_take]
    exact decide_eq_false (by omega)
  have htaken : (ofSource (·.take n)).run ⟨bytes, position, none⟩ =
      .ok (bytes.take n, ⟨bytes.drop n, position + (bytes.take n).length, none⟩) := rfl
  refine ⟨"frame_length", "read as u64 == len", ?_⟩
  rw [body, StateT.run_bind, htaken]
  dsimp only [bind, Except.bind]
  rw [hfew]
  rfl

/-! ### What is not refused -/

/-- What is not refused has the bytes of a field in front. -/
theorem of_not_refuses_field_bind {n : Nat} {next : List UInt8 → Intake β}
    (h : ¬ (field n >>= next).Refuses bytes) :
    ∃ front after, front.length = n ∧ bytes = front ++ after ∧ ¬ (next front).Refuses after := by
  have henough : n ≤ bytes.length := by
    by_contra hshort
    exact h (field_refuses (Nat.lt_of_not_le hshort)).bind
  have hcount : (bytes.take n).length = n := List.length_take_of_le henough
  refine ⟨bytes.take n, bytes.drop n, hcount, (List.take_append_drop n bytes).symm,
    fun hsecond => ?_⟩
  have hboth := (reads_field hcount).bind_refuses hsecond
  rw [List.take_append_drop] at hboth
  exact h hboth

/-- What is not refused has the bytes of a frame in front. -/
theorem of_not_refuses_body_bind {n : Nat} {next : List UInt8 → Intake β}
    (h : ¬ (body n >>= next).Refuses bytes) :
    ∃ front after, front.length = n ∧ bytes = front ++ after := by
  have henough : n ≤ bytes.length := by
    by_contra hshort
    exact h (body_refuses (Nat.lt_of_not_le hshort)).bind
  exact ⟨bytes.take n, bytes.drop n, List.length_take_of_le henough,
    (List.take_append_drop n bytes).symm⟩

/-- What is not refused meets the conditions. -/
theorem of_not_refuses_check_bind {holds : Bool} {element condition : String}
    {next : Unit → Intake β}
    (h : ¬ ((liftM (Error.checkFormat holds element condition) : Intake Unit) >>= next).Refuses
      bytes) : holds = true ∧ ¬ (next ()).Refuses bytes := by
  cases holds with
  | true => exact ⟨rfl, h⟩
  | false => exact absurd (fun _ => ⟨element, condition, rfl⟩) h

end Intake

/-! ### Frames -/

/-- A frame is its length, as many bytes, and the bitmap in them. -/
theorem readFrame_eq (a : Allocator) (pool : Pool) (number : Nat) : readFrame a pool number = (do
    let length := Word.value (← Intake.field 8)
    let bytes ← Intake.body length
    let (buffer, pool) := pool.borrow a (min length readAhead)
    let buffer := buffer.append a bytes
    let bitmap ← decodeBuffer ("frame " ++ toString number) buffer.bytes
    return (bitmap, pool.handBack buffer)) := by
  simp [readFrame, Intake.body]

/-- Bytes that do not start with a whole frame are refused. -/
theorem exists_frame {a : Allocator} {pool : Pool} {number : Nat} {bytes : List UInt8}
    (h : ¬ (readFrame a pool number).Refuses bytes) :
    ∃ buffer after, buffer.length < 2 ^ 64 ∧ bytes = frame buffer ++ after := by
  rw [readFrame_eq] at h
  obtain ⟨length, behind, height, rfl, h₁⟩ := Intake.of_not_refuses_field_bind h
  obtain ⟨buffer, after, htold, rfl⟩ := Intake.of_not_refuses_body_bind h₁
  have hbound := Word.value_lt length
  rw [height] at hbound
  refine ⟨buffer, after, htold.trans_lt hbound, ?_⟩
  rw [frame, htold, ← height, Word.encode_value, List.append_assoc]

/-- Reading frames stops at the first illegible buffer, however many frames are told. -/
theorem run_readFrames_of_illegible (a : Allocator) {pool : Pool} (hclean : pool.Clean)
    {number count : Nat} {before : List (List UInt8)} {buffer : List UInt8}
    (hfitsBefore : ∀ other ∈ before, other.length < 2 ^ 64) (hfits : buffer.length < 2 ^ 64)
    (htold : before.length < count) (hlegible : ∀ other ∈ before, Legible other) {e : Error}
    (hillegible : decodeBuffer ("frame " ++ toString (number + before.length)) buffer = .error e)
    (behind : List UInt8) (position : Nat) :
    (readFrames a pool number count).run
      ⟨before.flatMap frame ++ (frame buffer ++ behind), position, none⟩ = .error e := by
  obtain ⟨count, rfl⟩ := Nat.exists_eq_add_one_of_ne_zero (Nat.ne_zero_of_lt htold)
  rw [readFrames]
  induction before generalizing pool number count position with
  | nil =>
    obtain ⟨pool', -, hfirst⟩ := run_readFrame a hclean number hfits
    rw [List.flatMap_nil, List.nil_append, StateT.run_bind, hfirst,
      show decodeBuffer ("frame " ++ toString number) buffer = .error e from hillegible]
    rfl
  | cons other before ih =>
    obtain ⟨⟨m, hown⟩, hothers⟩ := List.forall_mem_cons.1 hlegible
    obtain ⟨hshort, hshorts⟩ := List.forall_mem_cons.1 hfitsBefore
    obtain ⟨pool', hclean', hfirst⟩ := reads_frame a hclean number hshort
      (decodeBuffer_eq_ok_iff.2 hown)
    rw [List.length_cons] at htold hillegible
    obtain ⟨count, rfl⟩ := Nat.exists_eq_add_one_of_ne_zero (n := count) (by omega)
    rw [Nat.add_comm before.length, ← Nat.add_assoc] at hillegible
    rw [List.flatMap_cons, List.append_assoc, hfirst.run_bind, StateT.run_bind, readFrames,
      ih hclean' hshorts hothers hillegible _ count (by omega)]
    rfl

/-- Bytes start with some whole frames. Where these are fewer than there should be, an illegible
buffer is among them, or the bytes are refused. -/
theorem exists_frames (a : Allocator) {pool : Pool} (hclean : pool.Clean) (number count : Nat)
    (bytes : List UInt8) : ∃ (buffers : List (List UInt8)) (after : List UInt8),
      buffers.length ≤ count ∧
      (∀ buffer ∈ buffers, buffer.length < 2 ^ 64) ∧ bytes = buffers.flatMap frame ++ after ∧
      (buffers.length < count → (∀ buffer ∈ buffers, Legible buffer) →
        (readFrames a pool number count).Refuses bytes) := by
  induction count generalizing pool number bytes with
  | zero =>
    exact ⟨[], bytes, Nat.le_refl 0, by simp, rfl, fun hfew => absurd hfew (Nat.lt_irrefl 0)⟩
  | succ count ih =>
    by_cases hrefused : (readFrame a pool number).Refuses bytes
    · exact ⟨[], bytes, Nat.zero_le _, by simp, rfl, fun _ _ => hrefused.bind⟩
    obtain ⟨buffer, after, hfits, rfl⟩ := exists_frame hrefused
    by_cases hown : Legible buffer
    · obtain ⟨m, hown⟩ := hown
      obtain ⟨pool', hclean', hfirst⟩ :=
        reads_frame a hclean number hfits (decodeBuffer_eq_ok_iff.2 hown)
      obtain ⟨buffers, after, hfew, hothers, rfl, hfewer⟩ := ih hclean' (number + 1) after
      refine ⟨buffer :: buffers, after, Nat.succ_le_succ hfew,
        List.forall_mem_cons.2 ⟨hfits, hothers⟩, by simp, fun hless hlegible => ?_⟩
      exact hfirst.bind_refuses
        (hfewer (Nat.lt_of_succ_lt_succ hless) (List.forall_mem_cons.1 hlegible).2).bind
    · refine ⟨[buffer], after, Nat.succ_le_succ (Nat.zero_le count), by simpa, by simp,
        fun _ hlegible => ?_⟩
      exact absurd (List.forall_mem_singleton.1 hlegible) hown

namespace Index

/-! ### Headers -/

theorem encodeSigned_signedValue {bytes : List UInt8} (h : bytes.length = 8) :
    encodeSigned (signedValue bytes) = bytes := by
  have hbound : Word.value bytes < 2 ^ 64 := by simpa [h] using Word.value_lt bytes
  rw [encodeSigned, signedValue, pattern, UInt64.toUInt64_toInt64, UInt64.toNat_ofNat',
    Nat.mod_eq_of_lt hbound, ← h, Word.encode_value]

/-- Bytes that do not start with a header are refused. -/
theorem exists_header {bytes : List UInt8} (h : ¬ readHeader.Refuses bytes) :
    ∃ maxValue minValue count after, 1 ≤ count ∧ count ≤ 65 ∧
      bytes = headerOf maxValue minValue count ++ after := by
  obtain ⟨magic, _, hfour, rfl, h₁⟩ := Intake.of_not_refuses_field_bind h
  obtain ⟨hnamed, h₂⟩ := Intake.of_not_refuses_check_bind h₁
  obtain ⟨maxBytes, _, height, rfl, h₃⟩ := Intake.of_not_refuses_field_bind h₂
  obtain ⟨minBytes, _, height', rfl, h₄⟩ := Intake.of_not_refuses_field_bind h₃
  obtain ⟨count, after, hfour', rfl, h₅⟩ := Intake.of_not_refuses_field_bind h₄
  obtain ⟨hinRange, -⟩ := Intake.of_not_refuses_check_bind h₅
  obtain ⟨hpos, hfew⟩ := Bool.and_eq_true_iff.1 hinRange
  refine ⟨signedValue maxBytes, signedValue minBytes, Word.value count, after,
    of_decide_eq_true hpos, of_decide_eq_true hfew, ?_⟩
  rw [headerOf, encodeSigned_signedValue height, encodeSigned_signedValue height',
    ← of_decide_eq_true hnamed, ← hfour, Word.encode_value, hfour, ← hfour', Word.encode_value]
  simp only [List.append_assoc]

/-! ### Streams -/

/-- **Streams, and what comes close.** Bytes that are not refused start with a stream of legible
buffers, or with a header and fewer frames than it tells or as many, of which only the last one has
an illegible buffer. -/
theorem stream_or_illegible {a : Allocator} {bytes : List UInt8}
    (h : ¬ (Index.read a).Refuses bytes) :
    (∃ maxValue minValue, ∃ (buffers : List (List UInt8)) (after : List UInt8),
      1 ≤ buffers.length ∧ buffers.length ≤ 65 ∧ (∀ buffer ∈ buffers, buffer.length < 2 ^ 64) ∧
      (∀ buffer ∈ buffers, Legible buffer) ∧
      bytes = streamOf maxValue minValue buffers ++ after) ∨
    ∃ maxValue minValue count, ∃ (before : List (List UInt8)) (buffer behind : List UInt8),
      before.length < count ∧ count ≤ 65 ∧ (∀ other ∈ before, other.length < 2 ^ 64) ∧
      buffer.length < 2 ^ 64 ∧ (∀ other ∈ before, Legible other) ∧ ¬ Legible buffer ∧
      bytes = headerOf maxValue minValue count ++
        (before.flatMap frame ++ (frame buffer ++ behind)) := by
  rw [read_eq] at h
  obtain ⟨maxValue, minValue, count, rest, hpos, hfew, rfl⟩ := exists_header fun e => h e.bind
  obtain ⟨buffers, behind, hnoMore, hfits, rfl, hfewer⟩ :=
    exists_frames a Pool.clean_empty 0 count rest
  rcases legible_or_first_illegible buffers with
    hlegible | ⟨before, buffer, after, rfl, hlegible, hillegible⟩
  · have hall : buffers.length = count := by
      by_contra hless
      have hrefused := hfewer (Nat.lt_of_le_of_ne hnoMore hless) hlegible
      exact h ((reads_header maxValue minValue hpos hfew).bind_refuses hrefused.bind)
    subst hall
    refine .inl ⟨maxValue, minValue, buffers, behind, hpos, hfew, hfits, hlegible, ?_⟩
    rw [streamOf_eq, List.append_assoc]
  · obtain ⟨hfitsBefore, hfitsOthers⟩ := List.forall_mem_append.1 hfits
    rw [List.length_append, List.length_cons] at hnoMore
    refine .inr ⟨maxValue, minValue, count, before, buffer, after.flatMap frame ++ behind, by omega,
      hfew, hfitsBefore, (List.forall_mem_cons.1 hfitsOthers).1, hlegible, hillegible, ?_⟩
    simp only [List.flatMap_append, List.flatMap_cons, List.append_assoc]

/-- **The first illegible buffer decides.** Reading stops at it, whatever is behind. -/
theorem run_read_of_illegible (a : Allocator) {maxValue minValue : Int64} {count : Nat}
    {before : List (List UInt8)} {buffer : List UInt8} (hfew : count ≤ 65)
    (hfitsBefore : ∀ other ∈ before, other.length < 2 ^ 64) (hfits : buffer.length < 2 ^ 64)
    (htold : before.length < count) (hlegible : ∀ other ∈ before, Legible other) {e : Error}
    (hillegible : decodeBuffer ("frame " ++ toString before.length) buffer = .error e)
    (behind : List UInt8) (position : Nat) :
    (Index.read a).run ⟨headerOf maxValue minValue count ++
      (before.flatMap frame ++ (frame buffer ++ behind)), position, none⟩ = .error e := by
  rw [← Nat.zero_add before.length] at hillegible
  rw [read_eq, (reads_header maxValue minValue (Nat.one_le_of_lt htold) hfew).run_bind,
    StateT.run_bind, run_readFrames_of_illegible a Pool.clean_empty hfitsBefore hfits htold hlegible
      hillegible]
  rfl

end Index

end BitSliced
