import BitSliced.Index.Stream
import BitSliced.Proofs.Buffers
import BitSliced.Proofs.Pool
import BitSliced.Proofs.Reading

/-!
# Streams are read back

Writing an index puts a header and one frame for each buffer into the sink, and reading takes the
same bytes off the source. The buffers that the bytes pass through come from a pool; since borrowed
buffers are empty, what a buffer was used for before does not show. That an index is sent in parts
does not show either, not even in a sink that becomes full.

An index is *streamable* when the word in front of each frame can tell its length. That is so for
every index whose bitmaps are of plain layout.

## Main definitions

* `BitSliced.Index.stream` — the bytes of a stream: the header, and the frames of all buffers.
* `BitSliced.Intake.Reads` — what is read from the front of a source.
* `BitSliced.Index.headerOf`, `BitSliced.Index.readHeader` — the header of a stream.
* `BitSliced.Index.assemble` — the index with given bounds and bitmaps.
* `BitSliced.Index.Streamable` — the indexes that are read back.
* `BitSliced.Index.readSeveral` — reads streams one behind the other.

## Main results

* `BitSliced.Index.length_stream` — the length of a stream by formula.
* `BitSliced.Index.read_eq` — a stream is read as its header and its frames.
* `BitSliced.Index.output_eq` — outputting an index is sending its stream at once.
* `BitSliced.Index.write_unlimited`, `BitSliced.Index.run_output_of_full` — what is written, and
  what is left of it in a sink that is too small.
* `BitSliced.Index.reads_stream` — what is read back.
* `BitSliced.Index.stream_round_trip` — **streams round trip**, also one behind the other.
-/

namespace BitSliced

/-! ### The bytes of a stream -/

/-- A buffer behind its length. -/
def frame (buffer : List UInt8) : List UInt8 := Word.encode 8 buffer.length ++ buffer

theorem length_frame (buffer : List UInt8) : (frame buffer).length = 8 + buffer.length := by
  rw [frame, List.length_append, Word.length_encode]

theorem length_frames (bitmaps : List Bitmap) : ((bitmaps.map (·.encode)).flatMap frame).length =
    8 * bitmaps.length + totalSize (·.encodedSize) bitmaps := by
  induction bitmaps with
  | nil => rfl
  | cons m bitmaps ih =>
    rw [List.map_cons, List.flatMap_cons, List.length_append, ih, length_frame,
      Bitmap.length_encode, List.length_cons, totalSize_cons]
    omega

@[simp]
theorem length_encodeSigned (value : Int64) : (encodeSigned value).length = 8 :=
  Word.length_encode 8 (pattern value)

namespace Index

/-- The magic number, the bounds and the number of frames. -/
def streamHeader (b : Index) : List UInt8 :=
  Word.encode 4 streamMagic ++ (encodeSigned b.maxValue ++ (encodeSigned b.minValue ++
    Word.encode 4 (b.width + 1)))

/-- The stream of an index: its header and a frame for each of its buffers. -/
def stream (b : Index) : List UInt8 := b.streamHeader ++ b.toBuffers.flatMap frame

@[simp]
theorem length_streamHeader (b : Index) : b.streamHeader.length = streamHeaderSize := by
  simp [streamHeader, streamHeaderSize]

theorem toBuffers_eq (b : Index) : b.toBuffers = (b.existence :: b.planes).map (·.encode) := rfl

/-- The length of a stream follows from the number of planes and the sizes of the bitmaps. -/
theorem length_stream (b : Index) :
    b.stream.length = streamHeaderSize + 8 * (b.width + 1) + b.encodedSize := by
  rw [stream, List.length_append, length_streamHeader, toBuffers_eq, length_frames,
    List.length_cons, totalSize_cons, encodedSize, width, Nat.add_assoc]

end Index

/-! ### Writing -/

namespace Output

theorem send_nil : send [] = pure () := by
  funext ⟨bytes, room⟩
  cases room <;> simp [send, Sink.put, EStateM.adaptExcept, pure, EStateM.pure]

/-- Bytes may be sent in parts. A sink that is full has as many bytes of the parts as of the
whole. -/
theorem send_append (front back : List UInt8) :
    send (front ++ back) = (do send front; send back) := by
  funext ⟨bytes, room⟩
  cases room with
  | none => simp [send, Sink.put, EStateM.adaptExcept, bind, EStateM.bind]
  | some room =>
    by_cases hfits : front.length ≤ room
    · -- The first part fits, so that it comes down to the room left for the second one.
      have hrest : front.length + back.length ≤ room ↔ back.length ≤ room - front.length := by omega
      have htaken : front.take room = front := List.take_of_length_le hfits
      simp only [send, Sink.put, EStateM.adaptExcept, bind, EStateM.bind, List.take_append,
        List.length_append, hfits, hrest, htaken, if_true, Nat.sub_sub, List.append_assoc]
    · have hfull : ¬ front.length + back.length ≤ room := by omega
      have hbehind : back.take (room - front.length) = [] := by
        rw [Nat.sub_eq_zero_of_le (by omega), List.take_zero]
      have hused : room - (front.length + back.length) = room - front.length := by omega
      simp [send, Sink.put, EStateM.adaptExcept, bind, EStateM.bind, List.take_append, hfits, hfull,
        hbehind, hused]

end Output

/-- Frames are sent one behind the other, whatever the buffers of the pool were used for. -/
theorem writeFrames_eq (a : Allocator) {pool : Pool} (hclean : pool.Clean) (bitmaps : List Bitmap) :
    writeFrames a pool bitmaps = (do
      Output.send ((bitmaps.map (·.encode)).flatMap frame)
      return ((bitmaps.map (·.encode)).flatMap frame).length) := by
  -- The pool differs from frame to frame; all that is carried along is that it is clean.
  induction bitmaps generalizing pool with
  | nil =>
    rw [List.map_nil, List.flatMap_nil, Output.send_nil, pure_bind]
    rfl
  | cons m bitmaps ih =>
    have hempty := hclean.bytes_borrow a m.encodedSize
    have hhandedBack := (hclean.borrow a m.encodedSize).handBack
      ((pool.borrow a m.encodedSize).1.append a m.encode)
    have hcontent : ((pool.borrow a m.encodedSize).1.append a m.encode).bytes = m.encode := by
      show (pool.borrow a m.encodedSize).1.bytes ++ m.encode = m.encode
      rw [hempty, List.nil_append]
    rw [writeFrames]
    dsimp only
    rw [hcontent, ih hhandedBack, List.map_cons, List.flatMap_cons, List.length_append,
      length_frame, frame, Output.send_append, Output.send_append]
    simp only [bind_assoc, pure_bind]

namespace Index

/-- Outputting an index is sending its stream at once. -/
theorem output_eq (a : Allocator) (b : Index) : b.output a = (do
    Output.send b.stream
    return b.stream.length) := by
  rw [output, writeFrames_eq a Pool.clean_empty, stream, List.length_append, length_streamHeader,
    streamHeader, toBuffers_eq]
  simp only [Output.send_append, bind_assoc, pure_bind]

/-- Writing an index appends its stream, and tells its length. -/
theorem write_unlimited (a : Allocator) (b : Index) (bytes : List UInt8) :
    b.write a ⟨bytes, none⟩ = .ok (b.stream.length, ⟨bytes ++ b.stream, none⟩) := by
  rw [write, output_eq]
  rfl

/-- A sink without room for the stream is left with as much of it as there was room for. -/
theorem run_output_of_full (a : Allocator) {b : Index} {room : Nat} (hfull : room < b.stream.length)
    (bytes : List UInt8) : (b.output a).run ⟨bytes, some room⟩ =
      .error (.io "bsi stream" .sinkFull) ⟨bytes ++ b.stream.take room, some 0⟩ := by
  have hused : room - b.stream.length = 0 := Nat.sub_eq_zero_of_le (Nat.le_of_lt hfull)
  have hsent : (Output.send b.stream).run ⟨bytes, some room⟩ =
      .error (.io "bsi stream" .sinkFull) ⟨bytes ++ b.stream.take room, some 0⟩ := by
    simp [Output.send, Sink.put, EStateM.run, EStateM.adaptExcept, Nat.not_le.2 hfull, hused]
  rw [output_eq, run_bind_of_error hsent]

/-- What an index is written as is its stream. -/
theorem write_eq (a : Allocator) (b : Index) :
    b.write a .unlimited = .ok (b.stream.length, ⟨b.stream, none⟩) := by
  rw [Sink.unlimited, write_unlimited, List.nil_append]

end Index

/-! ### Reading -/

theorem Source.take_append {front : List UInt8} {n : Nat} (h : front.length = n)
    (rest : List UInt8) (position : Nat) :
    Source.take ⟨front ++ rest, position, none⟩ n =
      .ok (front, ⟨rest, position + front.length, none⟩) := by
  subst h
  simp [Source.take, Source.failure?]

theorem Source.takeExactly_append {front : List UInt8} {n : Nat} (h : front.length = n)
    (rest : List UInt8) (position : Nat) :
    Source.takeExactly ⟨front ++ rest, position, none⟩ n =
      .ok (front, ⟨rest, position + front.length, none⟩) := by
  rw [Source.takeExactly, Source.take_append h]
  exact if_pos h

namespace Intake

variable {α β : Type} {r : Intake α} {front back : List UInt8} {a : α}

/-- An intake *reads* a value from some bytes when it takes exactly these bytes off any faultless
source that starts with them, and gives the value. -/
def Reads (r : Intake α) (front : List UInt8) (a : α) : Prop :=
  ∀ rest position, r.run ⟨front ++ rest, position, none⟩ =
    .ok (a, ⟨rest, position + front.length, none⟩)

theorem reads_pure (a : α) : Reads (pure a) [] a := fun _ _ => rfl

theorem Reads.bind {next : α → Intake β} {b : β} (hfirst : r.Reads front a)
    (hsecond : (next a).Reads back b) : Reads (r >>= next) (front ++ back) b := by
  intro rest position
  rw [StateT.run_bind, List.append_assoc, hfirst, List.length_append, ← Nat.add_assoc]
  exact hsecond rest _

/-- What is done with the value may take no further bytes. -/
theorem Reads.andThen {next : α → Intake β} {b : β} (hfirst : r.Reads front a)
    (hsecond : (next a).Reads [] b) : Reads (r >>= next) front b := by
  have hboth := hfirst.bind hsecond
  rwa [List.append_nil] at hboth

/-- What goes before may take no bytes. -/
theorem Reads.after {next : α → Intake β} {b : β} (hfirst : r.Reads [] a)
    (hsecond : (next a).Reads back b) : Reads (r >>= next) back b := hfirst.bind hsecond

theorem reads_lift {x : Except Error α} (h : x = .ok a) : Reads (liftM x) [] a := by
  subst h
  exact fun _ _ => rfl

theorem reads_take {n : Nat} (h : front.length = n) :
    Reads (ofSource (·.take n)) front front := by
  intro rest position
  rw [StateT.run, ofSource, Source.take_append h]
  rfl

theorem reads_field {n : Nat} (h : front.length = n) : (field n).Reads front front := by
  intro rest position
  rw [StateT.run, field, ofSource, Source.takeExactly_append h]
  rfl

end Intake

/-- A frame is read as what its buffer is decoded to. -/
theorem reads_frame (a : Allocator) {pool : Pool} (hclean : pool.Clean) (number : Nat)
    {buffer : List UInt8} (hfits : buffer.length < 2 ^ 64) {m : Bitmap}
    (hdecoded : decodeBuffer ("frame " ++ toString number) buffer = .ok m) :
    ∃ pool' : Pool, pool'.Clean ∧ (readFrame a pool number).Reads (frame buffer) (m, pool') := by
  have hlength : Word.value (Word.encode 8 buffer.length) = buffer.length :=
    Word.value_encode_of_lt hfits
  have hborrowed := hclean.borrow a (min buffer.length readAhead)
  refine ⟨_, hborrowed.handBack ((pool.borrow a (min buffer.length readAhead)).1.append a buffer),
    ?_⟩
  refine (Intake.reads_field (Word.length_encode 8 buffer.length)).bind ?_
  rw [hlength]
  refine (Intake.reads_take rfl).andThen ?_
  refine (Intake.reads_lift (if_pos (decide_eq_true rfl))).after ?_
  refine (Intake.reads_lift ?_).after (Intake.reads_pure _)
  show decodeBuffer _ ((pool.borrow a (min buffer.length readAhead)).1.bytes ++ buffer) = _
  rw [hclean.bytes_borrow, List.nil_append, hdecoded]

/-- Frames of stored bitmaps are read back one behind the other. -/
theorem reads_frames (a : Allocator) {pool : Pool} (hclean : pool.Clean) (number : Nat)
    {bitmaps : List Bitmap} (hfits : ∀ m ∈ bitmaps, m.encodedSize < 2 ^ 64) :
    (readFrames a pool number bitmaps.length).Reads ((bitmaps.map (·.encode)).flatMap frame)
      bitmaps := by
  induction bitmaps generalizing pool number with
  | nil => exact Intake.reads_pure []
  | cons m bitmaps ih =>
    obtain ⟨hown, hothers⟩ := List.forall_mem_cons.1 hfits
    rw [← Bitmap.length_encode] at hown
    have hdecoded : decodeBuffer ("frame " ++ toString number) m.encode = .ok m :=
      decodeBuffer_eq_ok_iff.2 m.holds_encode
    obtain ⟨pool', hclean', hfirst⟩ := reads_frame a hclean number hown hdecoded
    rw [List.map_cons, List.flatMap_cons]
    exact hfirst.bind ((ih hclean' (number + 1) hothers).andThen (Intake.reads_pure _))

theorem signedValue_encodeSigned (value : Int64) : signedValue (encodeSigned value) = value := by
  rw [signedValue, encodeSigned, Word.value_encode_of_lt (UInt64.toNat_lt _), pattern,
    UInt64.ofNat_toNat]
  rfl

namespace Index

/-! ### Headers -/

/-- The header of a stream with some bounds and a number of frames. -/
def headerOf (maxValue minValue : Int64) (count : Nat) : List UInt8 :=
  Word.encode 4 streamMagic ++ (encodeSigned maxValue ++ (encodeSigned minValue ++
    Word.encode 4 count))

@[simp]
theorem length_headerOf (maxValue minValue : Int64) (count : Nat) :
    (headerOf maxValue minValue count).length = streamHeaderSize := by
  simp [headerOf, streamHeaderSize]

/-- The index with some bounds, of which the first bitmap is the existence bitmap and the others are
planes. There are at least as many planes as the bounds need. -/
def assemble (maxValue minValue : Int64) (bitmaps : List Bitmap) : Index where
  maxValue
  minValue
  planes := Planes.grow bitmaps.tail (boundsWidth maxValue minValue)
  existence := bitmaps.headD ∅
  settings := {}

/-- Reads the header of a stream: the bounds, and the number of frames. -/
def readHeader : Intake (Int64 × Int64 × Nat) := do
  let magic := Word.value (← Intake.field 4)
  Error.checkFormat (magic = streamMagic) "magic" "magic == Self::BSI_FORMAT_MAGIC_VERSION"
  let maxValue := signedValue (← Intake.field 8)
  let minValue := signedValue (← Intake.field 8)
  let count := Word.value (← Intake.field 4)
  Error.checkFormat (1 ≤ count && count ≤ Planes.limit + 1) "buffer_count"
    "buffer_count >= 1 && buffer_count <= MAX_PLANES + 1"
  return (maxValue, minValue, count)

/-- A stream is its header, and the bitmaps of its frames assembled. -/
theorem read_eq (a : Allocator) : Index.read a = (do
    let header ← readHeader
    let bitmaps ← readFrames a ∅ 0 header.2.2
    return assemble header.1 header.2.1 bitmaps) := by
  simp [read, readHeader, assemble]

/-- The header that bytes were written as is read back. -/
theorem reads_header (maxValue minValue : Int64) {count : Nat} (hpos : 1 ≤ count)
    (hfew : count ≤ 65) :
    readHeader.Reads (headerOf maxValue minValue count) (maxValue, minValue, count) := by
  have htold : Word.value (Word.encode 4 count) = count := Word.value_encode_of_lt (by omega)
  have hinRange : (1 ≤ count && count ≤ Planes.limit + 1 : Bool) = true :=
    Bool.and_eq_true_iff.2 ⟨decide_eq_true hpos, decide_eq_true hfew⟩
  rw [headerOf]
  refine (Intake.reads_field (Word.length_encode 4 streamMagic)).bind ?_
  refine (Intake.reads_lift rfl).after ?_
  refine (Intake.reads_field (length_encodeSigned maxValue)).bind ?_
  refine (Intake.reads_field (length_encodeSigned minValue)).bind ?_
  refine (Intake.reads_field (Word.length_encode 4 count)).andThen ?_
  rw [htold, signedValue_encodeSigned, signedValue_encodeSigned]
  exact (Intake.reads_lift (if_pos hinRange)).after (Intake.reads_pure _)

/-! ### Streams -/

/-- An index is *streamable* when it is at least as wide as its bounds need and has 64 planes at
most, and when the size of every bitmap fits the word that tells the length of its frame. -/
structure Streamable (b : Index) : Prop where
  declared : boundsWidth b.maxValue b.minValue ≤ b.width
  width_le : b.width ≤ Planes.limit
  fits : ∀ m ∈ b.existence :: b.planes, m.encodedSize < 2 ^ 64

/-- The stream of an index is read back with the default settings. -/
theorem reads_stream (a : Allocator) {b : Index} (h : b.Streamable) :
    (Index.read a).Reads b.stream (b.withSettings {}) := by
  have hfew : b.width + 1 ≤ 65 := Nat.succ_le_succ h.width_le
  rw [read_eq, stream]
  refine (reads_header b.maxValue b.minValue (Nat.le_add_left 1 b.width) hfew).bind ?_
  refine (reads_frames a Pool.clean_empty 0 h.fits).andThen ?_
  simp only [assemble, List.tail_cons, Planes.grow_of_le h.declared]
  exact Intake.reads_pure _

/-! ### Several streams -/

/-- Reads a number of indexes, one behind the other. -/
def readSeveral (a : Allocator) : Nat → Intake (List Index)
  | 0 => return []
  | n + 1 => do
    let first ← Index.read a
    let rest ← readSeveral a n
    return first :: rest

/-- Streams one behind the other are read back one by one. -/
theorem reads_streams (a : Allocator) {bs : List Index} (h : ∀ b ∈ bs, b.Streamable) :
    (readSeveral a bs.length).Reads (bs.flatMap stream) (bs.map (·.withSettings {})) := by
  induction bs with
  | nil => exact Intake.reads_pure []
  | cons b bs ih =>
    obtain ⟨hown, hothers⟩ := List.forall_mem_cons.1 h
    rw [List.flatMap_cons]
    exact (reads_stream a hown).bind ((ih hothers).andThen (Intake.reads_pure _))

/-- Equality does not look at settings. -/
theorem withSettings_beq (b : Index) (settings : Settings) :
    (b.withSettings settings == b) = true :=
  (BEq.refl b : (b == b) = true)

theorem map_withSettings_beq (bs : List Index) : (bs.map (·.withSettings {}) == bs) = true := by
  induction bs with
  | nil => rfl
  | cons b bs ih => exact Bool.and_eq_true_iff.2 ⟨b.withSettings_beq {}, ih⟩

/-- **Streams round trip.** Writing an index into a sink appends its stream and tells its length;
reading takes exactly the stream off a source, whatever stands behind it, and gives an equal index
with the default settings. So streams that were written one behind the other give the same sequence
of indexes when they are read one by one. -/
theorem stream_round_trip (a a' : Allocator) :
    (∀ b : Index, b.Streamable →
      (∀ bytes, b.write a ⟨bytes, none⟩ = .ok (b.stream.length, ⟨bytes ++ b.stream, none⟩)) ∧
      b.stream.length = 24 + 8 * (b.width + 1) + b.encodedSize ∧
      ∀ t position, ∃ c, (Index.read a').run ⟨b.stream ++ t, position, none⟩ =
        .ok (c, ⟨t, position + b.stream.length, none⟩) ∧ (c == b) = true ∧ c.settings = {}) ∧
    ∀ bs : List Index, (∀ b ∈ bs, b.Streamable) → ∀ t position, ∃ cs,
      (readSeveral a' bs.length).run ⟨bs.flatMap stream ++ t, position, none⟩ =
        .ok (cs, ⟨t, position + (bs.flatMap stream).length, none⟩) ∧ (cs == bs) = true ∧
      ∀ c ∈ cs, c.settings = {} := by
  refine ⟨fun b h => ⟨b.write_unlimited a, b.length_stream, fun t position => ?_⟩,
    fun bs h t position => ?_⟩
  · exact ⟨_, reads_stream a' h t position, b.withSettings_beq {}, rfl⟩
  · exact ⟨_, reads_streams a' h t position, map_withSettings_beq bs,
      List.forall_mem_map.2 fun b _ => rfl⟩

theorem stream_round_trip_two_streams :
    let x := auto.put 7 5
    let y := (ofBounds 100 (-3)).put 9 (-3)
    (∀ b ∈ [x, y], b.Streamable) ∧
      x.write .doubling ⟨[1], none⟩ = .ok (x.stream.length, ⟨1 :: x.stream, none⟩) ∧
      ∃ cs, (readSeveral .doubling 2).run ⟨[x, y].flatMap stream ++ [255, 0], 0, none⟩ =
        .ok (cs, ⟨[255, 0], 0 + ([x, y].flatMap stream).length, none⟩) ∧ (cs == [x, y]) = true ∧
        ∀ c ∈ cs, c.settings = {} := by
  intro x y
  have hx : x.Streamable := ⟨by decide, by decide, by decide +kernel⟩
  have hy : y.Streamable := ⟨by decide, by decide, by decide +kernel⟩
  have hstreamable : ∀ b ∈ [x, y], b.Streamable :=
    List.forall_mem_cons.2 ⟨hx, List.forall_mem_singleton.2 hy⟩
  obtain ⟨hsingle, hseveral⟩ := stream_round_trip .doubling .doubling
  exact ⟨hstreamable, (hsingle x hx).1 [1], hseveral [x, y] hstreamable [255, 0] 0⟩

end Index

end BitSliced
