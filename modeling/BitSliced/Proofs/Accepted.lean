import BitSliced.Proofs.Frames
import BitSliced.Proofs.Stored.Kept

/-!
# What reading accepts

Reading accepts streams that no index is written as: frames without any bytes, bytes behind a
bitmap, fewer planes than the bounds need, planes with bits of identifiers that do not exist. What
it accepts is a stream of some bounds and buffers all the same. Nothing behind the last frame is
looked at, and the index that comes out is written as a stream that is read back as an equal index.

An index that was read may take up more space than the bytes that it was read from, since headers of
partitions come in a shorter form that is not written again. The difference is small enough for the
word in front of each frame, unless a buffer is so long that no memory holds it.

## Main results

* `BitSliced.Index.exists_streamOf_of_read` — what was read is a stream of legible buffers.
* `BitSliced.Index.streamable_assemble` — and gives an index that can be written.
* `BitSliced.Index.read_accepts_streams` — **what is read is exactly framed**, and is written again.
-/

namespace BitSliced

theorem Bitmap.encodedSize_empty_lt : (∅ : Bitmap).encodedSize < 2 ^ 64 :=
  (Bitmap.isPlain_ofIds ∅).encodedSize_lt

/-- Bytes behind a stored bitmap are ignored. -/
theorem Bitmap.holds_encode_append (m : Bitmap) (more : List UInt8) :
    Holds (m.encode ++ more) m := by
  have hnonempty : m.encode ++ more ≠ [] := List.append_ne_nil_of_left_ne_nil m.encode_ne_nil more
  have hisEmpty : ¬ (m.encode ++ more).isEmpty = true := fun e => hnonempty (List.isEmpty_iff.1 e)
  rw [Holds, decodeBuffer, if_neg hisEmpty, Bitmap.decode_eq_ok_iff.2 ⟨more, m.reads_encode more⟩]

/-- A bitmap takes up little more space than a buffer that holds it. -/
theorem Holds.encodedSize_lt {buffer : List UInt8} {m : Bitmap} (h : Holds buffer m)
    (hshort : buffer.length < 2 ^ 63) : m.encodedSize < 2 ^ 64 := by
  unfold Holds decodeBuffer at h
  split at h
  · obtain rfl := Except.ok.inj h
    exact Bitmap.encodedSize_empty_lt
  · cases hdecoded : Bitmap.decode buffer with
    | error fault =>
      rw [hdecoded] at h
      cases h
    | ok b =>
      rw [hdecoded] at h
      obtain rfl := Except.ok.inj h
      have hbound := Bitmap.encodedSize_le_of_decode hdecoded
      rw [Partition.headerSlack] at hbound
      omega

theorem encodedSize_lt_of_held {buffers : List (List UInt8)} {ms : List Bitmap}
    (hheld : List.Forall₂ Holds buffers ms) (hshort : ∀ buffer ∈ buffers, buffer.length < 2 ^ 63) :
    ∀ m ∈ ms, m.encodedSize < 2 ^ 64 := by
  induction hheld with
  | nil => exact fun _ h => absurd h List.not_mem_nil
  | cons hown _ ih =>
    obtain ⟨hfirst, hothers⟩ := List.forall_mem_cons.1 hshort
    exact List.forall_mem_cons.2 ⟨hown.encodedSize_lt hfirst, ih hothers⟩

namespace Index

/-- The length of a stream follows from the lengths of its buffers. -/
theorem length_streamOf (maxValue minValue : Int64) (buffers : List (List UInt8)) :
    (streamOf maxValue minValue buffers).length =
      24 + (buffers.map fun buffer => 8 + buffer.length).sum := by
  have hframes : (buffers.flatMap frame).length =
      (buffers.map fun buffer => 8 + buffer.length).sum := by
    simp [List.length_flatMap, frame]
  rw [streamOf_eq, List.length_append, length_headerOf, hframes, streamHeaderSize]

/-- An index that is assembled has the planes that it was given, and those that its bounds need. -/
theorem width_assemble (maxValue minValue : Int64) (ms : List Bitmap) :
    (assemble maxValue minValue ms).width =
      max (ms.length - 1) (boundsWidth maxValue minValue) := by
  rw [width, assemble, Planes.length_grow, List.length_tail,
    Nat.min_eq_left (boundsWidth_le maxValue minValue)]

theorem width_assemble_le {maxValue minValue : Int64} {ms : List Bitmap} (hfew : ms.length ≤ 65) :
    (assemble maxValue minValue ms).width ≤ Planes.limit := by
  rw [width_assemble]
  exact Nat.max_le.2 ⟨Nat.sub_le_of_le_add hfew, boundsWidth_le maxValue minValue⟩

/-- An index that is assembled from the bitmaps in up to 65 buffers can be written. -/
theorem streamable_assemble {maxValue minValue : Int64} {buffers : List (List UInt8)}
    {ms : List Bitmap} (hheld : List.Forall₂ Holds buffers ms) (hfew : buffers.length ≤ 65)
    (hshort : ∀ buffer ∈ buffers, buffer.length < 2 ^ 63) :
    (assemble maxValue minValue ms).Streamable where
  declared := by
    rw [width_assemble]
    exact Nat.le_max_right _ _
  width_le := width_assemble_le (hheld.length_eq ▸ hfew)
  fits := by
    have hsmall := encodedSize_lt_of_held hheld hshort
    refine List.forall_mem_cons.2 ⟨?_, fun m hm => ?_⟩
    · cases ms with
      | nil => exact Bitmap.encodedSize_empty_lt
      | cons m ms => exact hsmall m List.mem_cons_self
    · rcases List.mem_append.1 hm with hgiven | hadded
      · exact hsmall m (List.mem_of_mem_tail hgiven)
      · rw [List.eq_of_mem_replicate hadded]
        exact Bitmap.encodedSize_empty_lt

/-- What a streamable index is written as is read back as an equal index. -/
theorem written_and_read (a a' : Allocator) {b : Index} (h : b.Streamable) :
    ∃ written sink c rest, b.write a .unlimited = .ok (written, sink) ∧
      (Index.read a').run (.ofBytes sink.bytes) = .ok (c, rest) ∧ (c == b) = true := by
  have hagain := reads_stream a' h [] 0
  rw [List.append_nil] at hagain
  exact ⟨_, _, _, _, b.write_eq a, hagain, b.withSettings_beq {}⟩

/-- What was read is a stream of legible buffers, taken off the source. -/
theorem exists_streamOf_of_read {a : Allocator} {bytes : List UInt8} {b : Index} {rest : Source}
    (h : (Index.read a).run (.ofBytes bytes) = .ok (b, rest)) :
    ∃ maxValue minValue, ∃ (buffers : List (List UInt8)) (after : List UInt8) (ms : List Bitmap),
      1 ≤ buffers.length ∧ buffers.length ≤ 65 ∧ (∀ buffer ∈ buffers, buffer.length < 2 ^ 64) ∧
      bytes = streamOf maxValue minValue buffers ++ after ∧ List.Forall₂ Holds buffers ms ∧
      b = assemble maxValue minValue ms ∧
      rest = ⟨after, (streamOf maxValue minValue buffers).length, none⟩ := by
  have haccepted : ¬ (Index.read a).Refuses bytes := by
    intro hrefused
    obtain ⟨element, text, e⟩ := hrefused 0
    cases h.symm.trans e
  rcases stream_or_illegible haccepted with
    ⟨maxValue, minValue, buffers, after, hpos, hfew, hfits, -, rfl⟩ |
    ⟨maxValue, minValue, count, before, buffer, behind, htold, hfew, hfitsBefore, hfits, hlegible,
      hillegible, rfl⟩
  · have hnonempty : buffers ≠ [] := List.length_pos_iff.1 hpos
    obtain ⟨⟨ms, hheld, rfl⟩, rfl⟩ := (read_streamOf_eq_ok_iff a hnonempty hfew hfits).1 h
    refine ⟨maxValue, minValue, buffers, after, ms, hpos, hfew, hfits, rfl, hheld, rfl, ?_⟩
    rw [Nat.zero_add]
  -- With an illegible buffer reading would have stopped.
  · obtain ⟨fault, -, hdecoded⟩ := not_legible_iff.1 hillegible
    have hstopped := h.symm.trans
      (run_read_of_illegible a hfew hfitsBefore hfits htold hlegible (hdecoded _) behind 0)
    cases hstopped

/-- **What is read is exactly framed.** Bytes that are read as an index are a stream of 1 to 65
buffers with the bounds of the index, and whatever stands behind it. The frames tell how many bytes
are taken, no other byte has any influence, and the index is as wide as its frames and its bounds
need, with 64 planes at most. Writing it and reading it again gives an equal index, if no buffer had
2⁶³ bytes. -/
theorem read_accepts_streams {a : Allocator} {bytes : List UInt8} {b : Index} {rest : Source}
    (h : (Index.read a).run (.ofBytes bytes) = .ok (b, rest)) :
    ∃ buffers : List (List UInt8),
      bytes = streamOf b.maxValue b.minValue buffers ++ rest.rest ∧
      Word.encode 4 streamMagic <+: bytes ∧
      1 ≤ buffers.length ∧ buffers.length ≤ 65 ∧ (∀ buffer ∈ buffers, buffer.length < 2 ^ 64) ∧
      rest.position = 24 + (buffers.map fun buffer => 8 + buffer.length).sum ∧
      (∀ a' more, (Index.read a').run (.ofBytes (bytes.take rest.position ++ more)) =
        .ok (b, ⟨more, rest.position, none⟩)) ∧
      b.width = max (buffers.length - 1) (boundsWidth b.maxValue b.minValue) ∧ b.width ≤ 64 ∧
      ((∀ buffer ∈ buffers, buffer.length < 2 ^ 63) → ∀ a' a'', ∃ written sink c after,
        b.write a' .unlimited = .ok (written, sink) ∧
        (Index.read a'').run (.ofBytes sink.bytes) = .ok (c, after) ∧ (c == b) = true) := by
  obtain ⟨maxValue, minValue, buffers, after, ms, hpos, hfew, hfits, rfl, hheld, rfl, rfl⟩ :=
    exists_streamOf_of_read h
  have hnonempty : buffers ≠ [] := List.length_pos_iff.1 hpos
  have hmagic : Word.encode 4 streamMagic <+: streamOf maxValue minValue buffers :=
    List.prefix_append _ _
  refine ⟨buffers, rfl, hmagic.trans (List.prefix_append _ after), hpos, hfew, hfits,
    length_streamOf maxValue minValue buffers, fun a' more => ?_, ?_,
    width_assemble_le (hheld.length_eq ▸ hfew), fun hshort a' a'' => ?_⟩
  · rw [List.take_left, ← Nat.zero_add (streamOf maxValue minValue buffers).length]
    exact (read_streamOf_eq_ok_iff a' hnonempty hfew hfits).2 ⟨⟨ms, hheld, rfl⟩, rfl⟩
  · rw [width_assemble, hheld.length_eq]
    rfl
  · exact written_and_read a' a'' (streamable_assemble hheld hfew hshort)

/-- A stream that no index is written as: the existence bitmap has a frame without bytes, the only
plane has bytes behind its bitmap and a bit of an identifier that does not exist, and the bounds
need seven planes. -/
theorem read_accepts_streams_padded :
    let nine := (Bitmap.ofIds (.ofList [9])).encode
    let bytes := streamOf 100 (-3) [[], nine ++ [255, 1]] ++ [7]
    ∃ b rest, (Index.read .doubling).run (.ofBytes bytes) = .ok (b, rest) ∧
      rest.rest = [7] ∧ b.existence = ∅ ∧ b.planes.number 9 = 1 ∧ b.width = 7 ∧
      ∃ buffers : List (List UInt8), bytes = streamOf b.maxValue b.minValue buffers ++ [7] ∧
        1 ≤ buffers.length ∧ buffers.length ≤ 65 ∧
        rest.position = 24 + (buffers.map fun buffer => 8 + buffer.length).sum ∧
        ∃ written sink c after, b.write .doubling .unlimited = .ok (written, sink) ∧
          (Index.read .doubling).run (.ofBytes sink.bytes) = .ok (c, after) ∧ (c == b) = true := by
  intro nine bytes
  have hown : Holds (nine ++ [255, 1]) (.ofIds (.ofList [9])) :=
    (Bitmap.ofIds _).holds_encode_append [255, 1]
  have hsmall : (nine ++ [255, 1]).length = 32 := by decide +kernel
  have hlength : (streamOf 100 (-3) [[], nine ++ [255, 1]]).length = 72 := by
    rw [length_streamOf, List.map_cons, List.map_singleton, hsmall]
    rfl
  have hrun : (Index.read .doubling).run (.ofBytes bytes) =
      .ok (assemble 100 (-3) [∅, .ofIds (.ofList [9])], ⟨[7], 0 + _, none⟩) :=
    (read_streamOf_eq_ok_iff .doubling (by simp) (by decide)
      (List.forall_mem_cons.2 ⟨by decide, List.forall_mem_singleton.2 (by omega)⟩)).2
      ⟨⟨_, .cons rfl (.cons hown .nil), rfl⟩, rfl⟩
  rw [hlength] at hrun
  obtain ⟨buffers, hframed, -, hpos, hfew, -, hposition, -, -, -, hagain⟩ :=
    read_accepts_streams hrun
  have hshort : ∀ buffer ∈ buffers, buffer.length < 2 ^ 63 := by
    intro buffer hb
    have hpart := List.le_sum_of_mem (List.mem_map_of_mem (f := fun b => 8 + b.length) hb)
    dsimp only at hposition
    omega
  exact ⟨_, _, hrun, rfl, rfl, by decide +kernel, by decide, buffers, hframed, hpos, hfew,
    hposition, hagain hshort .doubling .doubling⟩

end Index

end BitSliced
