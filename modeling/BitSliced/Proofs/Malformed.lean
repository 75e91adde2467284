import BitSliced.Proofs.Frames

/-!
# How malformed bytes are reported

Bytes that are not what they should be are reported as a malformed element, with two exceptions: a
partition that starts with an unknown cookie, and a partition that declares too many chunks. Stored
bitmaps report these under the kind `other`, and this kind does not blame the bytes. So they come
out as failed reads, although nothing failed to be read.

Restoring decodes the planes in front of the existence bitmap, and reading decodes each frame before
it goes on to the next one. The first illegible buffer in this order decides what is reported.

## Main definitions

* `BitSliced.Index.RestoreStops`, `BitSliced.Index.ReadStops` — the first illegible buffer, with its
  element and its fault.

## Main results

* `BitSliced.Index.restore_eq_error_iff` — all errors that restoring ends in.
* `BitSliced.Index.reported_as_failed_read_iff` — **which malformed bytes are reported as a failed
  read**.
-/

namespace BitSliced

/-- The faults that are not reported as malformed. -/
theorem Fault.ofDecoding_eq_io_iff {fault : Fault} {element context : String} {source : Failure} :
    Error.ofDecoding element fault.failure = .io context source ↔
      (fault = .unknownCookie ∨ fault = .oversized) ∧
        element = context ∧ source = fault.failure := by
  have hother : fault.failure.kind.blamesData = false ↔
      fault = .unknownCookie ∨ fault = .oversized := by
    cases fault <;> simp [failure, Failure.endOfData, FailureKind.blamesData]
  rw [← hother, Error.ofDecoding, eq_comm (a := source)]
  cases fault.failure.kind.blamesData <;> simp

theorem Error.ofDecoding_ne_invalidArgument (element : String) (failure : Failure)
    (name message : String) : ofDecoding element failure ≠ .invalidArgument name message := by
  unfold ofDecoding
  split <;> simp

/-- Decoding buffers one by one stops at the first illegible one. -/
theorem decodeEach_of_illegible {element : Nat → String} {i : Nat} {before : List (List UInt8)}
    {buffer : List UInt8} (after : List (List UInt8)) {e : Error}
    (hlegible : ∀ other ∈ before, Legible other)
    (hillegible : decodeBuffer (element (i + before.length)) buffer = .error e) :
    decodeEach element i (before ++ buffer :: after) = .error e := by
  induction before generalizing i with
  | nil =>
    rw [List.nil_append, decodeEach,
      show decodeBuffer (element i) buffer = .error e from hillegible]
    rfl
  | cons first before ih =>
    obtain ⟨⟨m, hown⟩, hothers⟩ := List.forall_mem_cons.1 hlegible
    rw [List.length_cons, Nat.add_comm before.length, ← Nat.add_assoc] at hillegible
    rw [List.cons_append, decodeEach, decodeBuffer_eq_ok_iff.2 hown, ih hothers hillegible]
    rfl

namespace Index

/-! ### Restoring -/

/-- Restoring *stops* at the first illegible buffer: the one of a plane, or else that of the
existence bitmap. -/
inductive RestoreStops : List (List UInt8) → String → Fault → Prop where
  | plane {first : List UInt8} {before : List (List UInt8)} {buffer : List UInt8}
      {after : List (List UInt8)} {fault : Fault} :
      (∀ other ∈ before, Legible other) → ¬ Legible buffer → Bitmap.decode buffer = .error fault →
      RestoreStops (first :: (before ++ buffer :: after)) ("plane " ++ toString before.length) fault
  | existence {first : List UInt8} {others : List (List UInt8)} {fault : Fault} :
      (∀ other ∈ others, Legible other) → ¬ Legible first → Bitmap.decode first = .error fault →
      RestoreStops (first :: others) "existence" fault

/-- The error of the first illegible buffer is the error of restoring. -/
theorem restore_of_stops (b : Index) {buffers : List (List UInt8)} {element : String}
    {fault : Fault} (hfew : buffers.length ≤ 65) (hstops : RestoreStops buffers element fault) :
    b.restore buffers = .error (.ofDecoding element fault.failure) := by
  cases hstops with
  | @plane first before buffer after fault hlegible hillegible hfaulty =>
    obtain ⟨fault', hfaulty', hdecoded⟩ := not_legible_iff.1 hillegible
    obtain rfl : fault = fault' := Except.error.inj (hfaulty.symm.trans hfaulty')
    have hstopped : decodeEach planeElement 0 (before ++ buffer :: after) =
        .error (.ofDecoding (planeElement (0 + before.length)) fault.failure) :=
      decodeEach_of_illegible after hlegible (hdecoded _)
    rw [b.restore_cons (Nat.le_of_succ_le_succ hfew), hstopped, Nat.zero_add]
    rfl
  | @existence first others fault hlegible hillegible hfaulty =>
    obtain ⟨fault', hfaulty', hdecoded⟩ := not_legible_iff.1 hillegible
    obtain rfl : fault = fault' := Except.error.inj (hfaulty.symm.trans hfaulty')
    obtain ⟨planes, hheld⟩ := forall_legible_iff.1 hlegible
    rw [b.restore_cons (Nat.le_of_succ_le_succ hfew), decodeEach_eq_ok_iff.2 hheld, hdecoded]
    rfl

/-- Either there is a first illegible buffer, or everything can be restored. -/
theorem restore_ok_or_stops (b : Index) {buffers : List (List UInt8)} (hfew : buffers.length ≤ 65) :
    (∃ c, b.restore buffers = .ok c) ∨ ∃ element fault, RestoreStops buffers element fault := by
  cases buffers with
  | nil => exact .inl ⟨_, rfl⟩
  | cons first others =>
    rcases legible_or_first_illegible others with
      hlegible | ⟨before, buffer, after, rfl, hlegible, hillegible⟩
    · by_cases hown : Legible first
      · obtain ⟨planes, hheld⟩ := forall_legible_iff.1 hlegible
        obtain ⟨existence, hown⟩ := hown
        exact .inl ⟨_, (b.restore_cons_eq_ok_iff (Nat.le_of_succ_le_succ hfew)).2
          ⟨existence, planes, hown, hheld, rfl⟩⟩
      · obtain ⟨fault, hfaulty, -⟩ := not_legible_iff.1 hown
        exact .inr ⟨_, fault, .existence hlegible hown hfaulty⟩
    · obtain ⟨fault, hfaulty, -⟩ := not_legible_iff.1 hillegible
      exact .inr ⟨_, fault, .plane hlegible hillegible hfaulty⟩

/-- Restoring ends in an error when there are too many buffers, or an illegible one. -/
theorem restore_eq_error_iff {b : Index} {buffers : List (List UInt8)} {e : Error} :
    b.restore buffers = .error e ↔
      (65 < buffers.length ∧ e = .invalidFormat "buffers" "buffers.len() <= MAX_PLANES + 1") ∨
      (buffers.length ≤ 65 ∧ ∃ element fault, RestoreStops buffers element fault ∧
        e = .ofDecoding element fault.failure) := by
  rcases Nat.lt_or_ge 65 buffers.length with hmany | hfew
  · rw [b.restore_of_many hmany]
    constructor
    · intro h
      exact .inl ⟨hmany, (Except.error.inj h).symm⟩
    · rintro (⟨-, rfl⟩ | ⟨hfew, -⟩)
      · rfl
      · omega
  · constructor
    · intro h
      rcases restore_ok_or_stops b hfew with ⟨c, hok⟩ | ⟨element, fault, hstops⟩
      · cases h.symm.trans hok
      · have hstopped := restore_of_stops b hfew hstops
        exact .inr ⟨hfew, element, fault, hstops, Except.error.inj (h.symm.trans hstopped)⟩
    · rintro (⟨hmany, -⟩ | ⟨-, element, fault, hstops, rfl⟩)
      · omega
      · exact restore_of_stops b hfew hstops

/-! ### Reading -/

/-- Reading *stops* at the first frame with an illegible buffer, among as many frames as the header
tells. Whatever is behind is not looked at. -/
inductive ReadStops : List UInt8 → String → Fault → Prop where
  | frame {maxValue minValue : Int64} {count : Nat} {before : List (List UInt8)}
      {buffer behind : List UInt8} {fault : Fault} :
      before.length < count → count ≤ 65 → (∀ other ∈ before, other.length < 2 ^ 64) →
      buffer.length < 2 ^ 64 → (∀ other ∈ before, Legible other) → ¬ Legible buffer →
      Bitmap.decode buffer = .error fault →
      ReadStops (headerOf maxValue minValue count ++
        (before.flatMap frame ++ (frame buffer ++ behind)))
        ("frame " ++ toString before.length) fault

/-- The error of the first illegible buffer is the error of reading. -/
theorem read_of_stops (a : Allocator) {bytes : List UInt8} {element : String} {fault : Fault}
    (hstops : ReadStops bytes element fault) :
    (Index.read a).run (.ofBytes bytes) = .error (.ofDecoding element fault.failure) := by
  cases hstops with
  | @frame _ _ count before buffer behind fault htold hfew hfitsBefore hfits hlegible hillegible
      hfaulty =>
    obtain ⟨fault', hfaulty', hdecoded⟩ := not_legible_iff.1 hillegible
    obtain rfl : fault = fault' := Except.error.inj (hfaulty.symm.trans hfaulty')
    exact run_read_of_illegible a hfew hfitsBefore hfits htold hlegible (hdecoded _) behind 0

/-- Either the bytes are refused, or there is a first illegible buffer, or an index is read. -/
theorem read_refuses_or_stops_or_ok (a : Allocator) (bytes : List UInt8) :
    (Index.read a).Refuses bytes ∨ (∃ element fault, ReadStops bytes element fault) ∨
      ∃ b rest, (Index.read a).run (.ofBytes bytes) = .ok (b, rest) := by
  by_cases hrefused : (Index.read a).Refuses bytes
  · exact .inl hrefused
  rcases stream_or_illegible hrefused with
    ⟨maxValue, minValue, buffers, after, hpos, hfew, hfits, hlegible, rfl⟩ |
    ⟨maxValue, minValue, count, before, buffer, behind, htold, hfew, hfitsBefore, hfits, hlegible,
      hillegible, rfl⟩
  · obtain ⟨ms, hheld⟩ := forall_legible_iff.1 hlegible
    exact .inr (.inr ⟨_, _, (read_streamOf_eq_ok_iff a (List.length_pos_iff.1 hpos) hfew hfits).2
      ⟨⟨ms, hheld, rfl⟩, rfl⟩⟩)
  · obtain ⟨fault, hfaulty, -⟩ := not_legible_iff.1 hillegible
    exact .inr (.inl ⟨_, fault, .frame htold hfew hfitsBefore hfits hlegible hillegible hfaulty⟩)

/-! ### Failed reads -/

/-- Restoring is reported as a failed read for two faults only. -/
theorem restore_eq_io_iff {b : Index} {buffers : List (List UInt8)} {context : String}
    {source : Failure} : b.restore buffers = .error (.io context source) ↔
      buffers.length ≤ 65 ∧ ∃ fault, (fault = .unknownCookie ∨ fault = .oversized) ∧
        RestoreStops buffers context fault ∧ source = fault.failure := by
  rw [restore_eq_error_iff]
  constructor
  · rintro (⟨-, e⟩ | ⟨hfew, element, fault, hstops, e⟩)
    · cases e
    · obtain ⟨hother, rfl, rfl⟩ := Fault.ofDecoding_eq_io_iff.1 e.symm
      exact ⟨hfew, fault, hother, hstops, rfl⟩
  · rintro ⟨hfew, fault, hother, hstops, hsame⟩
    exact .inr ⟨hfew, context, fault, hstops,
      (Fault.ofDecoding_eq_io_iff.2 ⟨hother, rfl, hsame⟩).symm⟩

/-- The errors that reading ends in. -/
theorem error_of_read {a : Allocator} {bytes : List UInt8} {e : Error}
    (h : (Index.read a).run (.ofBytes bytes) = .error e) :
    (∃ element text, e = .invalidFormat element text) ∨
      ∃ element fault, ReadStops bytes element fault ∧ e = .ofDecoding element fault.failure := by
  rcases read_refuses_or_stops_or_ok a bytes with
    hrefused | ⟨element, fault, hstops⟩ | ⟨b, rest, hok⟩
  · obtain ⟨element, text, hmalformed⟩ := hrefused 0
    exact .inl ⟨element, text, Except.error.inj (h.symm.trans hmalformed)⟩
  · exact .inr ⟨element, fault, hstops, Except.error.inj (h.symm.trans (read_of_stops a hstops))⟩
  · cases h.symm.trans hok

/-- Reading is reported as a failed read for two faults only. -/
theorem read_eq_io_iff {a : Allocator} {bytes : List UInt8} {context : String} {source : Failure} :
    (Index.read a).run (.ofBytes bytes) = .error (.io context source) ↔
      ∃ fault, (fault = .unknownCookie ∨ fault = .oversized) ∧
        ReadStops bytes context fault ∧ source = fault.failure := by
  constructor
  · intro h
    rcases error_of_read h with ⟨element, text, e⟩ | ⟨element, fault, hstops, e⟩
    · cases e
    · obtain ⟨hother, rfl, rfl⟩ := Fault.ofDecoding_eq_io_iff.1 e.symm
      exact ⟨fault, hother, hstops, rfl⟩
  · rintro ⟨fault, hother, hstops, hsame⟩
    rw [read_of_stops a hstops]
    exact congrArg Except.error (Fault.ofDecoding_eq_io_iff.2 ⟨hother, rfl, hsame⟩)

/-- **Which malformed bytes are reported as a failed read.** Whatever buffers an index is restored
from, and whatever bytes it is read from, no argument is found unacceptable. A failed read is
reported when the first illegible buffer has an unknown cookie or declares too many chunks, and only
then; every other error tells a malformed element. -/
theorem reported_as_failed_read_iff (a : Allocator) :
    (∀ (b : Index) (buffers : List (List UInt8)),
      (∀ name message, b.restore buffers ≠ .error (.invalidArgument name message)) ∧
      ∀ context source, b.restore buffers = .error (.io context source) ↔
        buffers.length ≤ 65 ∧ ∃ fault, (fault = .unknownCookie ∨ fault = .oversized) ∧
          RestoreStops buffers context fault ∧ source = fault.failure) ∧
    ∀ bytes : List UInt8,
      (∀ name message,
        (Index.read a).run (.ofBytes bytes) ≠ .error (.invalidArgument name message)) ∧
      ∀ context source, (Index.read a).run (.ofBytes bytes) = .error (.io context source) ↔
        ∃ fault, (fault = .unknownCookie ∨ fault = .oversized) ∧
          ReadStops bytes context fault ∧ source = fault.failure := by
  refine ⟨fun b buffers => ⟨fun name message h => ?_, fun _ _ => restore_eq_io_iff⟩,
    fun bytes => ⟨fun name message h => ?_, fun _ _ => read_eq_io_iff⟩⟩
  · rcases restore_eq_error_iff.1 h with ⟨-, e⟩ | ⟨-, element, fault, -, e⟩
    · cases e
    · exact Error.ofDecoding_ne_invalidArgument _ _ _ _ e.symm
  · rcases error_of_read h with ⟨element, text, e⟩ | ⟨element, fault, -, e⟩
    · cases e
    · exact Error.ofDecoding_ne_invalidArgument _ _ _ _ e.symm

/-- A partition with a cookie that names no format, and one that declares 65537 chunks, restored as
existence bitmaps and read from streams. -/
theorem cookie_and_count_reported_as_failed_read :
    let cookie := Word.encode 8 1 ++ (Word.encode 4 0 ++ Word.encode 4 0)
    let count := Word.encode 8 1 ++
      (Word.encode 4 0 ++ (Word.encode 4 12346 ++ Word.encode 4 65537))
    let read buffer := (Index.read .doubling).run (.ofBytes (streamOf 0 0 [buffer]))
    auto.restore [cookie] = .error (.io "existence" ⟨.other, "unknown cookie value"⟩) ∧
      auto.restore [count] = .error (.io "existence" ⟨.other, "size is greater than supported"⟩) ∧
      read cookie = .error (.io "frame 0" ⟨.other, "unknown cookie value"⟩) ∧
      read count = .error (.io "frame 0" ⟨.other, "size is greater than supported"⟩) :=
  ⟨rfl, rfl, rfl, rfl⟩

end Index

end BitSliced
