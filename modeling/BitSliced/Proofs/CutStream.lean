import BitSliced.Proofs.Frames

/-!
# Streams that are cut or that fail

An intake that takes its bytes piece by piece is *orderly*: whenever it succeeds on a faultless
source, it needed all bytes that it took, and no others. A source that ends in front of the last of
them is malformed, and a fault in front of the last of them shows, whereas a fault behind does not.
Fields and the bytes of frames are taken in this way, and all else is put together from them, so
reading an index is orderly. No cut can be in a place where the rest still looks like a stream.

A fault that merely interrupts is tried again by the source itself, and never shows.

## Main definitions

* `BitSliced.Source.Harmless` — faults that do not show up to a position.
* `BitSliced.Intake.Needs` — the bytes that an intake takes, and cannot do without.
* `BitSliced.Intake.Orderly` — every success needs the bytes that it takes.

## Main results

* `BitSliced.Intake.Orderly.bind` — what orderly intakes do in a row is orderly.
* `BitSliced.Index.orderly_read` — reading is orderly.
* `BitSliced.Index.cut_stream_rejected` — **a stream that is cut or fails is not half read**.
-/

namespace BitSliced

/-! ### Faults of a source -/

namespace Source

/-- A fault is *harmless* up to a position when it is not in front of it, or merely interrupts. -/
def Harmless (fault : Option (Nat × Failure)) (upto : Nat) : Prop :=
  ∀ place failure, fault = some (place, failure) → upto ≤ place ∨ failure.kind = .interrupted

theorem harmless_none (upto : Nat) : Harmless none upto := fun _ _ h => nomatch h

variable {fault : Option (Nat × Failure)} {front rest : List UInt8} {n position : Nat}

/-- A fault that is harmless up to a position is harmless in front of it. -/
theorem Harmless.of_le {upto : Nat} (h : Harmless fault upto) (hle : n ≤ upto) : Harmless fault n :=
  fun place failure hsame => (h place failure hsame).imp_left hle.trans

/-- Bytes in front of the fault are taken as from a faultless source. -/
theorem take_of_harmless (h : front.length = n) (hharmless : Harmless fault (position + n)) :
    Source.take ⟨front ++ rest, position, fault⟩ n =
      .ok (front, ⟨rest, position + front.length, fault⟩) := by
  have hsilent : Source.failure? ⟨front ++ rest, position, fault⟩ n = none := by
    cases fault with
    | none => rfl
    | some fault =>
      obtain ⟨place, failure⟩ := fault
      refine if_neg fun ⟨hshows, hahead, _⟩ => ?_
      have hahead : place - position < n := hahead
      rcases hharmless place failure rfl with hbehind | hinterrupts
      · omega
      · exact hshows hinterrupts
  subst h
  rw [Source.take, hsilent]
  simp

/-- A fault in front of the last byte shows. -/
theorem take_of_fault {p : Nat} (h : front.length = n) (hinside : p < n) {failure : Failure}
    (hshows : failure.kind ≠ .interrupted) :
    Source.take ⟨front.take p ++ rest, position, some (position + p, failure)⟩ n =
      .error failure := by
  have hmet : Source.failure? ⟨front.take p ++ rest, position, some (position + p, failure)⟩ n =
      some failure := by
    have hahead : position + p - position = p := Nat.add_sub_cancel_left position p
    refine if_pos ⟨hshows, ?_, ?_⟩
    · rwa [hahead]
    · rw [hahead, List.length_take, List.length_append, List.length_take]
      omega
  rw [Source.take, hmet]

end Source

/-! ### The bytes that an intake needs -/

namespace Intake

variable {α β : Type} {r : Intake α} {front back : List UInt8} {a : α} {n : Nat}

/-- An intake *needs* some bytes for a value: it takes just these off a source and gives the value
if no fault shows among them, and otherwise finds the source malformed or fails with the fault. -/
structure Needs (r : Intake α) (front : List UInt8) (a : α) : Prop where
  /-- Faults behind the bytes do not show. -/
  delivers : ∀ rest position fault, Source.Harmless fault (position + front.length) →
    r.run ⟨front ++ rest, position, fault⟩ = .ok (a, ⟨rest, position + front.length, fault⟩)
  /-- Each byte is missed. -/
  cut : ∀ p < front.length, r.Refuses (front.take p)
  /-- Faults among the bytes show. -/
  fails : ∀ p < front.length, ∀ rest position (failure : Failure), failure.kind ≠ .interrupted →
    r.run ⟨front.take p ++ rest, position, some (position + p, failure)⟩ =
      .error (.ofDecoding "bsi stream" failure)

theorem Needs.reads (h : r.Needs front a) : r.Reads front a := fun rest position =>
  h.delivers rest position none (Source.harmless_none _)

/-- What takes no bytes needs none. -/
theorem needs_nil (h : ∀ source, r.run source = .ok (a, source)) : r.Needs [] a where
  delivers rest position fault _ := h ⟨rest, position, fault⟩
  cut p hinside := absurd hinside (Nat.not_lt_zero p)
  fails p hinside := absurd hinside (Nat.not_lt_zero p)

/-- Two intakes in a row need the bytes of both. -/
theorem Needs.bind {next : α → Intake β} {b : β} (hfirst : r.Needs front a)
    (hsecond : (next a).Needs back b) : (r >>= next).Needs (front ++ back) b where
  delivers rest position fault hharmless := by
    rw [List.length_append, ← Nat.add_assoc] at hharmless ⊢
    rw [StateT.run_bind, List.append_assoc,
      hfirst.delivers _ _ _ (hharmless.of_le (Nat.le_add_right _ _))]
    exact hsecond.delivers rest _ fault hharmless
  cut p hinside := by
    rw [List.length_append] at hinside
    rcases Nat.lt_or_ge p front.length with hearly | hlate
    · rw [List.take_append_of_le_length hearly.le]
      exact (hfirst.cut p hearly).bind
    · rw [List.take_append, List.take_of_length_le hlate]
      exact hfirst.reads.bind_refuses (hsecond.cut _ (by omega))
  fails p hinside rest position failure hshows := by
    rw [List.length_append] at hinside
    rw [StateT.run_bind]
    rcases Nat.lt_or_ge p front.length with hearly | hlate
    · rw [List.take_append_of_le_length hearly.le,
        hfirst.fails p hearly rest position failure hshows]
      rfl
    -- The first intake is through before the fault, and the second one meets it.
    · have hharmless :
          Source.Harmless (some (position + p, failure)) (position + front.length) := by
        rintro _ _ ⟨⟩
        exact .inl (Nat.add_le_add_left hlate position)
      have hbehind : position + p = position + front.length + (p - front.length) := by omega
      rw [List.take_append, List.take_of_length_le hlate, List.append_assoc,
        hfirst.delivers _ _ _ hharmless, hbehind]
      exact hsecond.fails _ (by omega) rest _ failure hshows

/-- A field needs its bytes. -/
theorem needs_field (h : front.length = n) : (field n).Needs front front where
  delivers rest position fault hharmless := by
    rw [h] at hharmless
    rw [StateT.run, field, ofSource, Source.takeExactly, Source.take_of_harmless h hharmless]
    exact congrArg (Except.mapError _) (if_pos h)
  cut p hinside := field_refuses (by rw [List.length_take]; omega)
  fails p hinside rest position failure hshows := by
    rw [h] at hinside
    rw [StateT.run, field, ofSource, Source.takeExactly, Source.take_of_fault h hinside hshows]
    rfl

/-- The bytes of a frame are needed. -/
theorem needs_body (h : front.length = n) : (body n).Needs front front where
  delivers rest position fault hharmless := by
    rw [h] at hharmless
    have htaken : (ofSource (·.take n)).run ⟨front ++ rest, position, fault⟩ =
        .ok (front, ⟨rest, position + front.length, fault⟩) := by
      rw [StateT.run, ofSource, Source.take_of_harmless h hharmless]
      rfl
    rw [body, StateT.run_bind, htaken]
    show ((liftM (Error.checkFormat (decide (front.length = n)) _ _) : Intake Unit) >>=
      fun _ => pure front).run _ = _
    rw [run_check_bind (decide_eq_true h)]
    rfl
  cut p hinside := body_refuses (by rw [List.length_take]; omega)
  fails p hinside rest position failure hshows := by
    rw [h] at hinside
    have hfailed : (ofSource (·.take n)).run
        ⟨front.take p ++ rest, position, some (position + p, failure)⟩ =
          .error (.ofDecoding "bsi stream" failure) := by
      rw [StateT.run, ofSource, Source.take_of_fault h hinside hshows]
      rfl
    rw [body, StateT.run_bind, hfailed]
    rfl

/-! ### Orderly intakes -/

/-- An intake is *orderly* when each of its successes on a faultless source needs the bytes that it
takes. -/
def Orderly (r : Intake α) : Prop :=
  ∀ ⦃bytes position a rest⦄, r.run ⟨bytes, position, none⟩ = .ok (a, rest) →
    ∃ front after, bytes = front ++ after ∧ r.Needs front a

theorem orderly_pure (a : α) : (pure a : Intake α).Orderly := by
  intro bytes position b rest h
  obtain ⟨rfl, -⟩ := Prod.mk.inj (run_pure_eq_ok.1 h)
  exact ⟨[], bytes, rfl, needs_nil fun _ => rfl⟩

/-- What does not look at the source is orderly. -/
theorem orderly_lift (x : Except Error α) : (liftM x : Intake α).Orderly := by
  intro bytes position a rest h
  cases x with
  | error e => cases h
  | ok b =>
    obtain ⟨rfl, -⟩ := Prod.mk.inj (Except.ok.inj h)
    exact ⟨[], bytes, rfl, needs_nil fun _ => rfl⟩

/-- Orderly intakes in a row are orderly. -/
theorem Orderly.bind {next : α → Intake β} (hfirst : r.Orderly) (hsecond : ∀ a, (next a).Orderly) :
    (r >>= next).Orderly := by
  intro bytes position b rest h
  obtain ⟨a, source, htaken, h⟩ := run_bind_eq_ok.1 h
  obtain ⟨front, after, rfl, hneeds⟩ := hfirst htaken
  obtain ⟨-, rfl⟩ := Prod.mk.inj (Except.ok.inj (htaken.symm.trans (hneeds.reads after position)))
  obtain ⟨back, after, rfl, hneeds'⟩ := hsecond a h
  exact ⟨front ++ back, after, (List.append_assoc _ _ _).symm, hneeds.bind hneeds'⟩

/-- What refuses fewer bytes than a number, and otherwise needs as many, is orderly. -/
theorem orderly_of_length {r : Intake (List UInt8)} {n : Nat}
    (hshort : ∀ {bytes : List UInt8}, bytes.length < n → r.Refuses bytes)
    (henough : ∀ {front : List UInt8}, front.length = n → r.Needs front front) : r.Orderly := by
  intro bytes position a rest h
  rcases Nat.lt_or_ge bytes.length n with hfew | hmany
  · obtain ⟨element, text, hrefused⟩ := hshort hfew position
    cases h.symm.trans hrefused
  · have hneeds := henough (List.length_take_of_le hmany)
    have htaken := hneeds.reads (bytes.drop n) position
    rw [List.take_append_drop] at htaken
    obtain ⟨rfl, -⟩ := Prod.mk.inj (Except.ok.inj (h.symm.trans htaken))
    exact ⟨_, _, (List.take_append_drop n bytes).symm, hneeds⟩

theorem orderly_field (n : Nat) : (field n).Orderly := orderly_of_length field_refuses needs_field

theorem orderly_body (n : Nat) : (body n).Orderly := orderly_of_length body_refuses needs_body

end Intake

/-! ### Reading is orderly -/

open Intake

theorem orderly_readFrame (a : Allocator) (pool : Pool) (number : Nat) :
    (readFrame a pool number).Orderly := by
  rw [readFrame_eq]
  refine (orderly_field 8).bind fun length => ?_
  refine (orderly_body (Word.value length)).bind fun bytes => ?_
  exact (orderly_lift _).bind fun bitmap => orderly_pure _

theorem orderly_readFrames (a : Allocator) (pool : Pool) (number count : Nat) :
    (readFrames a pool number count).Orderly := by
  induction count generalizing pool number with
  | zero => exact orderly_pure []
  | succ count ih =>
    refine (orderly_readFrame a pool number).bind fun (bitmap, pool') => ?_
    exact (ih pool' (number + 1)).bind fun bitmaps => orderly_pure _

namespace Index

theorem orderly_readHeader : readHeader.Orderly := by
  refine (orderly_field 4).bind fun magic => ?_
  refine (orderly_lift _).bind fun _ => ?_
  refine (orderly_field 8).bind fun maxBytes => ?_
  refine (orderly_field 8).bind fun minBytes => ?_
  refine (orderly_field 4).bind fun count => ?_
  exact (orderly_lift _).bind fun _ => orderly_pure _

/-- Reading an index is orderly. -/
theorem orderly_read (a : Allocator) : (Index.read a).Orderly := by
  rw [read_eq]
  refine orderly_readHeader.bind fun header => ?_
  exact (orderly_readFrames a ∅ 0 header.2.2).bind fun bitmaps => orderly_pure _

/-- Reading a stream needs the whole stream. -/
theorem needs_stream (a : Allocator) {b : Index} (h : b.Streamable) :
    (Index.read a).Needs b.stream (b.withSettings {}) := by
  have hreads := reads_stream a h [] 0
  obtain ⟨front, after, hsame, hneeds⟩ := orderly_read a hreads
  have hagain := hneeds.reads after 0
  rw [← hsame] at hagain
  -- Nothing is left of the stream, so nothing was left when it was taken apart.
  obtain ⟨rfl⟩ : [] = after := congrArg (·.2.rest) (Except.ok.inj (hreads.symm.trans hagain))
  rw [List.append_nil, List.append_nil] at hsame
  rwa [hsame]

/-! ### Cut streams and failing sources -/

/-- **A stream that is cut or fails is not half read.** Let an index be written, and let the source
of its stream be cut short anywhere: it is found malformed. Let it give out part of the stream and
then fail otherwise than by an interruption, with whatever behind the place of the fault: the
failure is reported as one of the stream, as malformed if its kind blames the bytes, and as a failed
read if not. A fault behind the stream does not show, and what is read then is an equal index. -/
theorem cut_stream_rejected (a a' : Allocator) {b : Index} (h : b.Streamable) :
    b.write a .unlimited = .ok (b.stream.length, ⟨b.stream, none⟩) ∧
    (∀ p < b.stream.length,
      (∃ element text, (Index.read a').run (.ofBytes (b.stream.take p)) =
        .error (.invalidFormat element text)) ∧
      ∀ (failure : Failure) (behind : List UInt8), failure.kind ≠ .interrupted →
        (Index.read a').run (.failingAt (b.stream.take p ++ behind) p failure) =
          .error (if failure.kind ∈ [.invalidData, .invalidInput, .unexpectedEof] then
            .invalidFormat "bsi stream" failure.text else .io "bsi stream" failure)) ∧
    ∀ p ≥ b.stream.length, ∀ (failure : Failure) (behind : List UInt8),
      ∃ c, (Index.read a').run (.failingAt (b.stream ++ behind) p failure) =
        .ok (c, ⟨behind, b.stream.length, some (p, failure)⟩) ∧ (c == b) = true := by
  have hneeds := needs_stream a' h
  have hblames (kind : FailureKind) : kind.blamesData = true ↔
      kind ∈ [.invalidData, .invalidInput, .unexpectedEof] := by
    cases kind <;> simp [FailureKind.blamesData]
  refine ⟨b.write_eq a, fun p hinside => ⟨hneeds.cut p hinside 0, fun failure behind hshows => ?_⟩,
    fun p hbeyond failure behind => ?_⟩
  · have hfailed := hneeds.fails p hinside behind 0 failure hshows
    rw [Nat.zero_add] at hfailed
    simp only [← hblames]
    exact hfailed
  · have hharmless : Source.Harmless (some (p, failure)) (0 + b.stream.length) := by
      rintro _ _ ⟨⟩
      exact .inl (by omega)
    have hdelivered := hneeds.delivers behind 0 _ hharmless
    rw [Nat.zero_add] at hdelivered
    exact ⟨_, hdelivered, b.withSettings_beq {}⟩

/-- A stream of four frames that is cut inside the second one, or fails there, or behind its end. -/
theorem cut_stream_rejected_in_second_frame :
    let x := auto.put 7 5
    let late : Failure := ⟨.timedOut, "too late"⟩
    let bad : Failure := ⟨.invalidData, "bad block"⟩
    let read := (Index.read .doubling).run
    x.Streamable ∧ 70 < x.stream.length ∧
      (∃ element text, read (.ofBytes (x.stream.take 70)) = .error (.invalidFormat element text)) ∧
      read (.failingAt (x.stream.take 70 ++ [0]) 70 late) = .error (.io "bsi stream" late) ∧
      read (.failingAt (x.stream.take 70) 70 bad) =
        .error (.invalidFormat "bsi stream" "bad block") ∧
      ∃ c, read (.failingAt (x.stream ++ [0]) x.stream.length late) =
        .ok (c, ⟨[0], x.stream.length, some (x.stream.length, late)⟩) ∧ (c == x) = true := by
  intro x late bad read
  have hstreamable : x.Streamable := ⟨by decide, by decide, by decide +kernel⟩
  have hlong : 70 < x.stream.length := by
    rw [length_stream]
    decide +kernel
  obtain ⟨-, hinside, hbeyond⟩ := cut_stream_rejected .doubling .doubling hstreamable
  obtain ⟨hcut, hfails⟩ := hinside 70 hlong
  have hunpadded := hfails bad [] (by decide)
  rw [List.append_nil] at hunpadded
  exact ⟨hstreamable, hlong, hcut, hfails late [0] (by decide), hunpadded,
    hbeyond _ (Nat.le_refl _) late [0]⟩

end Index

end BitSliced
