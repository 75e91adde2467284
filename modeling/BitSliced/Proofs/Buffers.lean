import Mathlib.Data.List.Forall2
import BitSliced.Index.Buffers
import BitSliced.Proofs.Stored.Bitmap
import BitSliced.Proofs.WellFormed

/-!
# Buffers are read back

The buffers of an index are read back bitmap by bitmap, each as the bitmap that was stored.
Restoring decodes all buffers but the first one into planes, empties the planes above them, and
decodes the first buffer in the end. When a buffer is malformed, the planes in front of it have been
taken over; existence bitmap, bounds and settings are what they were.

## Main definitions

* `BitSliced.Holds` — the bitmap that some bytes are decoded to.
* `BitSliced.decodeEach` — decodes buffers one by one, up to the first fault.
* `BitSliced.Index.overwrite`, `BitSliced.Index.takeOver` — an index with some planes replaced, and
  one with other bitmaps.

## Main results

* `BitSliced.Bitmap.holds_encode` — what the stored form of a bitmap is read back as.
* `BitSliced.Index.restore_cons` — restoring is decoding each buffer, and taking over what comes
  out.
* `BitSliced.Index.restore_toBuffers` — restoring the buffers of an index.
* `BitSliced.Index.run_restoreInPlace_of_error` — what a failure leaves behind.
-/

namespace BitSliced

/-! ### Runs that may fail -/

section

variable {ε σ α β : Type} {r : EStateM ε σ α} {next : α → EStateM ε σ β} {s s' : σ}

theorem run_bind_of_ok {a : α} (h : r.run s = .ok a s') :
    (r >>= next).run s = (next a).run s' := by
  have hrun : r s = .ok a s' := h
  rw [EStateM.run, bind, EStateM.instMonad]
  simp only [EStateM.bind, hrun]
  rfl

/-- What a failure leaves behind is what comes out. -/
theorem run_bind_of_error {e : ε} (h : r.run s = .error e s') :
    (r >>= next).run s = .error e s' := by
  have hrun : r s = .error e s' := h
  rw [EStateM.run, bind, EStateM.instMonad]
  simp only [EStateM.bind, hrun]

end

/-! ### Decoding buffers one by one -/

/-- Some bytes *hold* a bitmap when they are decoded to it. -/
def Holds (buffer : List UInt8) (m : Bitmap) : Prop := decodeBuffer "" buffer = .ok m

/-- Which bitmap bytes are decoded to does not depend on the element they are decoded for. -/
theorem decodeBuffer_eq_ok_iff {element : String} {buffer : List UInt8} {m : Bitmap} :
    decodeBuffer element buffer = .ok m ↔ Holds buffer m := by
  unfold Holds decodeBuffer
  split
  · exact Iff.rfl
  · cases Bitmap.decode buffer <;> simp

theorem Bitmap.encode_ne_nil (m : Bitmap) : m.encode ≠ [] := List.cons_ne_nil _ _

/-- The stored form of a bitmap holds the bitmap. -/
theorem Bitmap.holds_encode (m : Bitmap) : Holds m.encode m := by
  have hnonempty : ¬ m.encode.isEmpty = true := fun h => m.encode_ne_nil (List.isEmpty_iff.1 h)
  rw [Holds, decodeBuffer, if_neg hnonempty, Bitmap.decode_encode]

/-- No bytes hold the empty bitmap. -/
theorem holds_nil : Holds [] ∅ := rfl

/-- Stored bitmaps are held one by one. -/
theorem forall₂_holds_encode (ms : List Bitmap) :
    List.Forall₂ Holds (ms.map (·.encode)) ms :=
  List.forall₂_map_left_iff.2 (List.forall₂_same.2 fun m _ => m.holds_encode)

/-- The bitmaps in some buffers, each decoded for the element of its position, from position `i` on
and up to the first fault. -/
def decodeEach (element : Nat → String) (i : Nat) : List (List UInt8) → Except Error (List Bitmap)
  | [] => return []
  | buffer :: buffers => do
    let m ← decodeBuffer (element i) buffer
    return m :: (← decodeEach element (i + 1) buffers)

/-- Buffers are decoded to bitmaps when each of them holds its own. -/
theorem decodeEach_eq_ok_iff {element : Nat → String} {i : Nat} {buffers : List (List UInt8)}
    {ms : List Bitmap} : decodeEach element i buffers = .ok ms ↔ List.Forall₂ Holds buffers ms := by
  induction buffers generalizing i ms with
  | nil => simp [decodeEach, pure, Except.pure, eq_comm]
  | cons buffer buffers ih =>
    rw [decodeEach, Error.bind_eq_ok, List.forall₂_cons_left_iff]
    simp only [Error.bind_eq_ok, decodeBuffer_eq_ok_iff, ih]
    constructor
    · rintro ⟨m, hfirst, rest, hothers, h⟩
      exact ⟨m, rest, hfirst, hothers, (Except.ok.inj h).symm⟩
    · rintro ⟨m, rest, hfirst, hothers, rfl⟩
      exact ⟨m, hfirst, rest, hothers, rfl⟩

/-- Decoding a buffer and those behind it fails at the buffer, or behind it. -/
theorem decodeEach_cons_eq_error_iff {element : Nat → String} {i : Nat} {buffer : List UInt8}
    {buffers : List (List UInt8)} {e : Error} :
    decodeEach element i (buffer :: buffers) = .error e ↔
      decodeBuffer (element i) buffer = .error e ∨
        ∃ m, Holds buffer m ∧ decodeEach element (i + 1) buffers = .error e := by
  have hheld (m : Bitmap) : Holds buffer m ↔ decodeBuffer (element i) buffer = .ok m :=
    decodeBuffer_eq_ok_iff.symm
  simp only [hheld]
  rw [decodeEach]
  cases decodeBuffer (element i) buffer with
  | error _ => simp [bind, Except.bind]
  | ok _ => cases decodeEach element (i + 1) buffers <;> simp [bind, Except.bind, pure, Except.pure]

namespace Index

/-! ### Replacing planes -/

/-- An index with the planes from plane `i` on replaced by others, as far as there are others. -/
def overwrite (b : Index) (i : Nat) (ps : Planes) : Index :=
  { b with planes := b.planes.take i ++ (ps ++ b.planes.drop (i + ps.length)) }

theorem overwrite_nil (b : Index) (i : Nat) : b.overwrite i [] = b := by
  have hsame : b.planes.take i ++ b.planes.drop i = b.planes := List.take_append_drop i b.planes
  exact congrArg (fun planes => { b with planes }) hsame

/-- Planes that are left above one plane are there after it was replaced. -/
theorem fits_after_set {b : Index} {i n : Nat} (hfits : i + (n + 1) ≤ b.width) (p : Bitmap) :
    i + 1 + n ≤ Index.width { b with planes := b.planes.set i p } := by
  rw [width, List.length_set]
  exact Nat.le_trans (by omega) hfits

/-- Planes are overwritten one after the other. -/
theorem overwrite_cons {b : Index} {i : Nat} (h : i < b.width) (p : Bitmap) (ps : Planes) :
    b.overwrite i (p :: ps) =
      Index.overwrite { b with planes := b.planes.set i p } (i + 1) ps := by
  have hfront : (b.planes.set i p).take (i + 1) = b.planes.take i ++ [p] := by
    rw [List.take_add_one, List.take_set_of_le (Nat.le_refl i), List.getElem?_set_self h]
    rfl
  have hback : (b.planes.set i p).drop (i + 1 + ps.length) =
      b.planes.drop (i + (ps.length + 1)) := by
    rw [List.drop_set_of_lt (by omega), Nat.add_assoc, Nat.add_comm 1]
  simp only [overwrite, hfront, hback, List.length_cons, List.append_assoc, List.cons_append,
    List.nil_append]

/-- Planes are replaced by what the buffers hold. -/
theorem run_replacePlanes_of_held {b : Index} {i : Nat} {buffers : List (List UInt8)} {ps : Planes}
    (hheld : List.Forall₂ Holds buffers ps) (hfits : i + buffers.length ≤ b.width) :
    (replacePlanes i buffers).run b = .ok () (b.overwrite i ps) := by
  induction hheld generalizing b i with
  | nil => exact congrArg (EStateM.Result.ok ()) (b.overwrite_nil i).symm
  | @cons buffer p buffers ps hown _ ih =>
    rw [List.length_cons] at hfits
    rw [overwrite_cons (by omega), ← ih (fits_after_set hfits p), replacePlanes,
      decodeBuffer_eq_ok_iff.2 hown]
    rfl

/-- When a buffer holds no bitmap, the planes in front of it have been replaced. -/
theorem run_replacePlanes_of_error {b : Index} {i : Nat} {buffers : List (List UInt8)} {e : Error}
    (hfailed : decodeEach planeElement i buffers = .error e)
    (hfits : i + buffers.length ≤ b.width) :
    ∃ ps, ps.length < buffers.length ∧ List.Forall₂ Holds (buffers.take ps.length) ps ∧
      (replacePlanes i buffers).run b = .error e (b.overwrite i ps) := by
  induction buffers generalizing b i with
  | nil => cases hfailed
  | cons buffer buffers ih =>
    rw [List.length_cons] at hfits
    rw [replacePlanes]
    obtain hmalformed | ⟨p, hown, hfailed⟩ := decodeEach_cons_eq_error_iff.1 hfailed
    · refine ⟨[], Nat.succ_pos _, .nil, ?_⟩
      rw [hmalformed, overwrite_nil]
      rfl
    · obtain ⟨ps, hshort, hheld, hrun⟩ := ih hfailed (fits_after_set hfits p)
      refine ⟨p :: ps, Nat.succ_lt_succ hshort, .cons hown hheld, ?_⟩
      rw [overwrite_cons (by omega), ← hrun, decodeBuffer_eq_ok_iff.2 hown]
      rfl

/-! ### Taking over bitmaps -/

/-- An index with other bitmaps. Planes above those given are emptied. -/
def takeOver (t : Index) (existence : Bitmap) (planes : Planes) : Index :=
  { t with existence, planes := planes ++ .blank (t.width - planes.length) }

theorem width_takeOver (t : Index) (existence : Bitmap) (planes : Planes) :
    (t.takeOver existence planes).width = max planes.length t.width := by
  rw [width, takeOver, List.length_append, Planes.length_blank]
  omega

theorem number_takeOver (t : Index) (existence : Bitmap) (planes : Planes) (id : UInt64) :
    (t.takeOver existence planes).planes.number id = planes.number id := by
  rw [takeOver, Planes.number_append, Planes.number_blank]
  rfl

/-- The planes of an index that was not wider are the ones taken over. -/
theorem takeOver_of_le {t : Index} {planes : Planes} (h : t.width ≤ planes.length)
    (existence : Bitmap) : t.takeOver existence planes = { t with existence, planes } := by
  rw [takeOver, Nat.sub_eq_zero_of_le h]
  exact congrArg (fun planes => { t with existence, planes }) (List.append_nil planes)

/-- Planes that were overwritten from the first one on, with those above them emptied, are planes
that were taken over. -/
theorem run_emptyPlanes (b : Index) {ps : Planes} (hfew : ps.length ≤ Planes.limit) :
    (emptyPlanes ps.length).run ((b.grow ps.length).overwrite 0 ps) =
      .ok () (b.takeOver b.existence ps) := by
  have hcount : (b.planes.grow ps.length).length - ps.length = b.width - ps.length := by
    rw [Planes.length_grow, width]
    omega
  have hfront : (ps ++ (b.planes.grow ps.length).drop ps.length).take ps.length = ps :=
    List.take_left
  have hback : (ps ++ (b.planes.grow ps.length).drop ps.length).drop ps.length =
      (b.planes.grow ps.length).drop ps.length := List.drop_left
  have hemptied : ((b.planes.grow ps.length).drop ps.length).map (fun _ => (∅ : Bitmap)) =
      Planes.blank (b.width - ps.length) := by
    rw [List.map_const', List.length_drop, hcount]
    rfl
  refine congrArg (fun planes => EStateM.Result.ok () { b with planes }) ?_
  simp only [overwrite, grow, List.take_zero, List.nil_append, Nat.zero_add, hfront, hback,
    hemptied]

/-! ### Restoring -/

section

variable (t : Index) {first : List UInt8} {others buffers : List (List UInt8)} {existence : Bitmap}
  {planes : Planes} {e : Error}

/-- More buffers than an index can have are refused, and nothing is taken over. -/
theorem run_restoreInPlace_of_many (hmany : Planes.limit + 1 < buffers.length) :
    (restoreInPlace buffers).run t =
      .error (.invalidFormat "buffers" "buffers.len() <= MAX_PLANES + 1") t := by
  have hcheck : Error.checkFormat (buffers.length ≤ Planes.limit + 1) "buffers"
      "buffers.len() <= MAX_PLANES + 1" =
        .error (.invalidFormat "buffers" "buffers.len() <= MAX_PLANES + 1") :=
    if_neg (by simpa using hmany)
  unfold restoreInPlace
  rw [hcheck]
  rfl

/-- Without any buffer everything is emptied. -/
theorem run_restoreInPlace_nil : (restoreInPlace []).run t = .ok () (t.takeOver ∅ []) := by
  have hemptied : t.planes.map (fun _ => (∅ : Bitmap)) = Planes.blank t.width := List.map_const'
  exact congrArg (fun planes => EStateM.Result.ok () { t with existence := ∅, planes }) hemptied

/-- The steps of restoring, once the number of buffers has been checked. -/
theorem restoreInPlace_cons (hfew : others.length ≤ Planes.limit) :
    restoreInPlace (first :: others) = (do
      modify (·.grow others.length)
      replacePlanes 0 others
      emptyPlanes others.length
      let existence ← .ofExcept (decodeBuffer "existence" first)
      modify fun b => { b with existence }) := by
  have hcheck : Error.checkFormat ((first :: others).length ≤ Planes.limit + 1) "buffers"
      "buffers.len() <= MAX_PLANES + 1" = .ok () :=
    if_pos (decide_eq_true (Nat.succ_le_succ hfew))
  unfold restoreInPlace
  rw [hcheck]
  rfl

/-- An index that has grown has planes for the buffers. -/
theorem fits_after_grow (hfew : others.length ≤ Planes.limit) :
    0 + others.length ≤ (t.grow others.length).width := by
  rw [grow, width, Planes.length_grow]
  omega

theorem run_restoreInPlace_of_decoded (hdecoded : List.Forall₂ Holds others planes)
    (hfew : others.length ≤ Planes.limit) : (restoreInPlace (first :: others)).run t =
      (do
        let existence ← .ofExcept (decodeBuffer "existence" first)
        modify fun b => { b with existence } : Revision Unit).run
          (t.takeOver t.existence planes) := by
  have hcount := hdecoded.length_eq
  have hreplaced := run_replacePlanes_of_held hdecoded (t.fits_after_grow hfew)
  have hemptied := t.run_emptyPlanes (hcount ▸ hfew)
  rw [← hcount] at hemptied
  rw [restoreInPlace_cons hfew]
  exact (run_bind_of_ok rfl).trans ((run_bind_of_ok hreplaced).trans (run_bind_of_ok hemptied))

/-- Restoring takes over the bitmaps that the buffers hold. -/
theorem run_restoreInPlace_of_held (hheld : List.Forall₂ Holds buffers (existence :: planes))
    (hfew : planes.length ≤ Planes.limit) :
    (restoreInPlace buffers).run t = .ok () (t.takeOver existence planes) := by
  obtain ⟨first, others, hown, hdecoded, rfl⟩ := List.forall₂_cons_right_iff.1 hheld
  rw [t.run_restoreInPlace_of_decoded hdecoded (hdecoded.length_eq ▸ hfew),
    decodeBuffer_eq_ok_iff.2 hown]
  rfl

/-- A restore that finds a plane malformed has grown the index and taken over the planes in front of
it. The other planes, and all else, are what they were. -/
theorem run_restoreInPlace_of_error (hfew : others.length ≤ Planes.limit)
    (hfailed : decodeEach planeElement 0 others = .error e) :
    ∃ ps, ps.length < others.length ∧ List.Forall₂ Holds (others.take ps.length) ps ∧
      ∀ first, (restoreInPlace (first :: others)).run t =
        .error e ((t.grow others.length).overwrite 0 ps) := by
  obtain ⟨ps, hshort, hheld, hrun⟩ := run_replacePlanes_of_error hfailed (t.fits_after_grow hfew)
  refine ⟨ps, hshort, hheld, fun first => ?_⟩
  rw [restoreInPlace_cons hfew]
  exact (run_bind_of_ok rfl).trans (run_bind_of_error hrun)

/-- A restore that finds the existence bitmap malformed has taken over all planes. -/
theorem run_restoreInPlace_of_malformed (hdecoded : List.Forall₂ Holds others planes)
    (hfew : others.length ≤ Planes.limit)
    (hmalformed : decodeBuffer "existence" first = .error e) :
    (restoreInPlace (first :: others)).run t = .error e (t.takeOver t.existence planes) := by
  rw [t.run_restoreInPlace_of_decoded hdecoded hfew, hmalformed]
  rfl

/-- Without any buffer everything is emptied. -/
theorem restore_nil : t.restore [] = .ok (t.takeOver ∅ []) := by
  rw [restore, run_restoreInPlace_nil]

theorem restore_of_many (hmany : Planes.limit + 1 < buffers.length) : t.restore buffers =
    .error (.invalidFormat "buffers" "buffers.len() <= MAX_PLANES + 1") := by
  rw [restore, t.run_restoreInPlace_of_many hmany]

/-- Restoring is decoding each buffer, the first one last, and taking over what comes out. -/
theorem restore_cons (hfew : others.length ≤ Planes.limit) : t.restore (first :: others) = (do
    let planes ← decodeEach planeElement 0 others
    let existence ← decodeBuffer "existence" first
    return t.takeOver existence planes) := by
  cases hdecoded : decodeEach planeElement 0 others with
  | error e =>
    obtain ⟨ps, -, -, hrun⟩ := t.run_restoreInPlace_of_error hfew hdecoded
    rw [restore, hrun first]
    rfl
  | ok planes =>
    have hheld := decodeEach_eq_ok_iff.1 hdecoded
    cases hown : decodeBuffer "existence" first with
    | error e =>
      rw [restore, t.run_restoreInPlace_of_malformed hheld hfew hown]
      rfl
    | ok existence =>
      have hall : List.Forall₂ Holds (first :: others) (existence :: planes) :=
        .cons (decodeBuffer_eq_ok_iff.1 hown) hheld
      rw [restore, t.run_restoreInPlace_of_held hall (hheld.length_eq ▸ hfew)]
      rfl

/-- Restoring succeeds when each buffer holds a bitmap. -/
theorem restore_cons_eq_ok_iff {c : Index} (hfew : others.length ≤ Planes.limit) :
    t.restore (first :: others) = .ok c ↔ ∃ existence planes,
      Holds first existence ∧ List.Forall₂ Holds others planes ∧
        c = t.takeOver existence planes := by
  rw [t.restore_cons hfew]
  simp only [Error.bind_eq_ok, decodeEach_eq_ok_iff, decodeBuffer_eq_ok_iff]
  constructor
  · rintro ⟨planes, hdecoded, existence, hown, h⟩
    exact ⟨existence, planes, hown, hdecoded, (Except.ok.inj h).symm⟩
  · rintro ⟨existence, planes, hown, hdecoded, rfl⟩
    exact ⟨planes, hdecoded, existence, hown, rfl⟩

/-- Restoring takes over the bitmaps that the buffers hold. -/
theorem restore_of_held (hheld : List.Forall₂ Holds buffers (existence :: planes))
    (hfew : planes.length ≤ Planes.limit) :
    t.restore buffers = .ok (t.takeOver existence planes) := by
  rw [restore, t.run_restoreInPlace_of_held hheld hfew]

/-- Restoring the buffers of an index takes over its bitmaps and empties the planes above them. -/
theorem restore_toBuffers {s : Index} (hfew : s.width ≤ Planes.limit) :
    t.restore s.toBuffers = .ok (t.takeOver s.existence s.planes) :=
  t.restore_of_held (forall₂_holds_encode (s.existence :: s.planes)) hfew

end

/-- Restoring never makes an index narrower. -/
theorem width_le_width_restore {b c : Index} {buffers : List (List UInt8)}
    (h : b.restore buffers = .ok c) : b.width ≤ c.width := by
  by_cases hmany : Planes.limit + 1 < buffers.length
  · rw [b.restore_of_many hmany] at h
    cases h
  cases buffers with
  | nil =>
    obtain rfl := Except.ok.inj (b.restore_nil.symm.trans h)
    exact Nat.le_of_eq (b.width_takeOver ∅ []).symm
  | cons first others =>
    have hfew : others.length ≤ Planes.limit := Nat.le_of_succ_le_succ (Nat.not_lt.1 hmany)
    obtain ⟨existence, planes, -, -, rfl⟩ := (b.restore_cons_eq_ok_iff hfew).1 h
    rw [width_takeOver]
    exact Nat.le_max_right _ _

end Index

end BitSliced
