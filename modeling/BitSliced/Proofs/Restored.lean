import BitSliced.Proofs.Equality
import BitSliced.Proofs.StreamBuffers

/-!
# Restoring into any index

Restoring takes over the bitmaps that were stored, whatever the index held before: planes that both
have are replaced, planes that only the buffers have are added, and planes that only the index has
are emptied. Bounds and settings stay.

Where an empty bitmap was stored, a buffer without bytes does as well, with one exception. A bitmap
without members may have partitions nevertheless. Such partitions are *hollow*; no change makes them
where there were none, but they can be read. The bitmap is then not equal to the empty one, which a
buffer without bytes stands for. Numbers, members and widths do not depend on it.

## Main definitions

* `BitSliced.StandsFor` — a stored bitmap, or no bytes in place of an empty one.

## Main results

* `BitSliced.Index.takeOver_beq_iff` — when what was taken over is equal to where it came from.
* `BitSliced.Index.restored_into_any` — **buffers are restored into any index**.
-/

namespace BitSliced

/-! ### Buffers without bytes -/

/-- Only the empty bitmap is equal to the empty one. -/
theorem Bitmap.eq_empty_of_beq {m : Bitmap} (h : (m == ∅) = true) : m = ∅ := by
  obtain ⟨-, hpartitions⟩ := beq_iff.1 h
  have hnothing : m.toPartitions = [] := by
    rw [toPartitions_eq, hpartitions]
    rfl
  rw [← m.ofPartitions_toPartitions, hnothing]
  rfl

/-- A buffer *stands for* a bitmap when it is its stored form, or has no bytes where the bitmap is
empty in some sense. -/
inductive StandsFor (empty : Bitmap → Prop) : Bitmap → List UInt8 → Prop where
  | stored (m : Bitmap) : StandsFor empty m m.encode
  | nothing {m : Bitmap} : empty m → StandsFor empty m []

/-- No bytes hold the same as the stored form of a bitmap that is equal to the empty one. -/
theorem StandsFor.holds {m : Bitmap} {buffer : List UInt8}
    (h : StandsFor (fun m => (m == ∅) = true) m buffer) : Holds buffer m := by
  cases h with
  | stored => exact m.holds_encode
  | nothing hempty =>
    rw [Bitmap.eq_empty_of_beq hempty]
    exact holds_nil

/-- No bytes have the same members as a bitmap without members. -/
theorem StandsFor.exists_holds {m : Bitmap} {buffer : List UInt8}
    (h : StandsFor (·.ids = ∅) m buffer) : ∃ n, Holds buffer n ∧ n.ids = m.ids := by
  cases h with
  | stored => exact ⟨m, m.holds_encode, rfl⟩
  | nothing hempty => exact ⟨∅, holds_nil, hempty.symm⟩

theorem exists_forall₂_holds {ms : List Bitmap} {buffers : List (List UInt8)}
    (h : List.Forall₂ (StandsFor (·.ids = ∅)) ms buffers) :
    ∃ ns, List.Forall₂ Holds buffers ns ∧ ns.map (·.ids) = ms.map (·.ids) := by
  induction h with
  | nil => exact ⟨[], .nil, rfl⟩
  | cons hown _ ih =>
    obtain ⟨n, hheld, hsame⟩ := hown.exists_holds
    obtain ⟨ns, hothers, hsames⟩ := ih
    exact ⟨n :: ns, .cons hheld hothers, by rw [List.map_cons, List.map_cons, hsame, hsames]⟩

/-- Where a buffer has no bytes, the empty bitmap is held. -/
theorem getElem?_of_holds_nil {buffers : List (List UInt8)} {ms : List Bitmap}
    (hheld : List.Forall₂ Holds buffers ms) {i : Nat} (h : buffers[i]? = some []) :
    ms[i]? = some ∅ := by
  induction hheld generalizing i with
  | nil => cases h
  | cons hown _ ih =>
    cases i with
    | zero =>
      obtain rfl := Option.some.inj h
      exact congrArg some (Except.ok.inj (hown.symm.trans holds_nil))
    | succ i => exact ih h

namespace Index

/-! ### Taking over bitmaps -/

/-- The planes that were given come first. -/
theorem plane?_takeOver_of_lt (t : Index) (existence : Bitmap) {planes : Planes} {i : Nat}
    (h : i < planes.length) : (t.takeOver existence planes).plane? i = some planes[i] := by
  rw [plane?, takeOver, List.getElem?_append_left h, List.getElem?_eq_getElem h]

/-- Planes above those that were given are empty. -/
theorem plane?_takeOver_of_ge (t : Index) (existence : Bitmap) {planes : Planes} {i : Nat}
    (habove : planes.length ≤ i) (hbelow : i < (t.takeOver existence planes).width) :
    (t.takeOver existence planes).plane? i = some ∅ := by
  rw [width_takeOver] at hbelow
  rw [plane?, takeOver, List.getElem?_append_right habove, Planes.blank,
    List.getElem?_replicate_of_lt (by omega)]

/-- A plane whose buffer has no bytes is empty. -/
theorem plane?_takeOver_of_nil (t : Index) {existence : Bitmap} {planes : Planes}
    {buffers : List (List UInt8)} (hheld : List.Forall₂ Holds buffers (existence :: planes))
    {i : Nat} (h : buffers[i + 1]? = some []) :
    (t.takeOver existence planes).plane? i = some ∅ := by
  have hplane : planes[i]? = some ∅ := getElem?_of_holds_nil hheld h
  obtain ⟨hinside, heq⟩ := List.getElem?_eq_some_iff.1 hplane
  rw [t.plane?_takeOver_of_lt existence hinside, heq]

/-- What was taken over is equal to what it was taken from when bounds and widths agree. -/
theorem takeOver_beq_iff {s t : Index} : (t.takeOver s.existence s.planes == s) = true ↔
    t.maxValue = s.maxValue ∧ t.minValue = s.minValue ∧ t.width ≤ s.width := by
  constructor
  · intro h
    have hsame := (beq_iff.1 h).1
    have hwidth := hsame.width
    rw [width_takeOver] at hwidth
    have hcount : s.planes.length = s.width := rfl
    exact ⟨hsame.maxValue, hsame.minValue, by omega⟩
  · rintro ⟨hmaxValue, hminValue, hle⟩
    have hsame : t.takeOver s.existence s.planes = s.withSettings t.settings := by
      rw [takeOver_of_le hle, hmaxValue, hminValue]
      rfl
    rw [hsame]
    exact s.withSettings_beq t.settings

/-! ### Restoring what was stored -/

/-- **Buffers are restored into any index.** The buffers of an index with up to 64 planes are
restored into any other one. Existence bitmap and planes are equal to those stored, planes above
them are empty, no plane is taken away, and bounds and settings stay. So every number is as it was
stored, and the index is equal to the one stored exactly when the bounds agree and it was not wider.

Where a bitmap equal to the empty one was stored, a buffer without bytes makes no difference. Where
a bitmap without members was stored, it makes none to members, widths and numbers, and what is
restored from a buffer without bytes is equal to the empty bitmap. -/
theorem restored_into_any {s : Index} (hfew : s.width ≤ 64) (t : Index) :
    ∃ c, t.restore s.toBuffers = .ok c ∧
      (c.existence == s.existence) = true ∧
      (∀ i < s.width, ∃ m n, c.plane? i = some m ∧ s.plane? i = some n ∧ (m == n) = true) ∧
      (∀ i, s.width ≤ i → i < c.width → c.plane? i = some ∅) ∧
      c.width = max s.width t.width ∧
      c.maxValue = t.maxValue ∧ c.minValue = t.minValue ∧ c.settings = t.settings ∧
      (∀ id, c.get? id = s.get? id) ∧
      ((c == s) = true ↔ t.maxValue = s.maxValue ∧ t.minValue = s.minValue ∧ t.width ≤ s.width) ∧
      (∀ buffers,
        List.Forall₂ (StandsFor fun m => (m == ∅) = true) (s.existence :: s.planes) buffers →
          t.restore buffers = .ok c) ∧
      ∀ buffers, List.Forall₂ (StandsFor (·.ids = ∅)) (s.existence :: s.planes) buffers →
        ∃ d, t.restore buffers = .ok d ∧ d.existence.ids = c.existence.ids ∧
          d.planes.map (·.ids) = c.planes.map (·.ids) ∧ d.maxValue = c.maxValue ∧
          d.minValue = c.minValue ∧ d.settings = c.settings ∧ (∀ id, d.get? id = c.get? id) ∧
          (buffers[0]? = some [] → (d.existence == ∅) = true) ∧
          ∀ i, buffers[i + 1]? = some [] → ∃ m, d.plane? i = some m ∧ (m == ∅) = true := by
  refine ⟨_, t.restore_toBuffers hfew, BEq.rfl, fun i hinside => ?_, fun i habove hbelow => ?_,
    t.width_takeOver s.existence s.planes, rfl, rfl, rfl, fun id => ?_, takeOver_beq_iff,
    fun buffers hstand => ?_, fun buffers hstand => ?_⟩
  · exact ⟨s.planes[i], s.planes[i], t.plane?_takeOver_of_lt s.existence hinside,
      List.getElem?_eq_getElem hinside, BEq.rfl⟩
  · exact t.plane?_takeOver_of_ge s.existence habove hbelow
  · simp only [get?, contains, patternOf, number_takeOver]
    rfl
  · exact t.restore_of_held (hstand.flip.imp fun _ _ => StandsFor.holds) hfew
  · obtain ⟨ns, hheld, hmembers⟩ := exists_forall₂_holds hstand
    obtain ⟨existence, planes, rfl, hexistenceIds, hplanesIds⟩ := List.map_eq_cons_iff.1 hmembers
    have hcount : planes.length = s.width := by
      have := congrArg List.length hplanesIds
      rwa [List.length_map, List.length_map] at this
    have hsamePlanes : (t.takeOver existence planes).planes.map (·.ids) =
        (t.takeOver s.existence s.planes).planes.map (·.ids) := by
      simp [takeOver, hplanesIds, hcount, width]
    have halike : (t.takeOver existence planes).Alike (t.takeOver s.existence s.planes) :=
      ⟨rfl, rfl, hexistenceIds, hsamePlanes⟩
    refine ⟨_, t.restore_of_held hheld (hcount ▸ hfew), hexistenceIds, hsamePlanes, rfl, rfl, rfl,
      halike.get?, fun h => ?_, fun i h => ?_⟩
    · have hempty : existence = ∅ := Option.some.inj (getElem?_of_holds_nil hheld h)
      exact (congrArg (· == (∅ : Bitmap)) hempty).trans BEq.rfl
    · exact ⟨∅, t.plane?_takeOver_of_nil hheld h, BEq.rfl⟩

/-- An index with three planes, the middle one empty, is restored into one with seven planes that
has a number of its own. -/
theorem restored_into_wider :
    let s := auto.put 7 5
    let t := (ofBounds 100 (-3)).put 9 1
    s.width ≤ 64 ∧ ∃ c, t.restore s.toBuffers = .ok c ∧ t.restore (s.toBuffers.set 2 []) = .ok c ∧
      c.width = 7 ∧ c.maxValue = 100 ∧ c.get? 7 = some 5 ∧ c.get? 9 = none ∧ (c == s) = false := by
  intro s t
  have hfew : s.width ≤ 64 := by decide
  obtain ⟨c, hrun, -, -, -, hwidth, hmaxValue, -, -, hnumbers, hequal, hsame, -⟩ :=
    restored_into_any hfew t
  have hmiddle : List.Forall₂ (StandsFor fun m => (m == ∅) = true) (s.existence :: s.planes)
      (s.toBuffers.set 2 []) :=
    .cons (.stored _) (.cons (.stored _) (.cons (.nothing (by decide +kernel))
      (.cons (.stored _) .nil)))
  have hwider : ¬ (c == s) = true := fun h => absurd (hequal.1 h).1 (by decide)
  exact ⟨hfew, c, hrun, hsame _ hmiddle, hwidth, hmaxValue, (hnumbers 7).trans (by decide +kernel),
    (hnumbers 9).trans (by decide +kernel), Bool.eq_false_iff.2 hwider⟩

/-- A plane without members may have a hollow partition. Restoring no bytes in its place then gives
another index. -/
theorem hollow_plane_shows :
    let hollow := Word.encode 8 1 ++ (Word.encode 4 0 ++ (Word.encode 4 12346 ++ Word.encode 4 0))
    ∃ s c d, auto.restore [[], hollow] = .ok s ∧ (∀ plane ∈ s.planes, plane.ids = ∅) ∧
      auto.restore s.toBuffers = .ok c ∧ auto.restore (s.toBuffers.set 1 []) = .ok d ∧
      (c == s) = true ∧ (d == s) = false ∧ (c == d) = false := by
  intro hollow
  have hheld : Holds hollow (.ofPartitions [⟨0, []⟩]) := rfl
  have hrun := auto.restore_of_held (.cons holds_nil (.cons hheld .nil)) (by decide)
  have hagain := auto.restore_of_held
    (.cons (∅ : Bitmap).holds_encode (.cons (Bitmap.ofPartitions [⟨0, []⟩]).holds_encode .nil))
    (by decide)
  have hwithout := auto.restore_of_held (.cons (∅ : Bitmap).holds_encode (.cons holds_nil .nil))
    (by decide)
  refine ⟨_, _, _, hrun, List.forall_mem_singleton.2 rfl, hagain, hwithout, ?_, ?_, ?_⟩
  all_goals decide +kernel

end Index

end BitSliced
