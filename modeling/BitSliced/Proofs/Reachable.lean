import BitSliced.Proofs.Histogram
import BitSliced.Proofs.Stream

/-!
# Reachable indexes

An index is *reachable* when it comes out of a finite run of the operations: empty indexes to begin
with, changes in place, the indexes that are made from others, and indexes that were stored and read
back. Every reachable index is well-formed.

A set of identifiers that one is added for may be any bitmap, also one with hollow partitions, and
passes its layout on. So runs are told apart by the kind of these bitmaps: when it is a kind that
changes do not lead out of, all bitmaps of the index are of that kind. Other sets only take members
away, and may always be any bitmap.

A copy of an index is the same index, and has no case of its own.

## Main definitions

* `BitSliced.Index.ReachableBy`, `BitSliced.Index.Reachable` — the indexes that runs lead to.

## Main results

* `BitSliced.Index.WellFormed.takeOver` — restoring what is well-formed.
* `BitSliced.Index.ReachableBy.wellFormed`, `BitSliced.Index.ReachableBy.all` — reachable indexes
  are well-formed, and of the kind of what was added to them.
* `BitSliced.Index.reachable_invariant` — **what holds of all reachable indexes**, and that no
  change makes an index narrower.
-/

namespace BitSliced.Index

/-! ### Reading well-formed indexes back -/

/-- Taking over the bitmaps of a well-formed index leaves a well-formed index. -/
theorem WellFormed.takeOver {s t : Index} (ht : t.WellFormed) (hs : s.WellFormed) :
    (t.takeOver s.existence s.planes).WellFormed where
  enclosed := enclosed_iff.2 fun id hmissing => by
    rw [number_takeOver]
    exact hs.number_eq_zero hmissing
  width_le := by
    rw [width_takeOver]
    exact Nat.max_le.2 ⟨hs.width_le, ht.width_le⟩
  bounds_le := by
    rw [width_takeOver]
    exact Nat.le_trans ht.bounds_le (Nat.le_max_right _ _)

/-- A well-formed index can be read back when its bitmaps are small enough for their frames. -/
theorem WellFormed.streamable {b : Index} (h : b.WellFormed)
    (hfits : ∀ m ∈ b.existence :: b.planes, m.encodedSize < 2 ^ 64) : b.Streamable :=
  ⟨h.bounds_le, h.width_le, hfits⟩

/-! ### Runs -/

/-- The indexes that are reached by finite runs of the operations, where all bitmaps of identifiers
that one is added for are of some kind. -/
inductive ReachableBy (K : Bitmap → Prop) : Index → Prop where
  /-- The empty index for some bounds. -/
  | ofBounds (maxValue minValue : Int64) : ReachableBy K (ofBounds maxValue minValue)
  /-- The empty index without bounds. -/
  | auto : ReachableBy K auto
  /-- A change whose operands are reachable. -/
  | change {b : Index} (c : Change) :
      ReachableBy K b → (∀ other ∈ c.operands, ReachableBy K other) → (∀ m ∈ c.taken, K m) →
      ReachableBy K (c.apply b)
  /-- The part of an index for some identifiers. -/
  | retain {b : Index} (found : Bitmap) : ReachableBy K b → ReachableBy K (b.retain found)
  /-- The histogram of the numbers. -/
  | histogram {b : Index} (p : Parallelism) (found filter : Option IdSet) :
      ReachableBy K b → ReachableBy K (b.histogram p found filter)
  /-- An index restored from the buffers of another one. -/
  | restore {t s c : Index} :
      ReachableBy K t → ReachableBy K s → t.restore s.toBuffers = .ok c → ReachableBy K c
  /-- An index read from the bytes that another one was written as, whatever stands behind them. The
  length of each stored bitmap has to fit the word in front of its frame. -/
  | read {s c : Index} (a a' : Allocator) {written : Nat} {sink : Sink} (behind : List UInt8)
      (position : Nat) {rest : Source} :
      ReachableBy K s → (∀ m ∈ s.existence :: s.planes, m.encodedSize < 2 ^ 64) →
      s.write a .unlimited = .ok (written, sink) →
      (Index.read a').run ⟨sink.bytes ++ behind, position, none⟩ = .ok (c, rest) →
      ReachableBy K c

/-- The indexes that are reached by finite runs of the operations. -/
abbrev Reachable (b : Index) : Prop := b.ReachableBy fun _ => True

namespace ReachableBy

variable {K : Bitmap → Prop} {b : Index}

/-- Reachable indexes are well-formed. -/
theorem wellFormed (h : b.ReachableBy K) : b.WellFormed := by
  induction h with
  | ofBounds maxValue minValue => exact .ofBounds maxValue minValue
  | auto => exact .ofBounds 0 0
  | change c _ _ _ ih hoperands => exact Change.wellFormed_apply ih hoperands
  | retain found _ ih => exact ih.retain found
  | histogram p found filter _ ih => exact (counts_histogram _ p found filter).wellFormed
  -- What is read back is known in both cases.
  | @restore t s c _ _ hrun ht hs =>
    obtain rfl := Except.ok.inj ((t.restore_toBuffers hs.width_le).symm.trans hrun)
    exact ht.takeOver hs
  | @read s c a a' written sink behind position rest _ hfits hwrote hrun hs =>
    rw [write_eq] at hwrote
    obtain ⟨-, rfl⟩ := Prod.mk.inj (Except.ok.inj hwrote)
    rw [reads_stream a' (hs.streamable hfits) behind position] at hrun
    obtain ⟨rfl, -⟩ := Prod.mk.inj (Except.ok.inj hrun)
    exact hs.withSettings {}

/-- All bitmaps of a reachable index are of the kind of those that were added to it. -/
theorem all (hK : Bitmap.Closed K) (h : b.ReachableBy K) : b.All K := by
  induction h with
  | ofBounds maxValue minValue => exact hK.ofBounds maxValue minValue
  | auto => exact hK.ofBounds 0 0
  | change c _ _ htaken ih hoperands => exact Change.all_apply hK ih hoperands htaken
  | retain found _ ih => exact hK.retain ih found
  | @histogram b p found filter _ ih =>
    have hplain := (b.counts_histogram p found filter).plain
    exact ⟨hK.of_isPlain hplain.existence, fun m hm => hK.of_isPlain (hplain.planes m hm)⟩
  | @restore t s c _ hs hrun _ ih =>
    obtain rfl := Except.ok.inj ((t.restore_toBuffers hs.wellFormed.width_le).symm.trans hrun)
    exact ⟨ih.existence, hK.append_blank ih.planes _⟩
  | @read s c a a' written sink behind position rest hs hfits hwrote hrun ih =>
    rw [write_eq] at hwrote
    obtain ⟨-, rfl⟩ := Prod.mk.inj (Except.ok.inj hwrote)
    rw [reads_stream a' (hs.wellFormed.streamable hfits) behind position] at hrun
    obtain ⟨rfl, -⟩ := Prod.mk.inj (Except.ok.inj hrun)
    exact ⟨ih.existence, ih.planes⟩

end ReachableBy

/-- **Reachable indexes keep their invariant.** In every reachable index the planes have bits of
existing identifiers only, and there are at most 64 planes and at least as many as the bounds need.
No change and no restoring takes a plane away. -/
theorem reachable_invariant :
    (∀ b : Index, b.Reachable →
      (∀ plane ∈ b.planes, ∀ id ∈ plane, id ∈ b.existence) ∧ b.width ≤ 64 ∧
        boundsWidth b.maxValue b.minValue ≤ b.width) ∧
    (∀ (c : Change) (b : Index), b.width ≤ (c.apply b).width) ∧
    ∀ (b c : Index) (buffers : List (List UInt8)), b.restore buffers = .ok c →
      b.width ≤ c.width := by
  refine ⟨fun b h => ?_, fun c b => c.width_le_width_apply b, fun _ _ _ => width_le_width_restore⟩
  have hb := h.wellFormed
  exact ⟨hb.enclosed, hb.width_le, hb.bounds_le⟩

/-- An index without bounds, added to itself, and then restored into an index with bounds. -/
theorem reachable_invariant_restored :
    let s := auto.put 1 5
    let d := s.add s
    let t := ofBounds 1000 (-7)
    ∃ c, t.restore d.toBuffers = .ok c ∧ c.Reachable ∧ c.get? 1 = some 10 ∧ t.width = 10 ∧
      (∀ plane ∈ c.planes, ∀ id ∈ plane, id ∈ c.existence) ∧ t.width ≤ c.width ∧ c.width ≤ 64 ∧
      boundsWidth c.maxValue c.minValue ≤ c.width := by
  intro s d t
  have hs : s.Reachable :=
    .change (.put 1 5) .auto (fun _ h => absurd h List.not_mem_nil) fun _ _ => trivial
  have hd : d.Reachable :=
    .change (.add s) hs (fun _ h => List.mem_singleton.1 h ▸ hs) fun _ _ => trivial
  have ht : t.Reachable := .ofBounds 1000 (-7)
  have hrun := restore_toBuffers t hd.wellFormed.width_le
  have hc := ReachableBy.restore ht hd hrun
  obtain ⟨hinvariant, -, hrestoring⟩ := reachable_invariant
  obtain ⟨henclosed, hfew, hwide⟩ := hinvariant _ hc
  exact ⟨_, hrun, hc, by decide +kernel, by decide, henclosed, hrestoring t _ _ hrun, hfew, hwide⟩

end BitSliced.Index
