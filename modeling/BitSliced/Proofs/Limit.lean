import BitSliced.Proofs.Addition
import BitSliced.Proofs.Buffers
import BitSliced.Proofs.Histogram
import BitSliced.Index.Stream

/-!
# The limit of planes

No operation makes an index wider than 64 planes. This asks nothing of the index but its own width:
an index that was read or restored may have planes with bits of identifiers that hold no number, and
still keeps to the limit. What is read from a source keeps to it, whatever the source has.

## Main results

* `BitSliced.Index.width_put_le` and its siblings — the operations keep to the limit.
* `BitSliced.Index.width_le_of_read` — and so does reading.
-/

namespace BitSliced

/-! ### Reading -/

/-- Two intakes in a row succeed when both do. -/
theorem Intake.run_bind_eq_ok {α β : Type} {r : Intake α} {next : α → Intake β} {source : Source}
    {result : β × Source} : (r >>= next).run source = .ok result ↔
      ∃ a source', r.run source = .ok (a, source') ∧ (next a).run source' = .ok result := by
  rw [StateT.run_bind, Error.bind_eq_ok, Prod.exists]

/-- What is returned is what comes out. -/
theorem Intake.run_pure_eq_ok {α : Type} {a : α} {source : Source} {result : α × Source} :
    (pure a : Intake α).run source = .ok result ↔ result = (a, source) :=
  ⟨fun h => (Except.ok.inj h).symm, fun h => h ▸ rfl⟩

/-- A condition that was checked holds. -/
theorem Intake.of_run_check {holds : Bool} {element condition : String} {source : Source}
    {result : Unit × Source}
    (h : (liftM (Error.checkFormat holds element condition) : Intake Unit).run source =
      .ok result) : holds = true := by
  cases holds with
  | true => rfl
  | false => cases h

/-- As many bitmaps are read as were asked for. -/
theorem length_of_readFrames {a : Allocator} {pool : Pool} {number count : Nat}
    {source rest : Source} {bitmaps : List Bitmap}
    (h : (readFrames a pool number count).run source = .ok (bitmaps, rest)) :
    bitmaps.length = count := by
  induction count generalizing pool number source rest bitmaps with
  | zero =>
    obtain ⟨rfl, -⟩ := Prod.mk.inj (Intake.run_pure_eq_ok.1 h)
    rfl
  | succ count ih =>
    obtain ⟨⟨bitmap, pool'⟩, source', -, h⟩ := Intake.run_bind_eq_ok.1 h
    obtain ⟨others, source'', hread, h⟩ := Intake.run_bind_eq_ok.1 h
    obtain ⟨rfl, -⟩ := Prod.mk.inj (Intake.run_pure_eq_ok.1 h)
    rw [List.length_cons, ih hread]

namespace Index

variable {b c : Index}

/-- An index that is read keeps to the limit. -/
theorem width_le_of_read {a : Allocator} {source rest : Source}
    (h : (Index.read a).run source = .ok (b, rest)) : b.width ≤ Planes.limit := by
  obtain ⟨_, _, -, h⟩ := Intake.run_bind_eq_ok.1 h
  obtain ⟨_, _, -, h⟩ := Intake.run_bind_eq_ok.1 h
  obtain ⟨_, _, -, h⟩ := Intake.run_bind_eq_ok.1 h
  obtain ⟨_, _, -, h⟩ := Intake.run_bind_eq_ok.1 h
  obtain ⟨_, _, -, h⟩ := Intake.run_bind_eq_ok.1 h
  obtain ⟨_, _, hchecked, h⟩ := Intake.run_bind_eq_ok.1 h
  obtain ⟨bitmaps, _, hread, h⟩ := Intake.run_bind_eq_ok.1 h
  obtain ⟨rfl, -⟩ := Prod.mk.inj (Intake.run_pure_eq_ok.1 h)
  have hfew := of_decide_eq_true (Bool.and_eq_true_iff.1 (Intake.of_run_check hchecked)).2
  refine length_grow_le ?_ _
  rw [List.length_tail, length_of_readFrames hread]
  omega

/-! ### Changes -/

theorem width_put_le (hb : b.width ≤ Planes.limit) (id : UInt64) (value : Int64) :
    (b.put id value).width ≤ Planes.limit := by
  rw [width, planes_put, Planes.length_write]
  exact length_grow_le hb _

theorem width_putAll_le (hb : b.width ≤ Planes.limit) (entries : List (UInt64 × Int64)) :
    (b.putAll entries).width ≤ Planes.limit :=
  List.foldlRecOn (motive := fun b : Index => b.width ≤ Planes.limit) entries _ hb
    fun _ hnarrow _ _ => width_put_le hnarrow _ _

theorem width_join_le (hb : b.width ≤ Planes.limit) (p : Parallelism) (others : List Index) :
    (b.join p others).width ≤ Planes.limit := by
  rw [width, join, length_foldl_union]
  exact length_grow_le hb _

theorem width_incrementAll_le (hb : b.width ≤ Planes.limit) :
    b.incrementAll.width ≤ Planes.limit :=
  Planes.length_addDigit_le _ hb

theorem width_histogram_le (b : Index) (p : Parallelism) (found filter : Option IdSet) :
    (b.histogram p found filter).width ≤ Planes.limit :=
  (b.counts_histogram p found filter).tally.length_le

/-! ### Restoring -/

/-- Two outcomes of a revision are *related* when both are successes, or both are failures with the
same error, and they leave related indexes behind. -/
inductive Related {α : Type} (R : Index → Index → Prop) :
    EStateM.Result Error Index α → EStateM.Result Error Index α → Prop where
  | ok (a : α) {b c : Index} : R b c → Related R (.ok a b) (.ok a c)
  | error (e : Error) {b c : Index} : R b c → Related R (.error e b) (.error e c)

/-- What a revision leaves behind, whether it succeeds or fails. -/
def leftBehind {α : Type} : EStateM.Result Error Index α → Index
  | .ok _ b => b
  | .error _ b => b

theorem Related.leftBehind {α : Type} {R : Index → Index → Prop}
    {x y : EStateM.Result Error Index α} (h : Related R x y) :
    R (Index.leftBehind x) (Index.leftBehind y) := by
  cases h <;> assumption

/-- A revision *preserves* a relation when outcomes for related indexes are related. -/
def Revision.Preserves {α : Type} (R : Index → Index → Prop) (r : Revision α) : Prop :=
  ∀ ⦃b c⦄, R b c → Related R (r.run b) (r.run c)

namespace Revision

variable {α β : Type} {R : Index → Index → Prop}

theorem preserves_pure (a : α) : Preserves R (pure a) := fun _ _ h => .ok a h

theorem Preserves.bind {r : Revision α} {next : α → Revision β} (hfirst : r.Preserves R)
    (hsecond : ∀ a, (next a).Preserves R) : Preserves R (r >>= next) := by
  intro b c h
  have hrelated := hfirst h
  cases hb : r.run b <;> cases hc : r.run c <;> rw [hb, hc] at hrelated <;> cases hrelated
  · rw [run_bind_of_ok hb, run_bind_of_ok hc]
    exact hsecond _ ‹_›
  · rw [run_bind_of_error hb, run_bind_of_error hc]
    exact .error _ ‹_›

theorem preserves_ofExcept (x : Except Error α) : Preserves R (ofExcept x) := by
  intro b c h
  cases x with
  | ok a => exact .ok a h
  | error e => exact .error e h

theorem preserves_modify {f : Index → Index} (hsame : ∀ b c, R b c → R (f b) (f c)) :
    Preserves R (modify f) :=
  fun b c h => .ok () (hsame b c h)

end Revision

/-- A relation is kept by restoring, whether it succeeds or fails, when it is kept by growing, by
changing planes one for one, and by changing the existence bitmap. -/
theorem preserves_restoreInPlace {R : Index → Index → Prop}
    (hgrow : ∀ b c width, R b c → R (b.grow width) (c.grow width))
    (hchange : ∀ b c (f : Planes → Planes), (∀ ps, (f ps).length = ps.length) → R b c →
      R { b with planes := f b.planes } { c with planes := f c.planes })
    (hhold : ∀ b c m, R b c → R { b with existence := m } { c with existence := m })
    (buffers : List (List UInt8)) : (restoreInPlace buffers).Preserves R := by
  have hreplace (i : Nat) (others : List (List UInt8)) : (replacePlanes i others).Preserves R := by
    induction others generalizing i with
    | nil => exact Revision.preserves_pure ()
    | cons buffer others ih =>
      refine (Revision.preserves_ofExcept _).bind fun plane => .bind ?_ fun _ => ih (i + 1)
      exact Revision.preserves_modify fun b c =>
        hchange b c (fun ps => ps.set i plane) fun ps => List.length_set
  have hempty (i : Nat) : (emptyPlanes i).Preserves R :=
    Revision.preserves_modify fun b c =>
      hchange b c (fun ps => ps.take i ++ (ps.drop i).map fun _ => ∅) fun ps => by
        rw [List.length_append, List.length_map, ← List.length_append, List.take_append_drop]
  refine (Revision.preserves_ofExcept _).bind fun _ => ?_
  cases buffers with
  | nil => exact (Revision.preserves_modify fun b c => hhold b c ∅).bind fun _ => hempty 0
  | cons first others =>
    refine (Revision.preserves_modify fun b c => hgrow b c others.length).bind fun _ => ?_
    refine (hreplace 0 others).bind fun _ => (hempty others.length).bind fun _ => ?_
    exact (Revision.preserves_ofExcept _).bind fun existence =>
      Revision.preserves_modify fun b c => hhold b c existence

/-- What restoring leaves behind keeps to the limit, also when it fails. -/
theorem width_restoreInPlace_le (hb : b.width ≤ Planes.limit) (buffers : List (List UInt8)) :
    (leftBehind ((restoreInPlace buffers).run b)).width ≤ Planes.limit := by
  have hpreserved : (restoreInPlace buffers).Preserves fun b _ => b.width ≤ Planes.limit := by
    refine preserves_restoreInPlace (fun b _ width hnarrow => ?_) (fun b _ f hsame hnarrow => ?_)
      (fun _ _ _ => id) buffers
    · exact length_grow_le hnarrow width
    · exact (hsame b.planes).trans_le hnarrow
  exact (hpreserved (c := b) hb).leftBehind

end Index

end BitSliced
