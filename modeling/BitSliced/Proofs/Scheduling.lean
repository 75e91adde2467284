import Mathlib.Data.List.Forall2
import BitSliced.Proofs.Extremum
import BitSliced.Proofs.Limit
import BitSliced.Session.Basic

/-!
# Scheduling leaves no trace

Calls say in two ways how their work is to be spread over workers: by a degree of parallelism, and
by the settings of the indexes they work on. Both decide where sets are cut into batches, and which
work on planes is spread; what order workers come to the planes in is then up to a schedule. None of
it shows. Two sessions that serve the same calls, but for what they say about workers, give the same
answers and have indexes that differ in their settings only. That goes for calls that fail as well,
and for all that they leave behind.

The relation between both sessions asks for the limit of planes as well: beyond 64 planes a pattern
would lose bits that finding an extremum goes by.

## Main definitions

* `BitSliced.Index.Congruent` — indexes that differ in their settings only.
* `BitSliced.Session.Congruent` — sessions with congruent indexes under the same names.

## Main results

* `BitSliced.Session.serveUnder_congruent` — a call keeps sessions congruent, and is
  answered alike.
* `BitSliced.Session.serveAllUnder_congruent` — and so do calls in a row.
* `BitSliced.Session.scheduling_leaves_no_trace` — **scheduling leaves no trace**.
-/

namespace BitSliced

/-! ### Degrees of parallelism leave no trace in answers -/

theorem gather_filter_eq_gather (p q : Parallelism) (found : IdSet) (test : UInt64 → Bool) :
    gather p found (·.filter test) = gather q found (·.filter test) :=
  IdSet.ext fun _ => mem_gather_filter.trans mem_gather_filter.symm

theorem gather_map_eq_gather (p q : Parallelism) (found : IdSet) (f : UInt64 → UInt64) :
    gather p found (·.map f) = gather q found (·.map f) :=
  IdSet.ext fun _ => mem_gather_map.trans mem_gather_map.symm

namespace Index

variable (b : Index) (p q : Parallelism)

theorem select_eq_select (operation : Operation) (start stop : Int64) (found : Option IdSet) :
    b.select p operation start stop found = b.select q operation start stop found := by
  unfold select
  simp only [gather_filter_eq_gather p q]

theorem selectAny_eq_selectAny (values : List Int64) :
    b.selectAny p values = b.selectAny q values := by
  unfold selectAny
  simp only [gather_filter_eq_gather p q]

theorem numbers_eq_numbers (found : Option IdSet) : b.numbers p found = b.numbers q found :=
  gather_map_eq_gather p q _ _

theorem histogram_eq_histogram (found filter : Option IdSet) :
    b.histogram p found filter = b.histogram q found filter :=
  (b.counts_histogram p found filter).eq_of_settings_eq (b.counts_histogram q found filter) rfl

/-! ### Congruent indexes -/

variable {b} {c d e : Index}

/-- Two indexes are *congruent* when they differ in their settings only, and keep to the limit of
planes. -/
structure Congruent (b c : Index) : Prop where
  settings_only : ∃ settings, c = b.withSettings settings
  width_le : b.width ≤ Planes.limit

/-- An index that keeps to the limit is congruent to itself with any settings. -/
theorem congruent_withSettings (hb : b.width ≤ Planes.limit) (settings : Settings) :
    b.Congruent (b.withSettings settings) :=
  ⟨⟨settings, rfl⟩, hb⟩

theorem congruent_refl (hb : b.width ≤ Planes.limit) : b.Congruent b :=
  congruent_withSettings hb b.settings

theorem putAll_withSettings (b : Index) (settings : Settings) (entries : List (UInt64 × Int64)) :
    (b.withSettings settings).putAll entries = (b.putAll entries).withSettings settings := by
  induction entries generalizing b with
  | nil => rfl
  | cons entry entries ih => exact ih (b.put entry.1 entry.2)

/-- Restoring congruent indexes comes out the same, also when it fails half way. -/
theorem preserves_congruent (buffers : List (List UInt8)) :
    (restoreInPlace buffers).Preserves Congruent := by
  refine preserves_restoreInPlace (fun b c width h => ?_) (fun b c f hsame h => ?_)
    (fun b c m h => ?_) buffers
  all_goals obtain ⟨⟨settings, rfl⟩, hnarrow⟩ := h
  · exact ⟨⟨settings, rfl⟩, length_grow_le hnarrow width⟩
  · exact ⟨⟨settings, rfl⟩, (hsame b.planes).trans_le hnarrow⟩
  · exact ⟨⟨settings, rfl⟩, hnarrow⟩

/-- Joining looks at the planes and the existence bitmaps of the others only. -/
theorem join_congr {others others' : List Index} (hp : others.map planes = others'.map planes)
    (he : others.map existence = others'.map existence) :
    b.join p others = b.join q others' := by
  have hwidest (others : List Index) : b.widest others =
      ((others.map planes).map List.length).foldl max b.width := by
    rw [Index.widest, List.map_map]
    rfl
  have hjoined (others : List Index) : b.join p others = { b with
      planes := (others.map planes).foldl Planes.union
        (b.planes.grow (((others.map planes).map List.length).foldl max b.width))
      existence := (others.map existence).foldl Bitmap.union b.existence } := by
    rw [← hwidest, List.foldl_map, List.foldl_map]
    rfl
  exact (hjoined others).trans ((hp ▸ he ▸ hjoined others').symm)

namespace Congruent

theorem add (h : b.Congruent c) (h' : d.Congruent e) : (b.add d).Congruent (c.add e) := by
  obtain ⟨⟨settings, rfl⟩, hb⟩ := h
  obtain ⟨⟨settings', rfl⟩, -⟩ := h'
  exact congruent_withSettings (width_add_le hb d) settings

theorem join {others others' : List Index} (h : b.Congruent c)
    (ho : List.Forall₂ Index.Congruent others others') :
    (b.join p others).Congruent (c.join q others') := by
  obtain ⟨⟨settings, rfl⟩, hb⟩ := h
  have htaken {α : Type} (f : Index → α) (hsame : ∀ b settings, f (b.withSettings settings) = f b) :
      others.map f = others'.map f := by
    induction ho with
    | nil => rfl
    | cons hfirst _ ih =>
      obtain ⟨settings, rfl⟩ := hfirst.settings_only
      rw [List.map_cons, List.map_cons, hsame, ih]
  have heq : b.join p others = b.join q others' :=
    join_congr p q (htaken planes fun _ _ => rfl) (htaken existence fun _ _ => rfl)
  show (b.join p others).Congruent ((b.join q others').withSettings settings)
  rw [← heq]
  exact congruent_withSettings (width_join_le hb p others) settings

/-- Two indexes that are congruent to a third one are equal, and differ in their settings only. -/
theorem of_common (h : b.Congruent d) (h' : c.Congruent d) :
    (b == c) = true ∧ ∃ settings, c = b.withSettings settings := by
  obtain ⟨⟨settings, rfl⟩, -⟩ := h
  obtain ⟨⟨settings', heq⟩, -⟩ := h'
  have heq : c = b.withSettings c.settings := congrArg (·.withSettings c.settings) heq.symm
  have hbeq : (b == b.withSettings c.settings) = true := BEq.refl b
  exact ⟨heq ▸ hbeq, c.settings, heq⟩

theorem rel_of_common {x y z : Option Index} (h : Option.Rel Index.Congruent x z)
    (h' : Option.Rel Index.Congruent y z) :
    Option.Rel (fun b c => (b == c) = true ∧ ∃ settings, c = b.withSettings settings) x y := by
  cases h with
  | none =>
    cases h'
    exact .none
  | some hb =>
    cases h' with | some hc => exact .some (hb.of_common hc)

end Congruent

end Index

namespace Session

/-! ### Congruent sessions -/

/-- Two sessions are *congruent* when they have congruent indexes under the same names. -/
def Congruent (s t : Session) : Prop :=
  ∀ name, Option.Rel Index.Congruent (s.index? name) (t.index? name)

/-- What comes out of two calls is congruent when the answers are equal and the sessions are
congruent. -/
def CongruentOutcome (r r' : Answer × Session) : Prop := r.1 = r'.1 ∧ r.2.Congruent r'.2

variable {s t : Session}

theorem congruent_empty : (∅ : Session).Congruent ∅ := fun _ => .none

namespace Congruent

theorem store (h : s.Congruent t) (name : String) {b c : Index} (hb : b.Congruent c) :
    (s.store name b).Congruent (t.store name c) := by
  intro other
  simp only [index?, Session.store, Std.ExtTreeMap.getElem?_insert]
  split
  · exact .some hb
  · exact h other

theorem withIndex (h : s.Congruent t) (name : String) {f g : Index → Answer × Session}
    (hsame : ∀ b c, b.Congruent c → CongruentOutcome (f b) (g c)) :
    CongruentOutcome (s.withIndex name f) (t.withIndex name g) := by
  have hfound := h name
  unfold Session.withIndex
  cases hs : s.index? name <;> cases ht : t.index? name <;> rw [hs, ht] at hfound
  · exact ⟨rfl, h⟩
  · cases hfound
  · cases hfound
  · cases hfound with | some hb => exact hsame _ _ hb

theorem ask (h : s.Congruent t) (name : String) {f g : Index → Answer}
    (hsame : ∀ b settings, b.width ≤ Planes.limit → g (Index.withSettings b settings) = f b) :
    CongruentOutcome (s.ask name f) (t.ask name g) := by
  refine h.withIndex name fun b c hb => ⟨?_, h⟩
  obtain ⟨⟨settings, rfl⟩, hnarrow⟩ := hb
  exact (hsame b settings hnarrow).symm

theorem derive (h : s.Congruent t) (name into : String) {f g : Index → Index}
    (hsame : ∀ b settings, ∃ settings',
      g (Index.withSettings b settings) = (f b).withSettings settings')
    (hnarrow : ∀ b, b.width ≤ Planes.limit → (f b).width ≤ Planes.limit) :
    CongruentOutcome (s.derive name into f) (t.derive name into g) := by
  refine h.withIndex name fun b c hb => ⟨rfl, h.store into ?_⟩
  obtain ⟨⟨settings, rfl⟩, hb⟩ := hb
  exact ⟨hsame b settings, hnarrow b hb⟩

/-- Names are in use in both sessions or in neither. -/
theorem indexesOf (h : s.Congruent t) (names : List String) :
    (∃ bs cs, s.indexesOf names = .ok bs ∧ t.indexesOf names = .ok cs ∧
      List.Forall₂ Index.Congruent bs cs) ∨
    ∃ missing, s.indexesOf names = .error missing ∧ t.indexesOf names = .error missing := by
  induction names with
  | nil => exact .inl ⟨[], [], rfl, rfl, .nil⟩
  | cons name names ih =>
    have hfound := h name
    unfold Session.indexesOf
    cases hs : s.index? name <;> cases ht : t.index? name <;> rw [hs, ht] at hfound
    · exact .inr ⟨name, rfl, rfl⟩
    · cases hfound
    · cases hfound
    · cases hfound with
      | some hb =>
        obtain ⟨bs, cs, hbs, hcs, hcongruent⟩ | ⟨missing, hbs, hcs⟩ := ih
        · exact .inl ⟨_ :: bs, _ :: cs, by rw [hbs]; rfl, by rw [hcs]; rfl, .cons hb hcongruent⟩
        · exact .inr ⟨missing, by rw [hbs]; rfl, by rw [hcs]; rfl⟩

end Congruent

/-! ### Calls -/

/-- A call keeps sessions congruent and is answered alike, whatever it says about workers and in
whatever order they come to planes. -/
theorem serveUnder_congruent (σ τ : Schedule) (h : s.Congruent t) (call : Call) :
    CongruentOutcome (s.serveUnder σ call) (t.serveUnder τ call.unscheduled) := by
  cases call with
  | declare name maxValue minValue =>
    have hnarrow := (Index.WellFormed.ofBounds maxValue minValue).width_le
    exact ⟨rfl, h.store name (Index.congruent_refl hnarrow)⟩
  | configure name settings => exact h.derive name name (fun _ _ => ⟨{}, rfl⟩) fun _ => id
  | copy name into => exact h.derive name into (fun _ settings => ⟨settings, rfl⟩) fun _ => id
  | put name entries =>
    refine h.derive name name (fun b settings => ⟨settings, ?_⟩) fun b hb => ?_
    · rw [Index.putAllPlanewise_eq, Index.putAllPlanewise_eq, b.putAll_withSettings]
    · rw [Index.putAllPlanewise_eq]
      exact Index.width_putAll_le hb entries
  | add name other =>
    exact h.withIndex name fun b c hb => h.withIndex other fun d e hd =>
      ⟨rfl, h.store name (hb.add hd)⟩
  | join name p others =>
    refine h.withIndex name fun b c hb => ?_
    obtain ⟨bs, cs, hbs, hcs, hcongruent⟩ | ⟨missing, hbs, hcs⟩ := h.indexesOf others
    · rw [hbs, hcs]
      dsimp only
      rw [Index.joinPlanewise_eq, Index.joinPlanewise_eq]
      exact ⟨rfl, h.store name (hb.join p _ hcongruent)⟩
    · rw [hbs, hcs]
      exact ⟨rfl, h⟩
  | increment name found =>
    exact h.derive name name (fun _ settings => ⟨settings, rfl⟩)
      fun _ hb => Index.width_increment_le hb found
  | incrementAll name =>
    exact h.derive name name (fun _ settings => ⟨settings, rfl⟩)
      fun _ => Index.width_incrementAll_le
  | clear name found =>
    refine h.derive name name (fun b settings => ⟨settings, ?_⟩) fun b hb => ?_
    · rw [Index.clearPlanewise_eq, Index.clearPlanewise_eq]
      rfl
    · rwa [Index.clearPlanewise_eq, b.width_clear]
  | retain name found into =>
    refine h.derive name into (fun b settings => ⟨settings, ?_⟩) fun b hb => ?_
    · rw [Index.retainPlanewise_eq, Index.retainPlanewise_eq]
      rfl
    · rwa [Index.retainPlanewise_eq, b.width_retain]
  | histogram name p found filter into =>
    refine h.derive name into (fun b settings => ⟨settings, ?_⟩)
      fun b _ => b.width_histogram_le p found filter
    rw [b.histogram_eq_histogram p ⟨1, 1⟩]
    rfl
  | restore name buffers =>
    refine h.withIndex name fun b c hb => ?_
    have hrestored := Index.preserves_congruent buffers hb
    cases hr : (Index.restoreInPlace buffers).run b <;>
      cases hr' : (Index.restoreInPlace buffers).run c <;>
        rw [hr, hr'] at hrestored <;> cases hrestored
    all_goals exact ⟨rfl, h.store name ‹_›⟩
  | read name source =>
    simp only [serveUnder, Call.unscheduled]
    cases hr : (Index.read .doubling).run source with
    | error e => exact ⟨rfl, h⟩
    | ok result => exact ⟨rfl, h.store name (Index.congruent_refl (Index.width_le_of_read hr))⟩
  | detail name detail => exact h.ask name fun _ _ _ => by cases detail <;> rfl
  | get name id => exact h.ask name fun _ _ _ => rfl
  | contains name id => exact h.ask name fun _ _ _ => rfl
  | holders name => exact h.ask name fun _ _ _ => rfl
  | plane name bit => exact h.ask name fun _ _ _ => rfl
  | select name p operation start stop found =>
    refine h.ask name fun b settings _ => ?_
    rw [b.select_eq_select p ⟨1, 1⟩]
    rfl
  | selectAny name p values =>
    refine h.ask name fun b settings _ => ?_
    rw [b.selectAny_eq_selectAny p ⟨1, 1⟩]
    rfl
  | total name found => exact h.ask name fun _ _ _ => rfl
  | extremum name p operation found =>
    refine h.ask name fun b settings hnarrow => ?_
    rw [Index.extremum_eq_extremum hnarrow p ⟨1, 1⟩]
    rfl
  | numbers name p found =>
    refine h.ask name fun b settings _ => ?_
    rw [b.numbers_eq_numbers p ⟨1, 1⟩]
    rfl
  | equal name other =>
    refine h.withIndex name fun b c hb => h.withIndex other fun d e hd => ⟨?_, h⟩
    obtain ⟨⟨settings, rfl⟩, -⟩ := hb
    obtain ⟨⟨settings', rfl⟩, -⟩ := hd
    rfl
  | encodedSize name => exact h.ask name fun _ _ _ => rfl
  | buffers name => exact h.ask name fun _ _ _ => rfl
  | write name sink => exact h.ask name fun _ _ _ => rfl

/-- Calls in a row keep sessions congruent and are answered alike. -/
theorem serveAllUnder_congruent (σ τ : Nat → Schedule) (h : s.Congruent t) (calls : List Call) :
    (s.serveAllUnder σ calls).1 = (t.serveAllUnder τ (calls.map Call.unscheduled)).1 ∧
      (s.serveAllUnder σ calls).2.Congruent (t.serveAllUnder τ (calls.map Call.unscheduled)).2 := by
  induction calls generalizing σ τ s t with
  | nil => exact ⟨rfl, h⟩
  | cons call calls ih =>
    obtain ⟨hanswer, hafter⟩ := serveUnder_congruent (σ 0) (τ 0) h call
    obtain ⟨hanswers, hlast⟩ := ih (σ ∘ Nat.succ) (τ ∘ Nat.succ) hafter
    refine ⟨?_, hlast⟩
    simp only [serveAllUnder, List.map_cons, hanswer, hanswers]

/-- **Scheduling leaves no trace.** Two sequences of calls that are the same but for degrees of
parallelism and settings, served from the session without any index on, give the same answers,
whatever numbers of threads the machines have and in whatever order workers come to planes. After
every step both sessions have equal indexes under the same names, which differ in their settings
only. -/
theorem scheduling_leaves_no_trace {calls calls' : List Call}
    (hsame : calls.map Call.unscheduled = calls'.map Call.unscheduled) (σ σ' : Nat → Schedule)
    (steps : Nat) :
    let run := (∅ : Session).serveAllUnder σ (calls.take steps)
    let run' := (∅ : Session).serveAllUnder σ' (calls'.take steps)
    run.1 = run'.1 ∧ ∀ name, Option.Rel
      (fun b c => (b == c) = true ∧ ∃ settings, c = b.withSettings settings)
      (run.2.index? name) (run'.2.index? name) := by
  intro run run'
  -- Both runs are congruent to the run of the calls that say nothing about workers.
  have hsame : (calls.take steps).map Call.unscheduled =
      (calls'.take steps).map Call.unscheduled := by
    rw [List.map_take, List.map_take, hsame]
  obtain ⟨hanswers, hcongruent⟩ := serveAllUnder_congruent σ σ congruent_empty (calls.take steps)
  obtain ⟨hanswers', hcongruent'⟩ :=
    serveAllUnder_congruent σ' σ congruent_empty (calls'.take steps)
  rw [← hsame] at hanswers' hcongruent'
  refine ⟨hanswers.trans hanswers'.symm, fun name => ?_⟩
  exact Index.Congruent.rel_of_common (hcongruent name) (hcongruent' name)

/-- One worker at a time, and three workers that come to every plane from the top down. A
restoration fails at its second plane, after it has emptied the first one. -/
theorem scheduling_leaves_no_trace_three_workers :
    let calls (p : Parallelism) (settings : Settings) : List Call :=
      [.declare "a" 0 0, .configure "a" settings, .put "a" [(1, 5), (2, 5), (3, 7)],
        .histogram "a" p none none "h", .copy "h" "g", .restore "g" [[], [], [1]],
        .join "h" p ["a"], .extremum "h" p .max (.ofList [2, 5, 7])]
    let one := calls ⟨1, 1⟩ ⟨1, 64⟩
    let three := calls ⟨0, 3⟩ ⟨5000, 0⟩
    let run := (∅ : Session).serveAllUnder (fun _ => .ascending) one
    let run' := (∅ : Session).serveAllUnder (fun _ => .descending) three
    one.map Call.unscheduled = three.map Call.unscheduled ∧ run.1 = run'.1 ∧
      (∀ name, Option.Rel (fun b c => (b == c) = true ∧ ∃ settings, c = b.withSettings settings)
        (run.2.index? name) (run'.2.index? name)) ∧
      (run.2.index? "h").bind (·.get? 5) = some 2 ∧
      (run.2.index? "g").map (fun b => (b.get? 5, b.get? 7)) = some (some 2, some 0) ∧
      (run.2.index? "h").map (·.settings) = some ⟨1, 64⟩ ∧
      (run'.2.index? "h").map (·.settings) = some ⟨5000, 0⟩ := by
  intro calls one three run run'
  have hsame : one.map Call.unscheduled = three.map Call.unscheduled := rfl
  obtain ⟨hanswers, hindexes⟩ :=
    scheduling_leaves_no_trace hsame (fun _ => .ascending) (fun _ => .descending) 8
  refine ⟨hsame, hanswers, hindexes, ?_, ?_, ?_, ?_⟩
  all_goals decide +kernel

end Session

end BitSliced
