import BitSliced.Index.Extremum
import BitSliced.Proofs.Gathering
import BitSliced.Proofs.Planes.Numbers
import Mathlib.Order.Bounds.Defs

/-!
# Extrema are found

Narrowing candidates plane by plane keeps the candidates with the best number: the planes are looked
at from the most significant one down, so candidates without the wanted bit are beaten by those that
have it, whatever their lower bits are. The extrema of the batches are then reduced to that of all
of them, and how the identifiers were dealt out to batches does not show.

## Main definitions

* `BitSliced.Extremum.Beats` — the order in which numbers are better.
* `BitSliced.Extremum.Best` — what the best one of some patterns is.
* `BitSliced.Index.patternsIn` — the patterns of the numbers that a set of identifiers holds.

## Main results

* `BitSliced.beats_of_mem_narrow` — the candidates that remain beat all others.
* `BitSliced.Index.best_extremum` — the extremum is the best pattern of all holders in the set.
* `BitSliced.Index.extremum_eq_extremum` — the degree of parallelism leaves no trace.
* `BitSliced.Index.extremum_unsigned` — **extrema are those of the unsigned numbers**.
-/

namespace BitSliced

namespace Extremum

/-! ### The best of some patterns -/

/-- The first number is at least as good as the second one. -/
def Beats : Extremum → Nat → Nat → Prop
  | least, a, b => a ≤ b
  | greatest, a, b => b ≤ a

variable {wanted : Extremum} {a b c : Nat}

theorem Beats.refl : (wanted : Extremum) → (a : Nat) → wanted.Beats a a
  | least, a => Nat.le_refl a
  | greatest, a => Nat.le_refl a

theorem Beats.trans (h : wanted.Beats a b) (h' : wanted.Beats b c) : wanted.Beats a c := by
  cases wanted with
  | least => exact Nat.le_trans (m := b) h h'
  | greatest => exact Nat.le_trans (m := b) h' h

theorem Beats.antisymm (h : wanted.Beats a b) (h' : wanted.Beats b a) : a = b := by
  cases wanted with
  | least => exact Nat.le_antisymm h h'
  | greatest => exact Nat.le_antisymm h' h

/-- One of two patterns is picked, and it beats both. -/
theorem pick_spec (wanted : Extremum) (v w : UInt64) :
    (wanted.pick v w = v ∨ wanted.pick v w = w) ∧
      wanted.Beats (wanted.pick v w).toNat v.toNat ∧
        wanted.Beats (wanted.pick v w).toNat w.toNat := by
  cases wanted with
  | least =>
    show (ite (v ≤ w) v w = v ∨ ite (v ≤ w) v w = w) ∧
      (ite (v ≤ w) v w).toNat ≤ v.toNat ∧ (ite (v ≤ w) v w).toNat ≤ w.toNat
    split
    · next hle => exact ⟨.inl rfl, Nat.le_refl _, hle⟩
    · next hlt => exact ⟨.inr rfl, Nat.le_of_not_le hlt, Nat.le_refl _⟩
  | greatest =>
    show (ite (v ≤ w) w v = v ∨ ite (v ≤ w) w v = w) ∧
      v.toNat ≤ (ite (v ≤ w) w v).toNat ∧ w.toNat ≤ (ite (v ≤ w) w v).toNat
    split
    · next hle => exact ⟨.inr rfl, hle, Nat.le_refl _⟩
    · next hlt => exact ⟨.inl rfl, Nat.le_refl _, Nat.le_of_not_le hlt⟩

/-- What the best one of some patterns is: there is none for no patterns, and else it is one of them
that beats all of them. -/
structure Best (wanted : Extremum) (values : List UInt64) (best : Option UInt64) : Prop where
  none_iff : best = none ↔ values = []
  mem : ∀ v ∈ best, v ∈ values
  beats : ∀ v ∈ best, ∀ w ∈ values, wanted.Beats v.toNat w.toNat

namespace Best

variable {values : List UInt64} {best best' : Option UInt64}

theorem nil : wanted.Best [] none := ⟨by simp, by simp, by simp⟩

/-- There is only one best pattern. -/
theorem unique (h : wanted.Best values best) (h' : wanted.Best values best') : best = best' := by
  cases best with
  | none => exact (h'.none_iff.2 (h.none_iff.1 rfl)).symm
  | some v =>
    cases best' with
    | none => exact h.none_iff.2 (h'.none_iff.1 rfl)
    | some w =>
      have hforth := h.beats v rfl w (h'.mem w rfl)
      have hback := h'.beats w rfl v (h.mem v rfl)
      exact congrArg some (UInt64.toNat_inj.1 (hforth.antisymm hback))

/-- Picking from patterns one after the other finds the best one. -/
theorem foldl_pick (first : UInt64) (rest : List UInt64) :
    wanted.Best (first :: rest) (some (rest.foldl wanted.pick first)) := by
  induction rest generalizing first with
  | nil =>
    refine ⟨by simp, by simp, ?_⟩
    rintro _ ⟨⟩ w hw
    exact List.mem_singleton.1 hw ▸ .refl wanted _
  | cons next rest ih =>
    have hbest := ih (wanted.pick first next)
    obtain ⟨hpicked, hbetter⟩ := wanted.pick_spec first next
    rw [List.foldl_cons]
    refine ⟨by simp, fun v hv => ?_, fun v hv w hw => ?_⟩
    · obtain rfl | hinRest := List.mem_cons.1 (hbest.mem v hv)
      · obtain h | h := hpicked <;> simp [h]
      · simp [hinRest]
    · have habove := hbest.beats v hv
      obtain rfl | hw := List.mem_cons.1 hw
      · exact (habove _ List.mem_cons_self).trans hbetter.1
      obtain rfl | hw := List.mem_cons.1 hw
      · exact (habove _ List.mem_cons_self).trans hbetter.2
      · exact habove w (List.mem_cons_of_mem _ hw)

/-- The best one of the best patterns of some lists is the best one of all lists. -/
theorem of_filterMap {α : Type} {lists : List (List α)} {f : α → UInt64}
    {bestOf : List α → Option UInt64} (heach : ∀ l, wanted.Best (l.map f) (bestOf l))
    (h : wanted.Best (lists.filterMap bestOf) best) : wanted.Best (lists.flatten.map f) best where
  none_iff := by
    simp only [h.none_iff, List.filterMap_eq_nil_iff, (heach _).none_iff, List.map_eq_nil_iff,
      List.flatten_eq_nil_iff]
  mem v hv := by
    obtain ⟨l, hl, hfound⟩ := List.mem_filterMap.1 (h.mem v hv)
    obtain ⟨x, hx, rfl⟩ := List.mem_map.1 ((heach l).mem v hfound)
    exact List.mem_map_of_mem (List.mem_flatten.2 ⟨l, hl, hx⟩)
  beats v hv w hw := by
    obtain ⟨x, hx, rfl⟩ := List.mem_map.1 hw
    obtain ⟨l, hl, hx⟩ := List.mem_flatten.1 hx
    obtain ⟨u, hu⟩ : ∃ u, bestOf l = some u := by
      refine Option.ne_none_iff_exists'.1 fun hnone => ?_
      have hempty := List.map_eq_nil_iff.1 ((heach l).none_iff.1 hnone)
      rw [hempty] at hx
      cases hx
    exact (h.beats v hv u (List.mem_filterMap.2 ⟨l, hl, hu⟩)).trans
      ((heach l).beats u hu _ (List.mem_map_of_mem hx))

end Best

/-- The wanted extremum of a set of patterns. -/
def IsBestOf : Extremum → Set UInt64 → UInt64 → Prop
  | least => IsLeast
  | greatest => IsGreatest

/-- The wanted extremum of a set is one of its patterns that beats all of them. -/
theorem isBestOf_iff {values : Set UInt64} {v : UInt64} :
    wanted.IsBestOf values v ↔ v ∈ values ∧ ∀ w ∈ values, wanted.Beats v.toNat w.toNat := by
  cases wanted with
  | least => exact Iff.rfl
  | greatest => exact Iff.rfl

/-! ### Narrowing -/

/-- The bit that better numbers have. -/
def bit : Extremum → Bool
  | least => false
  | greatest => true

theorem mem_keep {candidates plane : IdSet} {id : UInt64} :
    id ∈ wanted.keep candidates plane ↔ id ∈ candidates ∧ plane.contains id = wanted.bit := by
  cases wanted with
  | least => simp [keep, bit, ← Std.ExtTreeSet.contains_iff_mem]
  | greatest => simp [keep, bit, Std.ExtTreeSet.mem_inter_iff]

/-- The most significant bit decides; where it is the same, the lower bits do. -/
theorem beats_add_two_pow {k x y : Nat} {p q : Bool} (hx : x < 2 ^ k) (hy : y < 2 ^ k)
    (h : p = q ∧ wanted.Beats x y ∨ p = wanted.bit ∧ q ≠ wanted.bit) :
    wanted.Beats (x + 2 ^ k * p.toNat) (y + 2 ^ k * q.toNat) := by
  obtain ⟨rfl, h⟩ | ⟨rfl, h⟩ := h
  · cases wanted with
    | least => exact Nat.add_le_add_right h _
    | greatest => exact Nat.add_le_add_right h _
  · obtain rfl := Bool.eq_not.2 h
    cases wanted <;> simp only [Beats, bit, Bool.not_true, Bool.not_false, Bool.toNat_true,
      Bool.toNat_false] <;> omega

end Extremum

variable {wanted : Extremum}

/-- One step of narrowing. A single candidate ends the search; else the candidates with the wanted
bit go on if there are any, and all candidates do if there are none. -/
theorem narrow_cons (wanted : Extremum) (p : Bitmap) (ps : Planes) (candidates : IdSet) :
    (candidates.size ≤ 1 ∧ narrow wanted (p :: ps) candidates = candidates) ∨
    ((∃ id, id ∈ wanted.keep candidates p.ids) ∧
      narrow wanted (p :: ps) candidates = narrow wanted ps (wanted.keep candidates p.ids)) ∨
    ((∀ id ∈ candidates, p.contains id ≠ wanted.bit) ∧
      narrow wanted (p :: ps) candidates = narrow wanted ps candidates) := by
  rw [narrow]
  split
  · next hsingle => exact .inl ⟨hsingle, rfl⟩
  · dsimp only
    split
    · next hnone =>
      refine .inr (.inr ⟨fun id hid hhas => ?_, rfl⟩)
      have hkept := IdSet.contains_of_isEmpty hnone id
      exact absurd (Extremum.mem_keep.2 ⟨hid, hhas⟩) (Bool.eq_false_iff.1 hkept)
    · next hsome =>
      exact .inr (.inl ⟨IdSet.exists_contains_of_not_isEmpty hsome, rfl⟩)

/-- Only candidates remain. -/
theorem mem_of_mem_narrow {ps : Planes} {candidates : IdSet} {id : UInt64}
    (h : id ∈ narrow wanted ps candidates) : id ∈ candidates := by
  induction ps generalizing candidates with
  | nil => exact h
  | cons p ps ih =>
    obtain ⟨-, heq⟩ | ⟨-, heq⟩ | ⟨-, heq⟩ := narrow_cons wanted p ps candidates <;> rw [heq] at h
    · exact h
    · exact (Extremum.mem_keep.1 (ih h)).1
    · exact ih h

/-- Some candidate remains if there is any. -/
theorem exists_mem_narrow (ps : Planes) {candidates : IdSet} (h : ∃ id, id ∈ candidates) :
    ∃ id, id ∈ narrow wanted ps candidates := by
  induction ps generalizing candidates with
  | nil => exact h
  | cons p ps ih =>
    obtain ⟨-, heq⟩ | ⟨hsome, heq⟩ | ⟨-, heq⟩ := narrow_cons wanted p ps candidates <;> rw [heq]
    · exact h
    · exact ih hsome
    · exact ih h

theorem eq_of_size_le_one {s : IdSet} (h : s.size ≤ 1) {x y : UInt64} (hx : x ∈ s) (hy : y ∈ s) :
    x = y := by
  rw [← Std.ExtTreeSet.length_toList] at h
  rw [← Std.ExtTreeSet.mem_toList] at hx hy
  match s.toList, h, hx, hy with
  | [z], _, hx, hy => rw [List.mem_singleton.1 hx, List.mem_singleton.1 hy]

/-- The plane that is looked at first decides; where its bits are the same, the planes below do. -/
theorem beats_reverse_cons {p : Bitmap} {ps : Planes} {x y : UInt64}
    (h : p.contains x = p.contains y ∧
        wanted.Beats (Planes.number ps.reverse x) (Planes.number ps.reverse y) ∨
      p.contains x = wanted.bit ∧ p.contains y ≠ wanted.bit) :
    wanted.Beats (Planes.number (p :: ps).reverse x) (Planes.number (p :: ps).reverse y) := by
  have hdigits (id : UInt64) : Planes.number (p :: ps).reverse id =
      Planes.number ps.reverse id + 2 ^ ps.reverse.length * (p.contains id).toNat := by
    rw [List.reverse_cons, Planes.number_append, Planes.number_cons, Planes.number_nil,
      Nat.mul_zero, Nat.add_zero]
  rw [hdigits, hdigits]
  exact Extremum.beats_add_two_pow (Planes.number_lt ..) (Planes.number_lt ..) h

/-- The candidates that remain beat all candidates, in the numbers of the planes that were looked
at. -/
theorem beats_of_mem_narrow {ps : Planes} {candidates : IdSet} {x y : UInt64}
    (hx : x ∈ narrow wanted ps candidates) (hy : y ∈ candidates) :
    wanted.Beats (Planes.number ps.reverse x) (Planes.number ps.reverse y) := by
  induction ps generalizing candidates with
  | nil => exact .refl wanted 0
  | cons p ps ih =>
    obtain ⟨hsingle, heq⟩ | ⟨-, heq⟩ | ⟨hnone, heq⟩ := narrow_cons wanted p ps candidates <;>
      rw [heq] at hx
    · exact eq_of_size_le_one hsingle hx hy ▸ .refl wanted _
    · refine beats_reverse_cons ?_
      have hkept := (Extremum.mem_keep.1 (mem_of_mem_narrow hx)).2
      by_cases hsame : p.contains y = wanted.bit
      · exact .inl ⟨Eq.trans hkept hsame.symm, ih hx (Extremum.mem_keep.2 ⟨hy, hsame⟩)⟩
      · exact .inr ⟨hkept, hsame⟩
    · -- No candidate has the wanted bit, so all have the other one.
      have hlacks {id : UInt64} (h : id ∈ candidates) : p.contains id = !wanted.bit :=
        Bool.eq_not.2 (hnone id h)
      exact beats_reverse_cons
        (.inl ⟨(hlacks (mem_of_mem_narrow hx)).trans (hlacks hy).symm, ih hx hy⟩)

namespace Index

variable {b : Index}

/-- The extremum of a batch is the best pattern of its identifiers. -/
theorem best_batchExtremum (hw : b.width ≤ Planes.limit) (wanted : Extremum)
    (batch : List UInt64) : wanted.Best (batch.map b.patternOf) (b.batchExtremum wanted batch) := by
  rw [batchExtremum]
  cases hl : (narrow wanted b.planes.reverse (.ofList batch)).toList with
  | nil =>
    have hempty : batch = [] := by
      refine List.eq_nil_iff_forall_not_mem.2 fun id hid => ?_
      obtain ⟨x, hx⟩ := exists_mem_narrow b.planes.reverse ⟨id, IdSet.mem_ofList.2 hid⟩
      rw [← Std.ExtTreeSet.mem_toList, hl] at hx
      cases hx
    subst hempty
    exact .nil
  | cons x rest =>
    have hremains : x ∈ narrow wanted b.planes.reverse (.ofList batch) := by
      rw [← Std.ExtTreeSet.mem_toList, hl]
      exact List.mem_cons_self
    have hmember := IdSet.mem_ofList.1 (mem_of_mem_narrow hremains)
    refine ⟨?_, ?_, ?_⟩
    · simpa using List.ne_nil_of_mem hmember
    · rintro _ ⟨⟩
      exact List.mem_map_of_mem hmember
    · rintro _ ⟨⟩ w hw'
      obtain ⟨y, hy, rfl⟩ := List.mem_map.1 hw'
      have hbeats := beats_of_mem_narrow hremains (IdSet.mem_ofList.2 hy)
      rwa [List.reverse_reverse, ← toNat_patternOf hw, ← toNat_patternOf hw] at hbeats

/-- The extremum is the best pattern of all holders in the set. -/
theorem best_extremum (hw : b.width ≤ Planes.limit) (p : Parallelism) {operation : Operation}
    {wanted : Extremum} (h : Extremum.of operation = .ok wanted) (found : IdSet) :
    ∃ best, b.extremum p operation found = .ok (best.map UInt64.toInt64) ∧
      wanted.Best ((b.holdersIn (some found)).toList.map b.patternOf) best := by
  have heach := b.best_batchExtremum hw wanted
  rw [extremum, h, ← flatten_batches p]
  dsimp only [bind, Except.bind, pure, Except.pure]
  cases he : (batches p (b.holdersIn (some found))).filterMap (b.batchExtremum wanted) with
  | nil =>
    refine ⟨none, rfl, .of_filterMap heach ?_⟩
    rw [he]
    exact .nil
  | cons first rest =>
    refine ⟨some (rest.foldl wanted.pick first), rfl, .of_filterMap heach ?_⟩
    rw [he]
    exact .foldl_pick first rest

/-- The degree of parallelism leaves no trace in an extremum. -/
theorem extremum_eq_extremum (hw : b.width ≤ Planes.limit) (p q : Parallelism)
    (operation : Operation) (found : IdSet) :
    b.extremum p operation found = b.extremum q operation found := by
  cases h : Extremum.of operation with
  | error e => rw [extremum, extremum, h]; rfl
  | ok wanted =>
    obtain ⟨best, hp, hbest_p⟩ := best_extremum hw p h found
    obtain ⟨best', hq, hbest_q⟩ := best_extremum hw q h found
    rw [hp, hq, hbest_p.unique hbest_q]

/-! ### Numbers held -/

/-- The patterns of the numbers that the identifiers of a set hold. -/
def patternsIn (b : Index) (found : IdSet) : Set UInt64 :=
  {v | ∃ id ∈ found, b.get? id = some v.toInt64}

/-- The identifiers that are dealt out to batches are those of the set that hold a number. -/
theorem mem_toList_holdersIn {found : IdSet} {id : UInt64} :
    id ∈ (b.holdersIn (some found)).toList ↔ id ∈ found ∧ id ∈ b.existence := by
  rw [Std.ExtTreeSet.mem_toList, mem_holdersIn, and_comm]
  exact and_congr_left' (by simp)

/-- The numbers held in a set are the patterns of its holders. -/
theorem mem_patternsIn {found : IdSet} {v : UInt64} :
    v ∈ b.patternsIn found ↔ v ∈ (b.holdersIn (some found)).toList.map b.patternOf := by
  rw [List.mem_map]
  refine exists_congr fun id => ?_
  rw [mem_toList_holdersIn, get?_eq_some_iff, and_assoc]
  rfl

/-- No identifier of a set holds a number when the set is disjoint from the holders. -/
theorem toList_holdersIn_eq_nil_iff {found : IdSet} :
    (b.holdersIn (some found)).toList = [] ↔ ∀ id ∈ found, id ∉ b.existence := by
  simp only [List.eq_nil_iff_forall_not_mem, mem_toList_holdersIn, not_and]

/-- An extremum is the best one of the numbers held in the set, and there is none only if no number
is held there. -/
theorem extremum_spec (hw : b.width ≤ Planes.limit) (p : Parallelism) {operation : Operation}
    {wanted : Extremum} (h : Extremum.of operation = .ok wanted) (found : IdSet) :
    ∃ best, b.extremum p operation found = .ok best ∧
      (best = none ↔ ∀ id ∈ found, id ∉ b.existence) ∧
      ∀ v ∈ best, wanted.IsBestOf (b.patternsIn found) v.toUInt64 := by
  obtain ⟨best, heq, hspec⟩ := best_extremum hw p h found
  refine ⟨_, heq, ?_, fun v hv => ?_⟩
  · rw [Option.map_eq_none_iff, hspec.none_iff, List.map_eq_nil_iff, toList_holdersIn_eq_nil_iff]
  · obtain ⟨u, hu, rfl⟩ := Option.map_eq_some_iff.1 hv
    exact Extremum.isBestOf_iff.2 ⟨mem_patternsIn.2 (hspec.mem u hu),
      fun w hw' => hspec.beats u hu w (mem_patternsIn.1 hw')⟩

/-- **Extrema are those of the unsigned numbers.** For every index of at most 64 planes, whatever
its planes have for identifiers that hold no number, and however the work is spread, the greatest
and the least number of a set are found: the extremum is held by an identifier of the set, and none
of its identifiers holds a greater or a smaller number, all patterns being read without sign. There
is none exactly when no identifier of the set holds a number. Asking for a comparison is refused. -/
theorem extremum_unsigned (b : Index) (p : Parallelism) (found : IdSet) :
    (b.width ≤ 64 →
      (∃ best, b.extremum p .max found = .ok best ∧
        (best = none ↔ ∀ id ∈ found, id ∉ b.existence) ∧
        ∀ v ∈ best, IsGreatest (b.patternsIn found) v.toUInt64) ∧
      ∃ best, b.extremum p .min found = .ok best ∧
        (best = none ↔ ∀ id ∈ found, id ∉ b.existence) ∧
        ∀ v ∈ best, IsLeast (b.patternsIn found) v.toUInt64) ∧
    ∀ operation : Operation, operation.isComparison = true →
      b.extremum p operation found = .error (.invalidArgument "op"
        ("'" ++ operation.symbol ++ "' does not select an extremum")) := by
  constructor
  · intro hfew
    have hgreatest : Extremum.of .max = .ok .greatest := rfl
    have hleast : Extremum.of .min = .ok .least := rfl
    exact ⟨extremum_spec hfew p hgreatest found, extremum_spec hfew p hleast found⟩
  · intro operation hcomparison
    cases operation with
    | min | max => cases hcomparison
    | lt | le | eq | ge | gt | range => rfl

/-- A negative number is greater than all others. The identifier `9` has bits but holds no number,
and the identifiers of the set are in two batches. -/
theorem extremum_unsigned_mixed_signs :
    let b : Index := { (((auto.put 1 7).put 2 (-3)).put 4 6).put 9 (-1) with
      existence := .ofIds (.ofList [1, 2, 4]) }
    let found : IdSet := .ofList [1, 2, 4, 9]
    b.width ≤ 64 ∧ b.extremum ⟨2, 8⟩ .max found = .ok (some (-3)) ∧
      b.extremum ⟨2, 8⟩ .min found = .ok (some 6) ∧
      IsGreatest (b.patternsIn found) (-3 : Int64).toUInt64 ∧
      IsLeast (b.patternsIn found) (6 : Int64).toUInt64 ∧
      b.extremum ⟨2, 8⟩ .max (.ofList [9]) = .ok none := by
  intro b found
  have hfew : b.width ≤ 64 := by decide +kernel
  have hmax : (b.extremum ⟨2, 8⟩ .max found).toOption = some (some (-3)) := by decide +kernel
  have hmin : (b.extremum ⟨2, 8⟩ .min found).toOption = some (some 6) := by decide +kernel
  obtain ⟨⟨_, hgreatest, -, hisGreatest⟩, _, hleast, -, hisLeast⟩ :=
    (extremum_unsigned b ⟨2, 8⟩ found).1 hfew
  obtain ⟨⟨_, halone, hnone_iff, -⟩, -⟩ := (extremum_unsigned b ⟨2, 8⟩ (.ofList [9])).1 hfew
  rw [hgreatest] at hmax
  rw [hleast] at hmin
  obtain rfl := Option.some.inj hmax
  obtain rfl := Option.some.inj hmin
  have habsent : ∀ id ∈ IdSet.ofList [9], id ∉ b.existence := fun id hid => by
    rw [List.mem_singleton.1 (IdSet.mem_ofList.1 hid)]
    decide +kernel
  rw [hnone_iff.2 habsent] at halone
  exact ⟨hfew, hgreatest, hleast, hisGreatest _ rfl, hisLeast _ rfl, halone⟩

end Index

end BitSliced
