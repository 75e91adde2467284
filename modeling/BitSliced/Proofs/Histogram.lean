import BitSliced.Index.Histogram
import BitSliced.Proofs.Equality
import BitSliced.Proofs.Gathering
import BitSliced.Proofs.Planes.Tally
import BitSliced.Proofs.Planes.Width

/-!
# Histograms are exact

A histogram counts how many identifiers of a set hold each number. A batch is counted one identifier
at a time, each step adding one at the number of the identifier, and the counts of all batches are
then added up as indexes. Both ways of adding keep exact totals, together with the number of planes
that the totals need, so that the counts, the width, and in fact the whole index depend only on the
identifiers that were counted and not on how they were dealt out to batches.

The numbers themselves are also collected without counting. Both ways come to the same numbers:
those that exist in a histogram are the ones collected, as far as they pass the filter.

## Main definitions

* `BitSliced.Index.Counts` — an index that keeps counts and nothing else.
* `BitSliced.Index.occurrences` — how many identifiers of a set hold a number.

## Main results

* `BitSliced.Index.Counts.incrementId`, `BitSliced.Index.Counts.add` — both ways of adding count.
* `BitSliced.Index.counts_histogram` — a histogram keeps the counts over all batches.
* `BitSliced.Index.histogram_exact` — the counts, the width and the rest of a histogram.
* `BitSliced.Index.numbers_are_counted` — **the numbers collected are the numbers counted**.
-/

namespace BitSliced.Index

/-- An index that keeps counts and nothing else: it has no bounds, exactly the counted identifiers
exist, and there are as many planes as the greatest count needs. -/
structure Counts (h : Index) (total : UInt64 → Nat) : Prop where
  maxValue_eq : h.maxValue = 0
  minValue_eq : h.minValue = 0
  contains_iff : ∀ v, h.contains v = true ↔ 0 < total v
  tally : h.planes.Tally 0 total
  plain : h.All (·.IsPlain)

namespace Counts

variable {h h' : Index} {total total' : UInt64 → Nat}

theorem auto : Index.auto.Counts fun _ => 0 where
  maxValue_eq := rfl
  minValue_eq := rfl
  contains_iff _ := by simp [Index.auto, ofBounds, contains]
  tally := .nil
  plain := Bitmap.closed_isPlain.ofBounds 0 0

theorem congr (hc : h.Counts total) (heq : ∀ v, total v = total' v) : h.Counts total' :=
  funext heq ▸ hc

theorem withSettings (hc : h.Counts total) (settings : Settings) :
    (h.withSettings settings).Counts total :=
  ⟨hc.maxValue_eq, hc.minValue_eq, hc.contains_iff, hc.tally, hc.plain.existence, hc.plain.planes⟩

/-- Adding one for an identifier counts it once more. -/
theorem incrementId (hc : h.Counts total) (id : UInt64) :
    (h.incrementId id).Counts fun v => total v + if id = v then 1 else 0 where
  maxValue_eq := hc.maxValue_eq
  minValue_eq := hc.minValue_eq
  contains_iff v := by
    by_cases hsame : id = v
    · subst hsame
      simp [Index.incrementId, contains]
    · have hothers := Bitmap.contains_insert_of_ne h.existence (Ne.symm hsame)
      have hcounted := hc.contains_iff v
      rw [contains] at hcounted
      rw [Index.incrementId, contains, hothers, hcounted, if_neg hsame, Nat.add_zero]
  tally := by
    have hsum := hc.tally.addDigit (.single id)
    rw [← Planes.addOne_eq_addDigit] at hsum
    have hbit (v : UInt64) :
        ((Bitmap.single id).contains v).toNat = if id = v then 1 else 0 := by
      rw [Bitmap.contains_single]
      by_cases hsame : id = v
      · simp [hsame]
      · simp [hsame, Ne.symm hsame]
    simp only [hbit] at hsum
    exact hsum
  plain := Bitmap.closed_isPlain.incrementId hc.plain id

/-- Adding an index that keeps counts adds the counts. -/
theorem add (hc : h.Counts total) (hc' : h'.Counts total') :
    (h.add h').Counts fun v => total v + total' v where
  maxValue_eq := hc.maxValue_eq
  minValue_eq := hc.minValue_eq
  contains_iff v := by
    rw [contains_add, Bool.or_eq_true, hc.contains_iff, hc'.contains_iff]
    omega
  tally := hc.tally.addDigits hc'.tally
  plain := Bitmap.closed_isPlain.add hc.plain hc'.plain

/-- An index that keeps counts is well-formed. -/
theorem wellFormed (hc : h.Counts total) : h.WellFormed where
  enclosed := enclosed_iff.2 fun v hmissing => by
    have hzero : total v = 0 := Nat.eq_zero_of_not_pos fun hpos =>
      absurd ((hc.contains_iff v).2 hpos) (Bool.eq_false_iff.1 hmissing)
    rw [hc.tally.number_eq, hzero]
    rfl
  width_le := hc.tally.length_le
  bounds_le := by
    rw [hc.maxValue_eq, hc.minValue_eq]
    exact Nat.zero_le _

/-- An index is determined by the counts that it keeps and its settings. -/
theorem eq_of_settings_eq (hc : h.Counts total) (hc' : h'.Counts total)
    (hsettings : h.settings = h'.settings) : h = h' := by
  have hdeclared : h.declaration = h'.declaration := by
    rw [declaration, declaration, hc.maxValue_eq, hc.minValue_eq, hc'.maxValue_eq,
      hc'.minValue_eq, hsettings]
  have hholders (v : UInt64) : h.contains v = h'.contains v :=
    Bool.eq_iff_iff.2 ((hc.contains_iff v).trans (hc'.contains_iff v).symm)
  have halike : h.Alike h' := alike_of_declaration_eq hdeclared
    (hc.tally.length_eq_length hc'.tally) hholders fun v => by
      rw [hc.tally.number_eq, hc'.tally.number_eq]
  calc h = h.withSettings h'.settings := congrArg h.withSettings hsettings
    _ = h' := halike.withSettings_eq hc.plain hc'.plain

end Counts

/-! ### Counting batches -/

/-- Whether an identifier is counted at `v`: it has the number, and the filter lets it pass. -/
def countedAt (b : Index) (filter : Option IdSet) (v id : UInt64) : Bool :=
  b.patternOf id = v && filter.all (·.contains v)

/-- A batch is counted identifier by identifier. -/
theorem counts_countBatch (b : Index) (filter : Option IdSet) (batch : List UInt64) :
    (b.countBatch filter batch).Counts fun v => batch.countP (b.countedAt filter v) := by
  have hcounted (batch : List UInt64) {h : Index} {total : UInt64 → Nat} (hc : h.Counts total) :
      (batch.foldl (fun counts id =>
        if filter.all (·.contains (b.patternOf id)) then counts.incrementId (b.patternOf id)
        else counts) h).Counts fun v => total v + batch.countP (b.countedAt filter v) := by
    induction batch generalizing h total with
    | nil => exact hc
    | cons id batch ih =>
      rw [List.foldl_cons]
      split
      · next hpasses =>
        refine (ih (hc.incrementId (b.patternOf id))).congr fun v => ?_
        rw [List.countP_cons, Nat.add_assoc]
        by_cases hsame : b.patternOf id = v
        · subst hsame
          simp [countedAt, hpasses, Nat.add_comm]
        · simp [countedAt, hsame]
      · next hstops =>
        refine (ih hc).congr fun v => ?_
        rw [List.countP_cons]
        by_cases hsame : b.patternOf id = v
        · subst hsame
          simp [countedAt, hstops]
        · simp [countedAt, hsame]
  simpa [countBatch] using hcounted batch .auto

/-- A histogram keeps the counts over all batches, whatever the batches are. -/
theorem counts_histogram (b : Index) (p : Parallelism) (found filter : Option IdSet) :
    (b.histogram p found filter).Counts fun v =>
      (b.holdersIn found).toList.countP (b.countedAt filter v) := by
  have hmerged (rest : List (List UInt64)) {h : Index} {total : UInt64 → Nat}
      (hc : h.Counts total) : ((rest.map (b.countBatch filter)).foldl add h).Counts
        fun v => total v + rest.flatten.countP (b.countedAt filter v) := by
    induction rest generalizing h total with
    | nil => exact hc
    | cons batch rest ih =>
      refine (ih (hc.add (b.counts_countBatch filter batch))).congr fun v => ?_
      rw [List.flatten_cons, List.countP_append, Nat.add_assoc]
  rw [← flatten_batches p, histogram, partialCounts]
  cases batches p (b.holdersIn found) with
  | nil => exact Counts.auto.withSettings _
  | cons first rest =>
    refine ((hmerged rest (b.counts_countBatch filter first)).withSettings _).congr fun v => ?_
    rw [List.flatten_cons, List.countP_append]

/-! ### What a histogram says -/

/-- How many identifiers of a set hold a number, given by its pattern. -/
def occurrences (b : Index) (found : Option IdSet) (v : UInt64) : Nat :=
  (b.holdersIn found).toList.countP fun id => b.get? id = some v.toInt64

/-- How often the number is held that is held most often among those of a set; zero for none. -/
def mostOccurrences (b : Index) (found : Option IdSet) (values : IdSet) : Nat :=
  ((values.toList.map (b.occurrences found)).max?).getD 0

theorem countP_countedAt (b : Index) (found filter : Option IdSet) (v : UInt64) :
    (b.holdersIn found).toList.countP (b.countedAt filter v) =
      if ∀ s ∈ filter, v ∈ s then b.occurrences found v else 0 := by
  have hpasses : filter.all (·.contains v) = true ↔ ∀ s ∈ filter, v ∈ s := by
    cases filter <;> simp
  split
  · next hinside =>
    refine List.countP_congr fun id hid => ?_
    have hheld : b.contains id = true := (mem_holdersIn.1 (Std.ExtTreeSet.mem_toList.1 hid)).1
    simp [countedAt, hpasses.2 hinside, get?_eq_some_iff, hheld]
  · next houtside =>
    refine List.countP_eq_zero.2 fun id _ => ?_
    rw [countedAt, Bool.eq_false_iff.2 fun h => houtside (hpasses.1 h), Bool.and_false]
    exact Bool.false_ne_true

theorem occurrences_pos_iff {b : Index} {found : Option IdSet} {v : UInt64} :
    0 < b.occurrences found v ↔ ∃ id, (∀ s ∈ found, id ∈ s) ∧ b.get? id = some v.toInt64 := by
  rw [occurrences, List.countP_pos_iff]
  refine exists_congr fun id => ?_
  rw [Std.ExtTreeSet.mem_toList, mem_holdersIn, decide_eq_true_iff]
  constructor
  · rintro ⟨⟨-, hid⟩, hv⟩
    exact ⟨hid, hv⟩
  · rintro ⟨hid, hv⟩
    exact ⟨⟨(get?_eq_some_iff.1 hv).1, hid⟩, hv⟩

theorem occurrences_le_size (b : Index) (found : Option IdSet) (v : UInt64) :
    b.occurrences found v ≤ (b.holdersIn found).size :=
  Nat.le_trans List.countP_le_length (Nat.le_of_eq Std.ExtTreeSet.length_toList)

theorem mostOccurrences_spec (b : Index) (found : Option IdSet) (values : IdSet) :
    (∀ v ∈ values, b.occurrences found v ≤ b.mostOccurrences found values) ∧
      (b.mostOccurrences found values = 0 ∨
        ∃ v ∈ values, b.occurrences found v = b.mostOccurrences found values) := by
  unfold mostOccurrences
  cases hm : (values.toList.map (b.occurrences found)).max? with
  | none =>
    have hnone := List.max?_eq_none_iff.1 hm
    refine ⟨fun v hv => ?_, .inl rfl⟩
    have := List.mem_map_of_mem (f := b.occurrences found) (Std.ExtTreeSet.mem_toList.2 hv)
    rw [hnone] at this
    cases this
  | some n =>
    obtain ⟨hmem, habove⟩ := List.max?_eq_some_iff.1 hm
    obtain ⟨v, hv, rfl⟩ := List.mem_map.1 hmem
    refine ⟨fun w hw => habove _ (List.mem_map_of_mem (Std.ExtTreeSet.mem_toList.2 hw)), .inr ?_⟩
    exact ⟨v, Std.ExtTreeSet.mem_toList.1 hv, rfl⟩

namespace Counts

variable {h b : Index} {found filter : Option IdSet}

theorem mem_existence_iff (hc : h.Counts fun v =>
      (b.holdersIn found).toList.countP (b.countedAt filter v)) (v : UInt64) :
    v ∈ h.existence ↔ (∀ s ∈ filter, v ∈ s) ∧
      ∃ id, (∀ s ∈ found, id ∈ s) ∧ b.get? id = some v.toInt64 := by
  rw [← occurrences_pos_iff]
  refine (hc.contains_iff v).trans ?_
  rw [countP_countedAt]
  split
  · next hinside => rw [and_iff_right hinside]
  · next houtside => exact iff_of_false (Nat.lt_irrefl 0) fun h => houtside h.1

theorem number_eq_occurrences (hc : h.Counts fun v =>
      (b.holdersIn found).toList.countP (b.countedAt filter v)) {v : UInt64}
    (hv : v ∈ h.existence) : h.planes.number v = b.occurrences found v % 2 ^ 64 := by
  have hinside := ((hc.mem_existence_iff v).1 hv).1
  rw [hc.tally.number_eq, countP_countedAt, if_pos hinside]
  rfl

/-- The width follows from the number that is held most often. -/
theorem width_eq (hc : h.Counts fun v =>
      (b.holdersIn found).toList.countP (b.countedAt filter v)) :
    h.width = min 64 (bitLength (b.mostOccurrences found h.existence.ids)) := by
  obtain ⟨habove, hattained⟩ := b.mostOccurrences_spec found h.existence.ids
  have hcounted (v : UInt64) : (b.holdersIn found).toList.countP (b.countedAt filter v) =
      if v ∈ h.existence.ids then b.occurrences found v else 0 := by
    have hexists_iff := hc.contains_iff v
    split
    · next hmem =>
      have hinside := ((hc.mem_existence_iff v).1 hmem).1
      rw [countP_countedAt, if_pos hinside]
    · next hmissing => exact Nat.eq_zero_of_not_pos fun hpos => hmissing (hexists_iff.2 hpos)
  have hwidth := hc.tally.length_eq (n := b.mostOccurrences found h.existence.ids)
  rw [Nat.zero_max] at hwidth
  refine hwidth (fun v => ?_) (hattained.imp_right ?_)
  · rw [hcounted]
    split
    · next hmem => exact habove v hmem
    · exact Nat.zero_le _
  · rintro ⟨v, hmem, hv⟩
    exact ⟨v, by rw [hcounted, if_pos hmem, hv]⟩

end Counts

/-- **Histograms are exact.** The identifiers of a histogram are the numbers that pass the filter
and are held by an identifier of the set; each of them holds the number of its occurrences, and
there are as many planes as the bits of the greatest one. A histogram has no bounds, no plane has a
bit of an identifier that does not exist, the settings are those of the index that was counted, and
the degree of parallelism leaves no trace.

Counts are words, as every number is. Only when all `2 ^ 64` identifiers hold the same number does
its count not fit; it is then counted as zero, in 64 planes. -/
theorem histogram_exact (b : Index) (p : Parallelism) (found filter : Option IdSet) :
    let h := b.histogram p found filter
    (∀ v, v ∈ h.existence ↔ (∀ s ∈ filter, v ∈ s) ∧
      ∃ id, (∀ s ∈ found, id ∈ s) ∧ b.get? id = some v.toInt64) ∧
    (∀ v ∈ h.existence, h.get? v = some (Int64.ofNat (b.occurrences found v))) ∧
    h.width = min 64 (bitLength (b.mostOccurrences found h.existence.ids)) ∧
    ((b.holdersIn found).size < 2 ^ 64 →
      h.width = bitLength (b.mostOccurrences found h.existence.ids) ∧
      ∀ v ∈ h.existence, ∃ count, h.get? v = some count ∧
        count.toUInt64.toNat = b.occurrences found v) ∧
    h.maxValue = 0 ∧ h.minValue = 0 ∧ (∀ plane ∈ h.planes, ∀ v ∈ plane, v ∈ h.existence) ∧
    h.settings = b.settings ∧
    ∀ q, b.histogram q found filter = h := by
  intro h
  have hc := b.counts_histogram p found filter
  have hvalue (v : UInt64) (hv : v ∈ h.existence) :
      h.get? v = some (Int64.ofNat (b.occurrences found v)) := by
    refine get?_eq_some_iff.2 ⟨hv, ?_⟩
    rw [patternOf, hc.number_eq_occurrences hv, UInt64.ofNat_mod_size, Int64.toUInt64_ofNat']
  refine ⟨hc.mem_existence_iff, hvalue, hc.width_eq, fun hfew => ⟨?_, fun v hv => ?_⟩,
    hc.maxValue_eq, hc.minValue_eq, hc.wellFormed.enclosed, rfl, fun q => ?_⟩
  · have hfits : bitLength (b.mostOccurrences found h.existence.ids) ≤ 64 := by
      refine bitLength_le_iff.2 ?_
      obtain hzero | ⟨v, -, hv⟩ := (b.mostOccurrences_spec found h.existence.ids).2
      · omega
      · exact hv ▸ Nat.lt_of_le_of_lt (b.occurrences_le_size found v) hfew
    rw [hc.width_eq]
    exact Nat.min_eq_right hfits
  · refine ⟨_, hvalue v hv, ?_⟩
    have := Nat.lt_of_le_of_lt (b.occurrences_le_size found v) hfew
    rw [Int64.toUInt64_ofNat', UInt64.toNat_ofNat', Nat.mod_eq_of_lt this]
  · exact (b.counts_histogram q found filter).eq_of_settings_eq hc rfl

/-- Two identifiers in different batches hold the number `5`; the number `7` is filtered out. -/
theorem histogram_exact_two_batches :
    let b := ((auto.put 1 5).put 2 5).put 3 7
    let h := b.histogram ⟨2, 4⟩ none (some (.ofList [5]))
    (b.holdersIn none).size < 2 ^ 64 ∧ 7 ∉ h.existence ∧ h.get? 5 = some 2 ∧ h.width = 2 := by
  intro b h
  have hfew : (b.holdersIn none).size < 2 ^ 64 := by decide
  have htwo : b.occurrences none 5 = 2 := by decide
  have hvalues : h.existence.ids = .ofList [5] := by decide
  have hmost : b.mostOccurrences none (.ofList [5]) = 2 := by decide
  obtain ⟨hexist, hcounts, -, hexactly, -⟩ :=
    histogram_exact b ⟨2, 4⟩ none (some (.ofList [5]))
  refine ⟨hfew, fun h7 => ?_, ?_, ?_⟩
  · exact absurd (((hexist 7).1 h7).1 _ rfl) (by decide)
  · rw [hcounts 5 (by decide), htwo]
    rfl
  · exact (hexactly hfew).1.trans (by rw [hvalues, hmost]; decide)

/-! ### Numbers without counts -/

variable {b : Index} {p : Parallelism} {found : Option IdSet}

/-- The numbers collected are those held by some identifier of the set. -/
theorem mem_numbers {v : UInt64} : v ∈ b.numbers p found ↔
    ∃ id, (∀ s ∈ found, id ∈ s) ∧ b.get? id = some v.toInt64 := by
  rw [numbers, mem_gather_map]
  refine exists_congr fun id => ?_
  rw [mem_holdersIn, get?_eq_some_iff, and_comm (a := b.contains id = true), and_assoc]
  rfl

/-- What exists in a histogram are the numbers collected that pass the filter, in the plain layout
of a bitmap that was built from its members. -/
theorem existence_histogram (b : Index) (p q : Parallelism) (found filter : Option IdSet) :
    (b.histogram q found filter).existence =
      .ofIds (filter.elim (b.numbers p found) (b.numbers p found ∩ ·)) := by
  have hc := b.counts_histogram q found filter
  refine hc.plain.existence.ext (Bitmap.isPlain_ofIds _) fun v => Bool.eq_iff_iff.2 ?_
  refine (hc.mem_existence_iff v).trans ?_
  rw [← mem_numbers (p := p), Bitmap.contains_ofIds, Std.ExtTreeSet.contains_iff_mem]
  cases filter with
  | none => simp
  | some s => simp [Std.ExtTreeSet.mem_inter_iff, and_comm]

/-- **The numbers collected are the numbers counted.** The numbers of a set are collected exactly:
they are the patterns of the numbers that identifiers of the set hold. Whatever the degrees of
parallelism, the same numbers exist in the histogram of the set; and with a filter, those of them
exist that are in the filter. -/
theorem numbers_are_counted (b : Index) (p q : Parallelism) (found : Option IdSet) :
    (∀ v, v ∈ b.numbers p found ↔
      ∃ id, (∀ s ∈ found, id ∈ s) ∧ b.get? id = some v.toInt64) ∧
    (b.histogram q found none).existence = .ofIds (b.numbers p found) ∧
    ∀ filter : IdSet, (b.histogram q found (some filter)).existence =
      .ofIds (b.numbers p found ∩ filter) :=
  ⟨fun _ => mem_numbers, b.existence_histogram p q found none,
    fun filter => b.existence_histogram p q found (some filter)⟩

/-- Two identifiers in different batches hold `-1`, the greatest pattern; a third one holds a number
but is not in the set, and a member of the set holds none. -/
theorem numbers_are_counted_two_batches :
    let b := ((auto.put 1 (-1)).put 2 5).put 3 (-1)
    let found : IdSet := .ofList [1, 3, 8]
    let numbers := b.numbers ⟨2, 4⟩ (some found)
    (-1 : Int64).toUInt64 ∈ numbers ∧ 5 ∉ numbers ∧
      (b.histogram ⟨0, 3⟩ (some found) none).existence = .ofIds numbers ∧
      (b.histogram ⟨1, 3⟩ (some found) (some (.ofList [5]))).existence =
        .ofIds (numbers ∩ .ofList [5]) := by
  intro b found numbers
  obtain ⟨hmem, hcounted, -⟩ := numbers_are_counted b ⟨2, 4⟩ ⟨0, 3⟩ (some found)
  obtain ⟨-, -, hfiltered⟩ := numbers_are_counted b ⟨2, 4⟩ ⟨1, 3⟩ (some found)
  refine ⟨(hmem _).2 ⟨1, by simp [found], by decide +kernel⟩, fun hfive => ?_, hcounted,
    hfiltered _⟩
  obtain ⟨id, hinSet, hheld⟩ := (hmem 5).1 hfive
  have hmembers : id = 1 ∨ id = 3 ∨ id = 8 := by simpa [found] using hinSet found rfl
  obtain rfl | rfl | rfl := hmembers <;> exact absurd hheld (by decide +kernel)

end BitSliced.Index
