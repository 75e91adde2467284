import BitSliced.Proofs.Gathering
import BitSliced.Proofs.Planes.Numbers

/-!
# Comparisons are exact

Looking at the bits of a number from the most significant one down, and stopping as soon as the
outcome is settled, decides as comparing the whole number with the operands does. The standing after
all positions is the pair of orderings between the number and the two operands; once it is settled,
no further position changes the outcome, although it may still change the standing. Selecting makes
the same test in every batch, so that the batches play no part in what is selected.

Selecting by a list of values takes another way: every number is put together and looked up in the
list as a signed word. It finds what selecting for equality finds with each value in turn, also for
values that have bits above the planes.

## Main definitions

* `BitSliced.Operation.Holds` — how an operation sets a number against its operands.
* `BitSliced.Comparison.look` — the standing after all positions.
* `BitSliced.Index.holdersOf` — the identifiers that hold a number.

## Main results

* `BitSliced.Comparison.accepts_scan` — stopping early changes no outcome.
* `BitSliced.Comparison.look_positionsOf` — the standing after all positions orders the numbers.
* `BitSliced.Index.select_unsigned` — selecting answers the unsigned comparison.
* `BitSliced.Index.selectAny_joins_selections` — **selecting by a list of values joins selections**.
-/

namespace BitSliced

/-- How an operation sets a number against its operands, all of them unsigned. -/
def Operation.Holds (operation : Operation) (v start stop : UInt64) : Prop :=
  match operation with
  | .lt => v < start
  | .le => v ≤ start
  | .eq => v = start
  | .ge => start ≤ v
  | .gt => start < v
  | .range => start ≤ v ∧ v ≤ stop
  | .min | .max => False

/-- The standing after one more position. -/
def Standing.after (s : Standing) (id : UInt64) (p : Position) : Standing :=
  ⟨s.start.then (compare (p.plane.contains id) p.start),
    s.stop.then (compare (p.plane.contains id) p.stop)⟩

namespace Comparison

/-- The standing after all positions, whether the outcome is settled earlier or not. -/
def look (id : UInt64) (ps : List Position) (s : Standing) : Standing :=
  ps.foldl (·.after id ·) s

/-! ### Stopping early -/

theorem scan_cons (operation : Operation) (id : UInt64) (p : Position) (ps : List Position)
    (s : Standing) : scan operation id (p :: ps) s =
      if settled operation (s.after id p) then s.after id p
      else scan operation id ps (s.after id p) := rfl

/-- A settled outcome stays settled, and stays the same. -/
theorem settled_after {operation : Operation} {s : Standing} (h : settled operation s = true)
    (id : UInt64) (p : Position) : settled operation (s.after id p) = true ∧
      accepts operation (s.after id p) = accepts operation s := by
  obtain ⟨start, stop⟩ := s
  cases operation <;> cases start <;> cases stop <;>
    simp_all [settled, accepts, Standing.after, Ordering.then]

theorem accepts_look {operation : Operation} (id : UInt64) (ps : List Position) {s : Standing}
    (h : settled operation s = true) : accepts operation (look id ps s) = accepts operation s := by
  induction ps generalizing s with
  | nil => rfl
  | cons p ps ih =>
    obtain ⟨hstill, hsame⟩ := settled_after h id p
    rw [look, List.foldl_cons, ← look, ih hstill, hsame]

/-- Stopping early changes no outcome. -/
theorem accepts_scan (operation : Operation) (id : UInt64) (ps : List Position) (s : Standing) :
    accepts operation (scan operation id ps s) = accepts operation (look id ps s) := by
  induction ps generalizing s with
  | nil => rfl
  | cons p ps ih =>
    rw [scan_cons, look, List.foldl_cons, ← look]
    split
    · next h => exact (accepts_look id ps h).symm
    · exact ih _

/-! ### Bits in order and numbers in order -/

/-- The lowest bits decide between numbers that agree above them. -/
theorem compare_append (bit : Bool) (m n : Nat) :
    (compare m (n / 2)).then (compare bit (n % 2 = 1)) = compare (bit.toNat + 2 * m) n := by
  have hlow := bit.toNat_le
  rcases Nat.lt_trichotomy m (n / 2) with h | h | h
  · rw [Nat.compare_eq_lt.2 h, Nat.compare_eq_lt.2 (by omega)]
    rfl
  · rw [Nat.compare_eq_eq.2 h, Ordering.then]
    rcases Nat.mod_two_eq_zero_or_one n with hn | hn <;> cases bit
    · rw [hn, Nat.compare_eq_eq.2 (by simp; omega)]
      rfl
    · rw [hn, Nat.compare_eq_gt.2 (by simp; omega)]
      rfl
    · rw [hn, Nat.compare_eq_lt.2 (by simp; omega)]
      rfl
    · rw [hn, Nat.compare_eq_eq.2 (by simp; omega)]
      rfl
  · rw [Nat.compare_eq_gt.2 h, Nat.compare_eq_gt.2 (by omega)]
    rfl

theorem look_append (id : UInt64) (ps : List Position) (p : Position) (s : Standing) :
    look id (ps ++ [p]) s = (look id ps s).after id p := by
  simp [look, List.foldl_append]

/-- The standing after all positions orders the number and both operands, provided that the
positions reach over the planes and over both operands. -/
theorem look_positionsOf {width : Nat} {planes : Planes} {start stop : Nat}
    (hp : planes.length ≤ width) (hstart : start < 2 ^ width) (hstop : stop < 2 ^ width)
    (id : UInt64) : look id (positionsOf width planes start stop).reverse ⟨.eq, .eq⟩ =
      ⟨compare (planes.number id) start, compare (planes.number id) stop⟩ := by
  induction width generalizing planes start stop with
  | zero =>
    obtain rfl : planes = [] := List.length_eq_zero_iff.1 (Nat.le_zero.1 hp)
    obtain rfl : start = 0 := Nat.lt_one_iff.1 hstart
    obtain rfl : stop = 0 := Nat.lt_one_iff.1 hstop
    rfl
  | succ width ih =>
    rw [Nat.pow_succ] at hstart hstop
    have hupper (ps : Planes) (h : ps.length ≤ width) :=
      ih h (show start / 2 < 2 ^ width by omega) (show stop / 2 < 2 ^ width by omega)
    cases planes with
    | nil =>
      have habsent : (∅ : IdSet).contains id = false := Std.ExtTreeSet.contains_empty
      rw [positionsOf, List.reverse_cons, look_append, hupper [] (Nat.zero_le width),
        Standing.after, habsent, compare_append, compare_append]
      rfl
    | cons p ps =>
      rw [positionsOf, List.reverse_cons, look_append, hupper ps (Nat.le_of_succ_le_succ hp),
        Standing.after, compare_append, compare_append]
      rfl

/-! ### Selecting -/

/-- The orderings of a number and two operands satisfy a comparison when the comparison holds. -/
theorem accepts_compare {operation : Operation} (v start stop : UInt64) :
    accepts operation ⟨compare v.toNat start.toNat, compare v.toNat stop.toNat⟩ = true ↔
      operation.Holds v start stop := by
  cases operation <;>
    simp [accepts, Operation.Holds, UInt64.lt_iff_toNat_lt, UInt64.le_iff_toNat_le,
      ← UInt64.toNat_inj, Nat.compare_eq_lt, Nat.compare_eq_gt]

-- Only a range looks at the upper operand.
theorem accepts_congr {operation : Operation} (h : operation ≠ .range) (start stop : Ordering)
    (stop' : Ordering) : accepts operation ⟨start, stop⟩ = accepts operation ⟨start, stop'⟩ := by
  cases operation <;> first | rfl | exact absurd rfl h

/-- A comparison has the patterns of its operands, and looks at enough positions for the planes and
both operands. -/
theorem of_eq_ok {operation : Operation} {start stop : Int64} {width : Nat} {c : Comparison}
    (h : Comparison.of operation start stop width = .ok c) :
    c.operation = operation ∧ c.start = pattern start ∧
      (operation = .range → c.stop = pattern stop) ∧
      width ≤ c.width ∧ c.start < 2 ^ c.width ∧ c.stop < 2 ^ c.width := by
  unfold Comparison.of at h
  split at h
  · obtain rfl := Except.ok.inj h
    refine ⟨rfl, rfl, fun hrange => if_pos hrange, Nat.le_max_left .., ?_, ?_⟩
    · exact bitLength_le_iff.1 (Nat.le_trans (Nat.le_max_left ..) (Nat.le_max_right ..))
    · exact bitLength_le_iff.1 (Nat.le_trans (Nat.le_max_right ..) (Nat.le_max_right ..))
  · cases h

/-- The number of an identifier satisfies a comparison when the comparison holds of its pattern. -/
theorem holdsFor_iff {b : Index} (hw : b.width ≤ Planes.limit) {operation : Operation}
    {start stop : Int64} {c : Comparison} (hc : Comparison.of operation start stop b.width = .ok c)
    (id : UInt64) : c.holdsFor (c.positions b.planes) id = true ↔
      operation.Holds (b.patternOf id) start.toUInt64 stop.toUInt64 := by
  obtain ⟨rfl, hstart, hstop, hwide, hfits, hfits'⟩ := of_eq_ok hc
  rw [holdsFor, accepts_scan, positions, look_positionsOf hwide hfits hfits', hstart,
    ← Index.toNat_patternOf hw, ← accepts_compare]
  by_cases hr : c.operation = .range
  · rw [hstop hr]
    rfl
  · rw [accepts_congr hr]
    rfl

end Comparison

/-- **Selecting answers the unsigned comparison.** For every index of at most 64 planes, whatever
its planes have for identifiers that hold no number, and however the work is spread, the identifiers
selected are those of the given set that hold a number of which the comparison holds, all patterns
being read without sign. Asking for an extremum is refused. -/
theorem Index.select_unsigned (b : Index) (p : Parallelism) (operation : Operation)
    (start stop : Int64) (found : Option IdSet) :
    (operation.isComparison = true → b.width ≤ 64 →
      ∃ ids, b.select p operation start stop found = .ok ids ∧
        ∀ id, id ∈ ids ↔ (∀ s ∈ found, id ∈ s) ∧
          ∃ v, b.get? id = some v ∧
            operation.Holds v.toUInt64 start.toUInt64 stop.toUInt64) ∧
    (operation = .min ∨ operation = .max →
      b.select p operation start stop found = .error (.invalidArgument "op"
        ("'" ++ operation.symbol ++ "' is not a comparison"))) := by
  constructor
  · intro ho hw
    obtain ⟨c, hc⟩ : ∃ c, Comparison.of operation start stop b.width = .ok c := by
      rw [Comparison.of, if_pos ho]
      exact ⟨_, rfl⟩
    refine ⟨gather p (b.holdersIn found) (·.filter (c.holdsFor (c.positions b.planes))), ?_, ?_⟩
    · rw [select, hc]
      rfl
    · intro id
      rw [mem_gather_filter, mem_holdersIn, Comparison.holdsFor_iff hw hc]
      simp only [get?_eq_some_iff]
      constructor
      · rintro ⟨⟨hid, hs⟩, hholds⟩
        exact ⟨hs, (b.patternOf id).toInt64, ⟨hid, rfl⟩, hholds⟩
      · rintro ⟨hs, v, ⟨hid, hv⟩, hholds⟩
        exact ⟨⟨hid, hs⟩, hv ▸ hholds⟩
  · rintro (rfl | rfl) <;> rfl

/-- The identifier `9` has the bits of a negative number but holds none. -/
theorem Index.select_unsigned_stray_bits :
    let b : Index := { (auto.put 7 5).put 9 (-1) with existence := .ofIds (.ofList [7]) }
    Operation.range.isComparison = true ∧ b.width ≤ 64 ∧
      ∃ ids, b.select ⟨0, 4⟩ .range 5 (-1) none = .ok ids ∧ 7 ∈ ids ∧ 9 ∉ ids := by
  intro b
  have hnarrow : b.width ≤ 64 := by decide
  obtain ⟨ids, hselected, hmem⟩ := (select_unsigned b ⟨0, 4⟩ .range 5 (-1) none).1 rfl hnarrow
  have hheld : b.get? 7 = some 5 := by decide +kernel
  have hbetween : Operation.range.Holds (5 : Int64).toUInt64 (5 : Int64).toUInt64
      (-1 : Int64).toUInt64 := ⟨by decide, by decide⟩
  refine ⟨rfl, hnarrow, ids, hselected, (hmem 7).2 ⟨by simp, 5, hheld, hbetween⟩, ?_⟩
  intro h
  obtain ⟨-, v, hv, -⟩ := (hmem 9).1 h
  have habsent : b.get? 9 = none := by decide
  rw [habsent] at hv
  cases hv

/-! ### Selecting by a list of values -/

namespace Index

variable {b : Index}

/-- The identifiers that hold a number. -/
def holdersOf (b : Index) (v : Int64) : IdSet :=
  b.existence.ids.filter fun id => b.get? id = some v

theorem mem_holdersOf {v : Int64} {id : UInt64} : id ∈ b.holdersOf v ↔ b.get? id = some v := by
  rw [holdersOf, IdSet.mem_filter, decide_eq_true_iff]
  exact and_iff_right_of_imp fun hheld => (get?_eq_some_iff.1 hheld).1

/-- Selecting for equality finds the identifiers that hold the operand. The other operand is not
looked at. -/
theorem select_eq_ok_holdersOf (hfew : b.width ≤ Planes.limit) (p : Parallelism) (v stop : Int64) :
    b.select p .eq v stop none = .ok (b.holdersOf v) := by
  obtain ⟨c, hc⟩ : ∃ c, Comparison.of .eq v stop b.width = .ok c := ⟨_, rfl⟩
  have hfound : gather p (b.holdersIn none) (·.filter (c.holdsFor (c.positions b.planes))) =
      b.holdersOf v := by
    refine IdSet.ext fun id => ?_
    rw [mem_gather_filter, mem_holdersIn, Comparison.holdsFor_iff hfew hc, mem_holdersOf,
      get?_eq_some_iff, and_iff_left fun _ h => absurd h (Option.not_mem_none _)]
    rfl
  rw [select, hc, ← hfound]
  rfl

/-- Selecting by a list of values finds the identifiers that hold one of them. -/
theorem mem_selectAny {p : Parallelism} {values : List Int64} {id : UInt64} :
    id ∈ b.selectAny p values ↔ ∃ v ∈ values, b.get? id = some v := by
  have hheld (v : Int64) :
      b.get? id = some v ↔ id ∈ b.existence ∧ (b.patternOf id).toInt64 = v := by
    rw [get?_eq_some_iff]
    exact and_congr_right' ⟨congrArg UInt64.toInt64, congrArg Int64.toUInt64⟩
  simp only [hheld]
  rw [selectAny]
  split
  · next hnone =>
    have hnil : values = [] := by simpa using hnone
    simp [hnil]
  · rw [mem_gather_filter, Std.ExtTreeSet.contains_ofList, List.contains_iff_mem, and_comm]
    simp [Bitmap.mem_iff]

/-- **Selecting by a list of values joins selections.** For every index of at most 64 planes, any
values, and any degrees of parallelism, selecting for equality succeeds with each of the values in
turn, and selecting by the list of them finds the union of what is found: the identifiers that hold
one of the values. Values may be repeated, and may have bits above the planes, which no identifier
holds; with no value at all, nothing is found. -/
theorem selectAny_joins_selections (hfew : b.width ≤ 64) (p q : Parallelism)
    (values : List Int64) :
    ∃ selections, values.mapM (fun v => b.select q .eq v 0 none) = .ok selections ∧
      b.selectAny p values = IdSet.unions selections ∧
      ∀ id, id ∈ b.selectAny p values ↔ ∃ v ∈ values, b.get? id = some v := by
  refine ⟨values.map b.holdersOf, ?_, IdSet.ext fun id => ?_, fun id => mem_selectAny⟩
  · simp only [select_eq_ok_holdersOf hfew]
    exact List.mapM_pure
  · rw [mem_selectAny, IdSet.mem_unions_map]
    simp only [mem_holdersOf]

/-- Three planes keep the low bits of `-1`, so that the identifier `2` holds `7` and is not
found. -/
theorem selectAny_joins_selections_narrow :
    let b := ((ofBounds 7 0).put 1 5).put 2 (-1)
    let values := [5, -1, 13, 5]
    b.width ≤ 64 ∧ 1 ∈ b.selectAny ⟨2, 8⟩ values ∧ 2 ∉ b.selectAny ⟨2, 8⟩ values ∧
      ∃ selections, values.mapM (fun v => b.select ⟨0, 4⟩ .eq v 0 none) = .ok selections ∧
        b.selectAny ⟨2, 8⟩ values = IdSet.unions selections := by
  intro b values
  have hfew : b.width ≤ 64 := by decide
  obtain ⟨selections, heach, hjoined, hmem⟩ := selectAny_joins_selections hfew ⟨2, 8⟩ ⟨0, 4⟩ values
  have hfive : b.get? 1 = some 5 := by decide +kernel
  have hseven : b.get? 2 = some 7 := by decide +kernel
  refine ⟨hfew, (hmem 1).2 ⟨5, by decide, hfive⟩, fun hfound => ?_, selections, heach, hjoined⟩
  obtain ⟨v, hv, hheld⟩ := (hmem 2).1 hfound
  rw [hseven, Option.some_inj] at hheld
  subst hheld
  exact absurd hv (by decide)

end Index

end BitSliced
