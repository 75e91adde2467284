import BitSliced.Proofs.Planes.Numbers
import Mathlib.Tactic.ByContra

/-!
# The width of sums

Adding a digit to planes, or the digits of further planes, appends at most one plane, and it appends
one exactly when there is room for it and some exact sum does not fit the planes there are. For the
digits of further planes this is so although every digit ripples its own carry: once a carry has
appended a plane, the bits left above it are too few for a second one.

Adding one for a single identifier is adding a digit, the bitmap of that identifier.

## Main definitions

* `BitSliced.Bitmap.single` — the bitmap of one member.

## Main results

* `BitSliced.Planes.length_lt_length_addDigit_iff`, `BitSliced.Planes.length_addDigit_le_succ`.
* `BitSliced.Planes.length_lt_length_addDigits_iff`, `BitSliced.Planes.length_addDigits_le_succ`.
* `BitSliced.Bitmap.symmDiff_single_of_mem`, `BitSliced.Bitmap.symmDiff_single_of_not_mem`,
  `BitSliced.Bitmap.union_single` — changes by the bitmap of one member.
* `BitSliced.Planes.addOne_eq_addDigit`.
-/

namespace BitSliced

namespace Planes

/-! ### Adding a digit -/

theorem length_addDigit_le_succ (room : Nat) (digit : Bitmap) (ps : Planes) :
    (addDigit room digit ps).length ≤ ps.length + 1 := by
  induction room generalizing digit ps with
  | zero => exact Nat.le_succ _
  | succ room ih =>
    cases ps with
    | nil => rw [addDigit]; split <;> simp
    | cons p ps =>
      rw [addDigit]
      split
      · exact Nat.le_succ _
      · simpa using ih (p.inter digit) ps

/-- Adding a digit appends a plane when there is room and some sum does not fit. -/
theorem length_lt_length_addDigit_iff {room : Nat} (digit : Bitmap) {ps : Planes}
    (h : ps.length ≤ room) : ps.length < (addDigit room digit ps).length ↔
      ps.length < room ∧ ∃ id, 2 ^ ps.length ≤ number ps id + (digit.contains id).toNat := by
  induction room generalizing digit ps with
  | zero => simp [addDigit]
  | succ room ih =>
    cases ps with
    | nil =>
      rw [addDigit]
      split
      · next hempty => simp [Bitmap.contains_of_isEmpty hempty]
      · next hsome =>
        obtain ⟨id, hid⟩ := Bitmap.exists_contains_of_not_isEmpty hsome
        simp only [List.length_singleton, List.length_nil, Nat.zero_lt_succ, true_and, true_iff]
        exact ⟨id, by simp [hid]⟩
    | cons p ps =>
      rw [addDigit]
      split
      · next hempty =>
        have hfits (id : UInt64) := number_lt (p :: ps) id
        simpa [Bitmap.contains_of_isEmpty hempty] using fun _ id => hfits id
      · rw [List.length_cons, List.length_cons, Nat.succ_lt_succ_iff, Nat.succ_lt_succ_iff,
          ih _ (Nat.le_of_succ_le_succ h)]
        refine and_congr_right fun _ => exists_congr fun id => ?_
        have hhalf := half_add (p.contains id) (digit.contains id)
        have hfits := number_lt ps id
        have hlow := (p.contains id ^^ digit.contains id).toNat_le
        rw [Bitmap.contains_inter, number_cons, Nat.pow_succ']
        omega

/-! ### Adding the digits of further planes -/

theorem length_le_length_addDigits (room : Nat) (digits : Planes) (ps : Planes) :
    ps.length ≤ (addDigits room digits ps).length := by
  induction digits generalizing room ps with
  | nil => simp [addDigits]
  | cons digit digits ih =>
    cases room with
    | zero => exact Nat.le_refl _
    | succ room =>
      have hfirst := length_le_length_addDigit (room + 1) digit ps
      rw [addDigits]
      cases hd : addDigit (room + 1) digit ps with
      | nil => simpa [hd] using hfirst
      | cons r rs =>
        rw [hd, List.length_cons] at hfirst
        have hothers := ih room rs
        simp only [List.length_cons]
        omega

theorem length_addDigits_le {room : Nat} (digits : Planes) {ps : Planes}
    (h : ps.length ≤ room) : (addDigits room digits ps).length ≤ room := by
  induction digits generalizing room ps with
  | nil => simpa [addDigits] using h
  | cons digit digits ih =>
    cases room with
    | zero => exact h
    | succ room =>
      have hfirst := length_addDigit_le digit h
      rw [addDigits]
      cases hd : addDigit (room + 1) digit ps with
      | nil => simp
      | cons r rs =>
        rw [hd] at hfirst
        exact Nat.succ_le_succ (ih (Nat.le_of_succ_le_succ hfirst))

-- Once the first digit has appended a plane, the bits above the first plane are too few for the
-- other digits to append another one.
private theorem number_add_lt_of_carry {r : Bitmap} {rs ps : Planes} (qs : Planes) {d : Bool}
    {id : UInt64} {room : Nat}
    (hsum : number (r :: rs) id = (number ps id + d.toNat) % 2 ^ (room + 1))
    (hroom : ps.length ≤ room) (hq : qs.length < ps.length) :
    number rs id + number qs id < 2 ^ ps.length := by
  have hlow := d.toNat_le
  have hown := number_lt ps id
  have hother : number qs id < 2 ^ (ps.length - 1) :=
    Nat.lt_of_lt_of_le (number_lt qs id) (Nat.pow_le_pow_right (by omega) (by omega))
  have hdouble : 2 ^ ps.length = 2 * 2 ^ (ps.length - 1) := by
    rw [← Nat.pow_succ', Nat.succ_eq_add_one, Nat.sub_add_cancel (by omega)]
  have hwide : 2 ^ ps.length ≤ 2 ^ room := Nat.pow_le_pow_right (by omega) hroom
  rw [Nat.mod_eq_of_lt (by rw [Nat.pow_succ]; omega), number_cons] at hsum
  omega

-- Without a plane appended, the bits above the first plane overflow when the whole sum does.
private theorem overflow_iff_of_no_carry {r q : Bitmap} {rs ps qs : Planes} {id : UInt64}
    {room : Nat} (hsum : number (r :: rs) id =
      (number ps id + (q.contains id).toNat) % 2 ^ (room + 1))
    (hlen : ps.length = rs.length + 1) (hroom : rs.length < room)
    (hfits : number ps id + (q.contains id).toNat < 2 ^ ps.length) :
    2 ^ rs.length ≤ number rs id + number qs id ↔
      2 ^ ps.length ≤ number ps id + number (q :: qs) id := by
  have hwide : 2 ^ ps.length ≤ 2 ^ (room + 1) := Nat.pow_le_pow_right (by omega) (by omega)
  have hlow := (r.contains id).toNat_le
  rw [Nat.mod_eq_of_lt (by omega), number_cons] at hsum
  rw [number_cons]
  rw [hlen, Nat.pow_succ'] at hfits ⊢
  omega

private theorem length_addDigits_aux {room : Nat} {ps qs : Planes} (hp : ps.length ≤ room)
    (hq : qs.length ≤ ps.length) :
    (addDigits room qs ps).length ≤ ps.length + 1 ∧
      (ps.length < (addDigits room qs ps).length ↔
        ps.length < room ∧ ∃ id, 2 ^ ps.length ≤ number ps id + number qs id) := by
  induction qs generalizing room ps with
  | nil =>
    have hfits (id : UInt64) := number_lt ps id
    simpa [addDigits] using fun _ => hfits
  | cons q qs ih =>
    cases room with
    | zero => exact absurd (Nat.le_trans hq hp) (by simp)
    | succ room =>
      have hgrows := length_lt_length_addDigit_iff q hp
      have hone := length_addDigit_le_succ (room + 1) q ps
      have hlower := length_le_length_addDigit (room + 1) q ps
      have hupper := length_addDigit_le q hp
      have hsum (id : UInt64) := number_addDigit q hp id
      rw [addDigits]
      cases hd : addDigit (room + 1) q ps with
      | nil => simp_all
      | cons r rs =>
        simp only [hd, List.length_cons] at hgrows hone hlower hupper hsum hq ⊢
        have hstill := length_le_length_addDigits room qs rs
        obtain ⟨hle, hiff⟩ := ih (show rs.length ≤ room by omega)
          (show qs.length ≤ rs.length by omega)
        by_cases hcarried : ps.length < rs.length + 1
        · have hsame : rs.length = ps.length := by omega
          obtain ⟨hfits, id, hoverflow⟩ := hgrows.1 hcarried
          have hnone : ¬ rs.length < (addDigits room qs rs).length := by
            rintro h
            obtain ⟨-, other, h⟩ := hiff.1 h
            have := number_add_lt_of_carry qs (hsum other) (by omega) (by omega)
            rw [hsame] at h
            omega
          refine ⟨by omega, iff_of_true (by omega) ⟨hfits, id, ?_⟩⟩
          rw [number_cons]
          exact Nat.le_trans hoverflow (by omega)
        · have hsame : ps.length = rs.length + 1 := by omega
          refine ⟨by omega, ?_⟩
          rw [hsame, Nat.succ_lt_succ_iff, Nat.succ_lt_succ_iff, hiff]
          refine and_congr_right fun hroom' => exists_congr fun id => ?_
          rw [← hsame]
          refine overflow_iff_of_no_carry (hsum id) hsame hroom' (Nat.not_le.1 fun h => ?_)
          exact hcarried (hgrows.2 ⟨by omega, id, h⟩)

/-- Adding digits appends at most one plane, however many of them carry. -/
theorem length_addDigits_le_succ {room : Nat} {ps qs : Planes} (hp : ps.length ≤ room)
    (hq : qs.length ≤ ps.length) :
    (addDigits room qs ps).length ≤ ps.length + 1 :=
  (length_addDigits_aux hp hq).1

/-- Adding digits appends a plane when there is room and some exact sum does not fit. -/
theorem length_lt_length_addDigits_iff {room : Nat} {ps qs : Planes} (hp : ps.length ≤ room)
    (hq : qs.length ≤ ps.length) :
    ps.length < (addDigits room qs ps).length ↔
      ps.length < room ∧ ∃ id, 2 ^ ps.length ≤ number ps id + number qs id :=
  (length_addDigits_aux hp hq).2

end Planes

namespace Bitmap

/-- The bitmap of a single member. -/
def single (id : UInt64) : Bitmap := ofIds (.ofList [id])

variable {m : Bitmap} {id other : UInt64}

theorem mem_single : other ∈ single id ↔ other = id := by
  rw [single, mem_ofIds, IdSet.mem_ofList, List.mem_singleton]

theorem contains_single (id other : UInt64) :
    (single id).contains other = decide (other = id) :=
  Bool.eq_iff_iff.2 (mem_single.trans decide_eq_true_iff.symm)

theorem mem_partitions_single {key : UInt32} :
    key ∈ (single id).partitions ↔ partitionOf id = key := by
  rw [mem_partitions]
  constructor
  · rintro (⟨other, hmember, rfl⟩ | h)
    · rw [mem_single.1 hmember]
    · exact absurd h Std.ExtTreeSet.not_mem_empty
  · exact fun h => .inl ⟨id, mem_single.2 rfl, h⟩

theorem hollow_single (id : UInt64) : (single id).hollow = ∅ := rfl

theorem runs_single (id : UInt64) : (single id).runs = ∅ := rfl

/-- The union with a bitmap of one member adds the member. -/
theorem union_single (m : Bitmap) (id : UInt64) : m.union (single id) = m.insert id := by
  refine ext_of_layout (Std.ExtTreeSet.ext_mem fun key => ?_)
    (Std.ExtTreeSet.ext_mem fun chunk => ?_) fun other => ?_
  · rw [mem_hollow_union, mem_hollow_insert, hollow_single,
      or_iff_left Std.ExtTreeSet.not_mem_empty]
    refine and_congr_right fun hhollow => ⟨fun h => ?_, fun h other hmember => ?_⟩
    · exact h id (Std.ExtTreeSet.mem_union_iff.2 (.inr (mem_single.2 rfl)))
    · rcases Std.ExtTreeSet.mem_union_iff.1 hmember with hown | hnew
      · exact m.fits.vacant key hhollow other hown
      · rwa [mem_single.1 hnew]
  · rw [mem_runs_union, runs_single]
    exact or_iff_left fun h => Std.ExtTreeSet.not_mem_empty h.1
  · by_cases hsame : other = id
    · simp [hsame, contains_single]
    · simp [hsame, contains_single, contains_insert_of_ne]

/-- Flipping a member takes it out. -/
theorem symmDiff_single_of_mem (h : id ∈ m) : m.symmDiff (single id) = m.erase id := by
  have hmembers : ∀ other,
      (m.symmDiff (single id)).contains other = (m.erase id).contains other := by
    intro other
    by_cases hsame : other = id
    · simp [hsame, contains_single, contains_iff.2 h]
    · simp [hsame, contains_single, contains_erase_of_ne]
  refine ext_of_layout (Std.ExtTreeSet.ext_mem fun key => ?_)
    (Std.ExtTreeSet.ext_mem fun chunk => ?_) hmembers
  · rw [mem_hollow_symmDiff, hollow_erase, hollow_single, mem_partitions_single,
      or_iff_left fun h => Std.ExtTreeSet.not_mem_empty h.1]
    exact and_iff_left_of_imp fun hhollow => m.fits.vacant key hhollow id h
  · simp only [mem_runs_symmDiff, mem_runs_erase, runs_single, ← contains_iff, hmembers]
    simp

/-- Flipping what is no member adds it. -/
theorem symmDiff_single_of_not_mem (h : id ∉ m) : m.symmDiff (single id) = m.insert id := by
  have hmissing : m.contains id = false := Bool.eq_false_iff.2 h
  have hmembers : ∀ other,
      (m.symmDiff (single id)).contains other = (m.insert id).contains other := by
    intro other
    by_cases hsame : other = id
    · simp [hsame, contains_single, hmissing]
    · simp [hsame, contains_single, contains_insert_of_ne]
  refine ext_of_layout (Std.ExtTreeSet.ext_mem fun key => ?_)
    (Std.ExtTreeSet.ext_mem fun chunk => ?_) hmembers
  · rw [mem_hollow_symmDiff, mem_hollow_insert, hollow_single, mem_partitions_single,
      or_iff_left fun h => Std.ExtTreeSet.not_mem_empty h.1]
  · simp only [mem_runs_symmDiff, runs_single, ← contains_iff, hmembers]
    rw [or_iff_left fun h => Std.ExtTreeSet.not_mem_empty h.1]
    exact and_iff_left_of_imp fun h => (m.insert id).fits.held chunk h

/-- What a bitmap has in common with the bitmap of a member is that bitmap. -/
theorem inter_single_of_mem (h : id ∈ m) : m.inter (single id) = single id := by
  refine ext_of_layout (hollow_inter m _) (Std.ExtTreeSet.ext_mem fun chunk => ?_) fun other => ?_
  · rw [mem_runs_inter, runs_single]
    exact iff_of_false (fun h => Std.ExtTreeSet.not_mem_empty h.1.2) Std.ExtTreeSet.not_mem_empty
  · by_cases hsame : other = id
    · simp [hsame, contains_single, contains_iff.2 h]
    · simp [hsame, contains_single]

/-- A bitmap has nothing in common with the bitmap of what is no member. -/
theorem isEmpty_inter_single (h : id ∉ m) : (m.inter (single id)).isEmpty = true := by
  by_contra hsome
  obtain ⟨other, hmember⟩ := exists_contains_of_not_isEmpty hsome
  rw [contains_inter, Bool.and_eq_true, contains_single, decide_eq_true_iff] at hmember
  exact h (hmember.2 ▸ hmember.1)

end Bitmap

namespace Planes

/-- Adding one for an identifier is adding the digit that has the identifier alone. -/
theorem addOne_eq_addDigit (room : Nat) (id : UInt64) (ps : Planes) :
    addOne room id ps = addDigit room (.single id) ps := by
  have hsome : ¬ (Bitmap.single id).isEmpty = true := fun h => by
    simpa [Bitmap.contains_single] using Bitmap.contains_of_isEmpty h id
  induction room generalizing ps with
  | zero => rfl
  | succ room ih =>
    cases ps with
    | nil =>
      rw [addOne, addDigit, if_neg hsome,
        ← Bitmap.symmDiff_single_of_not_mem (Bitmap.not_mem_empty id), Bitmap.empty_symmDiff]
    | cons p ps =>
      rw [addOne, addDigit, if_neg hsome]
      by_cases hmember : p.contains id = true
      · rw [if_pos hmember, ih, Bitmap.symmDiff_single_of_mem hmember,
          Bitmap.inter_single_of_mem hmember]
      · rw [if_neg hmember, Bitmap.symmDiff_single_of_not_mem hmember,
          addDigit_of_isEmpty _ (Bitmap.isEmpty_inter_single hmember)]

end Planes

end BitSliced
