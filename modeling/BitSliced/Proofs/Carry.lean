import BitSliced.Proofs.Addition

/-!
# A carry appends at most one plane

Every digit that is added ripples a carry of its own, and every carry may ask for a plane that is
not there. All of them together append one plane at most. They do so exactly when there is room for
it and the exact sum of some identifier does not fit the planes there are: those of the index, or of
the index that is added to it, if these are more. When one is added for the identifiers of a set,
the sum does not fit for an identifier that has every bit.

## Main results

* `BitSliced.Index.width_lt_width_add_iff`, `BitSliced.Index.width_lt_width_increment_iff` — when a
  plane is appended.
* `BitSliced.Index.carry_appends_one_plane` — **a carry appends at most one plane**.
-/

namespace BitSliced.Index

variable {b other : Index}

/-! ### Adding an index -/

/-- Before any digit is added, an index grows to the width of the other one. -/
theorem length_grow_width (ho : other.width ≤ Planes.limit) :
    (b.planes.grow other.width).length = max b.width other.width := by
  rw [Planes.length_grow, Nat.min_eq_left ho]
  rfl

theorem max_width_le_width_add (ho : other.width ≤ Planes.limit) :
    max b.width other.width ≤ (b.add other).width := by
  rw [← length_grow_width ho]
  exact Planes.length_le_length_addDigits ..

/-- All carries of an addition together append one plane at most. -/
theorem width_add_le_succ (hb : b.width ≤ Planes.limit) (ho : other.width ≤ Planes.limit) :
    (b.add other).width ≤ max b.width other.width + 1 := by
  rw [← length_grow_width ho]
  refine Planes.length_addDigits_le_succ (length_grow_le hb _) ?_
  rw [length_grow_width ho]
  exact Nat.le_max_right ..

/-- An addition appends a plane when there is room and some exact sum does not fit. -/
theorem width_lt_width_add_iff (hb : b.width ≤ Planes.limit) (ho : other.width ≤ Planes.limit) :
    max b.width other.width < (b.add other).width ↔ max b.width other.width < Planes.limit ∧
      ∃ id, 2 ^ max b.width other.width ≤ b.planes.number id + other.planes.number id := by
  have hwide : other.planes.length ≤ (b.planes.grow other.width).length := by
    rw [length_grow_width ho]
    exact Nat.le_max_right ..
  have hgrows := Planes.length_lt_length_addDigits_iff (length_grow_le hb _) hwide
  simp only [Planes.number_grow] at hgrows
  rwa [length_grow_width ho] at hgrows

/-! ### Adding one -/

/-- Adding one appends a plane when there is room and some identifier of the set has every bit. -/
theorem width_lt_width_increment_iff (hb : b.width ≤ Planes.limit) (found : Bitmap) :
    b.width < (b.increment found).width ↔
      b.width < Planes.limit ∧ ∃ id ∈ found, b.planes.number id = 2 ^ b.width - 1 := by
  refine (Planes.length_lt_length_addDigit_iff found hb).trans ?_
  refine and_congr_right fun _ => exists_congr fun id => ?_
  have hfits := b.planes.number_lt id
  rw [← Bitmap.contains_iff, width]
  cases found.contains id
  · simp [hfits]
  · simp only [Bool.toNat_true, true_and]
    omega

/-- **A carry appends at most one plane.** Let an index be added to another one, both of at most 64
planes. The sum is as wide as the wider of the two, or wider by one plane; and it is wider exactly
when they have less than 64 planes and the exact sum of the numbers of some identifier does not fit
theirs.

When one is added for the identifiers of a set, the index is as wide as before, or wider by one
plane; and it is wider exactly when it had less than 64 planes and some identifier of the set had
every bit. An index without planes gets one when the set has any identifier at all. -/
theorem carry_appends_one_plane (hfew : b.width ≤ 64) :
    (∀ other : Index, other.width ≤ 64 →
      let widest := max b.width other.width
      let sum := b.add other
      (sum.width = widest ∨ sum.width = widest + 1) ∧
      (sum.width = widest + 1 ↔ widest < 64 ∧
        ∃ id, 2 ^ widest ≤ b.planes.number id + other.planes.number id)) ∧
    ∀ found : Bitmap,
      let counted := b.increment found
      (counted.width = b.width ∨ counted.width = b.width + 1) ∧
      (counted.width = b.width + 1 ↔
        b.width < 64 ∧ ∃ id ∈ found, b.planes.number id = 2 ^ b.width - 1) ∧
      (b.width = 0 → (counted.width = 1 ↔ ∃ id, id ∈ found)) := by
  -- There are two widths to choose from, and whether the less is exceeded decides between them.
  have hbetween {n w : Nat} (hle : n ≤ w) (hsucc : w ≤ n + 1) :
      (w = n ∨ w = n + 1) ∧ (w = n + 1 ↔ n < w) := by omega
  constructor
  · intro other hfew' widest sum
    obtain ⟨heither, hgrows⟩ := hbetween (max_width_le_width_add hfew')
      (width_add_le_succ hfew hfew')
    exact ⟨heither, hgrows.trans (width_lt_width_add_iff hfew hfew')⟩
  · intro found counted
    obtain ⟨heither, hgrows⟩ := hbetween (b.width_le_width_increment found)
      (Planes.length_addDigit_le_succ Planes.limit found b.planes)
    have hones := width_lt_width_increment_iff hfew found
    refine ⟨heither, hgrows.trans hones, fun hzero => ?_⟩
    have hblank (id : UInt64) : b.planes.number id = 0 := by
      rw [List.length_eq_zero_iff.1 hzero, Planes.number_nil]
    rw [hzero] at hgrows hones
    exact (hgrows.trans hones).trans (by simp [hblank, Planes.limit])

/-- The sum `7 + 1` needs a fourth plane. There is no room above 64 planes, whatever carries over,
and the first identifier that is counted gets the first plane. -/
theorem carry_appends_one_plane_full :
    let b := auto.put 1 7
    let other := (auto.put 1 1).put 2 1
    let full := auto.put 1 (-1)
    b.width ≤ 64 ∧ other.width ≤ 64 ∧ full.width ≤ 64 ∧ auto.width = 0 ∧
      max b.width other.width = 3 ∧ (b.add other).width = 4 ∧
      full.planes.number 1 = 2 ^ full.width - 1 ∧ (full.increment (.single 1)).width = 64 ∧
      (auto.increment (.single 5)).width = 1 := by
  intro b other full
  obtain ⟨hb, ho, hf⟩ : b.width ≤ 64 ∧ other.width ≤ 64 ∧ full.width ≤ 64 := by decide +kernel
  obtain ⟨-, hfourth⟩ := (carry_appends_one_plane hb).1 other ho
  obtain ⟨heither, habove, -⟩ := (carry_appends_one_plane hf).2 (.single 1)
  have hnarrow : auto.width ≤ 64 := Nat.zero_le 64
  obtain ⟨-, -, hfirst⟩ := (carry_appends_one_plane hnarrow).2 (.single 5)
  have hroom : ¬ full.width < 64 := by decide +kernel
  refine ⟨hb, ho, hf, rfl, by decide +kernel, ?_, by decide +kernel, ?_, ?_⟩
  · exact (hfourth.2 ⟨by decide +kernel, 1, by decide +kernel⟩).trans (by decide +kernel)
  · exact (heither.resolve_right fun h => hroom (habove.1 h).1).trans (by decide +kernel)
  · exact (hfirst rfl).2 ⟨5, by decide⟩

end BitSliced.Index
