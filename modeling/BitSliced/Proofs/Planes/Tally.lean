import BitSliced.Proofs.Planes.Width
import Mathlib.Tactic.ByContra

/-!
# Planes that keep totals

Planes that come about by adding up keep totals: the number of an identifier is its exact total
without the bits above the limit, and there are as many planes as the totals need, but no fewer than
some base and no more than the limit. These facts together do not depend on the order in which the
sums were made, although a total that wraps around has smaller bits than it had on the way.

## Main definitions

* `BitSliced.Planes.Tally` — planes that keep totals above a base.

## Main results

* `BitSliced.Planes.Tally.addDigit`, `BitSliced.Planes.Tally.addDigits` — adding adds the totals.
* `BitSliced.Planes.Tally.length_eq` — the number of planes by the greatest total.
-/

namespace BitSliced.Planes

/-- Planes that keep totals: as many planes as the totals need, but no fewer than a base and no more
than the limit, and in them the low bits of every total. -/
structure Tally (ps : Planes) (base : Nat) (total : UInt64 → Nat) : Prop where
  base_le : base ≤ ps.length
  length_le : ps.length ≤ limit
  number_eq : ∀ id, number ps id = total id % 2 ^ limit
  total_lt : ps.length < limit → ∀ id, total id < 2 ^ ps.length
  reached : base < ps.length → ∃ id, 2 ^ (ps.length - 1) ≤ total id

namespace Tally

variable {ps qs : Planes} {base base' : Nat} {total total' : UInt64 → Nat}

theorem nil : Tally [] 0 fun _ => 0 where
  base_le := Nat.le_refl 0
  length_le := Nat.zero_le limit
  number_eq _ := rfl
  total_lt _ _ := Nat.one_pos
  reached h := absurd h (Nat.lt_irrefl 0)

/-- Planes keep their own numbers. -/
theorem self (hfew : ps.length ≤ limit) : ps.Tally ps.length ps.number where
  base_le := Nat.le_refl _
  length_le := hfew
  number_eq id := (Nat.mod_eq_of_lt (Nat.lt_of_lt_of_le (ps.number_lt id)
    (Nat.pow_le_pow_right (by omega) hfew))).symm
  total_lt _ := ps.number_lt
  reached h := absurd h (Nat.lt_irrefl _)

/-- Below the limit the numbers are the exact totals. -/
theorem number_eq_total (h : ps.Tally base total) (hroom : ps.length < limit) (id : UInt64) :
    number ps id = total id := by
  have hwide : 2 ^ ps.length ≤ 2 ^ limit := Nat.pow_le_pow_right (by omega) h.length_le
  rw [h.number_eq, Nat.mod_eq_of_lt (Nat.lt_of_lt_of_le (h.total_lt hroom id) hwide)]

/-- The number of planes by the greatest total. -/
theorem length_eq (h : ps.Tally base total) {n : Nat} (habove : ∀ id, total id ≤ n)
    (hattained : n = 0 ∨ ∃ id, total id = n) :
    ps.length = min limit (max base (bitLength n)) := by
  have hupper : ps.length ≤ max base (bitLength n) := by
    by_contra hwide
    obtain ⟨id, hid⟩ := h.reached (by omega)
    have hbits : bitLength n ≤ ps.length - 1 := by omega
    exact absurd (bitLength_le_iff.1 hbits) (Nat.not_lt.2 (Nat.le_trans hid (habove id)))
  have hlower (hroom : ps.length < limit) : bitLength n ≤ ps.length := by
    rw [bitLength_le_iff]
    obtain rfl | ⟨id, rfl⟩ := hattained
    · exact Nat.two_pow_pos _
    · exact h.total_lt hroom id
  have := h.base_le
  have := h.length_le
  by_cases hroom : ps.length < limit
  · have := hlower hroom
    omega
  · omega

/-- Planes that keep the same totals above the same base are as many. -/
theorem length_eq_length (hp : ps.Tally base total) (hq : qs.Tally base total) :
    ps.length = qs.length := by
  have hle {ps qs : Planes} (hp : ps.Tally base total) (hq : qs.Tally base total) :
      ps.length ≤ qs.length := by
    by_contra hwider
    have := hp.length_le
    have := hq.base_le
    obtain ⟨id, hid⟩ := hp.reached (by omega)
    have hbound := hq.total_lt (by omega) id
    have hwide : 2 ^ qs.length ≤ 2 ^ (ps.length - 1) := Nat.pow_le_pow_right (by omega) (by omega)
    omega
  exact Nat.le_antisymm (hle hp hq) (hle hq hp)

/-- The base can be lowered when some total needs it. -/
theorem lower (h : ps.Tally base total) (hle : base' ≤ base)
    (hneeded : base' < base → ∃ id, 2 ^ (base - 1) ≤ total id) : ps.Tally base' total where
  base_le := Nat.le_trans hle h.base_le
  length_le := h.length_le
  number_eq := h.number_eq
  total_lt := h.total_lt
  reached habove := by
    by_cases hwider : base < ps.length
    · exact h.reached hwider
    · have hsame : base = ps.length := by have := h.base_le; omega
      exact hsame ▸ hneeded (by omega)

theorem grow (h : ps.Tally base total) {width : Nat} (hle : width ≤ limit) :
    (ps.grow width).Tally (max base width) total := by
  have hlength : (ps.grow width).length = max ps.length width := by
    rw [length_grow, Nat.min_eq_left hle]
  have := h.base_le
  have := h.length_le
  constructor
  · omega
  · omega
  · simpa using h.number_eq
  · intro hroom id
    have hwide : 2 ^ ps.length ≤ 2 ^ (ps.grow width).length :=
      Nat.pow_le_pow_right (by omega) (by omega)
    exact Nat.lt_of_lt_of_le (h.total_lt (by omega) id) hwide
  · intro habove
    have hsame : (ps.grow width).length = ps.length := by omega
    exact hsame ▸ h.reached (by omega)

/-- Any way of adding that appends a plane only for an exact sum that does not fit keeps totals. -/
private theorem of_sum {ps' : Planes} {addend : UInt64 → Nat} (h : ps.Tally base total)
    (hmono : ps.length ≤ ps'.length) (hsucc : ps'.length ≤ ps.length + 1)
    (hcap : ps'.length ≤ limit)
    (hgrows : ps.length < ps'.length ↔
      ps.length < limit ∧ ∃ id, 2 ^ ps.length ≤ number ps id + addend id)
    (hsum : ∀ id, number ps' id = (number ps id + addend id) % 2 ^ limit)
    (hsmall : ∀ id, addend id ≤ 2 ^ ps.length)
    (hlow : ∀ id, addend id = total' id % 2 ^ limit)
    (hexact : ps.length < limit → ∀ id, addend id = total' id) :
    ps'.Tally base fun id => total id + total' id := by
  have := h.base_le
  constructor
  · omega
  · exact hcap
  · intro id
    rw [hsum, h.number_eq, hlow, ← Nat.add_mod]
  · intro hroom id
    have hown := h.total_lt (by omega) id
    have := hsmall id
    rw [← hexact (by omega)]
    by_cases happended : ps.length < ps'.length
    · rw [show ps'.length = ps.length + 1 by omega, Nat.pow_succ']
      omega
    · rw [show ps'.length = ps.length by omega]
      by_contra hoverflow
      refine happended (hgrows.2 ⟨by omega, id, ?_⟩)
      rw [h.number_eq_total (by omega)]
      omega
  · intro habove
    by_cases happended : ps.length < ps'.length
    · obtain ⟨hroom, id, hoverflow⟩ := hgrows.1 happended
      refine ⟨id, ?_⟩
      rw [h.number_eq_total hroom, hexact hroom] at hoverflow
      rwa [show ps'.length - 1 = ps.length by omega]
    · obtain ⟨id, hid⟩ := h.reached (by omega)
      refine ⟨id, Nat.le_trans ?_ (Nat.le_add_right _ _)⟩
      rwa [show ps'.length = ps.length by omega]

/-- Adding a digit adds one to the totals of its identifiers. -/
theorem addDigit (h : ps.Tally base total) (digit : Bitmap) :
    (addDigit limit digit ps).Tally base fun id => total id + (digit.contains id).toNat := by
  have hbit (id : UInt64) := (digit.contains id).toNat_le
  refine h.of_sum (length_le_length_addDigit _ _ _) (length_addDigit_le_succ _ _ _)
    (length_addDigit_le digit h.length_le) (length_lt_length_addDigit_iff digit h.length_le)
    (number_addDigit digit h.length_le) ?_ ?_ fun _ _ => rfl
  · exact fun id => Nat.le_trans (hbit id) (Nat.one_le_two_pow)
  · exact fun id => (Nat.mod_eq_of_lt (Nat.lt_of_le_of_lt (hbit id) (by decide))).symm

/-- Adding the digits of planes that keep totals adds the totals. -/
theorem addDigits (hp : ps.Tally base total) (hq : qs.Tally base' total') :
    (addDigits limit qs (ps.grow qs.length)).Tally (max base base')
      fun id => total id + total' id := by
  have hgrown := hp.grow hq.length_le
  have hwide : qs.length ≤ (ps.grow qs.length).length := by
    have := hgrown.base_le
    omega
  have hsum : (Planes.addDigits limit qs (ps.grow qs.length)).Tally
      (max base qs.length) fun id => total id + total' id := by
    refine hgrown.of_sum (length_le_length_addDigits _ _ _)
      (length_addDigits_le_succ hgrown.length_le hwide) (length_addDigits_le _ hgrown.length_le)
      (length_lt_length_addDigits_iff hgrown.length_le hwide)
      (number_addDigits hgrown.length_le hwide) ?_ hq.number_eq ?_
    · exact fun id => Nat.le_of_lt (Nat.lt_of_lt_of_le (number_lt qs id)
        (Nat.pow_le_pow_right (by omega) hwide))
    · exact fun hroom => hq.number_eq_total (by omega)
  refine hsum.lower (by have := hq.base_le; omega) fun hbelow => ?_
  obtain ⟨id, hid⟩ := hq.reached (by omega)
  refine ⟨id, Nat.le_trans ?_ (Nat.le_add_left _ _)⟩
  rwa [show max base qs.length = qs.length by omega]

end Tally

end BitSliced.Planes
