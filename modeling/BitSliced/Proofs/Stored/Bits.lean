import BitSliced.Bitmap.Chunk
import Mathlib.Data.List.Sort

/-!
# Packed bits

Ascending numbers are packed into bytes, one bit for each of them, and are unpacked again. Both the
offsets of a full chunk and the marks of the chunks of a partition are stored this way. The bytes
are filled one after the other, each with the numbers in front of the next multiple of eight.

## Main results

* `BitSliced.Chunk.unpackBits_packBits` — numbers that were packed are unpacked again.
* `BitSliced.Chunk.bits_packBits` — the packed bits, one by one.
-/

namespace BitSliced

/-! ### Ascending lists of numbers -/

/-- Ascending numbers within some bounds are no more than the bounds allow. -/
theorem length_le_of_ascending {l : List Nat} {lo hi : Nat} (h : l.Pairwise (· < ·))
    (hbounds : ∀ x ∈ l, lo ≤ x ∧ x < hi) : l.length ≤ hi - lo := by
  induction l generalizing lo with
  | nil => exact Nat.zero_le _
  | cons x xs ih =>
    obtain ⟨habove, hrest⟩ := List.pairwise_cons.1 h
    obtain ⟨hown, hothers⟩ := List.forall_mem_cons.1 hbounds
    have := @ih (x + 1) hrest fun y hy => ⟨habove y hy, (hothers y hy).2⟩
    rw [List.length_cons]
    omega

theorem mem_takeWhile_lt_iff {l : List Nat} (h : l.Pairwise (· < ·)) {n x : Nat} :
    x ∈ l.takeWhile (· < n) ↔ x ∈ l ∧ x < n := by
  induction l with
  | nil => simp
  | cons y ys ih =>
    obtain ⟨habove, hrest⟩ := List.pairwise_cons.1 h
    rw [List.takeWhile_cons]
    split
    · next hbelow =>
      have hbelow : y < n := of_decide_eq_true hbelow
      rw [List.mem_cons, ih hrest, List.mem_cons]
      constructor
      · rintro (rfl | ⟨hx, hn⟩)
        · exact ⟨.inl rfl, hbelow⟩
        · exact ⟨.inr hx, hn⟩
      · rintro ⟨rfl | hx, hn⟩
        · exact .inl rfl
        · exact .inr ⟨hx, hn⟩
    · next hreached =>
      have hreached : n ≤ y := Nat.not_lt.1 fun hbelow => hreached (decide_eq_true hbelow)
      refine iff_of_false List.not_mem_nil ?_
      rintro ⟨hx, hn⟩
      rcases List.mem_cons.1 hx with rfl | hx
      · omega
      · have := habove x hx
        omega

theorem mem_dropWhile_lt_iff {l : List Nat} (h : l.Pairwise (· < ·)) {n x : Nat} :
    x ∈ l.dropWhile (· < n) ↔ x ∈ l ∧ n ≤ x := by
  induction l with
  | nil => simp
  | cons y ys ih =>
    obtain ⟨habove, hrest⟩ := List.pairwise_cons.1 h
    rw [List.dropWhile_cons]
    split
    · next hbelow =>
      have hbelow : y < n := of_decide_eq_true hbelow
      rw [ih hrest, List.mem_cons]
      refine and_congr_left fun hn => (or_iff_right ?_).symm
      rintro rfl
      omega
    · next hreached =>
      have hreached : n ≤ y := Nat.not_lt.1 fun hbelow => hreached (decide_eq_true hbelow)
      refine (and_iff_left_of_imp fun hx => ?_).symm
      rcases List.mem_cons.1 hx with rfl | hx
      · exact hreached
      · exact Nat.le_trans hreached (Nat.le_of_lt (habove x hx))

namespace Chunk

/-! ### One bit for every offset -/

/-- The bits of a byte into which the offsets from `start` on were packed. -/
theorem testBit_packed {start : Nat} {l : List Nat} (habove : ∀ x ∈ l, start ≤ x) {j : Nat}
    (hj : j < 8) :
    (UInt8.ofNat (l.foldr (fun x bits => 1 <<< (x - start) ||| bits) 0)).toNat.testBit j =
      decide (start + j ∈ l) := by
  have hfolded : (l.foldr (fun x bits => 1 <<< (x - start) ||| bits) 0).testBit j =
      decide (start + j ∈ l) := by
    induction l with
    | nil => simp
    | cons x xs ih =>
      obtain ⟨hown, hothers⟩ := List.forall_mem_cons.1 habove
      have hsame : x - start = j ↔ start + j = x := by omega
      rw [List.foldr_cons, Nat.testBit_or, Nat.one_shiftLeft, Nat.testBit_two_pow, ih hothers]
      simp [hsame]
  rw [UInt8.toNat_ofNat', Nat.testBit_mod_two_pow, hfolded, decide_eq_true hj, Bool.true_and]

theorem packBits_succ (size start : Nat) (offsets : List Nat) :
    packBits (size + 1) start offsets =
      UInt8.ofNat ((offsets.takeWhile (· < start + 8)).foldr
        (fun x bits => 1 <<< (x - start) ||| bits) 0) ::
      packBits size (start + 8) (offsets.dropWhile (· < start + 8)) := rfl

@[simp]
theorem length_packBits (size start : Nat) (offsets : List Nat) :
    (packBits size start offsets).length = size := by
  induction size generalizing start offsets with
  | zero => rfl
  | succ size ih => rw [packBits_succ, List.length_cons, ih]

private theorem range'_eight (start size : Nat) : List.range' start (8 * (size + 1)) =
    (List.range 8).map (start + ·) ++ List.range' (start + 8) (8 * size) := by
  rw [← List.range'_eq_map_range, List.range'_append_1, Nat.mul_succ, Nat.add_comm]

section

variable {size start : Nat} {offsets : List Nat}

private theorem testBit_first (h : offsets.Pairwise (· < ·)) (habove : ∀ x ∈ offsets, start ≤ x)
    {j : Nat} (hj : j < 8) :
    (UInt8.ofNat ((offsets.takeWhile (· < start + 8)).foldr
      (fun x bits => 1 <<< (x - start) ||| bits) 0)).toNat.testBit j =
        decide (start + j ∈ offsets) := by
  have hinByte : ∀ x ∈ offsets.takeWhile (· < start + 8), start ≤ x := fun x hx =>
    habove x ((mem_takeWhile_lt_iff h).1 hx).1
  rw [testBit_packed hinByte hj, decide_eq_decide, mem_takeWhile_lt_iff h]
  exact and_iff_left (by omega)

/-- The bits of the bytes tell the offsets. -/
theorem bits_packBits (h : offsets.Pairwise (· < ·)) (habove : ∀ x ∈ offsets, start ≤ x) :
    ((packBits size start offsets).flatMap fun b => (List.range 8).map b.toNat.testBit) =
      (List.range' start (8 * size)).map fun x => decide (x ∈ offsets) := by
  induction size generalizing start offsets with
  | zero => rfl
  | succ size ih =>
    -- The first byte has the offsets below `start + 8`; the induction goes on with all others.
    have hothers := h.sublist (List.dropWhile_sublist fun x => decide (x < start + 8))
    rw [packBits_succ, List.flatMap_cons, range'_eight, List.map_append, List.map_map,
      ih hothers fun x hx => ((mem_dropWhile_lt_iff h).1 hx).2]
    congr 1
    · refine List.map_congr_left fun j hj => ?_
      exact testBit_first h habove (List.mem_range.1 hj)
    · refine List.map_congr_left fun x hx => ?_
      have := (List.mem_range'_1.1 hx).1
      rw [decide_eq_decide, mem_dropWhile_lt_iff h]
      exact and_iff_left this

theorem unpackBits_packBits_eq_filter (h : offsets.Pairwise (· < ·))
    (habove : ∀ x ∈ offsets, start ≤ x) : unpackBits start (packBits size start offsets) =
      (List.range' start (8 * size)).filter (· ∈ offsets) := by
  induction size generalizing start offsets with
  | zero => rfl
  | succ size ih =>
    have hothers := h.sublist (List.dropWhile_sublist fun x => decide (x < start + 8))
    rw [packBits_succ, unpackBits, range'_eight, List.filter_append, List.filter_map,
      ih hothers fun x hx => ((mem_dropWhile_lt_iff h).1 hx).2]
    congr 1
    · congr 1
      refine List.filter_congr fun j hj => ?_
      exact testBit_first h habove (List.mem_range.1 hj)
    · refine List.filter_congr fun x hx => ?_
      have := (List.mem_range'_1.1 hx).1
      rw [decide_eq_decide, mem_dropWhile_lt_iff h]
      exact and_iff_left this

/-- Offsets that were packed are unpacked again. -/
theorem unpackBits_packBits (h : offsets.Pairwise (· < ·))
    (hbounds : ∀ x ∈ offsets, start ≤ x ∧ x < start + 8 * size) :
    unpackBits start (packBits size start offsets) = offsets := by
  rw [unpackBits_packBits_eq_filter h fun x hx => (hbounds x hx).1]
  have hinOrder : (List.range' start (8 * size)).Pairwise (· < ·) := List.pairwise_lt_range'
  refine (hinOrder.filter _).eq_of_mem_iff h fun x => ?_
  rw [List.mem_filter, decide_eq_true_iff, List.mem_range'_1]
  exact and_iff_right_of_imp (hbounds x)

end

end Chunk

end BitSliced
