import BitSliced.Index.Total
import BitSliced.Proofs.Addition
import Mathlib.Data.UInt

/-!
# Totals add patterns

Each plane contributes the number of identifiers that it has in common with the set, at the weight
of its bit. Exchanging both sums, over identifiers and over bits, the total is the wrapping sum of
the patterns that the planes have for the identifiers of the set, whether these hold a number or
not. Where planes are enclosed, identifiers that hold none add nothing.

What planes contribute are words, and words that wrap around may be added in any order. A
*reduction* is a tree of such additions: planes may be shared out among workers in any way, each of
whom starts from zero.

## Main definitions

* `BitSliced.Reduction` — an order and a grouping in which words are added.

## Main results

* `BitSliced.foldl_contributionsFrom` — what planes contribute together.
* `BitSliced.Index.total_eq` — totals add patterns.
* `BitSliced.Index.Enclosed.total_eq` — totals of enclosed planes add the numbers held.
* `BitSliced.Index.result_eq_total` — every reduction of the contributions is the total.
* `BitSliced.Index.total_wraps` — **totals are wrapping sums**.
-/

namespace BitSliced

/-- The members that a set has in common with another one are those that pass its test. -/
theorem toList_inter (s t : IdSet) : (s ∩ t).toList = s.toList.filter t.contains := by
  have hfiltered : s ∩ t = s.filter t.contains := IdSet.ext fun id => by
    simp [Std.ExtTreeSet.mem_inter_iff]
  rw [hfiltered, Std.ExtTreeSet.toList_filter]

theorem size_inter_eq_countP (s t : IdSet) : (s ∩ t).size = s.toList.countP t.contains := by
  rw [← Std.ExtTreeSet.length_toList, toList_inter, List.countP_eq_length_filter]

/-- Numbers are added bit by bit. -/
theorem sum_map_number_cons (p : Bitmap) (ps : Planes) (ids : List UInt64) :
    (ids.map (Planes.number (p :: ps))).sum =
      ids.countP p.contains + 2 * (ids.map (Planes.number ps)).sum := by
  induction ids with
  | nil => rfl
  | cons id ids ih =>
    have hbit : (p.contains id).toNat = if p.contains id then 1 else 0 := by
      cases p.contains id <;> rfl
    rw [List.map_cons, List.sum_cons, ih, Planes.number_cons, List.countP_cons, List.map_cons,
      List.sum_cons, hbit]
    omega

/-- Planes contribute the numbers of the members of the set, at the weight of their first bit. -/
theorem foldl_contributionsFrom (found : IdSet) (bit : Nat) (ps : Planes) (sum : Int64) :
    (contributionsFrom found bit ps).foldl (· + ·) sum =
      sum + Int64.ofNat (2 ^ bit * (found.toList.map (Planes.number ps)).sum) := by
  induction ps generalizing bit sum with
  | nil =>
    have hzero : (found.toList.map (Planes.number [])).sum = 0 := by
      induction found.toList <;> simp_all
    simp [contributionsFrom, hzero]
  | cons p ps ih =>
    have hweight : 2 ^ bit * (found.toList.countP p.contains +
          2 * (found.toList.map (Planes.number ps)).sum) =
        found.toList.countP p.contains * 2 ^ bit +
          2 ^ (bit + 1) * (found.toList.map (Planes.number ps)).sum := by
      rw [Nat.pow_succ, Nat.mul_add, Nat.mul_assoc, Nat.mul_comm (2 ^ bit)]
    have hmembers : p.ids.contains = p.contains := rfl
    rw [contributionsFrom, List.foldl_cons, ih, size_inter_eq_countP, hmembers, Nat.shiftLeft_eq,
      sum_map_number_cons, hweight, Int64.ofNat_add, Int64.add_assoc]

namespace Index

/-- Words wrap around a sum of natural numbers as they wrap around each of them. -/
theorem toInt64_sum_map_ofNat (ns : List Nat) :
    Int64.ofNat ns.sum = (ns.map UInt64.ofNat).sum.toInt64 := by
  induction ns with
  | nil => rfl
  | cons n ns ih =>
    rw [List.sum_cons, Int64.ofNat_add, ih, List.map_cons, List.sum_cons, UInt64.toInt64_add]
    rfl

/-- A total wraps around the exact sum of the numbers that the planes keep. -/
theorem total_fst (b : Index) (found : IdSet) :
    (b.total found).1 = Int64.ofNat (found.toList.map b.planes.number).sum := by
  rw [total, contributions, foldl_contributionsFrom, Nat.pow_zero, Nat.one_mul, Int64.zero_add]

/-- A total is the wrapping sum of the patterns of a set, with the size of the set. -/
theorem total_eq (b : Index) (found : IdSet) :
    b.total found = ((found.toList.map b.patternOf).sum.toInt64, found.size) := by
  refine Prod.ext ?_ rfl
  rw [total_fst, toInt64_sum_map_ofNat, List.map_map]
  rfl

end Index

/-! ### Numbers held -/

/-- Leaving out what is missing changes no sum. -/
theorem sum_filterMap_eq_sum_map_getD {α : Type} (f : α → Option Int64) (l : List α) :
    (l.filterMap f).sum = (l.map fun x => (f x).getD 0).sum := by
  induction l with
  | nil => rfl
  | cons x l ih =>
    rw [List.map_cons, List.sum_cons, ← ih, List.filterMap_cons]
    cases f x with
    | none => exact (Int64.zero_add _).symm
    | some w => exact List.sum_cons

/-- Reading words with a sign keeps their sum. -/
theorem toInt64_sum (ws : List UInt64) : ws.sum.toInt64 = (ws.map UInt64.toInt64).sum := by
  induction ws with
  | nil => rfl
  | cons w ws ih => rw [List.sum_cons, UInt64.toInt64_add, ih, List.map_cons, List.sum_cons]

/-- Where planes are enclosed, a total is the wrapping sum of the numbers held in the set. -/
theorem Index.Enclosed.total_eq {b : Index} (henclosed : b.Enclosed) (found : IdSet) :
    (b.total found).1 = (found.toList.filterMap b.get?).sum := by
  have hsigned : UInt64.toInt64 ∘ b.patternOf = fun id => (b.get? id).getD 0 :=
    funext henclosed.toInt64_patternOf
  rw [b.total_eq, sum_filterMap_eq_sum_map_getD, toInt64_sum, List.map_map, hsigned]

/-- The numbers held in a set are those of its holders. -/
theorem Index.filterMap_get?_inter (b : Index) (found : IdSet) :
    (found ∩ b.existence.ids).toList.filterMap b.get? = found.toList.filterMap b.get? := by
  rw [toList_inter, List.filterMap_filter]
  congr 1
  funext id
  split
  · rfl
  · next hmissing => exact (Index.get?_eq_none_iff.2 (Bool.eq_false_iff.2 hmissing)).symm

/-! ### Contributions as words -/

/-- Wrapping a shifted number around is shifting the word, by less than the bits of a word. -/
theorem ofNat_shiftLeft {n bit : Nat} (h : bit < 64) :
    Int64.ofNat (n <<< bit) = Int64.ofNat n <<< Int64.ofNat bit := by
  have hamount : (BitVec.ofNat 64 bit).smod 64 = BitVec.ofNat 64 bit := by
    revert bit
    decide
  rw [← Int64.toBitVec_inj, Int64.toBitVec_shiftLeft, Int64.toBitVec_ofNat', Int64.toBitVec_ofNat',
    Int64.toBitVec_ofNat', hamount, BitVec.shiftLeft_eq', BitVec.toNat_ofNat,
    Nat.mod_eq_of_lt (Nat.lt_trans h (by decide))]
  apply BitVec.eq_of_toNat_eq
  simp [BitVec.toNat_shiftLeft, Nat.shiftLeft_eq, Nat.mod_mul_mod]

theorem contributionsFrom_eq_mapIdx (found : IdSet) {bit : Nat} {ps : Planes}
    (h : bit + ps.length ≤ 64) : contributionsFrom found bit ps = ps.mapIdx fun i p =>
      Int64.ofNat (found ∩ p.ids).size <<< Int64.ofNat (bit + i) := by
  induction ps generalizing bit with
  | nil => rfl
  | cons p ps ih =>
    rw [List.length_cons] at h
    rw [contributionsFrom, ih (by omega), ofNat_shiftLeft (by omega), List.mapIdx_cons]
    simp only [Nat.add_zero, Nat.add_comm, Nat.add_left_comm]

/-! ### Order and grouping -/

/-- An order and a grouping in which words are added. Zeros may come in anywhere. -/
inductive Reduction where
  /-- Nothing to add. -/
  | zero
  /-- A word by itself. -/
  | word (w : Int64)
  /-- The results of two reductions are added. -/
  | add (first second : Reduction)

namespace Reduction

/-- The word that comes out. -/
def result : Reduction → Int64
  | zero => 0
  | word w => w
  | add first second => first.result + second.result

/-- All words that are added, from left to right. -/
def words : Reduction → List Int64
  | zero => []
  | word w => [w]
  | add first second => first.words ++ second.words

/-- The grouping does not matter. -/
theorem result_eq_sum (t : Reduction) : t.result = t.words.sum := by
  induction t with
  | zero => rfl
  | word w => exact List.sum_singleton.symm
  | add first second ih ih' => rw [result, words, List.sum_append, ih, ih']

end Reduction

namespace Index

/-- Every reduction of what the planes contribute is the total, whatever its order. -/
theorem result_eq_total (b : Index) (found : IdSet) {t : Reduction}
    (hsame : t.words.Perm (b.contributions found)) : t.result = (b.total found).1 := by
  have horder : t.words.sum = (b.contributions found).sum :=
    hsame.foldr_eq' (fun _ _ _ _ _ => by ac_rfl) 0
  rw [t.result_eq_sum, horder, total, List.sum_eq_foldl]

/-- **Totals are wrapping sums.** For every index of at most 64 planes and every set, the total
counts all identifiers of the set and wraps around the exact sum of the numbers that the planes keep
for them.

So when planes are enclosed, the total is the wrapping sum of the signed numbers held in the set;
the identifiers of the set that hold none add nothing to it.

Each plane contributes the number of identifiers in both the plane and the set as a word, shifted as
a word. Adding these words in any other order and grouping gives the same total. -/
theorem total_wraps {b : Index} (hfew : b.width ≤ 64) (found : IdSet) :
    (b.total found).2 = found.size ∧
    pattern (b.total found).1 = (found.toList.map b.planes.number).sum % 2 ^ 64 ∧
    (b.Enclosed → (b.total found).1 = (found.toList.filterMap b.get?).sum ∧
      (b.total (found ∩ b.existence.ids)).1 = (b.total found).1) ∧
    (b.contributions found = b.planes.mapIdx fun bit plane =>
      Int64.ofNat (found ∩ plane.ids).size <<< Int64.ofNat bit) ∧
    ∀ t : Reduction, t.words.Perm (b.contributions found) → t.result = (b.total found).1 := by
  refine ⟨rfl, ?_, fun henclosed => ⟨henclosed.total_eq found, ?_⟩, ?_,
    fun t => b.result_eq_total found⟩
  · rw [total_fst, pattern, Int64.toUInt64_ofNat', UInt64.toNat_ofNat']
  · rw [henclosed.total_eq, henclosed.total_eq, filterMap_get?_inter]
  · have hwithin : 0 + b.planes.length ≤ 64 := Nat.le_trans (Nat.le_of_eq (Nat.zero_add _)) hfew
    simpa only [contributions, Nat.zero_add] using contributionsFrom_eq_mapIdx found hwithin

/-- Two negative numbers, a positive one, and an identifier that holds none. The last plane is
common to both negative numbers, so that all it contributes is shifted out. The contributions are
also added from the last one on. -/
theorem total_wraps_mixed_signs :
    let b := ((auto.put 1 (-1)).put 2 (-7)).put 3 5
    let found : IdSet := .ofList [1, 2, 3, 4]
    let t := (b.contributions found).foldl (fun t w => .add (.word w) t) Reduction.zero
    b.width ≤ 64 ∧ b.Enclosed ∧ t.words.Perm (b.contributions found) ∧
      b.total found = (-3, 4) ∧ (b.contributions found)[63]? = some 0 ∧ t.result = -3 := by
  intro b found t
  have hformed : b.WellFormed := (((WellFormed.ofBounds 0 0).put 1 (-1)).put 2 (-7)).put 3 5
  obtain ⟨hcount, -, hheld, -, hreduced⟩ := total_wraps hformed.width_le found
  have hsum : (b.total found).1 = -3 := by
    rw [(hheld hformed.enclosed).1]
    decide +kernel
  have hbackwards : t.words = (b.contributions found).reverse := by decide +kernel
  have hsame : t.words.Perm (b.contributions found) := hbackwards ▸ List.reverse_perm _
  refine ⟨hformed.width_le, hformed.enclosed, hsame, Prod.ext hsum ?_, by decide +kernel, ?_⟩
  · exact hcount.trans (by decide)
  · exact (hreduced t hsame).trans hsum

end Index

end BitSliced
