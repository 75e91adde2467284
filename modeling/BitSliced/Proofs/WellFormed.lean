import BitSliced.Index.Addition
import BitSliced.Index.Union
import BitSliced.Proofs.Planes.Layouts
import BitSliced.Proofs.Planes.Width

/-!
# Well-formed indexes

The planes of an index are *enclosed* when no identifier has a bit without holding a number. A
*well-formed* index has enclosed planes, no more of them than the limit and no fewer than its bounds
need. The changes that can be made to an index keep it well-formed, provided that the indexes they
take are well-formed too, and no change takes a plane away. Nor do changes lead out of a closed kind
of bitmaps, provided that all bitmaps they take are of this kind.

## Main definitions

* `BitSliced.Index.Enclosed`, `BitSliced.Index.WellFormed`.
* `BitSliced.Change` — the changes that can be made to an index, with `BitSliced.Change.apply`.

## Main results

* `BitSliced.Change.wellFormed_apply`, `BitSliced.Change.all_apply` — changes keep indexes
  well-formed, and their bitmaps within a closed kind.
* `BitSliced.Change.width_le_width_apply` — changes never make an index narrower.
-/

namespace BitSliced

namespace Planes

theorem number_union_eq_zero {ps qs : Planes} {id : UInt64} (hp : number ps id = 0)
    (hq : number qs id = 0) : number (union ps qs) id = 0 := by
  induction ps generalizing qs with
  | nil => rw [union, number_nil]; rintro _ _ _ _ ⟨⟩
  | cons p ps ih =>
    cases qs with
    | nil => exact hp
    | cons q qs =>
      rw [number_cons, Nat.add_eq_zero_iff, Nat.mul_eq_zero, Bool.toNat_eq_zero] at hp hq
      have hupper := ih (hp.2.resolve_left (by omega)) (hq.2.resolve_left (by omega))
      rw [union, number_cons, Bitmap.contains_union, hp.1, hq.1, hupper]
      rfl

end Planes

namespace Index

/-- Every plane is a subset of the existence bitmap. -/
def Enclosed (b : Index) : Prop := ∀ plane ∈ b.planes, ∀ id ∈ plane, id ∈ b.existence

/-- Planes are enclosed when identifiers that hold no number have the number zero. -/
theorem enclosed_iff {b : Index} :
    b.Enclosed ↔ ∀ id, b.contains id = false → b.planes.number id = 0 := by
  simp only [Planes.number_eq_zero_iff]
  constructor
  · intro h id hmissing plane hp
    refine Bool.eq_false_iff.2 fun hmember => ?_
    exact absurd (h plane hp id hmember) (Bool.eq_false_iff.1 hmissing)
  · intro h plane hp id hmember
    refine Bool.of_not_eq_false fun hmissing => ?_
    exact absurd hmember (Bool.eq_false_iff.1 (h id hmissing plane hp))

/-- An index with enclosed planes, as many of them as its bounds need but no more than the limit. -/
structure WellFormed (b : Index) : Prop where
  enclosed : b.Enclosed
  width_le : b.width ≤ Planes.limit
  bounds_le : boundsWidth b.maxValue b.minValue ≤ b.width

/-! ### Widths -/

/-- Putting a number grows an index without bounds, and only such an index. -/
theorem planes_put (b : Index) (id : UInt64) (value : Int64) : (b.put id value).planes =
    (b.planes.grow (if b.isAuto then bitLength (pattern value) else 0)).write id
      (pattern value) := by
  rw [put]
  split
  · rfl
  · simp [Planes.grow, Planes.blank]

theorem length_grow_le {ps : Planes} (h : ps.length ≤ Planes.limit) (width : Nat) :
    (ps.grow width).length ≤ Planes.limit := by
  rw [Planes.length_grow]
  omega

theorem length_le_length_grow (ps : Planes) (width : Nat) :
    ps.length ≤ (ps.grow width).length := by
  rw [Planes.length_grow]
  exact Nat.le_max_left ..

theorem length_foldl_union (ps : Planes) (others : List Index) :
    (others.foldl (fun planes other => planes.union other.planes) ps).length = ps.length := by
  induction others generalizing ps with
  | nil => rfl
  | cons other others ih => rw [List.foldl_cons, ih, Planes.length_union]

theorem width_le_width_put (b : Index) (id : UInt64) (value : Int64) :
    b.width ≤ (b.put id value).width := by
  rw [width, width, planes_put, Planes.length_write]
  exact length_le_length_grow ..

theorem width_le_width_join (b : Index) (p : Parallelism) (others : List Index) :
    b.width ≤ (b.join p others).width := by
  rw [width, width, join, length_foldl_union]
  exact length_le_length_grow ..

theorem width_le_width_add (b other : Index) : b.width ≤ (b.add other).width :=
  Nat.le_trans (length_le_length_grow ..) (Planes.length_le_length_addDigits ..)

theorem width_le_width_increment (b : Index) (found : Bitmap) :
    b.width ≤ (b.increment found).width :=
  Planes.length_le_length_addDigit ..

theorem width_le_width_incrementAll (b : Index) : b.width ≤ b.incrementAll.width :=
  Planes.length_le_length_addDigit ..

@[simp]
theorem width_clear (b : Index) (found : Bitmap) : (b.clear found).width = b.width :=
  List.length_map _

@[simp]
theorem width_retain (b : Index) (found : Bitmap) : (b.retain found).width = b.width :=
  List.length_map _

/-! ### Operations keep indexes well-formed -/

namespace WellFormed

variable {b other : Index}

theorem number_eq_zero (h : b.WellFormed) {id : UInt64} (hmissing : b.contains id = false) :
    b.planes.number id = 0 :=
  enclosed_iff.1 h.enclosed id hmissing

theorem ofBounds (maxValue minValue : Int64) : (Index.ofBounds maxValue minValue).WellFormed where
  enclosed := enclosed_iff.2 fun id _ => Planes.number_blank _ id
  width_le := by
    have hmagnitude (value : Int64) : value.toInt.natAbs < 2 ^ 64 := by
      have := value.toInt_lt
      have := value.le_toInt
      omega
    rw [width, Index.ofBounds, Planes.length_blank, boundsWidth]
    exact bitLength_le_iff.2 (Nat.max_lt.2 ⟨hmagnitude maxValue, hmagnitude minValue⟩)
  bounds_le := Nat.le_of_eq (Planes.length_blank _).symm

theorem withSettings (h : b.WellFormed) (settings : Settings) :
    (b.withSettings settings).WellFormed :=
  ⟨h.enclosed, h.width_le, h.bounds_le⟩

theorem put (h : b.WellFormed) (id : UInt64) (value : Int64) : (b.put id value).WellFormed where
  enclosed := enclosed_iff.2 fun other hmissing => by
    have hmissing : (b.existence.insert id).contains other = false := hmissing
    have hne : other ≠ id := by
      rintro rfl
      rw [Bitmap.contains_insert_self] at hmissing
      cases hmissing
    rw [Bitmap.contains_insert_of_ne _ hne] at hmissing
    rw [planes_put, Planes.number_write_of_ne _ hne, Planes.number_grow]
    exact h.number_eq_zero hmissing
  width_le := by
    rw [width, planes_put, Planes.length_write]
    exact length_grow_le h.width_le _
  bounds_le := Nat.le_trans h.bounds_le (width_le_width_put b id value)

theorem increment (h : b.WellFormed) (found : Bitmap) : (b.increment found).WellFormed where
  enclosed := enclosed_iff.2 fun id hmissing => by
    have hmissing : (b.existence.union found).contains id = false := hmissing
    rw [Bitmap.contains_union, Bool.or_eq_false_iff] at hmissing
    rw [Index.increment, Planes.number_addDigit found h.width_le, h.number_eq_zero hmissing.1,
      hmissing.2]
    rfl
  width_le := Planes.length_addDigit_le found h.width_le
  bounds_le := Nat.le_trans h.bounds_le (width_le_width_increment b found)

theorem incrementAll (h : b.WellFormed) : b.incrementAll.WellFormed where
  enclosed := enclosed_iff.2 fun id hmissing => by
    have hmissing' : b.existence.contains id = false := hmissing
    rw [Index.incrementAll, Planes.number_addDigit _ h.width_le, h.number_eq_zero hmissing,
      hmissing']
    rfl
  width_le := Planes.length_addDigit_le _ h.width_le
  bounds_le := Nat.le_trans h.bounds_le (width_le_width_incrementAll b)

theorem add (h : b.WellFormed) (ho : other.WellFormed) : (b.add other).WellFormed where
  enclosed := enclosed_iff.2 fun id hmissing => by
    have hmissing : (b.existence.union other.existence).contains id = false := hmissing
    rw [Bitmap.contains_union, Bool.or_eq_false_iff] at hmissing
    have hwide : other.planes.length ≤ (b.planes.grow other.width).length := by
      have := ho.width_le
      rw [Planes.length_grow, ← width, ← width]
      omega
    rw [Index.add, Planes.number_addDigits (length_grow_le h.width_le _) hwide, Planes.number_grow,
      h.number_eq_zero hmissing.1, ho.number_eq_zero hmissing.2]
    rfl
  width_le := Planes.length_addDigits_le _ (length_grow_le h.width_le _)
  bounds_le := Nat.le_trans h.bounds_le (width_le_width_add b other)

private theorem number_foldl_union_eq_zero {others : List Index}
    (ho : ∀ other ∈ others, other.WellFormed) {id : UInt64} {existence : Bitmap} {planes : Planes}
    (hzero : existence.contains id = false → planes.number id = 0)
    (hmissing : (others.foldl (fun existence other => existence.union other.existence)
      existence).contains id = false) :
    (others.foldl (fun planes other => planes.union other.planes) planes).number id = 0 := by
  induction others generalizing existence planes with
  | nil => exact hzero hmissing
  | cons other others ih =>
    obtain ⟨hfirst, hrest⟩ := List.forall_mem_cons.1 ho
    refine ih hrest (fun hmissing => ?_) hmissing
    rw [Bitmap.contains_union, Bool.or_eq_false_iff] at hmissing
    exact Planes.number_union_eq_zero (hzero hmissing.1) (hfirst.number_eq_zero hmissing.2)

theorem join (h : b.WellFormed) (p : Parallelism) {others : List Index}
    (ho : ∀ other ∈ others, other.WellFormed) : (b.join p others).WellFormed where
  enclosed := enclosed_iff.2 fun id hmissing => by
    refine number_foldl_union_eq_zero ho (fun hmissing => ?_) hmissing
    rw [Planes.number_grow]
    exact h.number_eq_zero hmissing
  width_le := by
    rw [width, Index.join, length_foldl_union]
    exact length_grow_le h.width_le _
  bounds_le := Nat.le_trans h.bounds_le (width_le_width_join b p others)

theorem clear (h : b.WellFormed) (found : Bitmap) : (b.clear found).WellFormed where
  enclosed := enclosed_iff.2 fun id hmissing => by
    have hmissing : (b.existence.diff found).contains id = false := hmissing
    rw [Bitmap.contains_diff, Bool.and_eq_false_iff, Bool.not_eq_false'] at hmissing
    rw [Index.clear, Planes.number_map_diff]
    split
    · rfl
    · next houtside => exact h.number_eq_zero (hmissing.resolve_right houtside)
  width_le := Nat.le_trans (Nat.le_of_eq (width_clear b found)) h.width_le
  bounds_le := Nat.le_trans h.bounds_le (Nat.le_of_eq (width_clear b found).symm)

theorem retain (h : b.WellFormed) (found : Bitmap) : (b.retain found).WellFormed where
  enclosed := enclosed_iff.2 fun id hmissing => by
    have hmissing : (b.existence.inter found).contains id = false := hmissing
    rw [Bitmap.contains_inter, Bool.and_eq_false_iff] at hmissing
    rw [Index.retain, Planes.number_map_inter]
    split
    · next hinside => exact h.number_eq_zero (hmissing.resolve_right (by simp [hinside]))
    · rfl
  width_le := Nat.le_trans (Nat.le_of_eq (width_retain b found)) h.width_le
  bounds_le := Nat.le_trans h.bounds_le (Nat.le_of_eq (width_retain b found).symm)

end WellFormed

end Index

/-! ### Changes -/

/-- The changes that can be made to an index in its place, with what each of them takes. -/
inductive Change where
  | put (id : UInt64) (value : Int64)
  | join (parallelism : Parallelism) (others : List Index)
  | add (other : Index)
  | increment (found : Bitmap)
  | incrementAll
  | clear (found : Bitmap)
  | configure (settings : Settings)

namespace Change

/-- The index after a change. -/
def apply : Change → Index → Index
  | put id value, b => b.put id value
  | join p others, b => b.join p others
  | add other, b => b.add other
  | increment found, b => b.increment found
  | incrementAll, b => b.incrementAll
  | clear found, b => b.clear found
  | configure settings, b => b.withSettings settings

/-- The indexes that a change takes besides the one that is changed. -/
def operands : Change → List Index
  | join _ others => others
  | add other => [other]
  | _ => []

/-- Changes keep indexes well-formed. -/
theorem wellFormed_apply {c : Change} {b : Index} (h : b.WellFormed)
    (hoperands : ∀ other ∈ c.operands, other.WellFormed) : (c.apply b).WellFormed := by
  cases c with
  | put id value => exact h.put id value
  | join p others => exact h.join p hoperands
  | add other => exact h.add (hoperands other (List.mem_singleton.2 rfl))
  | increment found => exact h.increment found
  | incrementAll => exact h.incrementAll
  | clear found => exact h.clear found
  | configure settings => exact h.withSettings settings

/-- The bitmaps besides those of operands that a change puts into the bitmaps of the index. -/
def taken : Change → List Bitmap
  | increment found => [found]
  | _ => []

/-- Changes do not lead out of a closed kind of bitmaps. -/
theorem all_apply {K : Bitmap → Prop} (hK : Bitmap.Closed K) {c : Change} {b : Index} (h : b.All K)
    (hoperands : ∀ other ∈ c.operands, other.All K) (htaken : ∀ m ∈ c.taken, K m) :
    (c.apply b).All K := by
  cases c with
  | put id value => exact hK.put h id value
  | join p others => exact hK.join h p hoperands
  | add other => exact hK.add h (hoperands other (List.mem_singleton.2 rfl))
  | increment found => exact hK.increment h (htaken found (List.mem_singleton.2 rfl))
  | incrementAll => exact hK.incrementAll h
  | clear found => exact hK.clear h found
  | configure settings => exact ⟨h.existence, h.planes⟩

/-- Changes never make an index narrower. -/
theorem width_le_width_apply (c : Change) (b : Index) : b.width ≤ (c.apply b).width := by
  cases c with
  | put id value => exact b.width_le_width_put id value
  | join p others => exact b.width_le_width_join p others
  | add other => exact b.width_le_width_add other
  | increment found => exact b.width_le_width_increment found
  | incrementAll => exact b.width_le_width_incrementAll
  | clear found => exact Nat.le_of_eq (b.width_clear found).symm
  | configure settings => exact Nat.le_refl _

end Change

end BitSliced
