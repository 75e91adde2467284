import BitSliced.Planes.Basic

/-!
# Work on single planes

An operation that changes each plane for itself can be spread: the planes are then changed in
whatever order the workers come to them. A *schedule* is such an order for every number of planes.
No plane is looked at when another one is changed, so all orders leave the same planes.

## Main definitions

* `BitSliced.Schedule` — an order in which planes are changed.
* `BitSliced.Planes.changeIn`, `BitSliced.Planes.changeEach` — changes planes in an order, and in
  the order of a schedule if the work is spread.

## Main results

* `BitSliced.Planes.changeEach_eq_mapIdx` — the order leaves no trace.
* `BitSliced.Planes.write_eq_mapIdx`, `BitSliced.Planes.foldl_union_eq_mapIdx` — writing a number
  and taking unions change each plane for itself.
-/

namespace BitSliced

/-- The order in which workers come to planes, for every number of planes. -/
structure Schedule where
  /-- The positions of so many planes, in order. -/
  order : Nat → List Nat
  /-- Every plane has its turn once. -/
  perm : ∀ planes, (order planes).Perm (List.range planes)

namespace Schedule

/-- From the least significant plane on. -/
def ascending : Schedule := ⟨List.range, fun _ => .refl _⟩

/-- From the most significant plane down. -/
def descending : Schedule :=
  ⟨fun planes => (List.range planes).reverse, fun _ => List.reverse_perm _⟩

end Schedule

namespace Planes

/-- Changes the planes at some positions, one after the other. -/
def changeIn (order : List Nat) (change : Nat → Bitmap → Bitmap) (planes : Planes) : Planes :=
  order.foldl (fun planes i => planes.modify i (change i)) planes

/-- Changes every plane by its position: in the order of a schedule if the work is spread, and else
from the least significant plane on. -/
def changeEach (σ : Schedule) (spread : Bool) (change : Nat → Bitmap → Bitmap) (planes : Planes) :
    Planes :=
  if spread then planes.changeIn (σ.order planes.length) change else planes.mapIdx change

/-! ### Orders leave no trace -/

/-- What becomes of a plane depends on whether it has its turn, and not on when. -/
theorem getElem?_changeIn {order : List Nat} (honce : order.Nodup) (change : Nat → Bitmap → Bitmap)
    (planes : Planes) (i : Nat) : (planes.changeIn order change)[i]? =
      if i ∈ order then planes[i]?.map (change i) else planes[i]? := by
  induction order generalizing planes with
  | nil => rfl
  | cons first order ih =>
    obtain ⟨habsent, honce⟩ := List.nodup_cons.1 honce
    rw [changeIn, List.foldl_cons, ← changeIn, ih honce, List.getElem?_modify]
    by_cases hturn : first = i
    · subst hturn
      simp [habsent]
    · simp [hturn, Ne.symm hturn]

/-- Changing planes in any order of their positions is changing each plane for itself. -/
theorem changeIn_eq_mapIdx {order : List Nat} {planes : Planes}
    (hall : order.Perm (List.range planes.length)) (change : Nat → Bitmap → Bitmap) :
    planes.changeIn order change = planes.mapIdx change := by
  refine List.ext_getElem? fun i => ?_
  rw [getElem?_changeIn (hall.nodup_iff.2 List.nodup_range), List.getElem?_mapIdx]
  split
  · rfl
  · next hmissing =>
    have hbeyond : planes.length ≤ i := by simpa [hall.mem_iff] using hmissing
    rw [List.getElem?_eq_none hbeyond, Option.map_none]

/-- Whether work is spread, and how, leaves no trace in the planes. -/
theorem changeEach_eq_mapIdx (σ : Schedule) (spread : Bool) (change : Nat → Bitmap → Bitmap)
    (planes : Planes) : planes.changeEach σ spread change = planes.mapIdx change := by
  unfold changeEach
  split
  · exact changeIn_eq_mapIdx (σ.perm _) change
  · rfl

/-! ### Operations that change each plane for itself -/

theorem map_eq_mapIdx (change : Bitmap → Bitmap) (planes : Planes) :
    planes.map change = planes.mapIdx fun _ => change := by
  induction planes with
  | nil => rfl
  | cons p ps ih => rw [List.map_cons, ih, List.mapIdx_cons]

theorem write_eq_mapIdx (planes : Planes) (id : UInt64) (n : Nat) : planes.write id n =
    planes.mapIdx fun i plane => if n.testBit i then plane.insert id else plane.erase id := by
  induction planes generalizing n with
  | nil => rfl
  | cons p ps ih =>
    rw [write, ih, List.mapIdx_cons]
    simp only [Nat.testBit_zero, Nat.testBit_succ, decide_eq_true_eq]

theorem union_eq_mapIdx (ps qs : Planes) : ps.union qs =
    ps.mapIdx fun i p => (qs[i]?.map fun q => p.union q).getD p := by
  induction ps generalizing qs with
  | nil => cases qs <;> rfl
  | cons p ps ih =>
    cases qs with
    | nil => simp [union, ← map_eq_mapIdx]
    | cons q qs => simp [union, ih]

/-- Taking unions with planes one after the other is taking, for each plane, the union with the
planes at its position. -/
theorem foldl_union_eq_mapIdx (others : List Planes) (ps : Planes) :
    others.foldl union ps = ps.mapIdx fun i p =>
      (others.filterMap (·[i]?)).foldl (fun p q => p.union q) p := by
  induction others generalizing ps with
  | nil => simp [← map_eq_mapIdx]
  | cons qs others ih =>
    rw [List.foldl_cons, ih, union_eq_mapIdx, List.mapIdx_mapIdx]
    refine List.mapIdx_eq_mapIdx_iff.2 fun i _ => ?_
    rw [Function.comp_apply, List.filterMap_cons]
    cases qs[i]? <;> rfl

end Planes

end BitSliced
