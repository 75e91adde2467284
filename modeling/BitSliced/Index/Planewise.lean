import BitSliced.Index.Union
import BitSliced.Planes.Schedule

/-!
# Operations plane by plane

Putting a number, joining, clearing and retaining change each plane for itself. From some number of
planes on, the settings of an index have this work spread over workers, who come to the planes in
the order of a schedule. The operations are here as they are carried out, and each of them is shown
to do what it does without any settings or schedule.

## Main definitions

* `BitSliced.Index.putPlanewise`, `BitSliced.Index.joinPlanewise`,
  `BitSliced.Index.clearPlanewise`, `BitSliced.Index.retainPlanewise`.

## Main results

* `BitSliced.Index.putPlanewise_eq` and its siblings — schedules leave no trace.
-/

namespace BitSliced.Index

/-- Changes every plane by its position, spread as the settings of the index say. -/
def changePlanes (σ : Schedule) (b : Index) (change : Nat → Bitmap → Bitmap) : Planes :=
  b.planes.changeEach σ (b.settings.spreads b.width) change

/-- Puts a number for an identifier plane by plane. The identifier exists from when all planes have
the bits of the number. -/
def putPlanewise (σ : Schedule) (b : Index) (id : UInt64) (value : Int64) : Index :=
  let n := pattern value
  let b := if b.isAuto then b.grow (bitLength n) else b
  { b with
    planes := b.changePlanes σ fun i plane =>
      if n.testBit i then plane.insert id else plane.erase id
    existence := b.existence.insert id }

/-- Puts numbers one after the other, each plane by plane. -/
def putAllPlanewise (σ : Schedule) (b : Index) (entries : List (UInt64 × Int64)) : Index :=
  entries.foldl (fun b (id, value) => b.putPlanewise σ id value) b

/-- Joins indexes to an index plane by plane. A degree of parallelism of one keeps the work
together, whatever the settings say. -/
def joinPlanewise (σ : Schedule) (b : Index) (p : Parallelism) (others : List Index) : Index :=
  let b := b.grow (b.widest others)
  { b with
    planes := b.planes.changeEach σ (p.requested != 1 && b.settings.spreads b.width) fun i plane =>
      (others.filterMap (·.planes[i]?)).foldl (fun plane other => plane.union other) plane
    existence := others.foldl (fun existence other => existence.union other.existence) b.existence }

/-- Takes the identifiers of a set out plane by plane. -/
def clearPlanewise (σ : Schedule) (b : Index) (found : Bitmap) : Index :=
  { b with
    planes := b.changePlanes σ fun _ plane => plane.diff found
    existence := b.existence.diff found }

/-- The index of the identifiers of a set only, made plane by plane. -/
def retainPlanewise (σ : Schedule) (b : Index) (found : Bitmap) : Index :=
  { b with
    planes := b.changePlanes σ fun _ plane => plane.inter found
    existence := b.existence.inter found }

/-! ### Schedules leave no trace -/

variable (σ : Schedule)

theorem changePlanes_eq_mapIdx (b : Index) (change : Nat → Bitmap → Bitmap) :
    b.changePlanes σ change = b.planes.mapIdx change :=
  Planes.changeEach_eq_mapIdx ..

theorem putPlanewise_eq (b : Index) (id : UInt64) (value : Int64) :
    b.putPlanewise σ id value = b.put id value := by
  unfold putPlanewise put
  simp only [changePlanes_eq_mapIdx, Planes.write_eq_mapIdx]
  split <;> rfl

theorem putAllPlanewise_eq (b : Index) (entries : List (UInt64 × Int64)) :
    b.putAllPlanewise σ entries = b.putAll entries := by
  simp only [putAllPlanewise, putPlanewise_eq, putAll]

theorem joinPlanewise_eq (b : Index) (p : Parallelism) (others : List Index) :
    b.joinPlanewise σ p others = b.join p others := by
  have hunion := Planes.foldl_union_eq_mapIdx (others.map planes) (b.planes.grow (b.widest others))
  simp only [List.foldl_map, List.filterMap_map] at hunion
  rw [joinPlanewise, Planes.changeEach_eq_mapIdx, join, hunion]
  rfl

theorem clearPlanewise_eq (b : Index) (found : Bitmap) :
    b.clearPlanewise σ found = b.clear found := by
  rw [clearPlanewise, changePlanes_eq_mapIdx, clear, Planes.map_eq_mapIdx]

theorem retainPlanewise_eq (b : Index) (found : Bitmap) :
    b.retainPlanewise σ found = b.retain found := by
  rw [retainPlanewise, changePlanes_eq_mapIdx, retain, Planes.map_eq_mapIdx]

end BitSliced.Index
