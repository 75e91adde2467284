import BitSliced.Index.Buffers
import BitSliced.Proofs.Joined

/-!
# Retaining and clearing split an index

Retaining a set of identifiers and clearing it are complements of each other. What is retained has
the features of the index that are about identifiers of the set, and the rest has all others, so
that the two parts, joined in either order, are alike to the index. Nothing remains in any plane of
an identifier that was cleared, so that it starts from zero when it comes to hold a number again.

What is not in either part is a partition without members that the set has as well: it is not
retained, as there is nothing in it, and it is cleared. These are all the features that are
*dropped* by a split, so that the two parts are equal to the index exactly when there are none.

## Main definitions

* `BitSliced.Index.Drops` — the features that are in neither part.
* `BitSliced.Index.HollowOutside` — hollow partitions are outside of a set.

## Main results

* `BitSliced.Index.get?_retain`, `BitSliced.Index.get?_clear` — the numbers in the two parts.
* `BitSliced.Index.has_parts_iff` — the features that the two parts have together.
* `BitSliced.Index.retain_and_clear_split` — **retaining and clearing split an index**.
* `BitSliced.Index.hollow_plane_is_dropped` — why hollow partitions have to be outside.
-/

namespace BitSliced

namespace Bitmap

/-- Partitions are in one of the parts of a bitmap, except for hollow ones inside of the set. -/
theorem mem_partitions_parts {m found : Bitmap} {key : UInt32} :
    key ∈ (m.inter found).partitions ∨ key ∈ (m.diff found).partitions ↔
      key ∈ m.partitions ∧ ¬ (key ∈ m.hollow ∧ key ∈ found.partitions) := by
  constructor
  · have hkeeps {n : Bitmap} (hsub : ∀ id ∈ n, id ∈ m)
        (hhollow : key ∈ n.hollow → key ∈ m.hollow ∧ key ∉ found.partitions)
        (h : key ∈ n.partitions) :
        key ∈ m.partitions ∧ ¬ (key ∈ m.hollow ∧ key ∈ found.partitions) := by
      rcases mem_partitions.1 h with ⟨id, hmember, rfl⟩ | h
      · exact ⟨partitionOf_mem_partitions (hsub id hmember),
          fun hboth => m.fits.vacant _ hboth.1 id (hsub id hmember) rfl⟩
      · obtain ⟨hown, houtside⟩ := hhollow h
        exact ⟨mem_partitions.2 (.inr hown), fun hboth => houtside hboth.2⟩
    rintro (h | h)
    · refine hkeeps (fun id h => (Std.ExtTreeSet.mem_inter_iff.1 h).1) (fun h => ?_) h
      rw [hollow_inter] at h
      exact absurd h Std.ExtTreeSet.not_mem_empty
    · exact hkeeps (fun id h => (Std.ExtTreeSet.mem_diff_iff.1 h).1) mem_hollow_diff.1 h
  · rintro ⟨h, hkept⟩
    rcases mem_partitions.1 h with ⟨id, hmember, rfl⟩ | hhollow
    · by_cases hinside : id ∈ found
      · exact .inl (partitionOf_mem_partitions (Std.ExtTreeSet.mem_inter_iff.2 ⟨hmember, hinside⟩))
      · exact .inr (partitionOf_mem_partitions (Std.ExtTreeSet.mem_diff_iff.2 ⟨hmember, hinside⟩))
    · have houtside : key ∉ found.partitions := fun hinside => hkept ⟨hhollow, hinside⟩
      exact .inr (mem_partitions.2 (.inr (mem_hollow_diff.2 ⟨hhollow, houtside⟩)))

end Bitmap

namespace Index

/-! ### The two parts -/

theorem contains_retain (b : Index) (found : Bitmap) (id : UInt64) :
    (b.retain found).contains id = (b.contains id && found.contains id) :=
  Bitmap.contains_inter ..

theorem contains_clear (b : Index) (found : Bitmap) (id : UInt64) :
    (b.clear found).contains id = (b.contains id && !found.contains id) :=
  Bitmap.contains_diff ..

theorem number_retain (b : Index) (found : Bitmap) (id : UInt64) :
    (b.retain found).planes.number id = if found.contains id then b.planes.number id else 0 :=
  Planes.number_map_inter ..

theorem number_clear (b : Index) (found : Bitmap) (id : UInt64) :
    (b.clear found).planes.number id = if found.contains id then 0 else b.planes.number id :=
  Planes.number_map_diff ..

/-- What is retained holds the numbers of the set. -/
theorem get?_retain (b : Index) (found : Bitmap) (id : UInt64) :
    (b.retain found).get? id = if id ∈ found then b.get? id else none := by
  simp only [get?, patternOf, contains_retain, number_retain, ← Bitmap.contains_iff]
  cases found.contains id <;> simp

/-- The rest holds the numbers of all others. -/
theorem get?_clear (b : Index) (found : Bitmap) (id : UInt64) :
    (b.clear found).get? id = if id ∈ found then none else b.get? id := by
  simp only [get?, patternOf, contains_clear, number_clear, ← Bitmap.contains_iff]
  cases found.contains id <;> simp

/-! ### Features of the parts -/

/-- The features of an index that get lost when it is split by a set: partitions without members
that the set has. -/
def Drops (b : Index) (found : Bitmap) : Feature → Prop
  | .wider _ | .holder _ | .bit _ _ => False
  | .partition key => key ∈ b.existence.hollow ∧ key ∈ found.partitions
  | .planePartition i key => ∃ p ∈ b.planes[i]?, key ∈ p.hollow ∧ key ∈ found.partitions

/-- The hollow partitions of an index are outside of a set. -/
def HollowOutside (b : Index) (found : Bitmap) : Prop :=
  ∀ m ∈ b.existence :: b.planes, ∀ key ∈ m.hollow, key ∉ found.partitions

variable {b r : Index} {found : Bitmap} {f : Feature}

theorem not_drops_of_ofMembers (h : f.OfMembers) : ¬ b.Drops found f := by
  cases f with
  | wider _ | holder _ | bit _ _ => exact id
  | partition _ | planePartition _ _ => cases h

theorem has_of_drops (h : b.Drops found f) : b.Has f := by
  cases f with
  | partition key => exact (Bitmap.mem_hollow_iff.1 h.1).1
  | planePartition i key =>
    obtain ⟨p, hp, hhollow, -⟩ := h
    exact ⟨p, hp, (Bitmap.mem_hollow_iff.1 hhollow).1⟩
  | wider _ | holder _ | bit _ _ => cases h

theorem forall_not_drops_iff : (∀ f, ¬ b.Drops found f) ↔ b.HollowOutside found := by
  constructor
  · intro h
    refine List.forall_mem_cons.2 ⟨fun key hhollow hinside => h (.partition key) ⟨hhollow, hinside⟩,
      fun p hp key hhollow hinside => ?_⟩
    obtain ⟨i, hi⟩ := List.mem_iff_getElem?.1 hp
    exact h (.planePartition i key) ⟨p, hi, hhollow, hinside⟩
  · intro h f hf
    obtain ⟨hexistence, hplanes⟩ := List.forall_mem_cons.1 h
    cases f with
    | partition key => exact hexistence key hf.1 hf.2
    | planePartition i key =>
      obtain ⟨p, hp, hhollow, hinside⟩ := hf
      exact hplanes p (List.mem_of_getElem? hp) key hhollow hinside
    | wider _ | holder _ | bit _ _ => cases hf

/-- Together, the two parts have the features of the index that are not dropped. -/
theorem has_parts_iff (b : Index) (found : Bitmap) (f : Feature) :
    (b.retain found).Has f ∨ (b.clear found).Has f ↔ b.Has f ∧ ¬ b.Drops found f := by
  cases f with
  | wider width => simp [Has, Drops]
  | holder id =>
    simp only [Has, Drops, contains_retain, contains_clear]
    cases found.contains id <;> simp
  | bit id i =>
    simp only [Has, Drops, number_retain, number_clear]
    cases found.contains id <;> simp
  | partition key => exact Bitmap.mem_partitions_parts
  | planePartition i key =>
    simp only [Has, Drops, Planes.HasPartition, retain, clear, List.getElem?_map]
    cases b.planes[i]? with
    | none => simp
    | some p => simpa using Bitmap.mem_partitions_parts

/-! ### Joining the parts -/

/-- An index that joins the two parts is alike to the one that was split, and equal to it when
nothing was dropped. -/
theorem alike_of_parts (hdeclared : r.declaration = b.declaration)
    (h : ∀ f, r.Has f ↔ (b.retain found).Has f ∨ (b.clear found).Has f) :
    r.Alike b ∧ ((r == b) = true ↔ b.HollowOutside found) := by
  have hkept (f : Feature) : r.Has f ↔ b.Has f ∧ ¬ b.Drops found f :=
    (h f).trans (b.has_parts_iff found f)
  constructor
  · exact alike_of_has_iff hdeclared fun f hmembers =>
      (hkept f).trans (and_iff_left (not_drops_of_ofMembers hmembers))
  · rw [beq_iff_has_iff hdeclared, ← forall_not_drops_iff]
    refine forall_congr' fun f => (iff_congr (hkept f) Iff.rfl).trans ?_
    exact ⟨fun hsame hdropped => (hsame.2 (has_of_drops hdropped)).2 hdropped, and_iff_left⟩

/-- Joining what is retained with the rest. -/
theorem join_parts (hfew : b.width ≤ Planes.limit) (found : Bitmap) (p : Parallelism) :
    let r := (b.retain found).join p [b.clear found]
    r.Alike b ∧ ((r == b) = true ↔ b.HollowOutside found) := by
  have hnarrow : ∀ part ∈ [b.retain found, b.clear found], part.width ≤ Planes.limit := by
    simp [hfew]
  refine alike_of_parts rfl fun f => ((joins_join hnarrow p).has_iff f).trans ?_
  simp

/-- Joining the rest with what is retained. -/
theorem join_parts_reversed (hfew : b.width ≤ Planes.limit) (found : Bitmap) (p : Parallelism) :
    let r := (b.clear found).join p [b.retain found]
    r.Alike b ∧ ((r == b) = true ↔ b.HollowOutside found) := by
  have hnarrow : ∀ part ∈ [b.clear found, b.retain found], part.width ≤ Planes.limit := by
    simp [hfew]
  refine alike_of_parts rfl fun f => ((joins_join hnarrow p).has_iff f).trans ?_
  simp [or_comm]

/-! ### Planes of the parts -/

theorem mem_found_of_mem_retain {plane : Bitmap} (h : plane ∈ (b.retain found).planes)
    {id : UInt64} (hmember : id ∈ plane) : id ∈ found := by
  obtain ⟨whole, -, rfl⟩ := List.mem_map.1 h
  exact (Std.ExtTreeSet.mem_inter_iff.1 hmember).2

theorem not_mem_found_of_mem_clear {plane : Bitmap} (h : plane ∈ (b.clear found).planes)
    {id : UInt64} (hmember : id ∈ plane) : id ∉ found := by
  obtain ⟨whole, -, rfl⟩ := List.mem_map.1 h
  exact (Std.ExtTreeSet.mem_diff_iff.1 hmember).2

/-- An identifier that was cleared is counted from zero. -/
theorem get?_increment_clear (hfew : b.width ≤ Planes.limit) {counted : Bitmap} {id : UInt64}
    (hcleared : id ∈ found) (hmember : id ∈ counted) :
    ((b.clear found).increment counted).get? id = some 1 := by
  have hfew' : (b.clear found).width ≤ Planes.limit := by rwa [width_clear]
  have hzero : (b.clear found).patternOf id = 0 := by
    rw [patternOf, number_clear, if_pos (Bitmap.contains_iff.2 hcleared)]
    rfl
  rw [get?, contains_increment, patternOf_increment hfew', hzero, Bitmap.contains_iff.2 hmember,
    Bool.or_true, if_pos rfl]
  rfl

/-- **Retaining and clearing split an index.** Let an index have at most 64 planes, whatever bits
they have for identifiers that hold no number. Then what is retained for a set, and the rest when
the set is cleared, both have the bounds and the width of the index. The first holds the numbers of
the identifiers of the set, and the second those of all others; no plane of the first has an
identifier outside of the set, and no plane of the second one inside. Joined in either order, with
any degree of parallelism, the two are alike to the index: they have its bounds and its holders, and
as many planes with the same members. They are equal to the index exactly when it has no partition
without members, in the existence bitmap or in a plane, that is a partition of the set. And whoever
was cleared and is then counted, holds one. -/
theorem retain_and_clear_split (hfew : b.width ≤ 64) (found : Bitmap) :
    let retained := b.retain found
    let rest := b.clear found
    (retained.maxValue = b.maxValue ∧ retained.minValue = b.minValue ∧ retained.width = b.width) ∧
    (rest.maxValue = b.maxValue ∧ rest.minValue = b.minValue ∧ rest.width = b.width) ∧
    (∀ id, retained.get? id = if id ∈ found then b.get? id else none) ∧
    (∀ id, rest.get? id = if id ∈ found then none else b.get? id) ∧
    (∀ plane ∈ retained.planes, ∀ id ∈ plane, id ∈ found) ∧
    (∀ plane ∈ rest.planes, ∀ id ∈ plane, id ∉ found) ∧
    (∀ p, (retained.join p [rest]).Alike b ∧ (rest.join p [retained]).Alike b) ∧
    (∀ p, ((retained.join p [rest] == b) = true ↔ b.HollowOutside found) ∧
      ((rest.join p [retained] == b) = true ↔ b.HollowOutside found)) ∧
    ∀ counted : Bitmap, ∀ id ∈ found, id ∈ counted → (rest.increment counted).get? id = some 1 := by
  intro retained rest
  have hjoined (p : Parallelism) := join_parts hfew found p
  have hreversed (p : Parallelism) := join_parts_reversed hfew found p
  exact ⟨⟨rfl, rfl, width_retain b found⟩, ⟨rfl, rfl, width_clear b found⟩, b.get?_retain found,
    b.get?_clear found, fun _ h _ => mem_found_of_mem_retain h,
    fun _ h _ => not_mem_found_of_mem_clear h, fun p => ⟨(hjoined p).1, (hreversed p).1⟩,
    fun p => ⟨(hjoined p).2, (hreversed p).2⟩,
    fun counted id hcleared => get?_increment_clear hfew hcleared⟩

/-- An index with a stray bit of the identifier `9`, split by a set that is partly outside of it. -/
theorem retain_and_clear_split_stray_bit :
    let held := (auto.put 1 5).put 2 3
    let b := { held with planes := held.planes.write 9 4 }
    let found : Bitmap := .ofIds (.ofList [2, 9, 100])
    b.width ≤ 64 ∧ b.HollowOutside found ∧ b.patternOf 9 = 4 ∧
      (b.retain found).get? 2 = some 3 ∧ (b.retain found).get? 1 = none ∧
      (b.clear found).get? 1 = some 5 ∧ (b.clear found).get? 2 = none ∧
      ((b.clear found).join ⟨0, 8⟩ [b.retain found] == b) = true ∧
      ((b.clear found).increment (.single 9)).get? 9 = some 1 ∧
      (b.increment (.single 9)).get? 9 = some 5 := by
  intro held b found
  have hfew : b.width ≤ 64 := by decide
  have houtside : b.HollowOutside found := by
    have hclosed := Bitmap.closed_isSolid
    have hsolid := hclosed.put (hclosed.put (hclosed.ofBounds 0 0) 1 5) 2 3
    have hall : ∀ m ∈ b.existence :: b.planes, m.IsSolid :=
      List.forall_mem_cons.2 ⟨hsolid.existence, hclosed.write hsolid.planes 9 4⟩
    exact fun m hm key hhollow => absurd hhollow (Bitmap.isSolid_iff.1 (hall m hm) key)
  obtain ⟨-, -, hretained, hrest, -, -, -, hjoined, hcounted⟩ := retain_and_clear_split hfew found
  refine ⟨hfew, houtside, by decide +kernel, (hretained 2).trans (by decide +kernel),
    (hretained 1).trans (by decide +kernel), (hrest 1).trans (by decide +kernel),
    (hrest 2).trans (by decide +kernel), (hjoined ⟨0, 8⟩).2.2 houtside,
    hcounted (.single 9) 9 (by decide +kernel) (by decide +kernel), by decide +kernel⟩

/-- A plane that was read with a partition without members, split by an identifier of the partition.
Neither part has the partition. -/
theorem hollow_plane_is_dropped :
    let hollow := Word.encode 8 1 ++ (Word.encode 4 7 ++ (Word.encode 4 12346 ++ Word.encode 4 0))
    let found : Bitmap := .ofIds (.ofList [30064771072])
    ∃ b, auto.restore [[], hollow] = .ok b ∧ b.width ≤ 64 ∧
      ((b.retain found).join ⟨1, 1⟩ [b.clear found] == b) = false ∧
      ((b.clear found).join ⟨1, 1⟩ [b.retain found] == b) = false := by
  refine ⟨{ auto with planes := [.ofPartitions [⟨7, []⟩]] }, rfl, ?_, ?_, ?_⟩
  all_goals decide +kernel

end Index

end BitSliced
