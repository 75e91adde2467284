import BitSliced.Proofs.Equality
import Mathlib.Data.List.Basic
import Mathlib.Data.List.Pairwise
import Mathlib.Tactic.Tauto

/-!
# Joining is a union

Joining indexes gives every identifier the bits that it has in any of them, makes everyone hold a
number who holds one in any of them, and is as wide as the widest. All of it has one shape: the
joined index has a feature when one of the indexes has it. Partitions are such features as well,
those without members included. Apart from its declaration, which is that of the index joined to, an
index is determined by its features. So it does not matter in which order indexes are joined, how
often, in how many steps, or whether some were joined to one another before.

Bits are kept apart only by identifiers: one that holds a number in a single index keeps it, but one
in several ends up with the bits of all its numbers.

## Main definitions

* `BitSliced.Feature`, `BitSliced.Index.Has` — single facts about an index.
* `BitSliced.Index.Joins` — an index has the features of some others, and no more.

## Main results

* `BitSliced.Index.joins_join` — joining joins.
* `BitSliced.Index.Joins.unique` — joins of the same indexes are equal.
* `BitSliced.Index.join_is_union` — **joining is a union**.
-/

namespace BitSliced

/-- A single fact about an index. -/
inductive Feature where
  /-- There are more planes than so many. -/
  | wider (width : Nat)
  /-- An identifier holds a number. -/
  | holder (id : UInt64)
  /-- An identifier is in a plane. -/
  | bit (id : UInt64) (i : Nat)
  /-- The existence bitmap has a partition. -/
  | partition (key : UInt32)
  /-- A plane has a partition. -/
  | planePartition (i : Nat) (key : UInt32)

/-- Features of members say nothing of partitions without them. -/
def Feature.OfMembers : Feature → Prop
  | .wider _ | .holder _ | .bit _ _ => True
  | .partition _ | .planePartition _ _ => False

namespace Index

/-- Whether an index has a feature. -/
def Has (b : Index) : Feature → Prop
  | .wider width => width < b.width
  | .holder id => b.contains id = true
  | .bit id i => (b.planes.number id).testBit i = true
  | .partition key => key ∈ b.existence.partitions
  | .planePartition i key => b.planes.HasPartition i key

variable {b c m r r' s t : Index} {merged others rest xs ys : List Index}

/-- Indexes of the same declaration are alike when they have the same features of members. -/
theorem alike_of_has_iff (hdeclared : b.declaration = c.declaration)
    (hsame : ∀ f : Feature, f.OfMembers → (b.Has f ↔ c.Has f)) : b.Alike c := by
  have hwidth : b.width = c.width := by
    have hle := hsame (.wider b.width) trivial
    have hge := hsame (.wider c.width) trivial
    simp only [Has] at hle hge
    omega
  refine alike_of_declaration_eq hdeclared hwidth
    (fun id => Bool.eq_iff_iff.2 (hsame (.holder id) trivial)) fun id => ?_
  exact Nat.eq_of_testBit_eq fun i => Bool.eq_iff_iff.2 (hsame (.bit id i) trivial)

/-- Indexes of the same declaration are equal when they have the same features. -/
theorem beq_iff_has_iff (hdeclared : b.declaration = c.declaration) :
    (b == c) = true ↔ ∀ f, b.Has f ↔ c.Has f := by
  rw [beq_iff_partitions]
  constructor
  · rintro ⟨halike, hexistence, hplanes⟩ f
    cases f with
    | wider width => rw [Has, Has, halike.width]
    | holder id => rw [Has, Has, halike.contains]
    | bit id i => rw [Has, Has, halike.number]
    | partition key => rw [Has, Has, hexistence]
    | planePartition i key => exact hplanes i key
  · intro hsame
    exact ⟨alike_of_has_iff hdeclared fun f _ => hsame f,
      Std.ExtTreeSet.ext_mem fun key => hsame (.partition key),
      fun i key => hsame (.planePartition i key)⟩

/-- An index *joins* others to a target when it has the features of them all, and no more. -/
structure Joins (t : Index) (others : List Index) (r : Index) : Prop where
  declaration_eq : r.declaration = t.declaration
  has_iff : ∀ f, r.Has f ↔ ∃ b ∈ t :: others, b.Has f

/-! ### Joining -/

theorem widest_le_iff (t : Index) (others : List Index) (width : Nat) :
    t.widest others ≤ width ↔ ∀ b ∈ t :: others, b.width ≤ width := by
  have hfold (n : Nat) : (others.map Index.width).foldl max n ≤ width ↔
      n ≤ width ∧ ∀ b ∈ others, b.width ≤ width := by
    induction others generalizing n with
    | nil => simp
    | cons other others ih =>
      rw [List.map_cons, List.foldl_cons, ih, Nat.max_le, List.forall_mem_cons, and_assoc]
  rw [List.forall_mem_cons]
  exact hfold t.width

/-- Every index is as wide as the widest at most. -/
theorem width_le_widest (h : b ∈ t :: others) : b.width ≤ t.widest others :=
  (widest_le_iff t others _).1 (Nat.le_refl _) b h

theorem width_join (hnarrow : ∀ b ∈ t :: others, b.width ≤ Planes.limit) (p : Parallelism) :
    (t.join p others).width = t.widest others := by
  have hown : t.width ≤ t.widest others := width_le_widest List.mem_cons_self
  have hfew := (widest_le_iff t others _).2 hnarrow
  rw [width, join, length_foldl_union, Planes.length_grow, ← width]
  omega

theorem contains_join (t : Index) (p : Parallelism) (others : List Index) (id : UInt64) :
    (t.join p others).contains id = (t :: others).any (·.contains id) := by
  have hfold (m : Bitmap) : (others.foldl (fun existence other =>
      existence.union other.existence) m).contains id =
        (m.contains id || others.any (·.contains id)) := by
    induction others generalizing m with
    | nil => simp
    | cons other others ih =>
      rw [List.foldl_cons, ih, Bitmap.contains_union, List.any_cons, Bool.or_assoc]
      rfl
  exact hfold t.existence

private theorem number_foldl_union {ps : Planes} (hwide : ∀ b ∈ others, b.width ≤ ps.length)
    (id : UInt64) :
    Planes.number (others.foldl (fun planes other => planes.union other.planes) ps) id =
      others.foldl (fun n b => n ||| b.planes.number id) (ps.number id) := by
  induction others generalizing ps with
  | nil => rfl
  | cons other others ih =>
    obtain ⟨hfirst, hwide⟩ := List.forall_mem_cons.1 hwide
    rw [List.foldl_cons, ih (by simpa using hwide), Planes.number_union hfirst, List.foldl_cons]

/-- There are planes for every index that is joined. -/
theorem width_le_length_grow_widest (hnarrow : ∀ b ∈ t :: others, b.width ≤ Planes.limit) :
    ∀ b ∈ others, b.width ≤ (t.planes.grow (t.widest others)).length := fun b hb => by
  have hfew := hnarrow b (List.mem_cons_of_mem _ hb)
  have hwidest := width_le_widest (List.mem_cons_of_mem t hb)
  rw [Planes.length_grow]
  omega

/-- The numbers of a join are the disjunctions of the numbers joined. -/
theorem number_join (hnarrow : ∀ b ∈ t :: others, b.width ≤ Planes.limit) (p : Parallelism)
    (id : UInt64) : (t.join p others).planes.number id =
      others.foldl (fun n b => n ||| b.planes.number id) (t.planes.number id) := by
  rw [join, number_foldl_union (width_le_length_grow_widest hnarrow), Planes.number_grow]

/-! ### Partitions of joins -/

theorem mem_partitions_join (t : Index) (p : Parallelism) (others : List Index) (key : UInt32) :
    key ∈ (t.join p others).existence.partitions ↔
      key ∈ t.existence.partitions ∨ ∃ b ∈ others, key ∈ b.existence.partitions := by
  have hfold (m : Bitmap) : key ∈ (others.foldl (fun existence other =>
      existence.union other.existence) m).partitions ↔
        key ∈ m.partitions ∨ ∃ b ∈ others, key ∈ b.existence.partitions := by
    induction others generalizing m with
    | nil => simp
    | cons other others ih =>
      rw [List.foldl_cons, ih, Bitmap.mem_partitions_union, List.exists_mem_cons_iff, or_assoc]
  exact hfold t.existence

private theorem hasPartition_foldl_union {ps : Planes}
    (hwide : ∀ b ∈ others, b.width ≤ ps.length) (i : Nat) (key : UInt32) :
    Planes.HasPartition (others.foldl (fun planes other => planes.union other.planes) ps) i key ↔
      ps.HasPartition i key ∨ ∃ b ∈ others, b.planes.HasPartition i key := by
  induction others generalizing ps with
  | nil => simp
  | cons other others ih =>
    obtain ⟨hfirst, hwide⟩ := List.forall_mem_cons.1 hwide
    rw [List.foldl_cons, ih (by simpa using hwide), Planes.hasPartition_union hfirst,
      List.exists_mem_cons_iff, or_assoc]

/-- A plane of a join has the partitions of that plane of all indexes. -/
theorem hasPartition_join (hnarrow : ∀ b ∈ t :: others, b.width ≤ Planes.limit) (p : Parallelism)
    (i : Nat) (key : UInt32) : (t.join p others).planes.HasPartition i key ↔
      ∃ b ∈ t :: others, b.planes.HasPartition i key := by
  rw [join, hasPartition_foldl_union (width_le_length_grow_widest hnarrow),
    Planes.hasPartition_grow, List.exists_mem_cons_iff]

private theorem testBit_foldl_or (value : Index → Nat) (n i : Nat) :
    (others.foldl (fun n b => n ||| value b) n).testBit i =
      (n.testBit i || others.any fun b => (value b).testBit i) := by
  induction others generalizing n with
  | nil => simp
  | cons other others ih =>
    rw [List.foldl_cons, ih, Nat.testBit_or, List.any_cons, Bool.or_assoc]

/-- Joining joins. -/
theorem joins_join (hnarrow : ∀ b ∈ t :: others, b.width ≤ Planes.limit) (p : Parallelism) :
    t.Joins others (t.join p others) where
  declaration_eq := declaration_join t p others
  has_iff f := by
    cases f with
    | wider width =>
      have hwidest := not_congr (widest_le_iff t others width)
      simp only [not_forall, Nat.not_le, exists_prop] at hwidest
      rw [Has, width_join hnarrow, hwidest]
      rfl
    | holder id =>
      rw [Has, contains_join, List.any_eq_true]
      rfl
    | bit id i =>
      rw [Has, number_join hnarrow, testBit_foldl_or, Bool.or_eq_true, List.any_eq_true,
        List.exists_mem_cons_iff]
      rfl
    | partition key =>
      rw [Has, mem_partitions_join, List.exists_mem_cons_iff]
      rfl
    | planePartition i key => exact hasPartition_join hnarrow p i key

/-! ### Laws of joins -/

namespace Joins

/-- The features of a join depend on what is joined only. -/
theorem congr (h : t.Joins xs r) (hsame : ∀ f, (∃ b ∈ t :: xs, b.Has f) ↔ ∃ b ∈ t :: ys, b.Has f) :
    t.Joins ys r :=
  ⟨h.declaration_eq, fun f => (h.has_iff f).trans (hsame f)⟩

/-- Order and repetition do not matter. -/
theorem of_mem_iff (h : t.Joins xs r) (hsame : ∀ b, b ∈ t :: xs ↔ b ∈ t :: ys) : t.Joins ys r :=
  h.congr fun f => by simp only [hsame]

theorem unique (h : t.Joins xs r) (h' : t.Joins xs r') : (r == r') = true :=
  (beq_iff_has_iff (h.declaration_eq.trans h'.declaration_eq.symm)).2 fun f =>
    (h.has_iff f).trans (h'.has_iff f).symm

/-- A join is no wider than what is joined. -/
theorem width_le (h : t.Joins xs r) {width : Nat} (hnarrow : ∀ b ∈ t :: xs, b.width ≤ width) :
    r.width ≤ width := by
  by_contra hwider
  obtain ⟨b, hb, hwider⟩ := (h.has_iff (.wider width)).1 (Nat.not_le.1 hwider)
  exact Nat.not_lt.2 (hnarrow b hb) hwider

/-- Joining in two steps is joining in one. -/
theorem trans (h : t.Joins xs r) (h' : r.Joins ys r') : t.Joins (xs ++ ys) r' where
  declaration_eq := h'.declaration_eq.trans h.declaration_eq
  has_iff f := by
    rw [h'.has_iff, List.exists_mem_cons_iff, h.has_iff, ← List.cons_append]
    simp only [List.mem_append, or_and_right, exists_or]

/-- An index that others were joined to stands for itself and for them. -/
theorem of_nested (h : t.Joins merged r) (hnested : m.Joins xs s)
    (hinner : ∀ b, b ∈ merged ↔ b = s ∨ b ∈ rest)
    (houter : ∀ b, b ∈ others ↔ b = m ∨ b ∈ xs ∨ b ∈ rest) : t.Joins others r :=
  h.congr fun f => by
    have hparts := hnested.has_iff f
    simp only [List.mem_cons, hinner, houter, or_and_right, exists_or, exists_eq_left] at hparts ⊢
    rw [hparts, or_assoc]

end Joins

/-- Joining in any number of steps joins all that is joined in them. -/
theorem joins_foldl (parts : List (Parallelism × List Index)) (ht : t.width ≤ Planes.limit)
    (hnarrow : ∀ part ∈ parts, ∀ b ∈ part.2, b.width ≤ Planes.limit) :
    t.Joins (parts.flatMap (·.2)) (parts.foldl (fun t part => t.join part.1 part.2) t) := by
  induction parts generalizing t with
  | nil => exact ⟨rfl, fun f => by simp⟩
  | cons part parts ih =>
    obtain ⟨hfirst, hnarrow⟩ := List.forall_mem_cons.1 hnarrow
    have hnarrow' : ∀ b ∈ t :: part.2, b.width ≤ Planes.limit := List.forall_mem_cons.2 ⟨ht, hfirst⟩
    have hjoined := joins_join hnarrow' part.1
    exact hjoined.trans (ih (hjoined.width_le hnarrow') hnarrow)

/-! ### Indexes of different identifiers -/

/-- No identifier holds a number in both indexes. -/
def Apart (b c : Index) : Prop := ∀ id ∈ b.existence, id ∉ c.existence

instance : Std.Symm Apart := ⟨fun _ _ hapart id hc hb => hapart id hb hc⟩

/-- Whether two indexes are apart is decided by going through the holders of the first. -/
instance (b c : Index) : Decidable (b.Apart c) :=
  decidable_of_iff (b.existence.ids.toList.all fun id => !c.contains id) <| by
    simp only [List.all_eq_true, Std.ExtTreeSet.mem_toList, Bool.not_eq_true', ← Bool.not_eq_true]
    rfl

/-- Only holders have bits in enclosed planes. -/
theorem Enclosed.contains_of_testBit (h : b.Enclosed) {id : UInt64} {i : Nat}
    (hbit : (b.planes.number id).testBit i = true) : b.contains id = true := by
  by_contra hmissing
  rw [enclosed_iff.1 h id (Bool.eq_false_iff.2 hmissing), Nat.zero_testBit] at hbit
  cases hbit

/-- An identifier that holds a number in one index only keeps it. -/
theorem Joins.get?_of_alone (h : t.Joins others r) (henclosed : ∀ c ∈ t :: others, c.Enclosed)
    (hb : b ∈ t :: others) {id : UInt64} (hheld : b.contains id = true)
    (halone : ∀ c ∈ t :: others, c.contains id = true → c = b) : r.get? id = b.get? id := by
  have hnumber : r.planes.number id = b.planes.number id :=
    Nat.eq_of_testBit_eq fun i => Bool.eq_iff_iff.2 <| (h.has_iff (.bit id i)).trans <| by
      refine ⟨fun ⟨c, hc, hbit⟩ => ?_, fun hbit => ⟨b, hb, hbit⟩⟩
      exact halone c hc ((henclosed c hc).contains_of_testBit hbit) ▸ hbit
  have hheld' : r.contains id = true := (h.has_iff (.holder id)).2 ⟨b, hb, hheld⟩
  rw [get?, get?, hheld, hheld', patternOf, patternOf, hnumber]

private theorem size_foldl_union {m : Bitmap} (hown : ∀ b ∈ others, ∀ id ∈ m, id ∉ b.existence)
    (hapart : others.Pairwise Apart) :
    (others.foldl (fun existence other => existence.union other.existence) m).ids.size =
      m.ids.size + (others.map cardinality).sum := by
  induction others generalizing m with
  | nil => rfl
  | cons other others ih =>
    obtain ⟨hfirst, hown⟩ := List.forall_mem_cons.1 hown
    obtain ⟨hfirst', hapart⟩ := List.pairwise_cons.1 hapart
    have hsize : (m.union other.existence).ids.size = m.ids.size + other.cardinality :=
      Std.ExtTreeSet.size_union_of_not_mem hfirst
    rw [List.foldl_cons, ih _ hapart, hsize, List.map_cons, List.sum_cons, Nat.add_assoc]
    intro b hb id hheld
    obtain hheld | hheld := Std.ExtTreeSet.mem_union_iff.1 hheld
    · exact hown b hb id hheld
    · exact hfirst' b hb id hheld

/-- Indexes of different identifiers have as many holders together as they have alone. -/
theorem cardinality_join (hapart : (t :: others).Pairwise Apart) (p : Parallelism) :
    (t.join p others).cardinality = ((t :: others).map cardinality).sum := by
  obtain ⟨hown, hapart⟩ := List.pairwise_cons.1 hapart
  exact size_foldl_union hown hapart

/-- **Joining is a union.** Let indexes of at most 64 planes be joined to a target of at most 64
planes. The result is as wide as the widest of them; its planes keep for every identifier the
disjunction of the numbers that the planes of all of them keep; those hold a number who hold one in
any of them; and bounds and settings are those of the target.

So the same result comes out for the same indexes in any order and with any repetitions, whatever
the degrees of parallelism, joined in any number of steps, and also when some of them are joined to
another one of them first, which then stands for them.

When all planes are enclosed and no identifier holds a number in two of the indexes, every number is
kept as it was, and the result has as many holders as all of them together. -/
theorem join_is_union (hnarrow : ∀ b ∈ t :: others, b.width ≤ 64) (p : Parallelism) :
    let r := t.join p others
    (r.width = t.widest others ∧
      (∀ id, r.planes.number id =
        others.foldl (fun n b => n ||| b.planes.number id) (t.planes.number id)) ∧
      (∀ id, id ∈ r.existence ↔ ∃ b ∈ t :: others, id ∈ b.existence) ∧
      r.maxValue = t.maxValue ∧ r.minValue = t.minValue ∧ r.settings = t.settings) ∧
    (∀ q again, (∀ b, b ∈ t :: again ↔ b ∈ t :: others) → (t.join q again == r) = true) ∧
    (∀ parts : List (Parallelism × List Index), (∀ b, b ∈ parts.flatMap (·.2) ↔ b ∈ others) →
      (parts.foldl (fun t part => t.join part.1 part.2) t == r) = true) ∧
    (∀ (q q' : Parallelism) (m : Index) (part rest merged : List Index),
      (∀ b, b ∈ others ↔ b = m ∨ b ∈ part ∨ b ∈ rest) →
      (∀ b, b ∈ merged ↔ b = m.join q part ∨ b ∈ rest) → (t.join q' merged == r) = true) ∧
    ((∀ b ∈ t :: others, b.Enclosed) → (t :: others).Pairwise Apart →
      (∀ b ∈ t :: others, ∀ id ∈ b.existence, r.get? id = b.get? id) ∧
      r.cardinality = ((t :: others).map cardinality).sum) := by
  intro r
  -- Every law is about another index that joins the same ones to the same target.
  have hjoined : t.Joins others r := joins_join hnarrow p
  have ht := hnarrow t List.mem_cons_self
  refine ⟨⟨width_join hnarrow p, number_join hnarrow p, fun id => hjoined.has_iff (.holder id), rfl,
    rfl, rfl⟩, fun q again hsame => ?_, fun parts hsame => ?_,
    fun q q' m part rest merged houter hinner => ?_,
    fun henclosed hapart => ⟨?_, cardinality_join hapart p⟩⟩
  · have honce := joins_join (fun b hb => hnarrow b ((hsame b).1 hb)) q
    exact (honce.of_mem_iff hsame).unique hjoined
  · have hnarrow' : ∀ part ∈ parts, ∀ b ∈ part.2, b.width ≤ Planes.limit := fun part hp b hb =>
      hnarrow b (List.mem_cons_of_mem t ((hsame b).1 (List.mem_flatMap.2 ⟨part, hp, hb⟩)))
    have hsame' (b : Index) : b ∈ t :: parts.flatMap (·.2) ↔ b ∈ t :: others := by
      rw [List.mem_cons, hsame, List.mem_cons]
    exact ((joins_foldl parts ht hnarrow').of_mem_iff hsame').unique hjoined
  · have hinside : ∀ b ∈ m :: part, b.width ≤ Planes.limit := fun b hb =>
      hnarrow b (.tail t ((houter b).2 ((List.mem_cons.1 hb).imp_right .inl)))
    have hnested := joins_join hinside q
    have hnarrow' : ∀ b ∈ t :: merged, b.width ≤ Planes.limit := by
      refine List.forall_mem_cons.2 ⟨ht, fun b hb => ?_⟩
      obtain rfl | hb := (hinner b).1 hb
      · exact hnested.width_le hinside
      · exact hnarrow b (.tail t ((houter b).2 (.inr (.inr hb))))
    exact ((joins_join hnarrow' q').of_nested hnested hinner houter).unique hjoined
  · intro b hb id hheld
    refine hjoined.get?_of_alone henclosed hb hheld fun c hc hheld' => ?_
    by_contra hother
    exact hapart.forall hc hb hother id hheld' hheld

/-- Three indexes of different identifiers, the target with bounds and narrower than the others. -/
theorem join_is_union_three :
    let t := (ofBounds 3 0).put 1 2
    let x := (ofBounds 100 0).put 2 9
    let y := (auto.put 3 (-1)).put 4 6
    let r := t.join ⟨2, 8⟩ [x, y]
    (∀ b ∈ [t, x, y], b.width ≤ 64) ∧ (∀ b ∈ [t, x, y], b.Enclosed) ∧ [t, x, y].Pairwise Apart ∧
      (t.join ⟨0, 4⟩ [y, x, y] == r) = true ∧
      (((t.join ⟨1, 1⟩ [y]).join ⟨3, 3⟩ []).join ⟨0, 1⟩ [x] == r) = true ∧
      (t.join ⟨1, 1⟩ [x.join ⟨5, 5⟩ [y]] == r) = true ∧
      r.width = 64 ∧ r.get? 3 = some (-1) ∧ r.get? 2 = some 9 ∧ r.cardinality = 4 := by
  have hmem_iff (t x y b : Index) : b ∈ [t, y, x, y] ↔ b ∈ [t, x, y] := by
    simp only [List.mem_cons, List.not_mem_nil]
    tauto
  have hmem_iff' (x y b : Index) : b ∈ [y] ++ ([] ++ ([x] ++ [])) ↔ b ∈ [x, y] := by
    simp [or_comm]
  intro t x y r
  have hnarrow : ∀ b ∈ [t, x, y], b.width ≤ 64 := by decide +kernel
  have henclosed : ∀ b ∈ [t, x, y], b.Enclosed := by
    simp only [List.forall_mem_cons]
    exact ⟨((WellFormed.ofBounds 3 0).put 1 2).enclosed,
      ((WellFormed.ofBounds 100 0).put 2 9).enclosed,
      (((WellFormed.ofBounds 0 0).put 3 (-1)).put 4 6).enclosed, fun _ h => nomatch h⟩
  have hapart : [t, x, y].Pairwise Apart := by decide +kernel
  obtain ⟨⟨hwidth, -⟩, hagain, hsteps, hnested, halone⟩ := join_is_union hnarrow ⟨2, 8⟩
  obtain ⟨hkept, hholders⟩ := halone henclosed hapart
  have hreordered := hagain ⟨0, 4⟩ [y, x, y] (hmem_iff t x y)
  have hstepwise := hsteps [(⟨1, 1⟩, [y]), (⟨3, 3⟩, []), (⟨0, 1⟩, [x])] (hmem_iff' x y)
  have hmerged := hnested ⟨5, 5⟩ ⟨1, 1⟩ x [y] [] [x.join ⟨5, 5⟩ [y]] (by simp) (by simp)
  refine ⟨hnarrow, henclosed, hapart, hreordered, hstepwise, hmerged,
    hwidth.trans (by decide +kernel), ?_, ?_, hholders.trans (by decide +kernel)⟩
  · exact (hkept y (by simp) 3 (by decide +kernel)).trans (by decide +kernel)
  · exact (hkept x (by simp) 2 (by decide +kernel)).trans (by decide +kernel)

end Index

end BitSliced
