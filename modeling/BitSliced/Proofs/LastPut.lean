import BitSliced.Proofs.Equality
import Mathlib.Data.List.Perm.Basic
import Mathlib.Order.Lattice

/-!
# The last number put is held

Putting numbers one after the other leaves every identifier with the last number that was put for
it. What is kept of a number is the same at any time: an index without bounds keeps all of its bits,
growing by as many planes as it needs, and an index with bounds keeps as many as it is wide. So
neither the numbers that were put before, nor those of other identifiers, nor planes that are
appended in between play a part, and only the order of the numbers for each single identifier
matters. A partition without members that was read with an index goes away when some identifier is
put into it, and does not come back when the identifier is taken out again, so that the order does
not matter for it either.

An index without bounds is afterwards as wide as the longest number that was ever put, whether it is
still held or not.

## Main definitions

* `BitSliced.Index.putsFor` — the numbers that are put for an identifier.
* `BitSliced.Index.kept` — the bits of a number that an index keeps.

## Main results

* `BitSliced.Index.number_put`, `BitSliced.Index.number_putAll` — what planes keep after one number
  was put, and after many.
* `BitSliced.Index.mem_hollow_existence_putAll`, `BitSliced.Index.mem_hollows_putAll` — which
  partitions without members remain.
* `BitSliced.Index.putAll_beq_putAll` — only the order for each single identifier matters.
* `BitSliced.Index.last_put_is_held` — **the last number put is held**.
-/

namespace BitSliced.Index

/-- The numbers that entries put for an identifier, in their order. -/
def putsFor (entries : List (UInt64 × Int64)) (id : UInt64) : List Int64 :=
  (entries.filter (·.1 = id)).map (·.2)

/-- The bits of a number that an index keeps: all of them when it has no bounds, and else as many as
it is wide. -/
def kept (b : Index) (value : Int64) : Nat :=
  if b.isAuto then pattern value else pattern value % 2 ^ b.width

variable {b : Index} {entries again : List (UInt64 × Int64)}

/-! ### Numbers put for an identifier -/

theorem putsFor_cons (id other : UInt64) (value : Int64) (entries : List (UInt64 × Int64)) :
    putsFor ((id, value) :: entries) other =
      if id = other then value :: putsFor entries other else putsFor entries other := by
  rw [putsFor, List.filter_cons]
  by_cases hsame : id = other
  · simp [hsame, putsFor]
  · simp [hsame, putsFor]

/-- An entry is put as often as its number is put for its identifier. -/
theorem count_putsFor (id : UInt64) (value : Int64) (entries : List (UInt64 × Int64)) :
    (putsFor entries id).count value = entries.count (id, value) := by
  induction entries with
  | nil => rfl
  | cons entry entries ih =>
    obtain ⟨other, number⟩ := entry
    rw [putsFor_cons, List.count_cons, ← ih]
    split
    · next hsame => simp [hsame, List.count_cons]
    · next hne => simp [hne]

/-- Entries that put the same numbers for every identifier are the same entries in some order. -/
theorem perm_of_putsFor_eq (hsame : ∀ id, putsFor again id = putsFor entries id) :
    again.Perm entries :=
  List.perm_iff_count.2 fun (id, value) => by rw [← count_putsFor, hsame, count_putsFor]

/-! ### Putting one number -/

theorem bitLength_pattern_le (value : Int64) : bitLength (pattern value) ≤ Planes.limit :=
  bitLength_le_iff.2 value.toUInt64.toNat_lt

/-- A signed number is known by its pattern. -/
theorem ofNat_pattern (value : Int64) : Int64.ofNat (pattern value) = value :=
  congrArg UInt64.toInt64 UInt64.ofNat_toNat

theorem width_put (b : Index) (id : UInt64) (value : Int64) : (b.put id value).width =
    if b.isAuto then max b.width (bitLength (pattern value)) else b.width := by
  rw [width, planes_put, Planes.length_write, Planes.length_grow]
  split
  · rw [Nat.min_eq_left (bitLength_pattern_le value)]
    rfl
  · exact Nat.max_eq_left (Nat.zero_le _)

@[simp]
theorem isAuto_put (b : Index) (id : UInt64) (value : Int64) :
    (b.put id value).isAuto = b.isAuto := rfl

/-- Putting a number does not change what is kept of others. -/
@[simp]
theorem kept_put (b : Index) (id : UInt64) (value : Int64) : (b.put id value).kept = b.kept := by
  funext other
  rw [kept, kept, isAuto_put, width_put]
  split
  · rfl
  · rfl

/-- Planes keep the number that is put for an identifier, whatever bits they had for it, and the
numbers of all other identifiers as they were. -/
theorem number_put (b : Index) (id other : UInt64) (value : Int64) :
    (b.put id value).planes.number other =
      if id = other then b.kept value else b.planes.number other := by
  split
  · next hsame =>
    subst hsame
    have hlength : (b.put id value).width = (b.planes.grow
        (if b.isAuto then bitLength (pattern value) else 0)).length := by
      rw [width, planes_put, Planes.length_write]
    rw [planes_put, Planes.number_write_self, ← hlength, width_put, kept]
    split
    · have hlong : bitLength (pattern value) ≤ max b.width (bitLength (pattern value)) :=
        Nat.le_max_right ..
      exact Nat.mod_eq_of_lt (bitLength_le_iff.1 hlong)
    · rfl
  · next hne =>
    rw [planes_put, Planes.number_write_of_ne _ (Ne.symm hne), Planes.number_grow]

theorem contains_put (b : Index) (id other : UInt64) (value : Int64) :
    (b.put id value).contains other = true ↔ id = other ∨ b.contains other = true := by
  by_cases hsame : id = other
  · subst hsame
    exact iff_of_true (Bitmap.contains_insert_self _ _) (.inl rfl)
  · rw [contains, put, Bitmap.contains_insert_of_ne _ (Ne.symm hsame)]
    simp [hsame, contains]

/-! ### Putting numbers one after the other -/

@[simp]
theorem putAll_cons (b : Index) (entry : UInt64 × Int64) (entries : List (UInt64 × Int64)) :
    b.putAll (entry :: entries) = (b.put entry.1 entry.2).putAll entries := rfl

theorem declaration_putAll (b : Index) (entries : List (UInt64 × Int64)) :
    (b.putAll entries).declaration = b.declaration :=
  List.foldlRecOn (motive := fun r : Index => r.declaration = b.declaration) entries _ rfl
    fun r hsame entry _ => (declaration_put r entry.1 entry.2).trans hsame

theorem width_putAll (b : Index) (entries : List (UInt64 × Int64)) : (b.putAll entries).width =
    if b.isAuto then (entries.map fun entry => bitLength (pattern entry.2)).foldl max b.width
    else b.width := by
  induction entries generalizing b with
  | nil => exact (ite_self _).symm
  | cons entry entries ih =>
    rw [putAll_cons, ih, isAuto_put, width_put, List.map_cons, List.foldl_cons]
    split
    · rfl
    · rfl

/-- Planes keep the last number that was put for an identifier, and the bits that they had for it if
there is none. -/
theorem number_putAll (b : Index) (entries : List (UInt64 × Int64)) (id : UInt64) :
    (b.putAll entries).planes.number id =
      ((putsFor entries id).getLast?.map b.kept).getD (b.planes.number id) := by
  induction entries generalizing b with
  | nil => rfl
  | cons entry entries ih =>
    obtain ⟨other, value⟩ := entry
    rw [putAll_cons, ih, kept_put, number_put, putsFor_cons]
    split
    · rw [List.getLast?_cons]
      cases (putsFor entries id).getLast? <;> rfl
    · rfl

/-- Everyone holds a number afterwards for whom one was put. -/
theorem contains_putAll (b : Index) (entries : List (UInt64 × Int64)) (id : UInt64) :
    (b.putAll entries).contains id = true ↔ b.contains id = true ∨ putsFor entries id ≠ [] := by
  induction entries generalizing b with
  | nil => simp [putAll, putsFor]
  | cons entry entries ih =>
    obtain ⟨other, value⟩ := entry
    rw [putAll_cons, ih, contains_put, putsFor_cons]
    split
    · next hsame => simp [hsame]
    · next hne => simp [hne]

/-- The number that is held after the last one was put. -/
theorem get?_putAll {id : UInt64} {value : Int64}
    (hlast : (putsFor entries id).getLast? = some value) :
    (b.putAll entries).get? id = some (Int64.ofNat (b.kept value)) := by
  have hheld : (b.putAll entries).contains id = true :=
    (contains_putAll ..).2 (.inr (List.ne_nil_of_mem (List.mem_of_getLast? hlast)))
  rw [get?, if_pos hheld, patternOf, number_putAll, hlast]
  rfl

/-- Nothing changes for an identifier for which no number was put. -/
theorem get?_putAll_of_putsFor_eq_nil {id : UInt64} (hnone : putsFor entries id = []) :
    (b.putAll entries).get? id = b.get? id := by
  have hsame : (b.putAll entries).contains id = b.contains id :=
    Bool.eq_iff_iff.2 ((contains_putAll ..).trans (by simp [hnone]))
  rw [get?, get?, hsame, patternOf, patternOf, number_putAll, hnone]
  rfl

/-- What remains hollow in the existence bitmap: the partitions of no identifier for which a number
was put. -/
theorem mem_hollow_existence_putAll (b : Index) (entries : List (UInt64 × Int64)) {key : UInt32} :
    key ∈ (b.putAll entries).existence.hollow ↔
      key ∈ b.existence.hollow ∧ ∀ entry ∈ entries, partitionOf entry.1 ≠ key := by
  induction entries generalizing b with
  | nil => simp [putAll]
  | cons entry entries ih =>
    rw [putAll_cons, ih, put, Bitmap.mem_hollow_insert, List.forall_mem_cons, and_assoc]

/-- What remains hollow in a plane: the partitions of no identifier for which a number with the bit
of the plane was put. -/
theorem mem_hollows_putAll (b : Index) (entries : List (UInt64 × Int64)) {i : Nat} {key : UInt32} :
    key ∈ (b.putAll entries).planes.hollows i ↔ key ∈ b.planes.hollows i ∧
      ∀ entry ∈ entries, (pattern entry.2).testBit i = true → partitionOf entry.1 ≠ key := by
  induction entries generalizing b with
  | nil => simp [putAll]
  | cons entry entries ih =>
    rw [putAll_cons, ih, planes_put, Planes.mem_hollows_write, Planes.grow,
      Planes.hollows_append_blank, List.forall_mem_cons, and_assoc]

/-- Only the order of the numbers for each single identifier matters. -/
theorem putAll_beq_putAll (b : Index) (hsame : ∀ id, putsFor again id = putsFor entries id) :
    (b.putAll again == b.putAll entries) = true := by
  have hperm := perm_of_putsFor_eq hsame
  refine beq_iff.2 ⟨alike_of_declaration_eq ?_ ?_ (fun id => Bool.eq_iff_iff.2 ?_) fun id => ?_,
    Std.ExtTreeSet.ext_mem fun key => ?_, funext fun i => Std.ExtTreeSet.ext_mem fun key => ?_⟩
  · rw [declaration_putAll, declaration_putAll]
  · rw [width_putAll, width_putAll,
      (hperm.map fun entry => bitLength (pattern entry.2)).foldl_eq]
  · rw [contains_putAll, contains_putAll, hsame]
  · rw [number_putAll, number_putAll, hsame]
  · simp only [mem_hollow_existence_putAll, hperm.mem_iff]
  · simp only [mem_hollows_putAll, hperm.mem_iff]

/-- **The last number put is held.** Let numbers be put in an index one after the other, whatever it
had before. For an identifier for which none was put, the number that it holds and the bits of the
planes are as they were. Everyone else holds the last number that was put: the number itself when
the index has no bounds, and else the low bits of its pattern, as many as the index is wide. Those
hold a number who held one before, and those for whom one was put.

An index without bounds is as wide as before, or as the longest of all the numbers put, if that is
wider; an index with bounds does not change its width. Bounds and settings stay.

Two sequences that put the same numbers for each single identifier, in the same order, leave equal
indexes. -/
theorem last_put_is_held (b : Index) (entries : List (UInt64 × Int64)) :
    let r := b.putAll entries
    (∀ id, putsFor entries id = [] →
      r.get? id = b.get? id ∧ r.planes.number id = b.planes.number id) ∧
    (∀ id value, (putsFor entries id).getLast? = some value → r.get? id =
      some (if b.isAuto then value else Int64.ofNat (pattern value % 2 ^ b.width))) ∧
    (∀ id, id ∈ r.existence ↔ id ∈ b.existence ∨ putsFor entries id ≠ []) ∧
    (r.width = if b.isAuto then
      (entries.map fun entry => bitLength (pattern entry.2)).foldl max b.width else b.width) ∧
    r.maxValue = b.maxValue ∧ r.minValue = b.minValue ∧ r.settings = b.settings ∧
    ∀ again, (∀ id, putsFor again id = putsFor entries id) → (b.putAll again == r) = true := by
  intro r
  have hdeclared := b.declaration_putAll entries
  refine ⟨fun id hnone => ⟨get?_putAll_of_putsFor_eq_nil hnone, ?_⟩, fun id value hlast => ?_,
    b.contains_putAll entries, b.width_putAll entries, congrArg Declaration.maxValue hdeclared,
    congrArg Declaration.minValue hdeclared, congrArg Declaration.settings hdeclared,
    fun again hsame => b.putAll_beq_putAll hsame⟩
  · rw [number_putAll, hnone]
    rfl
  · rw [get?_putAll hlast, kept]
    split
    · rw [ofNat_pattern]
    · rfl

/-- The number `-1` is overwritten and leaves its width behind; with bounds, `-100` keeps its low
seven bits. -/
theorem last_put_is_held_overwritten :
    let b := auto.put 7 5
    let entries := [(1, -1), (2, 6), (1, 3)]
    let again := [(2, 6), (1, -1), (1, 3)]
    let r := b.putAll entries
    (∀ id, putsFor again id = putsFor entries id) ∧ (b.putAll again == r) = true ∧
      putsFor entries 7 = [] ∧ r.get? 7 = some 5 ∧ (putsFor entries 1).getLast? = some 3 ∧
      r.get? 1 = some 3 ∧ r.width = 64 ∧ 2 ∈ r.existence ∧
      (putsFor [(1, -100)] 1).getLast? = some (-100) ∧
      ((ofBounds 100 (-100)).putAll [(1, -100)]).get? 1 = some 28 := by
  intro b entries again r
  have hsame (id : UInt64) : putsFor again id = putsFor entries id := by
    by_cases hone : 1 = id
    · subst hone
      rfl
    · simp [again, entries, putsFor_cons, hone]
  obtain ⟨hothers, hlast, hholders, hwidth, -, -, -, horder⟩ := last_put_is_held b entries
  obtain ⟨-, hnarrow, -⟩ := last_put_is_held (ofBounds 100 (-100)) [(1, -100)]
  refine ⟨hsame, horder again hsame, rfl, ?_, rfl, ?_, ?_, ?_, rfl, ?_⟩
  · exact (hothers 7 rfl).1.trans (by decide +kernel)
  · exact (hlast 1 3 rfl).trans (by decide +kernel)
  · exact hwidth.trans (by decide +kernel)
  · exact (hholders 2).2 (.inr (by decide))
  · exact (hnarrow 1 (-100) rfl).trans (by decide +kernel)

end BitSliced.Index
