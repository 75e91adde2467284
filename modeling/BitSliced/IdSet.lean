import BitSliced.Bytes.Word
import Std.Data.ExtTreeSet.Lemmas

/-!
# Sets of identifiers

Identifiers are 64-bit words. A set of them is an ordered set of words; two sets with the same
members are equal, so every law about sets can be read off membership.

## Main definitions

* `BitSliced.IdSet` — sets of identifiers, with `∪`, `∩`, `\`, `insert`, `erase` and `toList`
  from the library of ordered sets.
* `BitSliced.IdSet.symmDiff` — the identifiers in exactly one of two sets.
* `BitSliced.IdSet.unions` — the identifiers in any of some sets.
-/

namespace BitSliced

/-- A finite set of 64-bit identifiers. -/
abbrev IdSet := Std.ExtTreeSet UInt64

namespace IdSet

/-- The set with the given members. -/
def ofList (ids : List UInt64) : IdSet := Std.ExtTreeSet.ofList ids

/-- The identifiers that are in exactly one of the two sets. -/
def symmDiff (s t : IdSet) : IdSet := (s \ t) ∪ (t \ s)

/-- The identifiers that are in any of the sets. -/
def unions (sets : List IdSet) : IdSet := sets.foldl (· ∪ ·) ∅

@[simp]
theorem mem_ofList {ids : List UInt64} {id : UInt64} : id ∈ ofList ids ↔ id ∈ ids := by
  simp [ofList, Std.ExtTreeSet.mem_ofList]

@[simp]
theorem mem_symmDiff {s t : IdSet} {id : UInt64} :
    id ∈ s.symmDiff t ↔ (id ∈ s ∧ id ∉ t) ∨ (id ∈ t ∧ id ∉ s) := by
  simp [symmDiff, Std.ExtTreeSet.mem_union_iff, Std.ExtTreeSet.mem_diff_iff]

@[simp]
theorem contains_symmDiff {s t : IdSet} {id : UInt64} :
    (s.symmDiff t).contains id = (s.contains id ^^ t.contains id) := by
  rw [symmDiff, Std.ExtTreeSet.contains_union, Std.ExtTreeSet.contains_diff,
    Std.ExtTreeSet.contains_diff]
  cases s.contains id <;> cases t.contains id <;> rfl

theorem mem_foldl_union {sets : List IdSet} {s : IdSet} {id : UInt64} :
    id ∈ sets.foldl (· ∪ ·) s ↔ id ∈ s ∨ ∃ t ∈ sets, id ∈ t := by
  induction sets generalizing s with
  | nil => simp
  | cons t sets ih =>
    rw [List.foldl_cons, ih, Std.ExtTreeSet.mem_union_iff, or_assoc]
    simp

@[simp]
theorem mem_unions {sets : List IdSet} {id : UInt64} : id ∈ unions sets ↔ ∃ t ∈ sets, id ∈ t := by
  simp [unions, mem_foldl_union]

theorem mem_unions_map {α : Type} {f : α → IdSet} {l : List α} {id : UInt64} :
    id ∈ unions (l.map f) ↔ ∃ x ∈ l, id ∈ f x := by
  rw [mem_unions]
  constructor
  · rintro ⟨t, ht, hid⟩
    obtain ⟨x, hx, rfl⟩ := List.mem_map.1 ht
    exact ⟨x, hx, hid⟩
  · rintro ⟨x, hx, hid⟩
    exact ⟨f x, List.mem_map_of_mem hx, hid⟩

/-- A set that says it is empty has no members. -/
theorem contains_of_isEmpty {s : IdSet} (h : s.isEmpty = true) (id : UInt64) :
    s.contains id = false := by
  rw [Std.ExtTreeSet.isEmpty_iff.1 h]
  exact Std.ExtTreeSet.contains_empty

/-- A set that does not say it is empty has a member. -/
theorem exists_contains_of_not_isEmpty {s : IdSet} (h : ¬ s.isEmpty = true) :
    ∃ id, s.contains id = true := by
  rw [Std.ExtTreeSet.isEmpty_iff, Std.ExtTreeSet.eq_empty_iff_forall_contains] at h
  simpa using h

/-- Sets with the same members are equal. -/
theorem ext {s t : IdSet} (h : ∀ id, id ∈ s ↔ id ∈ t) : s = t :=
  Std.ExtTreeSet.ext_mem h

/-- A filtered set holds the members that pass the test. -/
@[simp]
theorem mem_filter {s : IdSet} {p : UInt64 → Bool} {id : UInt64} :
    id ∈ s.filter p ↔ id ∈ s ∧ p id = true := by
  simp [Std.ExtTreeSet.mem_filter]

end IdSet

end BitSliced
