/-!
# Runs of consecutive numbers

An ascending list of numbers falls into maximal runs of consecutive ones. Sets are shown as their
runs, and a chunk of a bitmap may be written as its runs.

## Main definitions

* `BitSliced.Run` — the numbers from `first` to `last`, both included.
* `BitSliced.Run.members` — those numbers in ascending order.
* `BitSliced.Run.ofAscending` — the maximal runs of an ascending list.

## Main results

* `BitSliced.Run.flatMap_members_ofAscending` — the members of the runs are the list again.
-/

namespace BitSliced

/-- The consecutive numbers from `first` to `last`, both included. -/
structure Run where
  /-- The least number of the run. -/
  first : Nat
  /-- The greatest number of the run. -/
  last : Nat
  deriving DecidableEq, Repr

namespace Run

/-- The numbers of a run in ascending order. -/
def members (r : Run) : List Nat :=
  List.range' r.first (r.last + 1 - r.first)

/-- A number in front of some runs joins the first of them when it is next to it, and is a run of
its own otherwise. -/
def prepend (n : Nat) : List Run → List Run
  | [] => [⟨n, n⟩]
  | r :: rs => if r.first = n + 1 then ⟨n, r.last⟩ :: rs else ⟨n, n⟩ :: r :: rs

/-- The maximal runs of an ascending list, in ascending order. -/
def ofAscending (ns : List Nat) : List Run :=
  ns.foldr prepend []

@[simp]
theorem ofAscending_nil : ofAscending [] = [] := rfl

@[simp]
theorem ofAscending_cons (n : Nat) (ns : List Nat) :
    ofAscending (n :: ns) = prepend n (ofAscending ns) := rfl

/-- No run is empty. -/
theorem first_le_last_of_mem {ns : List Nat} {r : Run} (h : r ∈ ofAscending ns) :
    r.first ≤ r.last := by
  induction ns generalizing r with
  | nil => simp at h
  | cons n ns ih =>
    rw [ofAscending_cons] at h
    cases hs : ofAscending ns with
    | nil =>
      rw [hs, prepend, List.mem_singleton] at h
      simp [h]
    | cons s rest =>
      have hbelow {t : Run} (ht : t ∈ s :: rest) : t.first ≤ t.last := ih (hs ▸ ht)
      rw [hs, prepend] at h
      split at h
      · next hnext =>
        rcases List.mem_cons.1 h with rfl | h
        · have := hbelow List.mem_cons_self
          simp only
          omega
        · exact hbelow (List.mem_cons_of_mem s h)
      · rcases List.mem_cons.1 h with rfl | h
        · exact Nat.le_refl n
        · exact hbelow h

/-- The members of the runs, in order, are the list again. -/
theorem flatMap_members_ofAscending (ns : List Nat) :
    (ofAscending ns).flatMap members = ns := by
  induction ns with
  | nil => rfl
  | cons n ns ih =>
    rw [ofAscending_cons]
    cases hs : ofAscending ns with
    | nil =>
      rw [hs] at ih
      rw [← ih]
      simp [prepend, members]
    | cons s rest =>
      have hbound : s.first ≤ s.last := first_le_last_of_mem (hs ▸ List.mem_cons_self)
      rw [hs, List.flatMap_cons] at ih
      rw [prepend]
      split
      · next hnext =>
        rw [List.flatMap_cons, ← ih, members, members, hnext,
          show s.last + 1 - n = (s.last + 1 - (n + 1)) + 1 by omega, List.range'_succ]
        rfl
      · rw [List.flatMap_cons, List.flatMap_cons, ih]
        simp [members]

end Run

end BitSliced
