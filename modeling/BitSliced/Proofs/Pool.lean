import Mathlib.Tactic.ByContra
import BitSliced.Pool

/-!
# Borrowed buffers are empty

A buffer is emptied when it is handed back, and nothing is appended to it while it is not in use. So
every buffer that is borrowed is empty, whether it is new or was in use before.

## Main definitions

* `BitSliced.Pool.Clean` — the buffers that are not in use are empty.

## Main results

* `BitSliced.Pool.borrow_cases` — where a borrowed buffer comes from: the lowest shelf that is sure
  to fit, or nowhere.
* `BitSliced.Pool.Clean.bytes_borrow` — a borrowed buffer is empty.
-/

namespace BitSliced.Pool

/-- The buffers that are not in use are empty. -/
def Clean (pool : Pool) : Prop :=
  ∀ (shelf : Nat) (buffers : List Buffer), pool.shelves[shelf]? = some buffers →
    ∀ buffer ∈ buffers, buffer.bytes = []

variable {pool : Pool}

theorem clean_iff : pool.Clean ↔ ∀ c, ∀ buffer ∈ pool.shelf c, buffer.bytes = [] := by
  constructor
  · intro hclean c buffer hmem
    exact hclean c _ (getElem?_shelves_of_ne_nil (List.ne_nil_of_mem hmem)) buffer hmem
  · intro hempty c buffers hstored buffer hmem
    exact hempty c buffer (shelf_of_getElem? hstored ▸ hmem)

theorem clean_empty : (∅ : Pool).Clean := clean_iff.2 fun c buffer hmem => by simp at hmem

/-! ### Borrowing -/

theorem mem_toList_shelves {c : Nat} (hnonempty : pool.shelf c ≠ []) :
    (c, pool.shelf c) ∈ pool.shelves.toList :=
  Std.ExtTreeMap.mem_toList_iff_getElem?_eq_some.2 (getElem?_shelves_of_ne_nil hnonempty)

/-- Of the shelves that pass a test and have any buffers, the first one in ascending order is the
lowest. -/
theorem le_of_find?_shelves {p : Nat × List Buffer → Bool} {c c' : Nat} {buffers : List Buffer}
    (hfound : pool.shelves.toList.find? p = some (c, buffers)) (hnonempty : pool.shelf c' ≠ [])
    (hpasses : p (c', pool.shelf c') = true) : c ≤ c' := by
  obtain ⟨-, before, behind, hall, hfail⟩ := List.find?_eq_some_iff_append.1 hfound
  have hknown := mem_toList_shelves hnonempty
  have hordered := pool.shelves.ordered_keys_toList
  rw [hall, List.mem_append, List.mem_cons] at hknown
  rw [hall, List.pairwise_append, List.pairwise_cons] at hordered
  rcases hknown with hfirst | hsame | hlast
  · exact absurd (hfail _ hfirst) (by simp [hpasses])
  · exact Nat.le_of_eq (congrArg Prod.fst hsame).symm
  · exact Nat.le_of_lt (Std.compare_eq_lt.1 (hordered.2.1.1 _ hlast))

/-- When no shelf with buffers is found, and the test skips those without, all with buffers fail it.
-/
theorem eq_false_of_find?_shelves {p : Nat × List Buffer → Bool} {c : Nat}
    (hnone : ∀ c buffer others, pool.shelves.toList.find? p = some (c, buffer :: others) → False)
    (hskips : ∀ c, p (c, []) = false) (hnonempty : pool.shelf c ≠ []) :
    p (c, pool.shelf c) = false := by
  cases hfound : pool.shelves.toList.find? p with
  | none => exact Bool.eq_false_iff.2 (List.find?_eq_none.1 hfound _ (mem_toList_shelves hnonempty))
  | some first =>
    obtain ⟨c', _ | ⟨buffer, others⟩⟩ := first
    · exact absurd (List.find?_some hfound) (by simp [hskips])
    · exact (hnone c' buffer others hfound).elim

/-- A borrowed buffer is the first one of the lowest shelf that has any and is sure to fit, or a new
one when there is no such shelf. -/
theorem borrow_cases (a : Allocator) (pool : Pool) (size : Nat) :
    (∃ c buffer others, pool.shelf c = buffer :: others ∧ requestClass size ≤ c ∧
      (∀ c', requestClass size ≤ c' → pool.shelf c' ≠ [] → c ≤ c') ∧ pool.borrow a size =
        (buffer, { pool with shelves := pool.shelves.insert c others })) ∨
    (∀ c, requestClass size ≤ c → pool.shelf c = []) ∧
      pool.borrow a size = (⟨pool.created, a.fresh (requestClass size), []⟩,
        { pool with created := pool.created + 1 }) := by
  rw [borrow]
  split
  · next c buffer others hfound =>
    have hfits := List.find?_some hfound
    have hstored :=
      Std.ExtTreeMap.mem_toList_iff_getElem?_eq_some.1 (List.mem_of_find?_eq_some hfound)
    refine .inl ⟨c, buffer, others, shelf_of_getElem? hstored, ?_, ?_, rfl⟩
    · exact of_decide_eq_true (Bool.and_eq_true_iff.1 hfits).1
    · intro c' hfits hnonempty
      exact le_of_find?_shelves hfound hnonempty (by simp [hfits, hnonempty])
  · next hnone =>
    refine .inr ⟨fun c hfits => ?_, rfl⟩
    by_contra hnonempty
    have hfails := eq_false_of_find?_shelves hnone (fun c => by simp) hnonempty
    simp [hfits, hnonempty] at hfails

/-- Borrowing puts no buffer on a shelf. -/
theorem mem_shelf_of_borrow {a : Allocator} {size c : Nat} {buffer : Buffer}
    (h : buffer ∈ (pool.borrow a size).2.shelf c) : buffer ∈ pool.shelf c := by
  rcases borrow_cases a pool size with ⟨c', first, others, htop, -, -, htaken⟩ | ⟨-, hnew⟩
  · rw [htaken, shelf_insert] at h
    split at h
    · next hsame => exact hsame ▸ htop ▸ List.mem_cons_of_mem first h
    · exact h
  · rwa [hnew] at h

/-- Handing a buffer back puts no other buffer on a shelf. -/
theorem mem_shelf_of_handBack {buffer other : Buffer} {c : Nat}
    (h : other ∈ (pool.handBack buffer).shelf c) :
    buffer.capacity ≠ 0 ∧ c = capacityClass buffer.capacity ∧ other = { buffer with bytes := [] } ∨
      other ∈ pool.shelf c := by
  by_cases hzero : buffer.capacity = 0
  · rw [handBack_of_capacity_eq_zero pool hzero] at h
    exact .inr h
  · rw [shelf_handBack pool hzero] at h
    split at h
    · next hsame => exact (List.mem_cons.1 h).imp_left fun hfirst => ⟨hzero, hsame, hfirst⟩
    · exact .inr h

namespace Clean

/-- A borrowed buffer is empty. -/
theorem bytes_borrow (h : pool.Clean) (a : Allocator) (size : Nat) :
    (pool.borrow a size).1.bytes = [] := by
  rcases borrow_cases a pool size with ⟨c, buffer, others, htop, -, -, htaken⟩ | ⟨-, hnew⟩
  · rw [htaken]
    exact clean_iff.1 h c buffer (htop ▸ List.mem_cons_self)
  · rw [hnew]

theorem borrow (h : pool.Clean) (a : Allocator) (size : Nat) : (pool.borrow a size).2.Clean :=
  clean_iff.2 fun c buffer hmem => clean_iff.1 h c buffer (mem_shelf_of_borrow hmem)

theorem handBack (h : pool.Clean) (buffer : Buffer) : (pool.handBack buffer).Clean := by
  rw [clean_iff]
  intro c other hmem
  rcases mem_shelf_of_handBack hmem with ⟨-, -, rfl⟩ | hmem
  · rfl
  · exact clean_iff.1 h c other hmem

end Clean

end BitSliced.Pool
