import Mathlib.Order.Bounds.Defs
import BitSliced.Proofs.Planes.Numbers
import BitSliced.Proofs.Pool

/-!
# Classes of buffers

The size of a request is rounded up to a power of two, and the capacity of a buffer is rounded down
to one. Each way of rounding is the best one there is, so that the two of them fit together: a
buffer whose class is not below the class of a request has room for it.

A pool is *in order* when the buffers on its shelves are empty and reach the classes of the shelves,
and when these classes are powers of two that are large enough. Borrowing keeps a pool in order, and
so does handing back a buffer that is not too small.

## Main definitions

* `BitSliced.Pool.InOrder` — buffers are on the shelves where they belong.

## Main results

* `BitSliced.Pool.isLeast_requestClass`, `BitSliced.Pool.isGreatest_capacityClass` — what the two
  classes are.
* `BitSliced.Pool.requestClass_lt_iff` — which requests have a class that is a word of 64 bits.
* `BitSliced.Pool.capacityClass_eq_shiftLeft` — the class of a capacity, worked out in words.
* `BitSliced.Pool.InOrder.borrow_fits` — a borrowed buffer is empty and has room for the request.
-/

namespace BitSliced.Pool

theorem requestClass_eq (size : Nat) : requestClass size = 2 ^ bitLength (max size minClass - 1) :=
  Nat.one_shiftLeft _

theorem capacityClass_eq (capacity : Nat) : capacityClass capacity = 2 ^ capacity.log2 :=
  Nat.one_shiftLeft _

/-- The class of a request is the least power of two that is not below the size and not below the
least class. -/
theorem isLeast_requestClass (size : Nat) :
    IsLeast {c | (∃ k, c = 2 ^ k) ∧ max size minClass ≤ c} (requestClass size) := by
  have hpos : 0 < max size minClass := Nat.lt_of_lt_of_le (by decide) (Nat.le_max_right ..)
  constructor
  · have hreached := bitLength_le_iff.1 (Nat.le_refl (bitLength (max size minClass - 1)))
    refine ⟨⟨_, requestClass_eq size⟩, ?_⟩
    rw [requestClass_eq]
    omega
  · rintro c ⟨⟨k, rfl⟩, hfits⟩
    rw [requestClass_eq]
    exact Nat.pow_le_pow_right (by decide) (bitLength_le_iff.2 (by omega))

/-- The class of a capacity is the greatest power of two that it reaches. -/
theorem isGreatest_capacityClass {capacity : Nat} (h : capacity ≠ 0) :
    IsGreatest {c | (∃ k, c = 2 ^ k) ∧ c ≤ capacity} (capacityClass capacity) := by
  rw [capacityClass_eq]
  constructor
  · exact ⟨⟨_, rfl⟩, Nat.log2_self_le h⟩
  · rintro c ⟨⟨k, rfl⟩, hreached⟩
    exact Nat.pow_le_pow_right (by decide) ((Nat.le_log2 h).2 hreached)

theorem size_le_requestClass (size : Nat) : size ≤ requestClass size :=
  Nat.le_trans (Nat.le_max_left ..) (isLeast_requestClass size).1.2

theorem minClass_le_requestClass (size : Nat) : minClass ≤ requestClass size :=
  Nat.le_trans (Nat.le_max_right ..) (isLeast_requestClass size).1.2

theorem capacityClass_le {capacity : Nat} (h : capacity ≠ 0) : capacityClass capacity ≤ capacity :=
  (isGreatest_capacityClass h).1.2

theorem minClass_le_capacityClass {capacity : Nat} (h : minClass ≤ capacity) :
    minClass ≤ capacityClass capacity := by
  have hpos : capacity ≠ 0 := Nat.ne_of_gt (Nat.lt_of_lt_of_le (by decide) h)
  exact (isGreatest_capacityClass hpos).2 ⟨⟨6, rfl⟩, h⟩

/-- The class of a request is a word of 64 bits exactly when the request is for at most `2 ^ 63`
bytes. -/
theorem requestClass_lt_iff {size : Nat} : requestClass size < 2 ^ 64 ↔ size ≤ 2 ^ 63 := by
  constructor
  · intro hword
    obtain ⟨k, hpower⟩ := (isLeast_requestClass size).1.1
    rw [hpower] at hword
    have hbelow : k ≤ 63 := Nat.le_of_lt_succ ((Nat.pow_lt_pow_iff_right (by decide)).1 hword)
    calc size ≤ requestClass size := size_le_requestClass size
      _ = 2 ^ k := hpower
      _ ≤ 2 ^ 63 := Nat.pow_le_pow_right (by decide) hbelow
  · intro hfits
    have hbound : max size minClass ≤ 2 ^ 63 := Nat.max_le.2 ⟨hfits, by decide⟩
    exact Nat.lt_of_le_of_lt ((isLeast_requestClass size).2 ⟨⟨63, rfl⟩, hbound⟩) (by decide)

/-- In words of 64 bits, the class of a capacity is a one that is shifted to where the leading zeros
of the capacity end. -/
theorem capacityClass_eq_shiftLeft {capacity : BitVec 64} (h : capacity ≠ 0#64) :
    capacityClass capacity.toNat = (1#64 <<< (63 - capacity.clz.toNat)).toNat := by
  have hpos : capacity.toNat ≠ 0 := fun hzero => h (BitVec.eq_of_toNat_eq hzero)
  have hlower : 63 - capacity.clz.toNat ≤ capacity.toNat.log2 :=
    (Nat.le_log2 hpos).2 (BitVec.two_pow_sub_clz_le_toNat_of_ne_zero (by decide) h)
  have hupper : capacity.toNat.log2 < 64 - capacity.clz.toNat :=
    (Nat.log2_lt hpos).2 BitVec.toNat_lt_two_pow_sub_clz
  have hlog : capacity.toNat.log2 = 63 - capacity.clz.toNat := by omega
  have hword : 2 ^ (63 - capacity.clz.toNat) < 2 ^ 64 :=
    Nat.pow_lt_pow_right (by decide) (by omega)
  rw [capacityClass_eq, hlog, BitVec.toNat_shiftLeft, BitVec.toNat_ofNat, Nat.shiftLeft_eq,
    Nat.mod_eq_of_lt (show 1 < 2 ^ 64 by decide), Nat.one_mul, Nat.mod_eq_of_lt hword]

/-! ### Pools in order -/

/-- The buffers that are not in use are empty, all of those of a class reach it, and the classes are
powers of two not below the least class. -/
structure InOrder (pool : Pool) : Prop where
  clean : pool.Clean
  reached : ∀ c, ∀ buffer ∈ pool.shelf c, c ≤ buffer.capacity
  classes : ∀ c ∈ pool.shelves, minClass ≤ c ∧ ∃ k, c = 2 ^ k

theorem inOrder_empty : (∅ : Pool).InOrder where
  clean := clean_empty
  reached c buffer hmem := by simp at hmem
  classes c hmem := absurd hmem Std.ExtTreeMap.not_mem_empty

variable {pool : Pool}

/-- Borrowing adds no class. -/
theorem mem_shelves_of_borrow {a : Allocator} {size c : Nat}
    (h : c ∈ (pool.borrow a size).2.shelves) : c ∈ pool.shelves := by
  rcases borrow_cases a pool size with ⟨c', buffer, others, htop, -, -, htaken⟩ | ⟨-, hnew⟩
  · rw [htaken, Std.ExtTreeMap.mem_insert, Std.compare_eq_iff_eq] at h
    rcases h with rfl | h
    · rw [Std.ExtTreeMap.mem_iff_isSome_getElem?, getElem?_shelves_of_ne_nil (by simp [htop]),
        Option.isSome_some]
    · exact h
  · rwa [hnew] at h

/-- Handing a buffer back adds at most the class of its capacity. -/
theorem mem_shelves_of_handBack {buffer : Buffer} {c : Nat}
    (h : c ∈ (pool.handBack buffer).shelves) :
    c = capacityClass buffer.capacity ∨ c ∈ pool.shelves := by
  rw [handBack] at h
  split at h
  · exact .inr h
  · by_cases hsame : c = capacityClass buffer.capacity
    · exact .inl hsame
    · refine .inr ((Std.ExtTreeMap.mem_alter_of_not_compare_eq ?_).1 h)
      rwa [Std.compare_eq_iff_eq, eq_comm]

namespace InOrder

/-- A borrowed buffer is empty, and its capacity is not below the class of the request. -/
theorem borrow_fits (h : pool.InOrder) (a : Allocator) (size : Nat) :
    (pool.borrow a size).1.bytes = [] ∧
      requestClass size ≤ (pool.borrow a size).1.capacity := by
  refine ⟨h.clean.bytes_borrow a size, ?_⟩
  rcases borrow_cases a pool size with ⟨c, buffer, others, htop, hfits, -, htaken⟩ | ⟨-, hnew⟩
  · rw [htaken]
    exact Nat.le_trans hfits (h.reached c buffer (htop ▸ List.mem_cons_self))
  · rw [hnew]
    exact a.le_fresh _

theorem borrow (h : pool.InOrder) (a : Allocator) (size : Nat) :
    (pool.borrow a size).2.InOrder where
  clean := h.clean.borrow a size
  reached c buffer hmem := h.reached c buffer (mem_shelf_of_borrow hmem)
  classes c hmem := h.classes c (mem_shelves_of_borrow hmem)

theorem handBack (h : pool.InOrder) {buffer : Buffer} (hlarge : minClass ≤ buffer.capacity) :
    (pool.handBack buffer).InOrder where
  clean := h.clean.handBack buffer
  reached c other hmem := by
    rcases mem_shelf_of_handBack hmem with ⟨hpos, rfl, rfl⟩ | hmem
    · exact capacityClass_le hpos
    · exact h.reached c other hmem
  classes c hmem := by
    rcases mem_shelves_of_handBack hmem with rfl | hmem
    · exact ⟨minClass_le_capacityClass hlarge, _, capacityClass_eq _⟩
    · exact h.classes c hmem

end InOrder

end BitSliced.Pool
