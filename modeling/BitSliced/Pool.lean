import Std.Data.ExtTreeMap.Lemmas
import BitSliced.Planes.Basic

/-!
# A pool of byte buffers

While an index is written or read, the bytes of each bitmap pass through a buffer. Buffers are
borrowed from a pool and handed back to it, so that a later bitmap can use the memory of an earlier
one. The pool shelves buffers by class, the greatest power of two that their capacity reaches; a
request is served from the lowest shelf that is sure to fit it.

## Main definitions

* `BitSliced.Allocator` — how much memory new and growing buffers get, with the laws it keeps.
* `BitSliced.Buffer` — a buffer, told apart from others by its serial number.
* `BitSliced.Pool`, with `BitSliced.Pool.borrow` and `BitSliced.Pool.handBack`.
* `BitSliced.Pool.shelf` — the buffers of a class.
-/

namespace BitSliced

/-- How much memory buffers get. -/
structure Allocator where
  /-- The capacity of a new buffer that is asked for with some capacity. -/
  fresh : Nat → Nat
  /-- The capacity of a buffer of some capacity once it has to hold some number of bytes. -/
  grown : Nat → Nat → Nat
  /-- A new buffer has the capacity asked for. -/
  le_fresh (n : Nat) : n ≤ fresh n
  /-- Growing never takes capacity away. -/
  le_grown (capacity n : Nat) : capacity ≤ grown capacity n
  /-- A buffer holds what it had to grow for. -/
  holds_grown (capacity n : Nat) : n ≤ grown capacity n

/-- Gives what is asked for, and at least doubles a buffer that grows. -/
def Allocator.doubling : Allocator where
  fresh n := n
  grown capacity n := if n ≤ capacity then capacity else max (2 * capacity) n
  le_fresh n := Nat.le_refl n
  le_grown capacity n := by split <;> omega
  holds_grown capacity n := by split <;> omega

/-- A byte buffer. -/
structure Buffer where
  /-- The number that tells the buffer apart from every other. -/
  serial : Nat
  /-- How many bytes the buffer can hold without growing. -/
  capacity : Nat
  /-- The bytes in the buffer. -/
  bytes : List UInt8
  deriving DecidableEq, Repr

/-- Appends bytes to a buffer, which grows as needed. -/
def Buffer.append (a : Allocator) (buffer : Buffer) (more : List UInt8) : Buffer :=
  let bytes := buffer.bytes ++ more
  { buffer with bytes, capacity := a.grown buffer.capacity bytes.length }

/-- Buffers that are not in use. -/
structure Pool where
  /-- The buffers of each class; the one handed back last comes first. -/
  shelves : Std.ExtTreeMap Nat (List Buffer)
  /-- How many buffers were created so far. -/
  created : Nat

namespace Pool

/-- The pool that has created no buffer. -/
def empty : Pool := ⟨∅, 0⟩

instance : EmptyCollection Pool := ⟨empty⟩

/-- The buffers of a class; the one handed back last comes first. -/
def shelf (pool : Pool) (c : Nat) : List Buffer := pool.shelves.getD c []

/-- The least class that is given out. -/
def minClass : Nat := 64

/-- The least class whose buffers hold `size` bytes: the least power of two that is not below the
size and not below the least class. -/
def requestClass (size : Nat) : Nat := 1 <<< bitLength (max size minClass - 1)

/-- The class of a buffer: the greatest power of two that its capacity reaches. -/
def capacityClass (capacity : Nat) : Nat := 1 <<< capacity.log2

/-- Borrows a buffer for `size` bytes: from the lowest shelf that is not empty and not below the
class of the request, and a new one when there is no such shelf. -/
def borrow (a : Allocator) (pool : Pool) (size : Nat) : Buffer × Pool :=
  let request := requestClass size
  match pool.shelves.toList.find? fun (shelf, buffers) => request ≤ shelf && !buffers.isEmpty with
  | some (shelf, buffer :: others) =>
    (buffer, { pool with shelves := pool.shelves.insert shelf others })
  | _ =>
    (⟨pool.created, a.fresh request, []⟩, { pool with created := pool.created + 1 })

/-- Hands a buffer back, emptied. A buffer without capacity is not kept. -/
def handBack (pool : Pool) (buffer : Buffer) : Pool :=
  if buffer.capacity = 0 then pool
  else
    let shelf := capacityClass buffer.capacity
    { pool with
      shelves := pool.shelves.alter shelf fun others =>
        some ({ buffer with bytes := [] } :: others.getD []) }

/-! ### Shelves -/

theorem shelf_eq (pool : Pool) (c : Nat) : pool.shelf c = (pool.shelves[c]?).getD [] :=
  Std.ExtTreeMap.getD_eq_getD_getElem?

@[simp]
theorem shelf_empty (c : Nat) : (∅ : Pool).shelf c = [] := by
  rw [shelf_eq, show (∅ : Pool).shelves = ∅ from rfl, Std.ExtTreeMap.getElem?_empty]
  rfl

theorem shelf_of_getElem? {pool : Pool} {c : Nat} {buffers : List Buffer}
    (h : pool.shelves[c]? = some buffers) : pool.shelf c = buffers := by
  rw [shelf_eq, h]
  rfl

/-- A shelf with buffers is one that the pool has. -/
theorem getElem?_shelves_of_ne_nil {pool : Pool} {c : Nat} (h : pool.shelf c ≠ []) :
    pool.shelves[c]? = some (pool.shelf c) := by
  cases hknown : pool.shelves[c]? with
  | none =>
    rw [shelf_eq, hknown] at h
    exact absurd rfl h
  | some buffers => rw [shelf_of_getElem? hknown]

theorem shelf_insert (pool : Pool) (c : Nat) (buffers : List Buffer) (created c' : Nat) :
    (mk (pool.shelves.insert c buffers) created).shelf c' =
      if c' = c then buffers else pool.shelf c' := by
  rw [shelf_eq, shelf_eq, Std.ExtTreeMap.getElem?_insert]
  by_cases hsame : c' = c
  · simp [hsame]
  · simp [hsame, Ne.symm hsame]

theorem handBack_of_capacity_eq_zero (pool : Pool) {buffer : Buffer} (h : buffer.capacity = 0) :
    pool.handBack buffer = pool :=
  if_pos h

@[simp]
theorem created_handBack (pool : Pool) (buffer : Buffer) :
    (pool.handBack buffer).created = pool.created := by
  rw [handBack]
  split <;> rfl

/-- A buffer that is handed back comes first on the shelf of its class, and is empty there. -/
theorem shelf_handBack (pool : Pool) {buffer : Buffer} (h : buffer.capacity ≠ 0) (c : Nat) :
    (pool.handBack buffer).shelf c = if c = capacityClass buffer.capacity
      then { buffer with bytes := [] } :: pool.shelf c else pool.shelf c := by
  rw [handBack, if_neg h, shelf_eq, shelf_eq, Std.ExtTreeMap.getElem?_alter]
  by_cases hsame : c = capacityClass buffer.capacity
  · simp [hsame]
  · simp [hsame, Ne.symm hsame]

end Pool

end BitSliced
