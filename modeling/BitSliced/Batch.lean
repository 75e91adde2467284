import BitSliced.IdSet

/-!
# Batches of identifiers

A query over many identifiers is spread over workers: the identifiers are dealt out in ascending
order to batches of equal size, and the last batch also takes the remainder. With more workers
than identifiers, one batch takes them all.

## Main definitions

* `BitSliced.Parallelism` — the degree asked for, and `BitSliced.Parallelism.degree`, the degree
  meant.
* `BitSliced.batchSizes` — the sizes of the batches.
* `BitSliced.batches` — the batches of a set of identifiers; none is empty.
-/

namespace BitSliced

/-- A degree of parallelism, asked for on a machine with some threads. -/
structure Parallelism where
  /-- The degree asked for; zero stands for every thread there is. -/
  requested : UInt64
  /-- The number of threads of the machine. -/
  threads : Nat
  deriving DecidableEq, Repr

/-- The number of workers meant by a degree of parallelism; there is at least one. -/
def Parallelism.degree (p : Parallelism) : Nat :=
  if p.requested = 0 then max p.threads 1 else p.requested.toNat

/-- The sizes of the batches of `n` identifiers for a number of workers. -/
def batchSizes (n degree : Nat) : List Nat :=
  let count := if n < degree then 1 else degree
  List.replicate (count - 1) (n / count) ++ [n / count + n % count]

/-- Deals a list out in pieces of the given sizes. -/
def deal {α : Type} : List Nat → List α → List (List α)
  | [], _ => []
  | size :: sizes, l => l.take size :: deal sizes (l.drop size)

/-- The batches of a set of identifiers. Batches of size zero are left out. -/
def batches (p : Parallelism) (s : IdSet) : List (List UInt64) :=
  deal ((batchSizes s.size p.degree).filter (0 < ·)) s.toList

theorem Parallelism.degree_pos (p : Parallelism) : 0 < p.degree := by
  unfold degree
  split
  · omega
  · next h =>
    have : p.requested.toNat ≠ 0 := fun h0 => h (UInt64.toNat_inj.1 h0)
    omega

end BitSliced
