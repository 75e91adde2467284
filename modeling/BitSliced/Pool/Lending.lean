import BitSliced.Pool

/-!
# Lending buffers

Holders borrow buffers from a pool, append bytes to them, and hand them back, in any order. A holder
has one buffer, from when it borrows it until it hands it back, and no one else has it meanwhile.
What is done is a list of calls, and a run serves them one after the other, from the pool that has
created no buffer yet. There is no result when a request is so large that its class is no word of 64
bits, or when someone who has no buffer appends to it or hands it back.

How much memory a new or a growing buffer gets is up to the allocator, which may decide differently
with every call.

## Main definitions

* `BitSliced.Pool.borrow?` — borrows a buffer when the class of the request is a word.
* `BitSliced.Lending` — a pool and the buffers that are in use.
* `BitSliced.Lending.Call`, `BitSliced.Lending.serve?`, `BitSliced.Lending.run?` — calls, and runs
  of them.
* `BitSliced.Lending.Place`, `BitSliced.Lending.serialAt?` — where buffers are.
-/

namespace BitSliced

/-- Borrows a buffer when the class of the request is a word of 64 bits. -/
def Pool.borrow? (a : Allocator) (pool : Pool) (size : Nat) : Option (Buffer × Pool) :=
  if requestClass size < UInt64.size then some (pool.borrow a size) else none

/-- A pool and the buffers that are in use. -/
structure Lending where
  /-- The buffers that are not in use. -/
  pool : Pool
  /-- The buffers in use, by the numbers of their holders. -/
  lent : Std.ExtTreeMap Nat Buffer
  /-- How many holders there were so far. -/
  holders : Nat

namespace Lending

/-- A new pool, and no one who has a buffer. -/
def start : Lending := ⟨∅, ∅, 0⟩

/-- What is done with a pool and its buffers. -/
inductive Call where
  /-- A new holder borrows a buffer for so many bytes. -/
  | borrow (a : Allocator) (size : Nat)
  /-- A holder appends bytes to its buffer. -/
  | append (a : Allocator) (holder : Nat) (bytes : List UInt8)
  /-- A holder hands its buffer back. -/
  | handBack (holder : Nat)

/-- Serves a call. -/
def serve? (use : Lending) : Call → Option Lending
  | .borrow a size => do
    let (buffer, pool) ← use.pool.borrow? a size
    return ⟨pool, use.lent.insert use.holders buffer, use.holders + 1⟩
  | .append a holder bytes => do
    let buffer ← use.lent[holder]?
    return { use with lent := use.lent.insert holder (buffer.append a bytes) }
  | .handBack holder => do
    let buffer ← use.lent[holder]?
    return { use with pool := use.pool.handBack buffer, lent := use.lent.erase holder }

/-- Serves calls one after the other, from the beginning on. -/
def run? (calls : List Call) : Option Lending := calls.foldlM serve? start

/-! ### Where buffers are -/

/-- A place where a buffer may be. -/
inductive Place where
  /-- With a holder. -/
  | holder (number : Nat)
  /-- On the shelf of a class, on top of so many others. -/
  | shelf (c height : Nat)
  deriving DecidableEq, Repr

/-- The buffer at a place. -/
def bufferAt? (use : Lending) : Place → Option Buffer
  | .holder number => use.lent[number]?
  | .shelf c height => (use.pool.shelf c).reverse[height]?

/-- The serial number of the buffer at a place. -/
def serialAt? (use : Lending) (place : Place) : Option Nat := (use.bufferAt? place).map (·.serial)

end Lending

end BitSliced
