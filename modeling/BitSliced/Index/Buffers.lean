import BitSliced.Index.Basic

/-!
# Indexes as buffers

An index is stored as a list of buffers: the first one has the existence bitmap, the others have the
planes from the least significant one on. An empty buffer stands for an empty bitmap.

Restoring works in place. It takes over the planes one after the other and the existence bitmap in
the end; when a buffer turns out to be malformed, what was taken over before stays.

## Main definitions

* `BitSliced.Index.toBuffers` — the buffers of an index.
* `BitSliced.Index.restoreInPlace` — replaces the content of an index by that of some buffers, up to
  the first malformed one.
* `BitSliced.Index.restore` — the index that comes out when no buffer is malformed.
-/

namespace BitSliced

/-- The bitmap in a buffer. A fault is reported for the named element. -/
def decodeBuffer (element : String) (bytes : List UInt8) : Except Error Bitmap :=
  if bytes.isEmpty then .ok ∅
  else
    match Bitmap.decode bytes with
    | .ok b => .ok b
    | .error fault => .error (.ofDecoding element fault.failure)

namespace Index

/-- The existence bitmap and the planes, each in its stored form. -/
def toBuffers (b : Index) : List (List UInt8) :=
  b.existence.encode :: b.planes.map (·.encode)

/-- Changes an index in place, until something fails. A failure leaves the index as it then is. -/
abbrev Revision := EStateM Error Index

/-- What a computation gives that changes no index. -/
def Revision.ofExcept {α : Type} : Except Error α → Revision α
  | .ok a => return a
  | .error e => throw e

/-- What errors call a plane. -/
def planeElement (i : Nat) : String := "plane " ++ toString i

/-- Replaces the planes from plane `i` on by those in some buffers, one after the other. -/
def replacePlanes (i : Nat) : List (List UInt8) → Revision Unit
  | [] => return
  | buffer :: buffers => do
    let plane ← .ofExcept (decodeBuffer (planeElement i) buffer)
    modify fun b => { b with planes := b.planes.set i plane }
    replacePlanes (i + 1) buffers

/-- Empties the planes from plane `i` on. -/
def emptyPlanes (i : Nat) : Revision Unit :=
  modify fun b => { b with planes := b.planes.take i ++ (b.planes.drop i).map fun _ => ∅ }

/-- Replaces the content of an index by that of some buffers. The index grows to as many planes
as there are buffers for, planes without a buffer are emptied, and bounds and settings stay.
Without any buffer everything is emptied. -/
def restoreInPlace (buffers : List (List UInt8)) : Revision Unit := do
  .ofExcept (Error.checkFormat (buffers.length ≤ Planes.limit + 1) "buffers"
    "buffers.len() <= MAX_PLANES + 1")
  match buffers with
  | [] =>
    modify fun b => { b with existence := ∅ }
    emptyPlanes 0
  | first :: others =>
    modify (·.grow others.length)
    replacePlanes 0 others
    emptyPlanes others.length
    let existence ← .ofExcept (decodeBuffer "existence" first)
    modify fun b => { b with existence }

/-- The index that is restored from some buffers, if none of them is malformed. -/
def restore (b : Index) (buffers : List (List UInt8)) : Except Error Index :=
  match (restoreInPlace buffers).run b with
  | .ok () restored => .ok restored
  | .error e _ => .error e

end Index

end BitSliced
