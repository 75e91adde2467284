import BitSliced.Index.Basic

/-!
# Totals

The numbers of a set of identifiers are added up without putting any of them together: each plane
contributes its share of the set, shifted to the weight of its bit.

## Main definitions

* `BitSliced.Index.contributions` — what each plane contributes.
* `BitSliced.Index.total` — their sum, and the size of the set.
-/

namespace BitSliced

/-- What planes contribute whose least significant one has the given bit: the number of
identifiers in both the plane and the set, shifted by the bit, wrapped to 64 bits. -/
def contributionsFrom (found : IdSet) : Nat → Planes → List Int64
  | _, [] => []
  | bit, p :: ps =>
    Int64.ofNat ((found ∩ p.ids).size <<< bit) :: contributionsFrom found (bit + 1) ps

namespace Index

/-- What each plane contributes to the total over a set. -/
def contributions (b : Index) (found : IdSet) : List Int64 := contributionsFrom found 0 b.planes

/-- The wrapping sum of the numbers of a set, and the size of the set. Identifiers that hold no
number are counted, with the bits that the planes have for them. -/
def total (b : Index) (found : IdSet) : Int64 × Nat :=
  ((b.contributions found).foldl (· + ·) 0, found.size)

end Index

end BitSliced
