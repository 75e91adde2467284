/-!
# Little-endian words

Numbers are written least significant byte first, in a fixed number of bytes. Byte strings are
lists of bytes.

## Main definitions

* `BitSliced.Word.encode` — the low bytes of a number.
* `BitSliced.Word.value` — the number that some bytes spell.
* `BitSliced.totalSize` — the size of several things one behind the other.

## Main results

* `BitSliced.Word.encode_value` — writing what was read gives the bytes back.
-/

namespace BitSliced

/-- The size of several things one behind the other. -/
def totalSize {α : Type} (size : α → Nat) (l : List α) : Nat :=
  l.foldr (fun a total => size a + total) 0

namespace Word

/-- The `width` low bytes of a number, least significant first. -/
def encode : Nat → Nat → List UInt8
  | 0, _ => []
  | width + 1, n => UInt8.ofNat n :: encode width (n / 256)

/-- The number that the bytes spell, least significant first. -/
def value : List UInt8 → Nat
  | [] => 0
  | b :: bs => b.toNat + 256 * value bs

@[simp]
theorem length_encode (width n : Nat) : (encode width n).length = width := by
  induction width generalizing n with
  | zero => rfl
  | succ width ih => simp [encode, ih]

/-- Bytes are the word of the number that they spell. -/
theorem encode_value (bytes : List UInt8) : encode bytes.length (value bytes) = bytes := by
  induction bytes with
  | nil => rfl
  | cons b bs ih =>
    have := b.toNat_lt
    have hlow : UInt8.ofNat (b.toNat + 256 * value bs) = b :=
      UInt8.toNat_inj.1 (by rw [UInt8.toNat_ofNat']; omega)
    have hhigh : (b.toNat + 256 * value bs) / 256 = value bs := by omega
    rw [List.length_cons, value, encode, hlow, hhigh, ih]

end Word

end BitSliced
