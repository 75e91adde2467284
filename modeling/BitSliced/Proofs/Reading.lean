import BitSliced.Bytes.Reader
import Mathlib.Algebra.Ring.Nat

/-!
# Reading what was written

A word of some width keeps a number up to that width, and bytes that are one behind the other are
read one after the other. A reader is known by what it reads from the bytes that were written, and
by what can be said of everything that it reads.

## Main definitions

* `BitSliced.Reader.Reads` — what a reader reads from some bytes.
* `BitSliced.Reader.Admits` — what can be said of everything that a reader reads.

## Main results

* `BitSliced.Word.value_encode` — reading what was written gives the number back, reduced to the
  width it was written in.
* `BitSliced.Reader.reads_bytes`, `BitSliced.Reader.reads_word`,
  `BitSliced.Reader.reads_many` — what was written in front of some bytes is read back, and
  those bytes are left.
* `BitSliced.Reader.run_bytes_eq_ok`, `BitSliced.Reader.run_word_eq_ok`,
  `BitSliced.Reader.Admits.many` — and what was read stood in front of the bytes that are left.
-/

namespace BitSliced

@[simp]
theorem totalSize_nil {α : Type} (size : α → Nat) : totalSize size [] = 0 := rfl

@[simp]
theorem totalSize_cons {α : Type} (size : α → Nat) (a : α) (l : List α) :
    totalSize size (a :: l) = size a + totalSize size l := rfl

/-- A total size is a sum of sizes. -/
theorem totalSize_eq_sum {α : Type} (size : α → Nat) (l : List α) :
    totalSize size l = (l.map size).sum := by
  rw [totalSize, List.sum_eq_foldr, List.foldr_map]

namespace Word

/-- A number read back is reduced to the width it was written in. -/
theorem value_encode (width n : Nat) : value (encode width n) = n % 256 ^ width := by
  induction width generalizing n with
  | zero => simp [encode, value, Nat.mod_one]
  | succ width ih =>
    rw [encode, value, ih, Nat.pow_succ', Nat.mod_mul]
    simp

theorem value_lt (bytes : List UInt8) : value bytes < 256 ^ bytes.length := by
  induction bytes with
  | nil => exact Nat.one_pos
  | cons b bs ih =>
    have := b.toNat_lt
    rw [value, List.length_cons, Nat.pow_succ]
    omega

/-- A number that fits the width is read back as it was written. -/
theorem value_encode_of_lt {width n : Nat} (h : n < 256 ^ width) :
    value (encode width n) = n := by
  rw [value_encode, Nat.mod_eq_of_lt h]

end Word

namespace Reader

variable {ε α : Type}

/-! ### Reading what was written -/

/-- A reader *reads* a value from some bytes when it takes exactly these bytes off any input that
starts with them, and gives the value. -/
def Reads (r : Reader ε α) (front : List UInt8) (a : α) : Prop :=
  ∀ rest, r.run (front ++ rest) = .ok (a, rest)

variable {β : Type} {r : Reader ε α} {front back : List UInt8} {a : α}

theorem reads_pure (a : α) : Reads (pure a : Reader ε α) [] a := fun _ => rfl

theorem Reads.bind {next : α → Reader ε β} {b : β} (hfirst : r.Reads front a)
    (hsecond : (next a).Reads back b) : (r >>= next).Reads (front ++ back) b := by
  intro rest
  rw [StateT.run_bind, List.append_assoc, hfirst]
  exact hsecond rest

/-- What is done with the value may take no further bytes. -/
theorem Reads.andThen {next : α → Reader ε β} {b : β} (hfirst : r.Reads front a)
    (hsecond : (next a).Reads [] b) : (r >>= next).Reads front b := by
  have hboth := hfirst.bind hsecond
  rwa [List.append_nil] at hboth

/-- Bytes are read as they are. -/
theorem reads_bytes (short : ε) {n : Nat} (h : front.length = n) :
    (bytes short n).Reads front front := by
  subst h
  intro rest
  simp [bytes, StateT.run]

/-- A number that fits the width is read from its word. -/
theorem reads_word (short : ε) {width n : Nat} (h : n < 256 ^ width) :
    (word short width).Reads (Word.encode width n) n := by
  refine (reads_bytes short (Word.length_encode width n)).andThen ?_
  rw [Word.value_encode_of_lt h]
  exact reads_pure n

/-- A repetition reads what was written for some elements one behind the other. -/
theorem reads_many {item : Reader ε β} {write : α → List UInt8} {f : α → β} {l : List α}
    (h : ∀ a ∈ l, item.Reads (write a) (f a)) :
    (many item l.length).Reads (l.flatMap write) (l.map f) := by
  induction l with
  | nil => exact reads_pure []
  | cons a l ih =>
    obtain ⟨hown, hothers⟩ := List.forall_mem_cons.1 h
    rw [List.flatMap_cons]
    exact hown.bind ((ih hothers).andThen (reads_pure _))

/-- Elements of which each is read back are read back one behind the other. -/
theorem reads_back_many {item : Reader ε α} {write : α → List UInt8} {l : List α}
    (h : ∀ a ∈ l, item.Reads (write a) a) : (many item l.length).Reads (l.flatMap write) l := by
  have hitems := reads_many h
  rwa [List.map_id'] at hitems

/-! ### What was taken -/

/-- Two readers in a row read a value when the second one reads it from what the first one left. -/
theorem run_bind_eq_ok {next : α → Reader ε β} {input : List UInt8} {result : β × List UInt8} :
    (r >>= next).run input = .ok result ↔
      ∃ a after, r.run input = .ok (a, after) ∧ (next a).run after = .ok result := by
  rw [StateT.run_bind]
  cases r.run input with
  | error fault => simp [bind, Except.bind]
  | ok taken =>
    constructor
    · exact fun h => ⟨taken.1, taken.2, rfl, h⟩
    · rintro ⟨a, after, hsame, h⟩
      obtain rfl := Except.ok.inj hsame
      exact h

/-- What is returned is what comes out, and nothing is taken. -/
theorem run_pure_eq_ok {input : List UInt8} {result : α × List UInt8} :
    (pure a : Reader ε α).run input = .ok result ↔ result = (a, input) :=
  ⟨fun h => (Except.ok.inj h).symm, fun h => h ▸ rfl⟩

/-- The bytes that are read are the front of the input. -/
theorem run_bytes_eq_ok {short : ε} {n : Nat} {input after : List UInt8} :
    (bytes short n).run input = .ok (front, after) ↔ front.length = n ∧ input = front ++ after := by
  constructor
  · intro h
    rw [StateT.run, bytes] at h
    split at h
    · next henough =>
      obtain ⟨rfl, rfl⟩ := Prod.mk.inj (Except.ok.inj h)
      exact ⟨henough, (List.take_append_drop n input).symm⟩
    · cases h
  · rintro ⟨henough, rfl⟩
    exact reads_bytes short henough after

/-- The word that is read stands in front of the input. -/
theorem run_word_eq_ok {short : ε} {width n : Nat} {input after : List UInt8} :
    (word short width).run input = .ok (n, after) ↔
      n < 256 ^ width ∧ input = Word.encode width n ++ after := by
  constructor
  · intro h
    obtain ⟨front, _, htaken, h⟩ := run_bind_eq_ok.1 h
    obtain ⟨rfl, rfl⟩ := Prod.mk.inj (run_pure_eq_ok.1 h)
    obtain ⟨rfl, rfl⟩ := run_bytes_eq_ok.1 htaken
    rw [Word.encode_value]
    exact ⟨Word.value_lt front, rfl⟩
  · rintro ⟨hfits, rfl⟩
    exact reads_word short hfits after

/-- A reader *admits* values of some kind and size when every value that it reads is of this kind,
and takes up no less than its size. -/
def Admits (r : Reader ε α) (kind : α → Prop) (size : α → Nat) : Prop :=
  ∀ ⦃input a after⦄, r.run input = .ok (a, after) → kind a ∧ size a + after.length ≤ input.length

/-- A word of some bytes takes these bytes up. -/
theorem admits_word (short : ε) (width : Nat) :
    (word short width).Admits (· < 256 ^ width) fun _ => width := by
  intro input n after h
  obtain ⟨hfits, rfl⟩ := run_word_eq_ok.1 h
  rw [List.length_append, Word.length_encode]
  exact ⟨hfits, Nat.le_refl _⟩

/-- A repetition reads as many values as it counts, each of them of the kind that is read once. -/
theorem Admits.many {item : Reader ε α} {kind : α → Prop} {size : α → Nat}
    (h : item.Admits kind size) (n : Nat) :
    (many item n).Admits (fun l => l.length = n ∧ ∀ a ∈ l, kind a) fun l => (l.map size).sum := by
  induction n with
  | zero =>
    intro input l after htaken
    obtain ⟨rfl, rfl⟩ := Prod.mk.inj (run_pure_eq_ok.1 htaken)
    simp
  | succ n ih =>
    intro input l after htaken
    obtain ⟨first, behind, hown, htaken⟩ := run_bind_eq_ok.1 htaken
    obtain ⟨rest, _, hothers, htaken⟩ := run_bind_eq_ok.1 htaken
    obtain ⟨rfl, rfl⟩ := Prod.mk.inj (run_pure_eq_ok.1 htaken)
    obtain ⟨hkindOwn, hsizeOwn⟩ := h hown
    obtain ⟨⟨hcount, hkindOthers⟩, hsizeOthers⟩ := ih hothers
    refine ⟨⟨congrArg Nat.succ hcount, List.forall_mem_cons.2 ⟨hkindOwn, hkindOthers⟩⟩, ?_⟩
    dsimp only at hsizeOthers ⊢
    rw [List.map_cons, List.sum_cons]
    omega

/-- Values of one size take up this size each. -/
theorem Admits.many_const {item : Reader ε α} {kind : α → Prop} {size : Nat}
    (h : item.Admits kind fun _ => size) (n : Nat) :
    (Reader.many item n).Admits (fun l => l.length = n ∧ ∀ a ∈ l, kind a) fun _ => size * n := by
  intro input l after htaken
  obtain ⟨⟨hcount, hkinds⟩, htotal⟩ := h.many n htaken
  refine ⟨⟨hcount, hkinds⟩, ?_⟩
  dsimp only at htotal
  rwa [List.map_const', List.sum_replicate_nat, hcount, Nat.mul_comm] at htotal

end Reader

end BitSliced
