import BitSliced.Bitmap.Layout

/-!
# Bitmaps

A bitmap is a set of identifiers that can be stored: its members, together with a layout that fits
them. Changes go partition by partition. A union has the partitions of both bitmaps. Taking members
out, and flipping them, drops every partition that both bitmaps have and that is left without
members, whether it was hollow before or not, and keeps the hollow partitions of one bitmap that the
other one does not have. An intersection keeps no hollow partition. A chunk that is stored as runs
stays so as long as it has members; an intersection asks both bitmaps for that.

## Main definitions

* `BitSliced.Bitmap`, and `BitSliced.Bitmap.fitted`, which keeps as much of a layout as fits.
* `BitSliced.Bitmap.partitions` — the partitions that the stored form of a bitmap has.
* `BitSliced.Bitmap.insert`, `BitSliced.Bitmap.erase`, `BitSliced.Bitmap.union`,
  `BitSliced.Bitmap.inter`, `BitSliced.Bitmap.diff`, `BitSliced.Bitmap.symmDiff`.

## Main results

* `BitSliced.Bitmap.beq_iff`, `BitSliced.Bitmap.beq_iff_hollow` — when bitmaps are equal.
* `BitSliced.Bitmap.mem_hollow_diff` and its siblings — what a change makes of hollow partitions.

Two bitmaps are equal as bitmaps, written `==`, when they have the same members and the same
partitions; chunks compare by content, whether stored as runs or not.
-/

namespace BitSliced

/-- A set of identifiers together with the layout of its stored form. -/
structure Bitmap extends Layout where
  /-- The members. -/
  ids : IdSet
  /-- The layout is one of these members. -/
  fits : toLayout.Fits ids

namespace Bitmap

/-- The bitmap with the given members and a plain layout. -/
def ofIds (ids : IdSet) : Bitmap := ⟨.plain, ids, Layout.fits_plain ids⟩

/-- The bitmap with the given members and as much of a layout as fits them. -/
def fitted (ids : IdSet) (l : Layout) : Bitmap := ⟨l.fit ids, ids, l.fits_fit ids⟩

instance : EmptyCollection Bitmap := ⟨ofIds ∅⟩

instance : Inhabited Bitmap := ⟨∅⟩

/-- Whether an identifier is a member. -/
def contains (b : Bitmap) (id : UInt64) : Bool := b.ids.contains id

/-- Whether there is no member. -/
def isEmpty (b : Bitmap) : Bool := b.ids.isEmpty

instance : Membership UInt64 Bitmap := ⟨fun b id => id ∈ b.ids⟩

/-- Membership in a bitmap can be decided. -/
instance (b : Bitmap) (id : UInt64) : Decidable (id ∈ b) :=
  inferInstanceAs (Decidable (id ∈ b.ids))

/-- The partitions of the stored form: those that hold members and the hollow ones. -/
def partitions (b : Bitmap) : Std.ExtTreeSet UInt32 := partsOf partitionOf b.ids ∪ b.hollow

/-- The partitions among some that a bitmap does not have. -/
def missing (b : Bitmap) (keys : Std.ExtTreeSet UInt32) : Std.ExtTreeSet UInt32 :=
  vacant partitionOf b.ids (keys \ b.hollow)

/-- Adds a member. -/
def insert (b : Bitmap) (id : UInt64) : Bitmap where
  ids := b.ids.insert id
  hollow := b.hollow.erase (partitionOf id)
  runs := b.runs
  fits.vacant key h other hmember := by
    rw [Std.ExtTreeSet.mem_erase] at h
    rcases Std.ExtTreeSet.mem_insert.1 hmember with hsame | hmember
    · rw [← Std.compare_eq_iff_eq.1 hsame]
      exact fun hsame => h.1 (Std.compare_eq_iff_eq.2 hsame)
    · exact b.fits.vacant key h.2 other hmember
  fits.held chunk h := by
    obtain ⟨other, hmember, hsame⟩ := b.fits.held chunk h
    exact ⟨other, Std.ExtTreeSet.mem_insert.2 (.inr hmember), hsame⟩

/-- Takes a member out. -/
def erase (b : Bitmap) (id : UInt64) : Bitmap := fitted (b.ids.erase id) b.toLayout

/-- Adds every member of another bitmap, and its partitions. -/
def union (b c : Bitmap) : Bitmap :=
  fitted (b.ids ∪ c.ids) ⟨b.hollow ∪ c.hollow, b.runs ∪ vacant chunkOf b.ids c.runs⟩

/-- Keeps the members of another bitmap, and no partition without any. A chunk is stored as runs
when it is so in both. -/
def inter (b c : Bitmap) : Bitmap := fitted (b.ids ∩ c.ids) ⟨∅, b.runs ∩ c.runs⟩

/-- Takes every member of another bitmap out. -/
def diff (b c : Bitmap) : Bitmap := fitted (b.ids \ c.ids) ⟨c.missing b.hollow, b.runs⟩

/-- Takes the members of another bitmap out and adds those that were no members. -/
def symmDiff (b c : Bitmap) : Bitmap :=
  fitted (b.ids.symmDiff c.ids)
    ⟨c.missing b.hollow ∪ b.missing c.hollow, b.runs ∪ vacant chunkOf b.ids c.runs⟩

/-- Bitmaps are equal when they have the same members and the same partitions. -/
instance : BEq Bitmap := ⟨fun b c => b.ids == c.ids && b.partitions == c.partitions⟩

variable {b c d : Bitmap} {id : UInt64} {key : UInt32}

/-! ### Membership -/

theorem mem_iff : id ∈ b ↔ id ∈ b.ids := Iff.rfl

theorem contains_iff : b.contains id = true ↔ id ∈ b := Iff.rfl

@[simp]
theorem contains_ofIds (s : IdSet) (id : UInt64) : (ofIds s).contains id = s.contains id := rfl

@[simp]
theorem mem_ofIds {s : IdSet} : id ∈ ofIds s ↔ id ∈ s := Iff.rfl

@[simp]
theorem contains_empty (id : UInt64) : (∅ : Bitmap).contains id = false := rfl

@[simp]
theorem contains_insert_self (b : Bitmap) (id : UInt64) : (b.insert id).contains id = true :=
  Std.ExtTreeSet.contains_insert_self

/-- Adding a member says nothing about other identifiers. -/
theorem contains_insert_of_ne (b : Bitmap) {id new : UInt64} (h : id ≠ new) :
    (b.insert new).contains id = b.contains id := by
  show (b.ids.insert new).contains id = b.ids.contains id
  simp [Std.ExtTreeSet.contains_insert, Ne.symm h]

@[simp]
theorem contains_erase_self (b : Bitmap) (id : UInt64) : (b.erase id).contains id = false := by
  show (b.ids.erase id).contains id = false
  simp [Std.ExtTreeSet.contains_erase]

/-- Taking a member out says nothing about other identifiers. -/
theorem contains_erase_of_ne (b : Bitmap) {id old : UInt64} (h : id ≠ old) :
    (b.erase old).contains id = b.contains id := by
  show (b.ids.erase old).contains id = b.ids.contains id
  simp [Std.ExtTreeSet.contains_erase, Ne.symm h]

@[simp]
theorem contains_union (b c : Bitmap) (id : UInt64) :
    (b.union c).contains id = (b.contains id || c.contains id) := Std.ExtTreeSet.contains_union

@[simp]
theorem contains_inter (b c : Bitmap) (id : UInt64) :
    (b.inter c).contains id = (b.contains id && c.contains id) := Std.ExtTreeSet.contains_inter

@[simp]
theorem contains_diff (b c : Bitmap) (id : UInt64) :
    (b.diff c).contains id = (b.contains id && !c.contains id) := Std.ExtTreeSet.contains_diff

@[simp]
theorem contains_symmDiff (b c : Bitmap) (id : UInt64) :
    (b.symmDiff c).contains id = (b.contains id ^^ c.contains id) := IdSet.contains_symmDiff

/-- A bitmap that says it is empty has no members. -/
theorem contains_of_isEmpty (h : b.isEmpty = true) (id : UInt64) : b.contains id = false :=
  IdSet.contains_of_isEmpty h id

/-- A bitmap that does not say it is empty has a member. -/
theorem exists_contains_of_not_isEmpty (h : ¬ b.isEmpty = true) : ∃ id, b.contains id = true :=
  IdSet.exists_contains_of_not_isEmpty h

/-! ### Partitions -/

theorem mem_partitions :
    key ∈ b.partitions ↔ (∃ id ∈ b, partitionOf id = key) ∨ key ∈ b.hollow := by
  rw [partitions, Std.ExtTreeSet.mem_union_iff, mem_partsOf]
  rfl

theorem partitionOf_mem_partitions (h : id ∈ b) : partitionOf id ∈ b.partitions :=
  mem_partitions.2 (.inl ⟨id, h, rfl⟩)

/-- The hollow partitions are those without members. -/
theorem mem_hollow_iff : key ∈ b.hollow ↔ key ∈ b.partitions ∧ ∀ id ∈ b, partitionOf id ≠ key := by
  rw [mem_partitions]
  constructor
  · exact fun h => ⟨.inr h, b.fits.vacant key h⟩
  · rintro ⟨⟨id, hmember, hsame⟩ | h, hvacant⟩
    · exact absurd hsame (hvacant id hmember)
    · exact h

@[simp]
theorem mem_missing {keys : Std.ExtTreeSet UInt32} :
    key ∈ b.missing keys ↔ key ∈ keys ∧ key ∉ b.partitions := by
  rw [missing, mem_vacant, Std.ExtTreeSet.mem_diff_iff, mem_partitions, and_assoc]
  refine and_congr_right fun _ => ?_
  rw [not_or, and_comm]
  simp only [not_exists, not_and]
  rfl

/-- Members and hollow partitions determine the partitions. -/
theorem partitions_eq_iff (hmembers : b.ids = c.ids) :
    b.partitions = c.partitions ↔ b.hollow = c.hollow := by
  have hsame : ∀ id, id ∈ b ↔ id ∈ c := fun id => by rw [mem_iff, hmembers, mem_iff]
  constructor
  · intro h
    refine Std.ExtTreeSet.ext_mem fun key => ?_
    simp only [mem_hollow_iff, h, hsame]
  · intro h
    refine Std.ExtTreeSet.ext_mem fun key => ?_
    simp only [mem_partitions, h, hsame]

/-! ### Hollow partitions under changes -/

@[simp]
theorem mem_hollow_fitted {ids : IdSet} {l : Layout} :
    key ∈ (fitted ids l).hollow ↔ key ∈ l.hollow ∧ ∀ id ∈ ids, partitionOf id ≠ key :=
  mem_vacant

@[simp]
theorem mem_hollow_insert :
    key ∈ (b.insert id).hollow ↔ key ∈ b.hollow ∧ partitionOf id ≠ key := by
  show key ∈ b.hollow.erase (partitionOf id) ↔ _
  simp [Std.ExtTreeSet.mem_erase, and_comm]

@[simp]
theorem hollow_erase (b : Bitmap) (id : UInt64) : (b.erase id).hollow = b.hollow := by
  refine Std.ExtTreeSet.ext_mem fun key => mem_hollow_fitted.trans (and_iff_left_of_imp ?_)
  exact fun h other hmember => b.fits.vacant key h other (Std.ExtTreeSet.mem_of_mem_erase hmember)

theorem mem_hollow_union : key ∈ (b.union c).hollow ↔
    (key ∈ b.hollow ∨ key ∈ c.hollow) ∧ ∀ id ∈ b.union c, partitionOf id ≠ key :=
  mem_hollow_fitted.trans (and_congr_left' Std.ExtTreeSet.mem_union_iff)

@[simp]
theorem mem_partitions_union :
    key ∈ (b.union c).partitions ↔ key ∈ b.partitions ∨ key ∈ c.partitions := by
  constructor
  · intro h
    rcases mem_partitions.1 h with ⟨id, hmember, rfl⟩ | hhollow
    · exact (Std.ExtTreeSet.mem_union_iff.1 hmember).imp partitionOf_mem_partitions
        partitionOf_mem_partitions
    · exact (mem_hollow_union.1 hhollow).1.imp (mem_hollow_iff.1 · |>.1) (mem_hollow_iff.1 · |>.1)
  · intro h
    by_cases hheld : ∃ id ∈ b.union c, partitionOf id = key
    · exact mem_partitions.2 (.inl hheld)
    · have hvacant (id : UInt64) (hmember : id ∈ b ∨ id ∈ c) : partitionOf id ≠ key := fun hsame =>
        hheld ⟨id, Std.ExtTreeSet.mem_union_iff.2 hmember, hsame⟩
      have hhollow : key ∈ b.hollow ∨ key ∈ c.hollow :=
        h.imp (fun h => mem_hollow_iff.2 ⟨h, fun id hmember => hvacant id (.inl hmember)⟩)
          fun h => mem_hollow_iff.2 ⟨h, fun id hmember => hvacant id (.inr hmember)⟩
      exact mem_partitions.2 (.inr (mem_hollow_union.2 ⟨hhollow,
        fun id hmember => hvacant id (Std.ExtTreeSet.mem_union_iff.1 hmember)⟩))

@[simp]
theorem hollow_inter (b c : Bitmap) : (b.inter c).hollow = ∅ :=
  vacant_empty partitionOf (b.ids ∩ c.ids)

@[simp]
theorem mem_hollow_diff : key ∈ (b.diff c).hollow ↔ key ∈ b.hollow ∧ key ∉ c.partitions := by
  refine mem_hollow_fitted.trans (Iff.trans (and_iff_left_of_imp ?_) mem_missing)
  intro h id hmember
  exact b.fits.vacant key (mem_missing.1 h).1 id (Std.ExtTreeSet.mem_diff_iff.1 hmember).1

@[simp]
theorem mem_hollow_symmDiff : key ∈ (b.symmDiff c).hollow ↔
    (key ∈ b.hollow ∧ key ∉ c.partitions) ∨ (key ∈ c.hollow ∧ key ∉ b.partitions) := by
  have hhollow : key ∈ c.missing b.hollow ∪ b.missing c.hollow ↔
      (key ∈ b.hollow ∧ key ∉ c.partitions) ∨ (key ∈ c.hollow ∧ key ∉ b.partitions) := by
    rw [Std.ExtTreeSet.mem_union_iff, mem_missing, mem_missing]
  refine mem_hollow_fitted.trans (Iff.trans (and_iff_left_of_imp ?_) hhollow)
  rintro h id hmember rfl
  -- Whichever bitmap has the member, the partition of the member is hollow in neither.
  rcases IdSet.mem_symmDiff.1 hmember with ⟨hown, -⟩ | ⟨hown, -⟩
  · rcases hhollow.1 h with ⟨hempty, -⟩ | ⟨-, hmissing⟩
    · exact b.fits.vacant _ hempty id hown rfl
    · exact hmissing (partitionOf_mem_partitions hown)
  · rcases hhollow.1 h with ⟨-, hmissing⟩ | ⟨hempty, -⟩
    · exact hmissing (partitionOf_mem_partitions hown)
    · exact c.fits.vacant _ hempty id hown rfl

/-! ### Chunks for runs under changes -/

variable {chunk : Nat}

theorem mem_runs_fitted {ids : IdSet} {l : Layout} :
    chunk ∈ (fitted ids l).runs ↔ chunk ∈ l.runs ∧ ∃ id ∈ ids, chunkOf id = chunk :=
  mem_held

theorem mem_runs_erase :
    chunk ∈ (b.erase id).runs ↔ chunk ∈ b.runs ∧ ∃ other ∈ b.erase id, chunkOf other = chunk :=
  mem_held

theorem mem_runs_inter : chunk ∈ (b.inter c).runs ↔
    (chunk ∈ b.runs ∧ chunk ∈ c.runs) ∧ ∃ id ∈ b.inter c, chunkOf id = chunk :=
  mem_held.trans (and_congr_left' Std.ExtTreeSet.mem_inter_iff)

theorem mem_runs_diff :
    chunk ∈ (b.diff c).runs ↔ chunk ∈ b.runs ∧ ∃ id ∈ b.diff c, chunkOf id = chunk :=
  mem_held

theorem mem_runs_symmDiff : chunk ∈ (b.symmDiff c).runs ↔
    (chunk ∈ b.runs ∨ chunk ∈ c.runs ∧ ∀ id ∈ b, chunkOf id ≠ chunk) ∧
      ∃ id ∈ b.symmDiff c, chunkOf id = chunk := by
  refine mem_held.trans (and_congr_left' ?_)
  rw [Std.ExtTreeSet.mem_union_iff, mem_vacant]
  rfl

theorem mem_runs_union : chunk ∈ (b.union c).runs ↔
    chunk ∈ b.runs ∨ chunk ∈ c.runs ∧ ∀ id ∈ b, chunkOf id ≠ chunk := by
  have hruns : chunk ∈ b.runs ∪ vacant chunkOf b.ids c.runs ↔
      chunk ∈ b.runs ∨ chunk ∈ c.runs ∧ ∀ id ∈ b, chunkOf id ≠ chunk := by
    rw [Std.ExtTreeSet.mem_union_iff, mem_vacant]
    rfl
  refine mem_held.trans (Iff.trans (and_iff_left_of_imp fun h => ?_) hruns)
  rcases hruns.1 h with hown | ⟨hother, -⟩
  · obtain ⟨id, hmember, hsame⟩ := b.fits.held chunk hown
    exact ⟨id, Std.ExtTreeSet.mem_union_iff.2 (.inl hmember), hsame⟩
  · obtain ⟨id, hmember, hsame⟩ := c.fits.held chunk hother
    exact ⟨id, Std.ExtTreeSet.mem_union_iff.2 (.inr hmember), hsame⟩

/-! ### Equality -/

/-- Bitmaps with the same members and the same layout are the same. -/
theorem ext_of_layout (hhollow : b.hollow = c.hollow) (hruns : b.runs = c.runs)
    (hmembers : ∀ id, b.contains id = c.contains id) : b = c := by
  obtain ⟨⟨hollow', runs'⟩, ids, hfits⟩ := b
  obtain rfl := hhollow
  obtain rfl := hruns
  obtain rfl : ids = c.ids := Std.ExtTreeSet.ext_contains hmembers
  rfl

/-- Bitmaps are equal exactly when their members and their partitions are. -/
theorem beq_iff : (b == c) = true ↔ b.ids = c.ids ∧ b.partitions = c.partitions := by
  show (b.ids == c.ids && b.partitions == c.partitions) = true ↔ _
  simp

/-- Bitmaps are equal exactly when their members and their hollow partitions are. -/
theorem beq_iff_hollow : (b == c) = true ↔ b.ids = c.ids ∧ b.hollow = c.hollow :=
  beq_iff.trans (and_congr_right partitions_eq_iff)

instance : ReflBEq Bitmap := ⟨beq_iff.2 ⟨rfl, rfl⟩⟩

/-! ### The empty bitmap -/

theorem not_mem_empty (id : UInt64) : id ∉ (∅ : Bitmap) := Std.ExtTreeSet.not_mem_empty

theorem isEmpty_empty_inter (b : Bitmap) : ((∅ : Bitmap).inter b).isEmpty = true :=
  Std.ExtTreeSet.isEmpty_iff.2 (IdSet.ext fun _ => by
    rw [inter, fitted, Std.ExtTreeSet.mem_inter_iff]
    exact iff_of_false (fun h => not_mem_empty _ h.1) (not_mem_empty _))

@[simp]
theorem hollow_empty : (∅ : Bitmap).hollow = ∅ := rfl

@[simp]
theorem runs_empty : (∅ : Bitmap).runs = ∅ := rfl

theorem not_mem_partitions_empty (key : UInt32) : key ∉ (∅ : Bitmap).partitions := fun h =>
  (mem_partitions.1 h).elim (fun ⟨id, hmember, _⟩ => not_mem_empty id hmember)
    Std.ExtTreeSet.not_mem_empty

/-- Flipping the members of a bitmap in the empty one gives the bitmap. -/
theorem empty_symmDiff (b : Bitmap) : (∅ : Bitmap).symmDiff b = b := by
  have hmembers : ∀ id, ((∅ : Bitmap).symmDiff b).contains id = b.contains id := fun id => by
    rw [contains_symmDiff, contains_empty, Bool.false_xor]
  refine ext_of_layout (Std.ExtTreeSet.ext_mem fun key => ?_)
    (Std.ExtTreeSet.ext_mem fun chunk => ?_) hmembers
  · simp [mem_hollow_symmDiff, not_mem_partitions_empty]
  · simp only [mem_runs_symmDiff, ← contains_iff, hmembers]
    simp only [contains_iff, runs_empty, Std.ExtTreeSet.not_mem_empty, false_or]
    exact ⟨fun h => h.1.1,
      fun h => ⟨⟨h, fun id hmember => absurd hmember (not_mem_empty id)⟩, b.fits.held chunk h⟩⟩

end Bitmap

end BitSliced
