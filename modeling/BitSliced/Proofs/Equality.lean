import BitSliced.Proofs.Addition
import BitSliced.Proofs.Planes.Layouts

/-!
# Equality of indexes

Indexes are *alike* when they have the same bounds, the same holders, and planes with the same
members. Nobody who looks numbers up, or sets and planes, can tell such indexes from each other.
Equality, written `==`, asks for more: stored bitmaps may have partitions without members, and these
have to be the same as well. For solid bitmaps that is no more than being alike.

Operations leave the bounds and the settings alone, which make up the *declaration* of an index. So
what two runs of operations made of one index is alike when the width, the holders and the numbers
of the planes are the same.

## Main definitions

* `BitSliced.Index.Declaration`, `BitSliced.Index.declaration`.
* `BitSliced.Index.Alike`.
* `BitSliced.Index.Agree` — being alike, with equal existence bitmaps, and equal on a condition.

## Main results

* `BitSliced.Index.beq_iff` — equality is being alike, with the same hollow partitions.
* `BitSliced.Index.of_beq` — equal indexes look the same.
* `BitSliced.Index.alike_of_declaration_eq` — what runs of operations are compared by.
* `BitSliced.Index.Alike.beq` — solid indexes that are alike are equal.
* `BitSliced.Index.Alike.withSettings_eq` — plain indexes that are alike are the same.
* `BitSliced.Index.WellFormed.alike_iff` — well-formed indexes that look the same are alike.
-/

namespace BitSliced

namespace Index

variable {b c : Index}

/-! ### Declarations -/

/-- What an index was made for, apart from its numbers. -/
structure Declaration where
  maxValue : Int64
  minValue : Int64
  settings : Settings

/-- What operations leave alone. -/
def declaration (b : Index) : Declaration := ⟨b.maxValue, b.minValue, b.settings⟩

@[simp]
theorem declaration_put (b : Index) (id : UInt64) (value : Int64) :
    (b.put id value).declaration = b.declaration := rfl

@[simp]
theorem declaration_increment (b : Index) (found : Bitmap) :
    (b.increment found).declaration = b.declaration := rfl

@[simp]
theorem declaration_join (b : Index) (p : Parallelism) (others : List Index) :
    (b.join p others).declaration = b.declaration := rfl

/-! ### Indexes that are alike -/

/-- Indexes are alike when they have the same bounds and the same members everywhere. -/
structure Alike (b c : Index) : Prop where
  maxValue : b.maxValue = c.maxValue
  minValue : b.minValue = c.minValue
  existence : b.existence.ids = c.existence.ids
  planes : b.planes.map (·.ids) = c.planes.map (·.ids)

namespace Alike

theorem width (h : b.Alike c) : b.width = c.width := (Planes.map_ids_eq_iff.1 h.planes).1

theorem number (h : b.Alike c) (id : UInt64) : b.planes.number id = c.planes.number id :=
  Planes.number_congr h.planes id

theorem contains (h : b.Alike c) (id : UInt64) : b.contains id = c.contains id :=
  congrArg (·.contains id) h.existence

theorem get? (h : b.Alike c) (id : UInt64) : b.get? id = c.get? id := by
  rw [Index.get?, Index.get?, h.contains id, patternOf, patternOf, h.number id]

end Alike

/-- Indexes of the same declaration are alike when their width, their holders, and the numbers of
their planes are the same. -/
theorem alike_of_declaration_eq (hdeclared : b.declaration = c.declaration)
    (hwidth : b.width = c.width) (hholders : ∀ id, b.contains id = c.contains id)
    (hnumbers : ∀ id, b.planes.number id = c.planes.number id) : b.Alike c where
  maxValue := congrArg Declaration.maxValue hdeclared
  minValue := congrArg Declaration.minValue hdeclared
  existence := Std.ExtTreeSet.ext_contains hholders
  planes := Planes.map_ids_eq_iff.2 ⟨hwidth, hnumbers⟩

/-! ### Equality -/

/-- Indexes are equal when they are alike and have the same hollow partitions. -/
theorem beq_iff : (b == c) = true ↔ b.Alike c ∧ b.existence.hollow = c.existence.hollow ∧
    b.planes.hollows = c.planes.hollows := by
  show (b.maxValue == c.maxValue && b.minValue == c.minValue && b.existence == c.existence &&
    b.planes == c.planes) = true ↔ _
  simp only [Bool.and_eq_true, beq_iff_eq, Bitmap.beq_iff_hollow, Planes.beq_iff]
  constructor
  · rintro ⟨⟨⟨hmaxValue, hminValue⟩, hexistence, hhollow⟩, hplanes, hhollows⟩
    exact ⟨⟨hmaxValue, hminValue, hexistence, hplanes⟩, hhollow, hhollows⟩
  · rintro ⟨⟨hmaxValue, hminValue, hexistence, hplanes⟩, hhollow, hhollows⟩
    exact ⟨⟨⟨hmaxValue, hminValue⟩, hexistence, hhollow⟩, hplanes, hhollows⟩

/-- Indexes are equal when they are alike and have the same partitions. -/
theorem beq_iff_partitions : (b == c) = true ↔ b.Alike c ∧
    b.existence.partitions = c.existence.partitions ∧
    ∀ i key, b.planes.HasPartition i key ↔ c.planes.HasPartition i key := by
  rw [beq_iff]
  refine and_congr_right fun halike => and_congr (Bitmap.partitions_eq_iff halike.existence).symm ?_
  have hhollows : (b.planes == c.planes) = true ↔ _ := Planes.beq_iff
  rw [Planes.beq_iff_partitions, and_congr_right_iff] at hhollows
  exact (hhollows halike.planes).symm

/-- Equal indexes have the same bounds, the same width and the same numbers. -/
theorem of_beq (h : (b == c) = true) : b.maxValue = c.maxValue ∧ b.minValue = c.minValue ∧
    b.width = c.width ∧ ∀ id, b.get? id = c.get? id :=
  have halike := (beq_iff.1 h).1
  ⟨halike.maxValue, halike.minValue, halike.width, halike.get?⟩

/-- Settings are not compared. -/
theorem beq_withSettings (b : Index) (settings : Settings) :
    (b == b.withSettings settings) = true :=
  (BEq.refl b : (b == b) = true)

namespace Alike

/-- Solid indexes that are alike are equal. -/
theorem beq (h : b.Alike c) (hb : b.All (·.IsSolid)) (hc : c.All (·.IsSolid)) :
    (b == c) = true :=
  beq_iff.2 ⟨h, hb.existence.trans hc.existence.symm,
    (Planes.hollows_of_isSolid hb.planes).trans (Planes.hollows_of_isSolid hc.planes).symm⟩

/-- Plain indexes that are alike are the same, but for their settings. -/
theorem withSettings_eq (h : b.Alike c) (hb : b.All (·.IsPlain)) (hc : c.All (·.IsPlain)) :
    b.withSettings c.settings = c := by
  have hexistence : b.existence = c.existence :=
    hb.existence.ext hc.existence fun id => h.contains id
  have hplanes : b.planes = c.planes := by
    rw [← Planes.map_ofIds_map_ids hb.planes, h.planes, Planes.map_ofIds_map_ids hc.planes]
  obtain ⟨_, _, _, _, _⟩ := b
  obtain ⟨_, _, _, _, _⟩ := c
  obtain rfl := h.maxValue
  obtain rfl := h.minValue
  obtain rfl := hexistence
  obtain rfl := hplanes
  rfl

end Alike

/-- Well-formed indexes are alike when they look the same. -/
theorem WellFormed.alike_iff (hb : b.WellFormed) (hc : c.WellFormed) :
    b.Alike c ↔ b.maxValue = c.maxValue ∧ b.minValue = c.minValue ∧ b.width = c.width ∧
      ∀ id, b.get? id = c.get? id := by
  refine ⟨fun h => ⟨h.maxValue, h.minValue, h.width, h.get?⟩, ?_⟩
  rintro ⟨hmaxValue, hminValue, hwidth, hnumbers⟩
  refine ⟨hmaxValue, hminValue, Std.ExtTreeSet.ext_contains fun id => ?_,
    Planes.map_ids_eq_iff.2 ⟨hwidth, fun id => ?_⟩⟩
  · show b.contains id = c.contains id
    rw [Bool.eq_iff_iff, ← Bool.not_eq_false, ← Bool.not_eq_false, ← get?_eq_none_iff,
      ← get?_eq_none_iff, hnumbers]
  · have hsigned : (b.patternOf id).toInt64 = (c.patternOf id).toInt64 := by
      rw [hb.enclosed.toInt64_patternOf, hc.enclosed.toInt64_patternOf, hnumbers]
    have hpatterns : b.patternOf id = c.patternOf id := congrArg Int64.toUInt64 hsigned
    rw [← toNat_patternOf hb.width_le, ← toNat_patternOf hc.width_le, hpatterns]

/-- Solid well-formed indexes are equal when they look the same. -/
theorem WellFormed.beq_iff (hb : b.WellFormed) (hc : c.WellFormed) (hsb : b.All (·.IsSolid))
    (hsc : c.All (·.IsSolid)) :
    (b == c) = true ↔ b.maxValue = c.maxValue ∧ b.minValue = c.minValue ∧ b.width = c.width ∧
      ∀ id, b.get? id = c.get? id :=
  ⟨of_beq, fun hsame => ((hb.alike_iff hc).2 hsame).beq hsb hsc⟩

end Index

end BitSliced
