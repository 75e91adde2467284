import BitSliced.Proofs.Reachable
import BitSliced.Proofs.Split

/-!
# Reachable indexes are what they look like

Equality of indexes goes by their bitmaps, and a bitmap may differ from another one where no lookup
sees it: in a bit of an identifier that holds no number, or in a partition without members.
Reachable indexes have neither, unless a bitmap with such a partition was added to them. So two of
them are equal when they look the same, whatever their histories. A number that was held once, and
whose identifier was cleared, can be seen afterwards in the width only.

## Main results

* `BitSliced.Index.reachable_beq_iff` — **reachable indexes are what they look like**.
-/

namespace BitSliced.Index

variable {x y : Index}

/-- Indexes look the same after a clear when all other identifiers did before it. -/
theorem get?_clear_eq_iff {found : Bitmap} :
    (∀ id, (x.clear found).get? id = (y.clear found).get? id) ↔
      ∀ id, id ∉ found → x.get? id = y.get? id := by
  simp only [get?_clear]
  refine forall_congr' fun id => ?_
  by_cases hcleared : id ∈ found
  · simp [hcleared]
  · simp [hcleared]

/-- **Reachable indexes are what they look like.** Two indexes, each the result of some run of the
operations with solid bitmaps, are equal if and only if their bounds and their widths are, and every
identifier holds the same number in both or in neither. When a set of identifiers is cleared in
both, they are equal afterwards if and only if their bounds and their widths are, and all other
identifiers hold the same numbers: whatever the identifiers of the set held before leaves no trace.

When the bitmaps were even of plain layout, nothing but their settings can tell equal indexes
apart. -/
theorem reachable_beq_iff (hx : x.ReachableBy (·.IsSolid)) (hy : y.ReachableBy (·.IsSolid)) :
    ((x == y) = true ↔ x.maxValue = y.maxValue ∧ x.minValue = y.minValue ∧ x.width = y.width ∧
      ∀ id, x.get? id = y.get? id) ∧
    (x.ReachableBy (·.IsPlain) → y.ReachableBy (·.IsPlain) →
      ((x == y) = true ↔ x.withSettings y.settings = y)) ∧
    ∀ found, (x.clear found == y.clear found) = true ↔
      x.maxValue = y.maxValue ∧ x.minValue = y.minValue ∧ x.width = y.width ∧
        ∀ id, id ∉ found → x.get? id = y.get? id := by
  have hsolidX := hx.all Bitmap.closed_isSolid
  have hsolidY := hy.all Bitmap.closed_isSolid
  refine ⟨hx.wellFormed.beq_iff hy.wellFormed hsolidX hsolidY,
    fun hplainX hplainY => ⟨fun hsame => ?_, fun hsame => ?_⟩, fun found => ?_⟩
  · exact (beq_iff.1 hsame).1.withSettings_eq (hplainX.all Bitmap.closed_isPlain)
      (hplainY.all Bitmap.closed_isPlain)
  · rw [← hsame]
    exact x.beq_withSettings y.settings
  · rw [(hx.wellFormed.clear found).beq_iff (hy.wellFormed.clear found)
      (Bitmap.closed_isSolid.clear hsolidX found) (Bitmap.closed_isSolid.clear hsolidY found),
      get?_clear_eq_iff, width_clear, width_clear]
    rfl

/-- The same number, put beside another one that is then cleared, and added up from two parts. -/
theorem reachable_beq_iff_histories :
    let x := ((auto.put 2 7).put 1 5).clear (.single 2)
    let y := (auto.put 1 2).add (auto.put 1 3)
    x.ReachableBy (·.IsSolid) ∧ y.ReachableBy (·.IsSolid) ∧ x.ReachableBy (·.IsPlain) ∧
      y.ReachableBy (·.IsPlain) ∧ (x == y) = true ∧ x.width = 3 ∧
      (∀ id, x.get? id = y.get? id) ∧ x.withSettings y.settings = y := by
  intro x y
  have hput {K : Bitmap → Prop} {b : Index} (hb : b.ReachableBy K) (id : UInt64) (value : Int64) :
      (b.put id value).ReachableBy K :=
    .change (.put id value) hb (fun _ h => absurd h List.not_mem_nil)
      fun _ h => absurd h List.not_mem_nil
  have hx {K : Bitmap → Prop} : x.ReachableBy K :=
    .change (.clear _) (hput (hput .auto 2 7) 1 5) (fun _ h => absurd h List.not_mem_nil)
      fun _ h => absurd h List.not_mem_nil
  have hy {K : Bitmap → Prop} : y.ReachableBy K :=
    .change (.add (auto.put 1 3)) (hput .auto 1 2)
      (fun _ h => List.mem_singleton.1 h ▸ hput .auto 1 3) fun _ h => absurd h List.not_mem_nil
  obtain ⟨halike, hexact, -⟩ := reachable_beq_iff hx hy
  have hsame : (x == y) = true := by decide +kernel
  exact ⟨hx, hy, hx, hy, hsame, by decide +kernel, (halike.1 hsame).2.2.2, (hexact hx hy).1 hsame⟩

end BitSliced.Index
