import BitSliced.Index.Union
import BitSliced.Proofs.Planes.Numbers

/-!
# Layouts of planes

A bitmap is *solid* when it has no hollow partitions, and *plain* when its stored form shows nothing
at all beyond its members. Bitmaps are solid and plain unless they were read from a stored form, and
changes do not lead out of either kind: what comes out of solid bitmaps is solid, and what comes out
of plain ones is plain. A kind with this property is called *closed*, and what the operations on
planes and indexes make of bitmaps of a closed kind is of that kind.

Planes are equal, written `==`, when they are as many, keep the same numbers, and have the same
hollow partitions.

## Main definitions

* `BitSliced.Bitmap.IsSolid`, `BitSliced.Bitmap.IsPlain`.
* `BitSliced.Bitmap.Closed` — kinds of bitmaps that changes do not lead out of.
* `BitSliced.Index.All` — every bitmap of an index is of some kind.
* `BitSliced.Index.SolidPlanes` — every plane of an index is solid.
* `BitSliced.Planes.HasPartition`, `BitSliced.Planes.hollows` — the partitions of every plane, and
  the hollow ones.

## Main results

* `BitSliced.Bitmap.closed_isSolid`, `BitSliced.Bitmap.closed_isPlain`.
* `BitSliced.Bitmap.Closed.add`, `BitSliced.Bitmap.Closed.join` and their siblings — operations on
  indexes stay within a closed kind.
* `BitSliced.Planes.beq_iff` — what equality of planes goes by.
-/

namespace BitSliced

namespace Bitmap

variable {m n : Bitmap}

/-- No partition is stored without a member in it. -/
def IsSolid (m : Bitmap) : Prop := m.hollow = ∅

/-- The stored form shows nothing beyond the members. -/
def IsPlain (m : Bitmap) : Prop := m.toLayout = .plain

theorem isPlain_ofIds (s : IdSet) : (ofIds s).IsPlain := rfl

theorem isSolid_iff : m.IsSolid ↔ ∀ key, key ∉ m.hollow :=
  Std.ExtTreeSet.eq_empty_iff_forall_not_mem

theorem isPlain_iff : m.IsPlain ↔ m.IsSolid ∧ ∀ chunk, chunk ∉ m.runs := by
  rw [← Std.ExtTreeSet.eq_empty_iff_forall_not_mem]
  exact Layout.mk.injEq .. ▸ Iff.rfl

/-- Plain bitmaps with the same members are the same. -/
theorem IsPlain.ext (hm : m.IsPlain) (hn : n.IsPlain)
    (hmembers : ∀ id, m.contains id = n.contains id) : m = n :=
  ext_of_layout (congrArg Layout.hollow (hm.trans hn.symm))
    (congrArg Layout.runs (hm.trans hn.symm)) hmembers

/-! ### Closed kinds -/

/-- A kind of bitmaps that changes do not lead out of. Where members are only taken away, the other
bitmap may be of any kind. -/
structure Closed (K : Bitmap → Prop) : Prop where
  empty : K ∅
  insert {m : Bitmap} (hm : K m) (id : UInt64) : K (m.insert id)
  erase {m : Bitmap} (hm : K m) (id : UInt64) : K (m.erase id)
  union {m n : Bitmap} (hm : K m) (hn : K n) : K (m.union n)
  inter {m : Bitmap} (hm : K m) (n : Bitmap) : K (m.inter n)
  diff {m : Bitmap} (hm : K m) (n : Bitmap) : K (m.diff n)
  symmDiff {m n : Bitmap} (hm : K m) (hn : K n) : K (m.symmDiff n)

/-- No change of solid bitmaps makes a hollow partition. -/
theorem closed_isSolid : Closed IsSolid where
  empty := rfl
  insert hm _ := isSolid_iff.2 fun key h => isSolid_iff.1 hm key (mem_hollow_insert.1 h).1
  erase hm _ := (hollow_erase _ _).trans hm
  union hm hn := isSolid_iff.2 fun key h =>
    (mem_hollow_union.1 h).1.elim (isSolid_iff.1 hm key) (isSolid_iff.1 hn key)
  inter _ _ := hollow_inter _ _
  diff hm _ := isSolid_iff.2 fun key h => isSolid_iff.1 hm key (mem_hollow_diff.1 h).1
  symmDiff hm hn := isSolid_iff.2 fun key h => (mem_hollow_symmDiff.1 h).elim
    (fun h => isSolid_iff.1 hm key h.1) fun h => isSolid_iff.1 hn key h.1

/-- No change of bitmaps without chunks for runs makes one. -/
theorem closed_noRuns : Closed fun m => ∀ chunk, chunk ∉ m.runs where
  empty _ := Std.ExtTreeSet.not_mem_empty
  insert hm _ := hm
  erase hm _ chunk h := hm chunk (mem_runs_erase.1 h).1
  union hm hn chunk h := (mem_runs_union.1 h).elim (hm chunk) fun h => hn chunk h.1
  inter hm _ chunk h := hm chunk (mem_runs_inter.1 h).1.1
  diff hm _ chunk h := hm chunk (mem_runs_diff.1 h).1
  symmDiff hm hn chunk h := (mem_runs_symmDiff.1 h).1.elim (hm chunk) fun h => hn chunk h.1

theorem Closed.and {K L : Bitmap → Prop} (hK : Closed K) (hL : Closed L) :
    Closed fun m => K m ∧ L m where
  empty := ⟨hK.empty, hL.empty⟩
  insert h id := ⟨hK.insert h.1 id, hL.insert h.2 id⟩
  erase h id := ⟨hK.erase h.1 id, hL.erase h.2 id⟩
  union hm hn := ⟨hK.union hm.1 hn.1, hL.union hm.2 hn.2⟩
  inter h n := ⟨hK.inter h.1 n, hL.inter h.2 n⟩
  diff h n := ⟨hK.diff h.1 n, hL.diff h.2 n⟩
  symmDiff hm hn := ⟨hK.symmDiff hm.1 hn.1, hL.symmDiff hm.2 hn.2⟩

/-- No change of plain bitmaps makes a hollow partition or a chunk for runs. -/
theorem closed_isPlain : Closed IsPlain :=
  funext (fun m : Bitmap => propext m.isPlain_iff) ▸ closed_isSolid.and closed_noRuns

/-- A bitmap that is built from its members is of every closed kind. -/
theorem Closed.ofIds {K : Bitmap → Prop} (hK : Closed K) (s : IdSet) : K (ofIds s) := by
  have hbuilt (ids : List UInt64) : K (.ofIds (.ofList ids)) := by
    induction ids with
    | nil => exact hK.empty
    | cons id ids ih =>
      have hstep : Bitmap.ofIds (.ofList (id :: ids)) = (Bitmap.ofIds (.ofList ids)).insert id := by
        refine (isPlain_ofIds _).ext (closed_isPlain.insert (isPlain_ofIds _) id) fun other => ?_
        by_cases hsame : other = id
        · simp [hsame]
        · rw [contains_insert_of_ne _ hsame]
          exact Bool.eq_iff_iff.2 (by simp [hsame])
      exact hstep ▸ hK.insert ih id
  have hmembers : IdSet.ofList s.toList = s := IdSet.ext fun id => by simp
  exact hmembers ▸ hbuilt s.toList

/-- Plain bitmaps are of every closed kind. -/
theorem Closed.of_isPlain {K : Bitmap → Prop} (hK : Closed K) (h : m.IsPlain) : K m :=
  h.ext (isPlain_ofIds m.ids) (fun _ => rfl) ▸ hK.ofIds m.ids

end Bitmap

/-! ### Planes of a closed kind -/

namespace Bitmap.Closed

variable {K : Bitmap → Prop} {ps qs : Planes} (hK : Closed K)
include hK

theorem blank (width : Nat) : ∀ p ∈ Planes.blank width, K p := fun _ h =>
  List.eq_of_mem_replicate h ▸ hK.empty

theorem append_blank (hp : ∀ p ∈ ps, K p) (width : Nat) : ∀ p ∈ ps ++ Planes.blank width, K p :=
  List.forall_mem_append.2 ⟨hp, hK.blank width⟩

theorem grow (hp : ∀ p ∈ ps, K p) (width : Nat) : ∀ p ∈ ps.grow width, K p :=
  hK.append_blank hp _

theorem write (hp : ∀ p ∈ ps, K p) (id : UInt64) (n : Nat) : ∀ p ∈ ps.write id n, K p := by
  induction ps generalizing n with
  | nil => exact hp
  | cons p ps ih =>
    obtain ⟨hfirst, hothers⟩ := List.forall_mem_cons.1 hp
    refine List.forall_mem_cons.2 ⟨?_, ih hothers (n / 2)⟩
    split
    · exact hK.insert hfirst id
    · exact hK.erase hfirst id

theorem unionPlanes (hp : ∀ p ∈ ps, K p) (hq : ∀ q ∈ qs, K q) : ∀ p ∈ ps.union qs, K p := by
  induction ps generalizing qs with
  | nil => cases qs <;> exact hp
  | cons p ps ih =>
    cases qs with
    | nil => exact hp
    | cons q qs =>
      obtain ⟨hfirst, hothers⟩ := List.forall_mem_cons.1 hp
      obtain ⟨hfirst', hothers'⟩ := List.forall_mem_cons.1 hq
      exact List.forall_mem_cons.2 ⟨hK.union hfirst hfirst', ih hothers hothers'⟩

theorem addDigit {digit : Bitmap} (hd : K digit) (hp : ∀ p ∈ ps, K p) (room : Nat) :
    ∀ p ∈ Planes.addDigit room digit ps, K p := by
  induction room generalizing digit ps with
  | zero => exact hp
  | succ room ih =>
    cases ps with
    | nil =>
      rw [Planes.addDigit]
      split
      · exact hp
      · exact List.forall_mem_singleton.2 hd
    | cons p ps =>
      obtain ⟨hfirst, hothers⟩ := List.forall_mem_cons.1 hp
      rw [Planes.addDigit]
      split
      · exact hp
      · exact List.forall_mem_cons.2 ⟨hK.symmDiff hfirst hd, ih (hK.inter hfirst digit) hothers⟩

theorem addDigits (hq : ∀ q ∈ qs, K q) (hp : ∀ p ∈ ps, K p) (room : Nat) :
    ∀ p ∈ Planes.addDigits room qs ps, K p := by
  induction qs generalizing room ps with
  | nil => rwa [Planes.addDigits]
  | cons q qs ih =>
    obtain ⟨hfirst, hothers⟩ := List.forall_mem_cons.1 hq
    cases room with
    | zero => exact hp
    | succ room =>
      have hsum := hK.addDigit hfirst hp (room + 1)
      rw [Planes.addDigits]
      cases hd : Planes.addDigit (room + 1) q ps with
      | nil => exact fun _ h => absurd h List.not_mem_nil
      | cons r rs =>
        rw [hd] at hsum
        obtain ⟨hlow, hhigh⟩ := List.forall_mem_cons.1 hsum
        exact List.forall_mem_cons.2 ⟨hlow, ih hothers hhigh room⟩

theorem addOne (hp : ∀ p ∈ ps, K p) (id : UInt64) (room : Nat) :
    ∀ p ∈ Planes.addOne room id ps, K p := by
  induction room generalizing ps with
  | zero => exact hp
  | succ room ih =>
    cases ps with
    | nil => exact List.forall_mem_singleton.2 (hK.insert hK.empty id)
    | cons p ps =>
      obtain ⟨hfirst, hothers⟩ := List.forall_mem_cons.1 hp
      rw [Planes.addOne]
      split
      · exact List.forall_mem_cons.2 ⟨hK.erase hfirst id, ih hothers⟩
      · exact List.forall_mem_cons.2 ⟨hK.insert hfirst id, hothers⟩

end Bitmap.Closed

/-! ### Indexes of a closed kind -/

/-- Every bitmap of an index is of some kind. -/
structure Index.All (K : Bitmap → Prop) (b : Index) : Prop where
  existence : K b.existence
  planes : ∀ p ∈ b.planes, K p

/-- No plane of an index has a hollow partition. -/
def Index.SolidPlanes (b : Index) : Prop := ∀ p ∈ b.planes, p.IsSolid

namespace Bitmap.Closed

variable {K : Bitmap → Prop} {b other : Index} {found : Bitmap} (hK : Closed K)
include hK

theorem ofBounds (maxValue minValue : Int64) : (Index.ofBounds maxValue minValue).All K :=
  ⟨hK.empty, hK.blank _⟩

theorem put (h : b.All K) (id : UInt64) (value : Int64) : (b.put id value).All K := by
  refine ⟨hK.insert h.existence id, ?_⟩
  rw [Index.put]
  split
  · exact hK.write (hK.grow h.planes _) id _
  · exact hK.write h.planes id _

theorem increment (h : b.All K) (hf : K found) : (b.increment found).All K :=
  ⟨hK.union h.existence hf, hK.addDigit hf h.planes _⟩

theorem incrementAll (h : b.All K) : b.incrementAll.All K :=
  ⟨h.existence, hK.addDigit h.existence h.planes _⟩

theorem incrementId (h : b.All K) (id : UInt64) : (b.incrementId id).All K :=
  ⟨hK.insert h.existence id, hK.addOne h.planes id _⟩

theorem add (h : b.All K) (ho : other.All K) : (b.add other).All K :=
  ⟨hK.union h.existence ho.existence, hK.addDigits ho.planes (hK.grow h.planes _) _⟩

theorem clear (h : b.All K) (found : Bitmap) : (b.clear found).All K :=
  ⟨hK.diff h.existence found, List.forall_mem_map.2 fun p hp => hK.diff (h.planes p hp) found⟩

theorem retain (h : b.All K) (found : Bitmap) : (b.retain found).All K :=
  ⟨hK.inter h.existence found, List.forall_mem_map.2 fun p hp => hK.inter (h.planes p hp) found⟩

theorem join (h : b.All K) (p : Parallelism) {others : List Index}
    (ho : ∀ other ∈ others, other.All K) : (b.join p others).All K where
  existence := List.foldlRecOn (motive := K) others _ h.existence fun _ hm other hother =>
    hK.union hm (ho other hother).existence
  planes := List.foldlRecOn (motive := fun ps : Planes => ∀ p ∈ ps, K p) others _
    (hK.grow h.planes _) fun _ hp other hother => hK.unionPlanes hp (ho other hother).planes

end Bitmap.Closed

/-! ### Equality of bitmaps -/

namespace Bitmap

variable {n n' : Bitmap} (m : Bitmap)

end Bitmap

/-! ### Equality of planes -/

namespace Planes

variable {ps qs : Planes}

/-- Whether a plane has a partition. Planes that are not there have none. -/
def HasPartition (ps : Planes) (i : Nat) (key : UInt32) : Prop := ∃ p ∈ ps[i]?, key ∈ p.partitions

/-- The hollow partitions of every plane. Planes that are not there have none. -/
def hollows : Planes → Nat → Std.ExtTreeSet UInt32
  | [], _ => ∅
  | p :: _, 0 => p.hollow
  | _ :: ps, i + 1 => hollows ps i

theorem hollows_eq (ps : Planes) (i : Nat) : ps.hollows i = (ps[i]?.map (·.hollow)).getD ∅ := by
  induction ps generalizing i with
  | nil => rfl
  | cons p ps ih =>
    cases i with
    | zero => rfl
    | succ i => exact ih i

/-- Solid planes have no hollow partitions. -/
theorem hollows_of_isSolid (hsolid : ∀ p ∈ ps, p.IsSolid) : ps.hollows = fun _ => ∅ := by
  funext i
  rw [hollows_eq]
  cases h : ps[i]? with
  | none => rfl
  | some p => exact hsolid p (List.mem_of_getElem? h)

/-- Empty planes have no hollow partitions. -/
theorem hollows_append_blank (ps : Planes) (width : Nat) :
    (ps ++ blank width).hollows = ps.hollows := by
  funext i
  induction ps generalizing i with
  | nil => exact congrFun (hollows_of_isSolid (Bitmap.closed_isSolid.blank width)) i
  | cons p ps ih =>
    cases i with
    | zero => rfl
    | succ i => exact ih i

/-- A number that is written to planes takes hollow partitions away from the planes of its bits. -/
theorem mem_hollows_write {key : UInt32} (ps : Planes) (id : UInt64) (n i : Nat) :
    key ∈ (ps.write id n).hollows i ↔
      key ∈ ps.hollows i ∧ (n.testBit i = true → partitionOf id ≠ key) := by
  induction ps generalizing n i with
  | nil => exact iff_of_false Std.ExtTreeSet.not_mem_empty fun h => Std.ExtTreeSet.not_mem_empty h.1
  | cons p ps ih =>
    cases i with
    | zero =>
      rw [write, hollows, hollows, Nat.testBit_zero, decide_eq_true_iff]
      split
      · next hbit => simp [hbit]
      · next hbit => simp [hbit]
    | succ i =>
      rw [Nat.testBit_succ]
      exact ih (n / 2) i

/-- The number of an identifier depends on the members of the planes only. -/
theorem number_congr (h : ps.map (·.ids) = qs.map (·.ids)) (id : UInt64) :
    ps.number id = qs.number id := by
  induction ps generalizing qs with
  | nil =>
    obtain rfl := List.map_eq_nil_iff.1 h.symm
    rfl
  | cons p ps ih =>
    obtain ⟨q, qs, rfl, hown, hothers⟩ := List.map_eq_cons_iff.1 h.symm
    rw [number_cons, number_cons, ih hothers.symm, Bitmap.contains, Bitmap.contains, hown]

/-- The members of planes are determined by their number and the numbers of all identifiers. -/
theorem map_ids_eq_iff : ps.map (·.ids) = qs.map (·.ids) ↔
    ps.length = qs.length ∧ ∀ id, ps.number id = qs.number id := by
  refine ⟨fun h => ⟨by simpa using congrArg List.length h, number_congr h⟩, ?_⟩
  rintro ⟨hl, h⟩
  induction ps generalizing qs with
  | nil => rw [List.length_eq_zero_iff.1 hl.symm]
  | cons p ps ih =>
    cases qs with
    | nil => cases hl
    | cons q qs =>
      simp only [number_cons] at h
      have hfirst : p.ids = q.ids := Std.ExtTreeSet.ext_contains fun id => by
        have hsum := h id
        show p.contains id = q.contains id
        cases hp : p.contains id <;> cases hq : q.contains id <;>
          simp only [hp, hq, Bool.toNat_false, Bool.toNat_true] at hsum <;> first | rfl | omega
      rw [List.map_cons, List.map_cons, hfirst, ih (Nat.succ_inj.1 hl) fun id => by
        have hown : p.contains id = q.contains id := congrArg (·.contains id) hfirst
        have := h id
        rw [hown] at this
        omega]

/-- Empty planes have no partitions. -/
theorem hasPartition_append_blank (ps : Planes) (width i : Nat) (key : UInt32) :
    (ps ++ blank width).HasPartition i key ↔ ps.HasPartition i key := by
  induction ps generalizing i with
  | nil =>
    refine iff_of_false ?_ (by simp [HasPartition])
    rintro ⟨p, hp, h⟩
    obtain rfl := List.eq_of_mem_replicate (List.mem_of_getElem? hp)
    exact Bitmap.not_mem_partitions_empty key h
  | cons p ps ih =>
    cases i with
    | zero => rfl
    | succ i => exact ih i

theorem hasPartition_grow (ps : Planes) (width i : Nat) (key : UInt32) :
    (ps.grow width).HasPartition i key ↔ ps.HasPartition i key :=
  ps.hasPartition_append_blank _ i key

/-- A union has the partitions of both. -/
theorem hasPartition_union (h : qs.length ≤ ps.length) (i : Nat) (key : UInt32) :
    (ps.union qs).HasPartition i key ↔ ps.HasPartition i key ∨ qs.HasPartition i key := by
  induction ps generalizing qs i with
  | nil =>
    obtain rfl := List.length_eq_zero_iff.1 (Nat.le_zero.1 h)
    simp [union]
  | cons p ps ih =>
    cases qs with
    | nil => simp [union, HasPartition]
    | cons q qs =>
      cases i with
      | zero => simp [union, HasPartition]
      | succ i => exact ih (Nat.le_of_succ_le_succ h) i

/-- Plain planes are given by their members. -/
theorem map_ofIds_map_ids (hplain : ∀ p ∈ ps, p.IsPlain) :
    (ps.map (·.ids)).map Bitmap.ofIds = ps := by
  rw [List.map_map]
  exact (List.map_congr_left fun p hp => (Bitmap.isPlain_ofIds p.ids).ext (hplain p hp)
    fun _ => rfl).trans (List.map_id ps)

/-- Planes are equal when their members and their hollow partitions are. -/
theorem beq_iff :
    (ps == qs) = true ↔ ps.map (·.ids) = qs.map (·.ids) ∧ ps.hollows = qs.hollows := by
  induction ps generalizing qs with
  | nil =>
    cases qs with
    | nil => exact iff_of_true rfl ⟨rfl, rfl⟩
    | cons q qs => exact iff_of_false (fun h => nomatch h) fun h => nomatch h.1
  | cons p ps ih =>
    cases qs with
    | nil => exact iff_of_false (fun h => nomatch h) fun h => nomatch h.1
    | cons q qs =>
      have hlayers : hollows (p :: ps) = hollows (q :: qs) ↔
          p.hollow = q.hollow ∧ hollows ps = hollows qs := by
        constructor
        · exact fun h => ⟨congrFun h 0, funext fun i => congrFun h (i + 1)⟩
        · rintro ⟨hfirst, hothers⟩
          funext i
          cases i with
          | zero => exact hfirst
          | succ i => exact congrFun hothers i
      rw [List.cons_beq_cons, Bool.and_eq_true, Bitmap.beq_iff_hollow, ih, List.map_cons,
        List.map_cons, List.cons.injEq, hlayers]
      exact and_and_and_comm

/-- Planes are equal when their members and their partitions are. -/
theorem beq_iff_partitions : (ps == qs) = true ↔ ps.map (·.ids) = qs.map (·.ids) ∧
    ∀ i key, ps.HasPartition i key ↔ qs.HasPartition i key := by
  induction ps generalizing qs with
  | nil =>
    cases qs with
    | nil => exact iff_of_true rfl ⟨rfl, fun _ _ => Iff.rfl⟩
    | cons q qs => exact iff_of_false (fun h => nomatch h) fun h => nomatch h.1
  | cons p ps ih =>
    cases qs with
    | nil => exact iff_of_false (fun h => nomatch h) fun h => nomatch h.1
    | cons q qs =>
      have hlayers : (∀ i key, HasPartition (p :: ps) i key ↔ HasPartition (q :: qs) i key) ↔
          p.partitions = q.partitions ∧ ∀ i key, HasPartition ps i key ↔ HasPartition qs i key := by
        constructor
        · exact fun h => ⟨Std.ExtTreeSet.ext_mem fun key => by simpa [HasPartition] using h 0 key,
            fun i => h (i + 1)⟩
        · rintro ⟨hfirst, hothers⟩ i key
          cases i with
          | zero => simp [HasPartition, hfirst]
          | succ i => exact hothers i key
      rw [List.cons_beq_cons, Bool.and_eq_true, Bitmap.beq_iff, ih, List.map_cons, List.map_cons,
        List.cons.injEq, hlayers]
      exact and_and_and_comm

end Planes

end BitSliced
