import Mathlib.Logic.ExistsUnique
import BitSliced.Pool.Lending
import BitSliced.Proofs.Pool.Class

/-!
# Borrowed buffers are empty and fit

Requests are rounded up to a class and capacities are rounded down to one, and in between a buffer
may have grown by any number of bytes. Whoever borrows a buffer still gets an empty one with enough
room, after any number of calls by any number of holders.

Buffers are told apart by their serial numbers, and what happens to them is followed through the
places where these numbers are: at the holders, and at all heights of all shelves. A call moves one
number to a place that was free, or puts a new number there, and it leaves all other numbers where
they are. That every number is at exactly one place is shown for such changes once, whatever the
places are.

## Main definitions

* `BitSliced.Lending.Allows` — whether a call may be made.
* `BitSliced.Lending.Placed` — each number below a count is at exactly one place.
* `BitSliced.Lending.Sound` — what holds while buffers are lent.
* `BitSliced.Lending.Met` — how a request is met.

## Main results

* `BitSliced.Lending.isSome_serve?_iff` — which calls are served.
* `BitSliced.Lending.Sound.serve`, `BitSliced.Lending.sound_of_run` — every call keeps lending
  sound, and so does every run.
* `BitSliced.Lending.borrowed_buffers_are_empty_and_fit` — **borrowed buffers are empty and fit**,
  and no buffer is lost or at two places.
-/

namespace BitSliced.Lending

/-- Whether a call may be made: requests are for at most `2 ^ 63` bytes, and to append to a buffer
or to hand it back takes someone who has it. -/
def Allows (use : Lending) : Call → Prop
  | .borrow _ size => size ≤ 2 ^ 63
  | .append _ holder _ => holder ∈ use.lent
  | .handBack holder => holder ∈ use.lent

/-! ### Numbers at places -/

/-- Each number below a count is at exactly one place, and no other number is at any place. -/
structure Placed {α : Type} (numberAt? : α → Option Nat) (count : Nat) : Prop where
  unique : ∀ n < count, ∃! place, numberAt? place = some n
  below : ∀ place n, numberAt? place = some n → n < count

namespace Placed

variable {α : Type} {f g : α → Option Nat} {count count' n : Nat} {source target : α}

/-- No number is at two places. -/
theorem eq_of_eq (h : Placed f count) {place other : α} (hfound : f place = some n)
    (hfound' : f other = some n) : place = other :=
  (h.unique n (h.below place n hfound)).unique hfound hfound'

theorem congr (h : Placed f count) (hsame : ∀ place, g place = f place) : Placed g count :=
  funext hsame ▸ h

/-- Putting one number to a place, where it is then and nowhere else, while all others stay. -/
theorem put (h : Placed f count) (hcounts : ∀ m, m < count' ↔ m < count ∨ m = n)
    (honly : ∀ place m, g place = some m ↔ place = target ∧ m = n ∨ m ≠ n ∧ f place = some m) :
    Placed g count' := by
  constructor
  · intro m hbelow
    by_cases hsame : m = n
    · subst hsame
      simp [honly]
    · have hold : m < count := ((hcounts m).1 hbelow).resolve_right hsame
      simpa [honly, hsame] using h.unique m hold
  · intro place m hfound
    rcases (honly place m).1 hfound with ⟨-, rfl⟩ | ⟨-, hfound⟩
    · exact (hcounts m).2 (.inr rfl)
    · exact (hcounts m).2 (.inl (h.below place m hfound))

variable [DecidableEq α]

/-- A number may move to a place where there is none. -/
theorem move (h : Placed f count) (hthere : f source = some n) (hfree : f target = none)
    (hmoved : ∀ place, g place =
      if place = target then some n else if place = source then none else f place) :
    Placed g count := by
  have hbelow : n < count := h.below source n hthere
  have honly (place : α) (m : Nat) :
      g place = some m ↔ place = target ∧ m = n ∨ m ≠ n ∧ f place = some m := by
    constructor
    · intro hfound
      rw [hmoved] at hfound
      split at hfound
      · next hsame => exact .inl ⟨hsame, (Option.some.inj hfound).symm⟩
      · split at hfound
        · cases hfound
        · next helsewhere =>
          exact .inr ⟨fun hsame => helsewhere (h.eq_of_eq (hsame ▸ hfound) hthere), hfound⟩
    · rintro (⟨rfl, rfl⟩ | ⟨hother, hfound⟩)
      · rw [hmoved, if_pos rfl]
      · have hnotTarget : place ≠ target := fun hsame => by simp [hsame, hfree] at hfound
        have hnotSource : place ≠ source := fun hsame => by
          simp [hsame, hthere, Ne.symm hother] at hfound
        rwa [hmoved, if_neg hnotTarget, if_neg hnotSource]
  exact h.put (fun m => by omega) honly

/-- The next number may come up at a place where there is none. -/
theorem create (h : Placed f count) (hfree : f target = none)
    (hnew : ∀ place, g place = if place = target then some count else f place) :
    Placed g (count + 1) := by
  have honly (place : α) (m : Nat) :
      g place = some m ↔ place = target ∧ m = count ∨ m ≠ count ∧ f place = some m := by
    constructor
    · intro hfound
      rw [hnew] at hfound
      split at hfound
      · next hsame => exact .inl ⟨hsame, (Option.some.inj hfound).symm⟩
      · exact .inr ⟨Nat.ne_of_lt (h.below place m hfound), hfound⟩
    · rintro (⟨rfl, rfl⟩ | ⟨hother, hfound⟩)
      · rw [hnew, if_pos rfl]
      · have hnotTarget : place ≠ target := fun hsame => by simp [hsame, hfree] at hfound
        rwa [hnew, if_neg hnotTarget]
  exact h.put (fun m => by omega) honly

end Placed

/-! ### Serving a call -/

variable {use next : Lending}

theorem serve?_borrow_eq_some_iff {a : Allocator} {size : Nat} :
    use.serve? (.borrow a size) = some next ↔ size ≤ 2 ^ 63 ∧
      ⟨(use.pool.borrow a size).2, use.lent.insert use.holders (use.pool.borrow a size).1,
        use.holders + 1⟩ = next := by
  rw [serve?, Pool.borrow?, ← Pool.requestClass_lt_iff]
  split
  · next hword => simp [hword]
  · next hlarge => simp [hlarge]

theorem serve?_append_eq_some_iff {a : Allocator} {holder : Nat} {bytes : List UInt8} :
    use.serve? (.append a holder bytes) = some next ↔ ∃ buffer, use.lent[holder]? = some buffer ∧
      { use with lent := use.lent.insert holder (buffer.append a bytes) } = next := by
  rw [serve?, Option.bind_eq_bind, Option.bind_eq_some_iff]
  exact exists_congr fun buffer => and_congr_right fun _ => Option.some_inj

theorem serve?_handBack_eq_some_iff {holder : Nat} :
    use.serve? (.handBack holder) = some next ↔ ∃ buffer, use.lent[holder]? = some buffer ∧
      { use with pool := use.pool.handBack buffer, lent := use.lent.erase holder } = next := by
  rw [serve?, Option.bind_eq_bind, Option.bind_eq_some_iff]
  exact exists_congr fun buffer => and_congr_right fun _ => Option.some_inj

/-- A call is served exactly when it may be made. -/
theorem isSome_serve?_iff {call : Call} :
    (use.serve? call).isSome = true ↔ use.Allows call := by
  rw [Option.isSome_iff_exists]
  cases call with
  | borrow a size =>
    simp only [serve?_borrow_eq_some_iff, Allows]
    exact ⟨fun ⟨_, hfits, _⟩ => hfits, fun hfits => ⟨_, hfits, rfl⟩⟩
  | append a holder bytes =>
    simp only [serve?_append_eq_some_iff, Allows, Std.ExtTreeMap.mem_iff_isSome_getElem?,
      Option.isSome_iff_exists]
    exact ⟨fun ⟨_, buffer, hheld, _⟩ => ⟨buffer, hheld⟩, fun ⟨_, hheld⟩ => ⟨_, _, hheld, rfl⟩⟩
  | handBack holder =>
    simp only [serve?_handBack_eq_some_iff, Allows, Std.ExtTreeMap.mem_iff_isSome_getElem?,
      Option.isSome_iff_exists]
    exact ⟨fun ⟨_, buffer, hheld, _⟩ => ⟨buffer, hheld⟩, fun ⟨_, hheld⟩ => ⟨_, _, hheld, rfl⟩⟩

/-! ### Where buffers are -/

theorem serialAt?_holder {holder : Nat} {buffer : Buffer}
    (hheld : use.lent[holder]? = some buffer) :
    use.serialAt? (.holder holder) = some buffer.serial := by
  rw [serialAt?, bufferAt?, hheld, Option.map_some]

section Changes

variable (pool : Pool) (lent : Std.ExtTreeMap Nat Buffer) (holders holder : Nat) (place : Place)

theorem getElem?_insert_lent (buffer : Buffer) (other : Nat) :
    (lent.insert holder buffer)[other]? = if other = holder then some buffer else lent[other]? := by
  rw [Std.ExtTreeMap.getElem?_insert]
  by_cases hsame : other = holder
  · simp [hsame]
  · simp [hsame, Ne.symm hsame]

theorem getElem?_erase_lent (other : Nat) :
    (lent.erase holder)[other]? = if other = holder then none else lent[other]? := by
  rw [Std.ExtTreeMap.getElem?_erase]
  by_cases hsame : other = holder
  · simp [hsame]
  · simp [hsame, Ne.symm hsame]

/-- The first buffer of a shelf is on top of all others. -/
theorem getElem?_reverse_cons {α : Type} (x : α) (l : List α) (i : Nat) :
    (x :: l).reverse[i]? = if i = l.length then some x else l.reverse[i]? := by
  rw [List.reverse_cons, List.getElem?_append, List.length_reverse]
  split
  · next hbelow => rw [if_neg (Nat.ne_of_lt hbelow)]
  · next habove =>
    split
    · next hsame => simp [hsame]
    · next hother =>
      rw [List.getElem?_eq_none (by simp; omega), List.getElem?_eq_none (by simp; omega)]

theorem serialAt?_insert_lent (buffer : Buffer) :
    serialAt? ⟨pool, lent.insert holder buffer, holders⟩ place =
      if place = .holder holder then some buffer.serial
      else serialAt? ⟨pool, lent, holders⟩ place := by
  cases place with
  | holder number =>
    simp only [serialAt?, bufferAt?, getElem?_insert_lent, Place.holder.injEq]
    split <;> rfl
  | shelf c height => rfl

theorem serialAt?_erase_lent : serialAt? ⟨pool, lent.erase holder, holders⟩ place =
    if place = .holder holder then none else serialAt? ⟨pool, lent, holders⟩ place := by
  cases place with
  | holder number =>
    simp only [serialAt?, bufferAt?, getElem?_erase_lent, Place.holder.injEq]
    split <;> rfl
  | shelf c height => rfl

variable {pool}

/-- Taking the first buffer of a shelf leaves the place on top of the others. -/
theorem serialAt?_insert_shelves {c : Nat} {buffer : Buffer} {others : List Buffer}
    (htop : pool.shelf c = buffer :: others) :
    serialAt? ⟨{ pool with shelves := pool.shelves.insert c others }, lent, holders⟩ place =
      if place = .shelf c others.length then none else serialAt? ⟨pool, lent, holders⟩ place := by
  cases place with
  | holder number => rfl
  | shelf c' height =>
    simp only [serialAt?, bufferAt?, Pool.shelf_insert, Place.shelf.injEq]
    by_cases hsame : c' = c
    · rw [if_pos hsame, hsame, htop, getElem?_reverse_cons]
      by_cases hfirst : height = others.length <;> simp [hfirst]
    · simp [hsame]

/-- A buffer that is handed back gets to the top of its shelf. -/
theorem serialAt?_handBack {buffer : Buffer} (hpos : buffer.capacity ≠ 0) :
    let c := Pool.capacityClass buffer.capacity
    serialAt? ⟨pool.handBack buffer, lent, holders⟩ place =
      if place = .shelf c (pool.shelf c).length then some buffer.serial
      else serialAt? ⟨pool, lent, holders⟩ place := by
  intro c
  cases place with
  | holder number => rfl
  | shelf c' height =>
    simp only [serialAt?, bufferAt?, Pool.shelf_handBack _ hpos, Place.shelf.injEq]
    by_cases hsame : c' = c
    · rw [if_pos hsame, hsame, getElem?_reverse_cons]
      by_cases hfirst : height = (pool.shelf c).length <;> simp [hfirst]
    · rw [if_neg hsame]
      simp [hsame]

end Changes

/-! ### Lending is sound -/

/-- What holds all along while buffers are lent. -/
structure Sound (use : Lending) : Prop where
  inOrder : use.pool.InOrder
  /-- Buffers in use are with earlier holders, and they are not too small for a shelf. -/
  lent : ∀ (holder : Nat) (buffer : Buffer), use.lent[holder]? = some buffer →
    holder < use.holders ∧ Pool.minClass ≤ buffer.capacity
  /-- Every buffer created so far is at exactly one place. -/
  placed : Placed use.serialAt? use.pool.created

theorem sound_start : start.Sound where
  inOrder := Pool.inOrder_empty
  lent holder buffer hfound := by simp [start] at hfound
  placed := by
    constructor
    · intro n hbelow
      exact absurd hbelow (Nat.not_lt_zero n)
    · intro place n hfound
      cases place <;> simp [serialAt?, bufferAt?, start] at hfound

namespace Sound

theorem append (h : use.Sound) {holder : Nat} {buffer : Buffer}
    (hheld : use.lent[holder]? = some buffer) (a : Allocator) (bytes : List UInt8) :
    Sound { use with lent := use.lent.insert holder (buffer.append a bytes) } where
  inOrder := h.inOrder
  lent other b hfound := by
    rw [getElem?_insert_lent] at hfound
    split at hfound
    · next hsame =>
      obtain rfl := Option.some.inj hfound
      obtain ⟨hearlier, hlarge⟩ := h.lent holder buffer hheld
      exact ⟨hsame ▸ hearlier, Nat.le_trans hlarge (a.le_grown ..)⟩
    · exact h.lent other b hfound
  placed := by
    refine h.placed.congr fun place => ?_
    rw [serialAt?_insert_lent]
    split
    · next hsame => rw [hsame, serialAt?_holder hheld, Buffer.append]
    · rfl

theorem handBack (h : use.Sound) {holder : Nat} {buffer : Buffer}
    (hheld : use.lent[holder]? = some buffer) :
    Sound { use with pool := use.pool.handBack buffer, lent := use.lent.erase holder } where
  inOrder := h.inOrder.handBack (h.lent holder buffer hheld).2
  lent other b hfound := by
    rw [getElem?_erase_lent] at hfound
    split at hfound
    · cases hfound
    · exact h.lent other b hfound
  placed := by
    have hpos : buffer.capacity ≠ 0 :=
      Nat.ne_of_gt (Nat.lt_of_lt_of_le (by decide) (h.lent holder buffer hheld).2)
    have hfree (c : Nat) : use.serialAt? (.shelf c (use.pool.shelf c).length) = none := by
      simp [serialAt?, bufferAt?]
    show Placed _ (use.pool.handBack buffer).created
    rw [Pool.created_handBack]
    refine h.placed.move (serialAt?_holder hheld) (hfree (Pool.capacityClass buffer.capacity))
      fun place => ?_
    rw [serialAt?_handBack _ _ _ hpos, serialAt?_erase_lent]

theorem borrow (h : use.Sound) (a : Allocator) (size : Nat) :
    Sound ⟨(use.pool.borrow a size).2, use.lent.insert use.holders (use.pool.borrow a size).1,
      use.holders + 1⟩ where
  inOrder := h.inOrder.borrow a size
  lent other b hfound := by
    rw [getElem?_insert_lent] at hfound
    split at hfound
    · next hsame =>
      obtain rfl := Option.some.inj hfound
      refine ⟨hsame ▸ Nat.lt_succ_self _, ?_⟩
      exact Nat.le_trans (Pool.minClass_le_requestClass size) (h.inOrder.borrow_fits a size).2
    · obtain ⟨hearlier, hlarge⟩ := h.lent other b hfound
      exact ⟨Nat.lt_succ_of_lt hearlier, hlarge⟩
  placed := by
    have hfree : use.serialAt? (.holder use.holders) = none := by
      rw [serialAt?, Option.map_eq_none_iff, Option.eq_none_iff_forall_ne_some]
      exact fun buffer hfound => Nat.lt_irrefl _ (h.lent use.holders buffer hfound).1
    rcases Pool.borrow_cases a use.pool size with
      ⟨c, buffer, others, htop, -, -, htaken⟩ | ⟨-, hnew⟩
    · rw [htaken]
      have hthere : use.serialAt? (.shelf c others.length) = some buffer.serial := by
        rw [serialAt?, bufferAt?, htop, getElem?_reverse_cons, if_pos rfl]
        rfl
      refine h.placed.move hthere hfree fun place => ?_
      rw [serialAt?_insert_lent, serialAt?_insert_shelves _ _ _ htop]
      rfl
    · rw [hnew]
      refine h.placed.create hfree fun place => ?_
      rw [serialAt?_insert_lent]
      rfl

/-- Serving a call keeps lending sound. -/
theorem serve (h : use.Sound) {call : Call} (hserved : use.serve? call = some next) :
    next.Sound := by
  cases call with
  | borrow a size =>
    obtain ⟨-, rfl⟩ := serve?_borrow_eq_some_iff.1 hserved
    exact h.borrow a size
  | append a holder bytes =>
    obtain ⟨buffer, hheld, rfl⟩ := serve?_append_eq_some_iff.1 hserved
    exact h.append hheld a bytes
  | handBack holder =>
    obtain ⟨buffer, hheld, rfl⟩ := serve?_handBack_eq_some_iff.1 hserved
    exact h.handBack hheld

theorem foldlM (h : use.Sound) {calls : List Call}
    (hserved : calls.foldlM serve? use = some next) : next.Sound := by
  induction calls generalizing use with
  | nil => exact Option.some.inj hserved ▸ h
  | cons call calls ih =>
    rw [List.foldlM_cons, Option.bind_eq_bind, Option.bind_eq_some_iff] at hserved
    obtain ⟨between, hfirst, hrest⟩ := hserved
    exact ih (h.serve hfirst) hrest

end Sound

/-- Lending is sound after every run. -/
theorem sound_of_run {calls : List Call} (h : run? calls = some use) : use.Sound :=
  sound_start.foldlM h

/-! ### Requests -/

/-- How a request of some class is met: with the first buffer of the lowest shelf that has any and
is not below the class, or with a new buffer when there is no such shelf. All else stays as it is.
-/
inductive Met (pool : Pool) (request : Nat) (buffer : Buffer) (rest : Pool) : Prop where
  | shelved (c : Nat) (lowest : IsLeast {c | request ≤ c ∧ pool.shelf c ≠ []} c)
      (first : pool.shelf c = buffer :: rest.shelf c)
      (others : ∀ c' ≠ c, rest.shelf c' = pool.shelf c') (created : rest.created = pool.created)
  | new (hnone : ∀ c, request ≤ c → pool.shelf c = []) (serial : buffer.serial = pool.created)
      (others : ∀ c, rest.shelf c = pool.shelf c) (created : rest.created = pool.created + 1)

theorem met_borrow (a : Allocator) (pool : Pool) (size : Nat) :
    Met pool (Pool.requestClass size) (pool.borrow a size).1 (pool.borrow a size).2 := by
  rcases Pool.borrow_cases a pool size with
    ⟨c, buffer, others, htop, hfits, hleast, htaken⟩ | ⟨hnone, hnew⟩
  · rw [htaken]
    refine .shelved c ⟨⟨hfits, by simp [htop]⟩, fun c' h => hleast c' h.1 h.2⟩ ?_
      (fun c' hne => ?_) rfl
    · rw [htop, Pool.shelf_insert, if_pos rfl]
    · rw [Pool.shelf_insert, if_neg hne]
  · rw [hnew]
    exact .new hnone rfl (fun _ => rfl) rfl

/-- **Borrowed buffers are empty and fit.** Let holders borrow buffers from a new pool, append bytes
to them and hand them back, in any order, with any amount of memory for new and growing buffers.
Such a run goes on as long as requests are for at most `2 ^ 63` bytes, and no one uses a buffer
without having it. After every run:

* the classes of the pool are powers of two not below 64, and the buffers of a class are empty and
  reach it;
* a request of any size up to `2 ^ 63` is met with an empty buffer that has room for it, from the
  lowest shelf that has any buffers and is not below the class of the request, or with a new buffer
  when there is no such shelf; this class is the least power of two not below the size and 64;
* each buffer created so far is at exactly one place, with one holder or once on a shelf, and no
  other buffer is anywhere. -/
theorem borrowed_buffers_are_empty_and_fit {calls : List Call} (h : run? calls = some use) :
    (∀ call, (use.serve? call).isSome = true ↔ use.Allows call) ∧
    (∀ c ∈ use.pool.shelves, 64 ≤ c ∧ ∃ k, c = 2 ^ k) ∧
    (∀ c, ∀ buffer ∈ use.pool.shelf c, buffer.bytes = [] ∧ c ≤ buffer.capacity) ∧
    (∀ (a : Allocator) (size : Nat), size ≤ 2 ^ 63 →
      let request := Pool.requestClass size
      IsLeast {c | (∃ k, c = 2 ^ k) ∧ max size 64 ≤ c} request ∧
      ∃ buffer rest, use.serve? (.borrow a size) =
          some ⟨rest, use.lent.insert use.holders buffer, use.holders + 1⟩ ∧
        buffer.bytes = [] ∧ size ≤ buffer.capacity ∧ Met use.pool request buffer rest) ∧
    (∀ serial < use.pool.created, ∃! place, use.serialAt? place = some serial) ∧
    ∀ place serial, use.serialAt? place = some serial → serial < use.pool.created := by
  have hsound := sound_of_run h
  have hshelved (c : Nat) (buffer : Buffer) (hmem : buffer ∈ use.pool.shelf c) :
      buffer.bytes = [] ∧ c ≤ buffer.capacity :=
    ⟨Pool.clean_iff.1 hsound.inOrder.clean c buffer hmem, hsound.inOrder.reached c buffer hmem⟩
  refine ⟨fun _ => isSome_serve?_iff, hsound.inOrder.classes, hshelved,
    fun a size hfits => ⟨Pool.isLeast_requestClass size, ?_⟩, hsound.placed.unique,
    hsound.placed.below⟩
  obtain ⟨hempty, hreached⟩ := hsound.inOrder.borrow_fits a size
  exact ⟨_, _, serve?_borrow_eq_some_iff.2 ⟨hfits, rfl⟩, hempty,
    Nat.le_trans (Pool.size_le_requestClass size) hreached, met_borrow a use.pool size⟩

/-- A holder borrows a buffer for 100 bytes, appends to it and hands it back. A request for 20 bytes
gets this buffer again, from the shelf of class 128, and one for 10000 bytes gets a new one. -/
theorem borrowed_buffers_are_empty_and_fit_reused :
    let a := Allocator.doubling
    let calls : List Call := [.borrow a 100, .append a 0 [1, 2, 3], .handBack 0]
    ∃ use, run? calls = some use ∧ (use.serve? (.handBack 0)).isSome = false ∧
      use.serialAt? (.shelf 128 0) = some 0 ∧ (∃! place, use.serialAt? place = some 0) ∧
      (∃ buffer rest, use.serve? (.borrow a 20) =
          some ⟨rest, use.lent.insert use.holders buffer, use.holders + 1⟩ ∧
        buffer = ⟨0, 128, []⟩ ∧ Met use.pool 64 buffer rest) ∧
      ∃ buffer rest, use.serve? (.borrow a 10000) =
          some ⟨rest, use.lent.insert use.holders buffer, use.holders + 1⟩ ∧
        buffer = ⟨1, 16384, []⟩ ∧ Met use.pool 16384 buffer rest := by
  intro a calls
  let use : Lending := (run? calls).get (by decide +kernel)
  have hrun : run? calls = some use := (Option.some_get _).symm
  obtain ⟨-, -, -, hrequests, hplaced, -⟩ := borrowed_buffers_are_empty_and_fit hrun
  obtain ⟨-, small, rest, hserved, -, -, hmet⟩ := hrequests a 20 (by decide)
  obtain ⟨-, large, rest', hserved', -, -, hmet'⟩ := hrequests a 10000 (by decide)
  have hlent : (use.serve? (.borrow a 20)).bind (·.lent[use.holders]?) = some ⟨0, 128, []⟩ := by
    decide +kernel
  have hlent' : (use.serve? (.borrow a 10000)).bind (·.lent[use.holders]?) =
      some ⟨1, 16384, []⟩ := by
    decide +kernel
  rw [hserved] at hlent
  rw [hserved'] at hlent'
  refine ⟨use, hrun, ?_, by decide +kernel, hplaced 0 (by decide +kernel), ?_, ?_⟩
  · decide +kernel
  · exact ⟨small, rest, hserved, by simpa using hlent, hmet⟩
  · exact ⟨large, rest', hserved', by simpa using hlent', hmet'⟩

end BitSliced.Lending
