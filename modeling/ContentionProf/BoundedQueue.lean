import ContentionProf.Common
import ContentionProf.Cyclic
/-!
# BoundedQueue — the queue of samples (`common/bounded_queue.h`)

The fields have 32 bits, sums of them wrap, and an index is a `size_t` that `_mod` cuts to 32 bits.  A slot of the
storage holds nothing or a live item.  `none` is what no caller of the queue survives: a slot outside the storage, a
read, an assignment or a destruction where no item lives, a construction where one does, a `_mod` that never returns.
-/
namespace ContentionProf

abbrev U32 := BitVec 32

inductive StorageOwnership
  | ownsStorage
  | notOwnStorage
  deriving DecidableEq

structure BoundedQueue (T : Type) where
  count : U32
  cap : U32
  start : U32
  ownership : StorageOwnership
  /-- What the slots of the storage hold. -/
  items : Nat → Option T

namespace BoundedQueue

variable {T : Type}

/-- The constructors that get storage, for as many items as it has room for. -/
def construct (capacity : U64) (ownership : StorageOwnership) : BoundedQueue T :=
  { count := 0, cap := capacity.setWidth 32, start := 0, ownership, items := fun _ => none }

/-- `BoundedQueue()`. -/
def construct0 : BoundedQueue T :=
  { count := 0, cap := 0, start := 0, ownership := .notOwnStorage, items := fun _ => none }

/-- The loop of `_mod`, for so many rounds. -/
def modLoop : Nat → U32 → U32 → Option U32
  | 0, _, _         => none
  | n + 1, off, cap => if cap ≤ off then modLoop n (off - cap) cap else some off

/-- `_mod`: more rounds than `off` are taken only by a loop that does not end. -/
def mod (off cap : U32) : Option U32 := modLoop (off.toNat + 1) off cap

/-- Reads the item of a slot. -/
def read (q : BoundedQueue T) (n : Nat) : Option T := if n < q.cap.toNat then q.items n else none

/-- Constructs an item in a slot. -/
def constructAt (q : BoundedQueue T) (n : Nat) (item : T) : Option (BoundedQueue T) :=
  if n < q.cap.toNat ∧ (q.items n).isNone then some { q with items := Function.update q.items n (some item) } else none

/-- Assigns to the item of a slot. -/
def assignAt (q : BoundedQueue T) (n : Nat) (item : T) : Option (BoundedQueue T) :=
  if n < q.cap.toNat ∧ (q.items n).isSome then some { q with items := Function.update q.items n (some item) } else none

/-- Destroys the item of a slot. -/
def destroyAt (q : BoundedQueue T) (n : Nat) : Option (BoundedQueue T) :=
  if n < q.cap.toNat ∧ (q.items n).isSome then some { q with items := Function.update q.items n none } else none

/-- `push(item)`. -/
def push (q : BoundedQueue T) (item : T) : Option (BoundedQueue T × Bool) :=
  if q.count < q.cap then do
    let n ← mod (q.start + q.count) q.cap
    let q ← q.constructAt n.toNat item
    return ({ q with count := q.count + 1 }, true)
  else
    return (q, false)

/-- `elim_push`. -/
def elimPush (q : BoundedQueue T) (item : T) : Option (BoundedQueue T) :=
  if q.count < q.cap then do
    let n ← mod (q.start + q.count) q.cap
    let q ← q.constructAt n.toNat item
    return { q with count := q.count + 1 }
  else do
    let q ← q.assignAt q.start.toNat item
    let n ← mod (q.start + 1) q.cap
    return { q with start := n }

/-- `push()`, for a default item: the address of the item. -/
def pushNew [Inhabited T] (q : BoundedQueue T) : Option (BoundedQueue T × Option Nat) :=
  if q.count < q.cap then do
    let n ← mod (q.start + q.count) q.cap
    let q ← ({ q with count := q.count + 1 } : BoundedQueue T).constructAt n.toNat default
    return (q, some n.toNat)
  else
    return (q, none)

/-- `push_top(item)`. -/
def pushTop (q : BoundedQueue T) (item : T) : Option (BoundedQueue T × Bool) :=
  if q.count < q.cap then do
    let q := { q with start := if q.start ≠ 0 then q.start - 1 else q.cap - 1 }
    let q := { q with count := q.count + 1 }
    let q ← q.constructAt q.start.toNat item
    return (q, true)
  else
    return (q, false)

/-- `push_top()`, for a default item. -/
def pushTopNew [Inhabited T] (q : BoundedQueue T) : Option (BoundedQueue T × Option Nat) :=
  if q.count < q.cap then do
    let q := { q with start := if q.start ≠ 0 then q.start - 1 else q.cap - 1 }
    let q := { q with count := q.count + 1 }
    let q ← q.constructAt q.start.toNat default
    return (q, some q.start.toNat)
  else
    return (q, none)

/-- `pop()`. -/
def pop (q : BoundedQueue T) : Option (BoundedQueue T × Bool) :=
  if q.count ≠ 0 then do
    let q := { q with count := q.count - 1 }
    let q ← q.destroyAt q.start.toNat
    let n ← mod (q.start + 1) q.cap
    return ({ q with start := n }, true)
  else
    return (q, false)

/-- `pop(item)`: what it copies, if it returns true. -/
def popCopy (q : BoundedQueue T) : Option (BoundedQueue T × Option T) :=
  if q.count ≠ 0 then do
    let q := { q with count := q.count - 1 }
    let item ← q.read q.start.toNat
    let q ← q.destroyAt q.start.toNat
    let n ← mod (q.start + 1) q.cap
    return ({ q with start := n }, some item)
  else
    return (q, none)

/-- `pop_bottom()`: a pointer is moved by both fields. -/
def popBottom (q : BoundedQueue T) : Option (BoundedQueue T × Bool) :=
  if q.count ≠ 0 then do
    let q := { q with count := q.count - 1 }
    let q ← q.destroyAt (q.start.toNat + q.count.toNat)
    return (q, true)
  else
    return (q, false)

/-- `pop_bottom(item)`: the index is a sum of 32 bits. -/
def popBottomCopy (q : BoundedQueue T) : Option (BoundedQueue T × Option T) :=
  if q.count ≠ 0 then do
    let q := { q with count := q.count - 1 }
    let item ← q.read (q.start + q.count).toNat
    let q ← q.destroyAt (q.start + q.count).toNat
    return (q, some item)
  else
    return (q, none)

/-- The loop of `clear`, with so many items to go. -/
def clearLoop : Nat → U32 → BoundedQueue T → Option (BoundedQueue T)
  | 0, _, q     => some q
  | k + 1, i, q => do
    let n ← mod (q.start + i) q.cap
    let q ← q.destroyAt n.toNat
    clearLoop k (i + 1) q

/-- `clear`. -/
def clear (q : BoundedQueue T) : Option (BoundedQueue T) := do
  let q ← clearLoop q.count.toNat 0 q
  return { q with count := 0, start := 0 }

/-- `top()`. -/
def top (q : BoundedQueue T) : Option Nat := if q.count ≠ 0 then some q.start.toNat else none

/-- `top(index)`. -/
def topAt (q : BoundedQueue T) (index : U64) : Option (Option Nat) :=
  if index < q.count.setWidth 64 then do
    let n ← mod ((q.start.setWidth 64 + index).setWidth 32) q.cap
    return some n.toNat
  else
    return none

/-- `bottom()`. -/
def bottom (q : BoundedQueue T) : Option (Option Nat) :=
  if q.count ≠ 0 then do
    let n ← mod (q.start + q.count - 1) q.cap
    return some n.toNat
  else
    return none

/-- `bottom(index)`. -/
def bottomAt (q : BoundedQueue T) (index : U64) : Option (Option Nat) :=
  if index < q.count.setWidth 64 then do
    let n ← mod (((q.start + q.count).setWidth 64 - index - 1).setWidth 32) q.cap
    return some n.toNat
  else
    return none

/-- `empty`. -/
def empty (q : BoundedQueue T) : Bool := q.count = 0

/-- `full`. -/
def full (q : BoundedQueue T) : Bool := q.cap = q.count

/-- `size`. -/
def size (q : BoundedQueue T) : U64 := q.count.setWidth 64

/-- `capacity`. -/
def capacity (q : BoundedQueue T) : U64 := q.cap.setWidth 64

/-- `swap`, of all five fields: both queues afterwards. -/
def swap (q rhs : BoundedQueue T) : BoundedQueue T × BoundedQueue T := (rhs, q)

/-- A queue of images in the same slots. -/
def map {A : Type} (f : T → A) (q : BoundedQueue T) : BoundedQueue A :=
  { count := q.count, cap := q.cap, start := q.start, ownership := q.ownership, items := fun n => (q.items n).map f }

variable {q : BoundedQueue T} {l : List T} {x : T} {n : Nat} {off cap i : U32}

/-- **The loop of `_mod` ends, with the remainder**, in as many rounds as there are numbers up to `off`. -/
theorem modLoop_eq (hcap : 0 < cap.toNat) :
    ∀ {n : Nat} {off : U32}, off.toNat < n → ∃ r, modLoop n off cap = some r ∧ r.toNat = off.toNat % cap.toNat
  | n + 1, off, hn => by
    rw [modLoop]
    split
    · rename_i hle
      have hle : cap.toNat ≤ off.toNat := hle
      have hsub : (off - cap).toNat = off.toNat - cap.toNat := by bv_omega
      obtain ⟨r, hr, hrn⟩ := modLoop_eq hcap (show (off - cap).toNat < n by omega)
      exact ⟨r, hr, by rw [hrn, hsub, ← Nat.mod_eq_sub_mod hle]⟩
    · rename_i hlt
      have hlt : off.toNat < cap.toNat := not_le.1 hlt
      exact ⟨off, rfl, (Nat.mod_eq_of_lt hlt).symm⟩

theorem mod_eq (hcap : 0 < cap.toNat) (off : U32) : ∃ r, mod off cap = some r ∧ r.toNat = off.toNat % cap.toNat :=
  modLoop_eq hcap (Nat.lt_succ_self _)

theorem capacity_toNat (q : BoundedQueue T) : q.capacity.toNat = q.cap.toNat := by
  rw [capacity, BitVec.toNat_setWidth, Nat.mod_eq_of_lt (by omega)]

theorem read_eq (hn : n < q.cap.toNat) (hx : q.items n = some x) : q.read n = some x := by simp [read, hn, hx]

theorem constructAt_eq (hn : n < q.cap.toNat) (hx : q.items n = none) (x : T) :
    q.constructAt n x = some { q with items := Function.update q.items n (some x) } := by simp [constructAt, hn, hx]

theorem assignAt_eq (hn : n < q.cap.toNat) (hx : q.items n = some x) (y : T) :
    q.assignAt n y = some { q with items := Function.update q.items n (some y) } := by simp [assignAt, hn, hx]

theorem destroyAt_eq (hn : n < q.cap.toNat) (hx : q.items n = some x) :
    q.destroyAt n = some { q with items := Function.update q.items n none } := by simp [destroyAt, hn, hx]

/-- **The queue holds the items of a list**, the first at the top. -/
structure Holds (q : BoundedQueue T) (l : List T) : Prop where
  cap_le : q.cap.toNat ≤ 2 ^ 31
  count_eq : q.count.toNat = l.length
  cyclic : Cyclic q.items q.cap.toNat q.start.toNat l

/-- The slot of an item, counted from the top. -/
def slot (q : BoundedQueue T) (k : Nat) : Nat := (q.start.toNat + k) % q.cap.toNat

theorem Holds.construct {capacity : U64} {o : StorageOwnership} (hpos : 0 < capacity.toNat)
    (hle : capacity.toNat ≤ 2 ^ 31) : (construct capacity o : BoundedQueue T).Holds [] := by
  have hcap : (capacity.setWidth 32).toNat = capacity.toNat := by
    rw [BitVec.toNat_setWidth, Nat.mod_eq_of_lt (by omega)]
  refine ⟨?_, rfl, ?_⟩
  · show (capacity.setWidth 32).toNat ≤ 2 ^ 31
    omega
  · show Cyclic (fun _ => none) (capacity.setWidth 32).toNat 0 []
    exact Cyclic.empty (by omega)

namespace Holds

theorem cap_pos (h : q.Holds l) : 0 < q.cap.toNat := Nat.zero_lt_of_lt h.cyclic.start_lt

theorem count_ne_zero (h : q.Holds l) : q.count ≠ 0 ↔ l ≠ [] := by
  rw [← List.length_pos_iff, ← h.count_eq, Nat.pos_iff_ne_zero, ne_eq, ne_eq, ← BitVec.toNat_inj]
  rfl

theorem count_lt (h : q.Holds l) : q.count < q.cap ↔ l.length < q.cap.toNat := by
  rw [BitVec.lt_def, h.count_eq]

/-- **Within twice the capacity the sum of `_start` and an offset does not wrap.** -/
theorem mod_add (h : q.Holds l) (hi : i.toNat ≤ q.cap.toNat) :
    ∃ r, mod (q.start + i) q.cap = some r ∧ r.toNat = q.slot i.toNat := by
  obtain ⟨r, hr, hrn⟩ := mod_eq h.cap_pos (q.start + i)
  have hs := h.cyclic.start_lt
  have hc := h.cap_le
  have hadd : (q.start + i).toNat = q.start.toNat + i.toNat := by
    rw [BitVec.toNat_add, Nat.mod_eq_of_lt (by omega)]
  exact ⟨r, hr, by rw [hrn, hadd, slot]⟩

theorem mod_count (h : q.Holds l) :
    ∃ r, mod (q.start + q.count) q.cap = some r ∧ r.toNat = q.slot l.length := by
  obtain ⟨r, hr, hrn⟩ := h.mod_add (i := q.count) (by rw [h.count_eq]; exact h.cyclic.length_le)
  exact ⟨r, hr, by rw [hrn, h.count_eq]⟩

theorem mod_succ (h : q.Holds l) :
    ∃ r, mod (q.start + 1) q.cap = some r ∧ r.toNat = (q.start.toNat + 1) % q.cap.toNat :=
  h.mod_add (i := 1) h.cap_pos

theorem slot_lt (h : q.Holds l) (k : Nat) : q.slot k < q.cap.toNat := Nat.mod_lt _ h.cap_pos

theorem count_add_one (h : q.Holds l) (hl : l.length < q.cap.toNat) : (q.count + 1).toNat = l.length + 1 := by
  have hc := h.cap_le
  have hn := h.count_eq
  rw [BitVec.toNat_add, hn]
  exact Nat.mod_eq_of_lt (by simp; omega)

theorem count_sub_one (h : q.Holds l) (hl : l ≠ []) : (q.count - 1).toNat = l.length - 1 := by
  have hn := h.count_eq
  have hpos := List.length_pos_iff.2 hl
  bv_omega

/-- **An item behind the last one.** -/
theorem append (h : q.Holds l) (hl : l.length < q.cap.toNat) (x : T) :
    ({ q with count := q.count + 1, items := Function.update q.items (q.slot l.length) (some x) } :
      BoundedQueue T).Holds (l ++ [x]) :=
  ⟨h.cap_le, by rw [List.length_append]; exact h.count_add_one hl, h.cyclic.pushBack hl⟩

theorem push_of_lt (h : q.Holds l) (hl : l.length < q.cap.toNat) (x : T) :
    ∃ q', q.push x = some (q', true) ∧ q'.Holds (l ++ [x]) ∧ q'.cap = q.cap := by
  obtain ⟨r, hr, hrn⟩ := h.mod_count
  have hfree := h.cyclic.get_none le_rfl hl
  refine ⟨_, ?_, h.append hl x, rfl⟩
  rw [push, if_pos (h.count_lt.2 hl), hr, Option.bind_eq_bind, Option.bind_some, hrn,
    constructAt_eq (h.slot_lt _) hfree]
  rfl

theorem push_of_full (h : q.Holds l) (hl : ¬ l.length < q.cap.toNat) (x : T) : q.push x = some (q, false) := by
  rw [push, if_neg (fun hc => hl (h.count_lt.1 hc))]
  rfl

theorem elimPush_of_lt (h : q.Holds l) (hl : l.length < q.cap.toNat) (x : T) :
    ∃ q', q.elimPush x = some q' ∧ q'.Holds (l ++ [x]) ∧ q'.cap = q.cap := by
  obtain ⟨r, hr, hrn⟩ := h.mod_count
  have hfree := h.cyclic.get_none le_rfl hl
  refine ⟨_, ?_, h.append hl x, rfl⟩
  rw [elimPush, if_pos (h.count_lt.2 hl), hr, Option.bind_eq_bind, Option.bind_some, hrn,
    constructAt_eq (h.slot_lt _) hfree]
  rfl

/-- **In a full queue the new item takes the slot of the first one.** -/
theorem elimPush_of_full {y : T} (h : q.Holds (y :: l)) (hl : ¬ l.length + 1 < q.cap.toNat) (x : T) :
    ∃ q', q.elimPush x = some q' ∧ q'.Holds (l ++ [x]) ∧ q'.cap = q.cap := by
  obtain ⟨r, hr, hrn⟩ := h.mod_succ
  have hfull : l.length + 1 = q.cap.toNat := le_antisymm h.cyclic.length_le (not_lt.1 hl)
  refine ⟨{ q with start := r, items := Function.update q.items q.start.toNat (some x) }, ?_, ⟨h.cap_le, ?_, ?_⟩, rfl⟩
  · rw [elimPush, if_neg (fun hc => hl (h.count_lt.1 hc)), Option.bind_eq_bind,
      assignAt_eq h.cyclic.start_lt h.cyclic.head, Option.bind_some]
    show (mod (q.start + 1) q.cap).bind _ = _
    rw [hr, Option.bind_some]
    rfl
  · rw [List.length_append]
    exact h.count_eq
  · show Cyclic _ q.cap.toNat r.toNat _
    rw [hrn]
    exact h.cyclic.replace hfull

theorem pushNew_of_lt [Inhabited T] (h : q.Holds l) (hl : l.length < q.cap.toNat) :
    ∃ q' n, q.pushNew = some (q', some n) ∧ q'.Holds (l ++ [default]) ∧ q'.cap = q.cap ∧
      q'.read n = some default := by
  obtain ⟨r, hr, hrn⟩ := h.mod_count
  have hfree := h.cyclic.get_none le_rfl hl
  refine ⟨_, q.slot l.length, ?_, h.append hl default, rfl, ?_⟩
  · rw [pushNew, if_pos (h.count_lt.2 hl), hr, Option.bind_eq_bind, Option.bind_some, hrn,
      constructAt_eq (by exact h.slot_lt _) (by exact hfree)]
    rfl
  · exact read_eq (h.slot_lt _) (Function.update_self _ _ _)

theorem pushNew_of_full [Inhabited T] (h : q.Holds l) (hl : ¬ l.length < q.cap.toNat) :
    q.pushNew = some (q, none) := by
  rw [pushNew, if_neg (fun hc => hl (h.count_lt.1 hc))]
  rfl

theorem top_slot (h : q.Holds l) :
    (if q.start ≠ 0 then q.start - 1 else q.cap - 1).toNat < q.cap.toNat ∧
      ((if q.start ≠ 0 then q.start - 1 else q.cap - 1).toNat + 1) % q.cap.toNat = q.start.toNat := by
  have hs := h.cyclic.start_lt
  by_cases h0 : q.start ≠ 0
  · have hsub : (q.start - 1).toNat + 1 = q.start.toNat := by
      have hne : q.start.toNat ≠ 0 := fun he => h0 (BitVec.eq_of_toNat_eq he)
      bv_omega
    rw [if_pos h0, hsub, Nat.mod_eq_of_lt hs]
    exact ⟨by omega, rfl⟩
  · have hz : q.start.toNat = 0 := by rw [not_not.1 h0]; rfl
    have hsub : (q.cap - 1).toNat + 1 = q.cap.toNat := by
      have hpos := h.cap_pos
      bv_omega
    rw [if_neg h0, hsub, Nat.mod_self, hz]
    exact ⟨by omega, rfl⟩

/-- **An item before the first one.** -/
theorem prepend {r : U32} (h : q.Holds l) (hl : l.length < q.cap.toNat) (hr : r.toNat < q.cap.toNat)
    (hs : (r.toNat + 1) % q.cap.toNat = q.start.toNat) (x : T) :
    ({ q with count := q.count + 1, start := r, items := Function.update q.items r.toNat (some x) } :
      BoundedQueue T).Holds (x :: l) := by
  refine ⟨h.cap_le, h.count_add_one hl, ?_⟩
  have hc := h.cyclic
  rw [← hs] at hc
  exact hc.pushFront hr hl

theorem top_free {r : U32} (h : q.Holds l) (hl : l.length < q.cap.toNat) (hr : r.toNat < q.cap.toNat)
    (hs : (r.toNat + 1) % q.cap.toNat = q.start.toNat) : q.items r.toNat = none := by
  have hlast := h.cyclic.get_none (i := q.cap.toNat - 1) (by omega) (by omega)
  rwa [← hs, Nat.mod_add_mod, show r.toNat + 1 + (q.cap.toNat - 1) = r.toNat + q.cap.toNat by omega,
    Nat.add_mod_right, Nat.mod_eq_of_lt hr] at hlast

theorem pushTop_of_lt (h : q.Holds l) (hl : l.length < q.cap.toNat) (x : T) :
    ∃ q', q.pushTop x = some (q', true) ∧ q'.Holds (x :: l) ∧ q'.cap = q.cap := by
  obtain ⟨hr, hs⟩ := h.top_slot
  refine ⟨_, ?_, h.prepend hl hr hs x, rfl⟩
  rw [pushTop, if_pos (h.count_lt.2 hl)]
  dsimp only
  rw [constructAt_eq (by exact hr) (by exact h.top_free hl hr hs)]
  rfl

theorem pushTop_of_full (h : q.Holds l) (hl : ¬ l.length < q.cap.toNat) (x : T) :
    q.pushTop x = some (q, false) := by
  rw [pushTop, if_neg (fun hc => hl (h.count_lt.1 hc))]
  rfl

theorem pushTopNew_of_lt [Inhabited T] (h : q.Holds l) (hl : l.length < q.cap.toNat) :
    ∃ q' n, q.pushTopNew = some (q', some n) ∧ q'.Holds (default :: l) ∧ q'.cap = q.cap ∧
      q'.read n = some default := by
  obtain ⟨hr, hs⟩ := h.top_slot
  refine ⟨_, _, ?_, h.prepend hl hr hs default, rfl, read_eq hr (Function.update_self _ _ _)⟩
  rw [pushTopNew, if_pos (h.count_lt.2 hl)]
  dsimp only
  rw [constructAt_eq (by exact hr) (by exact h.top_free hl hr hs)]
  rfl

theorem pushTopNew_of_full [Inhabited T] (h : q.Holds l) (hl : ¬ l.length < q.cap.toNat) :
    q.pushTopNew = some (q, none) := by
  rw [pushTopNew, if_neg (fun hc => hl (h.count_lt.1 hc))]
  rfl

/-- **The first item is gone.** -/
theorem tail {r : U32} (h : q.Holds (x :: l)) (hr : r.toNat = (q.start.toNat + 1) % q.cap.toNat) :
    ({ q with count := q.count - 1, start := r, items := Function.update q.items q.start.toNat none } :
      BoundedQueue T).Holds l := by
  refine ⟨h.cap_le, h.count_sub_one (List.cons_ne_nil _ _), ?_⟩
  show Cyclic _ q.cap.toNat r.toNat l
  rw [hr]
  exact h.cyclic.popFront

theorem pop_cons (h : q.Holds (x :: l)) : ∃ q', q.pop = some (q', true) ∧ q'.Holds l ∧ q'.cap = q.cap := by
  obtain ⟨r, hr, hrn⟩ := h.mod_succ
  refine ⟨_, ?_, h.tail hrn, rfl⟩
  rw [pop, if_pos (h.count_ne_zero.2 (List.cons_ne_nil _ _))]
  dsimp only
  rw [destroyAt_eq (by exact h.cyclic.start_lt) (by exact h.cyclic.head), Option.bind_eq_bind, Option.bind_some]
  dsimp only
  rw [hr]
  rfl

theorem pop_nil (h : q.Holds []) : q.pop = some (q, false) := by
  rw [pop, if_neg (fun hc => h.count_ne_zero.1 hc rfl)]
  rfl

theorem popCopy_cons (h : q.Holds (x :: l)) : ∃ q', q.popCopy = some (q', some x) ∧ q'.Holds l ∧ q'.cap = q.cap := by
  obtain ⟨r, hr, hrn⟩ := h.mod_succ
  refine ⟨_, ?_, h.tail hrn, rfl⟩
  rw [popCopy, if_pos (h.count_ne_zero.2 (List.cons_ne_nil _ _))]
  dsimp only
  rw [read_eq (by exact h.cyclic.start_lt) (by exact h.cyclic.head), Option.bind_eq_bind, Option.bind_some,
    destroyAt_eq (by exact h.cyclic.start_lt) (by exact h.cyclic.head), Option.bind_eq_bind, Option.bind_some]
  dsimp only
  rw [hr]
  rfl

theorem popCopy_nil (h : q.Holds []) : q.popCopy = some (q, none) := by
  rw [popCopy, if_neg (fun hc => h.count_ne_zero.1 hc rfl)]
  rfl

/-- **The last item is gone.** -/
theorem dropLast (h : q.Holds (l ++ [x])) :
    ({ q with count := q.count - 1, items := Function.update q.items (q.slot l.length) none } :
      BoundedQueue T).Holds l := by
  refine ⟨h.cap_le, ?_, h.cyclic.popBack⟩
  have hc := h.count_sub_one (List.append_ne_nil_of_right_ne_nil _ (List.cons_ne_nil _ _))
  rwa [List.length_append, List.length_singleton, Nat.add_sub_cancel] at hc

end Holds

/-- The bottom-most item lies where `pop_bottom` looks for it: the contents do not go round the end of the storage. -/
def BottomInside (q : BoundedQueue T) : Prop := q.count = 0 ∨ q.start.toNat + q.count.toNat ≤ q.cap.toNat

instance (q : BoundedQueue T) : Decidable q.BottomInside := inferInstanceAs (Decidable (_ ∨ _))

namespace Holds

/-- What `pop_bottom` adds up, in either way. -/
theorem bottom_sum (h : q.Holds (l ++ [x])) :
    (q.count - 1).toNat = l.length ∧ (q.start + (q.count - 1)).toNat = q.start.toNat + l.length := by
  have hc := h.dropLast.count_eq
  have hs := h.cyclic.start_lt
  have hle := h.cap_le
  have hlen := h.cyclic.length_le
  rw [List.length_append, List.length_singleton] at hlen
  refine ⟨hc, ?_⟩
  show (q.start + (q.count - 1)).toNat = _
  rw [BitVec.toNat_add, show (q.count - 1).toNat = l.length from hc, Nat.mod_eq_of_lt (by omega)]

theorem bottomInside (h : q.Holds (l ++ [x])) : q.BottomInside ↔ q.start.toNat + l.length < q.cap.toNat := by
  have hne := h.count_ne_zero.2 (List.append_ne_nil_of_right_ne_nil _ (List.cons_ne_nil _ _))
  rw [BottomInside, or_iff_right hne, h.count_eq, List.length_append, List.length_singleton]
  omega

/-- Without a wrap the slot of the last item is the sum. -/
theorem slot_last (h : q.Holds (l ++ [x])) (hin : q.BottomInside) : q.start.toNat + l.length = q.slot l.length :=
  (Nat.mod_eq_of_lt (h.bottomInside.1 hin)).symm

theorem last_live (h : q.Holds (l ++ [x])) : q.items (q.slot l.length) = some x := by
  have hx := h.cyclic.get (i := l.length) (by simp)
  simpa [slot] using hx

theorem popBottom_append (h : q.Holds (l ++ [x])) (hin : q.BottomInside) :
    ∃ q', q.popBottom = some (q', true) ∧ q'.Holds l ∧ q'.cap = q.cap := by
  refine ⟨_, ?_, h.dropLast, rfl⟩
  rw [popBottom, if_pos (h.count_ne_zero.2 (List.append_ne_nil_of_right_ne_nil _ (List.cons_ne_nil _ _)))]
  dsimp only
  rw [h.bottom_sum.1, h.slot_last hin, destroyAt_eq (by exact h.slot_lt _) (by exact h.last_live)]
  rfl

theorem popBottomCopy_append (h : q.Holds (l ++ [x])) (hin : q.BottomInside) :
    ∃ q', q.popBottomCopy = some (q', some x) ∧ q'.Holds l ∧ q'.cap = q.cap := by
  refine ⟨_, ?_, h.dropLast, rfl⟩
  rw [popBottomCopy, if_pos (h.count_ne_zero.2 (List.append_ne_nil_of_right_ne_nil _ (List.cons_ne_nil _ _)))]
  dsimp only
  rw [h.bottom_sum.2, h.slot_last hin, read_eq (by exact h.slot_lt _) (by exact h.last_live), Option.bind_eq_bind,
    Option.bind_some, destroyAt_eq (by exact h.slot_lt _) (by exact h.last_live)]
  rfl

theorem popBottom_nil (h : q.Holds []) : q.popBottom = some (q, false) := by
  rw [popBottom, if_neg (fun hc => h.count_ne_zero.1 hc rfl)]
  rfl

theorem popBottomCopy_nil (h : q.Holds []) : q.popBottomCopy = some (q, none) := by
  rw [popBottomCopy, if_neg (fun hc => h.count_ne_zero.1 hc rfl)]
  rfl

/-- **When the contents have gone round, `pop_bottom` leaves the storage.** -/
theorem popBottom_outside (h : q.Holds l) (hout : ¬ q.BottomInside) : q.popBottom = none ∧ q.popBottomCopy = none := by
  have hne : q.count ≠ 0 := fun h0 => hout (Or.inl h0)
  obtain ⟨l, x, rfl⟩ : ∃ l' x, l = l' ++ [x] := by
    rcases List.eq_nil_or_concat l with rfl | ⟨l', x, rfl⟩
    · exact absurd rfl (h.count_ne_zero.1 hne)
    · exact ⟨l', x, List.concat_eq_append⟩
  have hlt := mt h.bottomInside.2 hout
  constructor
  · rw [popBottom, if_pos hne]
    dsimp only
    rw [h.bottom_sum.1, destroyAt, if_neg (fun hc => hlt hc.1)]
    rfl
  · rw [popBottomCopy, if_pos hne]
    dsimp only
    rw [h.bottom_sum.2, read, if_neg hlt]
    rfl

/-- The loop of `clear`: the items before `i` are gone, those from `i` on are live. -/
theorem clearLoop_eq (hcap : q.cap.toNat ≤ 2 ^ 31) (hs : q.start.toNat < q.cap.toNat) :
    ∀ {l : List T} {i : U32} {items : Nat → Option T}, i.toNat + l.length ≤ q.cap.toNat →
      Cyclic items q.cap.toNat ((q.start.toNat + i.toNat) % q.cap.toNat) l →
      ∃ items', clearLoop l.length i { q with items } = some { q with items := items' } ∧
        ∃ start, Cyclic items' q.cap.toNat start []
  | [], i, items, _, hc => ⟨items, rfl, _, hc⟩
  | x :: l, i, items, hle, hc => by
    rw [List.length_cons] at hle
    have hi : (i + 1).toNat = i.toNat + 1 := by
      rw [BitVec.toNat_add]
      exact Nat.mod_eq_of_lt (by simp; omega)
    obtain ⟨r, hr, hrn⟩ := mod_eq (show 0 < q.cap.toNat by omega) (q.start + i)
    have hadd : (q.start + i).toNat = q.start.toNat + i.toNat := by
      rw [BitVec.toNat_add, Nat.mod_eq_of_lt (by omega)]
    rw [hadd] at hrn
    have hnext := hc.popFront
    rw [Nat.mod_add_mod, Nat.add_assoc, ← hi] at hnext
    obtain ⟨items', hitems, hfree⟩ := clearLoop_eq hcap hs (by omega) hnext
    refine ⟨items', ?_, hfree⟩
    rw [List.length_cons, clearLoop]
    dsimp only
    rw [hr, Option.bind_eq_bind, Option.bind_some, hrn,
      destroyAt_eq (by exact hc.start_lt) (by exact hc.head), Option.bind_eq_bind, Option.bind_some]
    exact hitems

/-- **`clear` destroys every item.** -/
theorem clear (h : q.Holds l) : ∃ q', q.clear = some q' ∧ q'.Holds [] ∧ q'.cap = q.cap := by
  have hc := h.cyclic
  rw [← Nat.mod_eq_of_lt h.cyclic.start_lt] at hc
  obtain ⟨items, hloop, start, hfree⟩ := clearLoop_eq h.cap_le h.cyclic.start_lt (i := 0)
    (by rw [show (0 : U32).toNat = 0 from rfl, Nat.zero_add]; exact h.cyclic.length_le) hc
  refine ⟨{ q with count := 0, start := 0, items }, ?_, ⟨h.cap_le, rfl, hfree.restart h.cap_pos⟩, rfl⟩
  rw [BoundedQueue.clear, h.count_eq, hloop]
  rfl

theorem top_cons (h : q.Holds (x :: l)) : q.top = some (q.slot 0) := by
  rw [top, if_pos (h.count_ne_zero.2 (List.cons_ne_nil _ _)), slot, Nat.add_zero, Nat.mod_eq_of_lt h.cyclic.start_lt]

theorem top_nil (h : q.Holds []) : q.top = none := by rw [top, if_neg (fun hc => h.count_ne_zero.1 hc rfl)]

theorem read_slot {k : Nat} (h : q.Holds l) (hk : k < l.length) : q.read (q.slot k) = some l[k] :=
  read_eq (h.slot_lt k) (h.cyclic.get hk)

theorem count_setWidth (h : q.Holds l) : (q.count.setWidth 64).toNat = l.length := by
  have hlen := h.cyclic.length_le
  have hc := h.cap_le
  rw [BitVec.toNat_setWidth, h.count_eq, Nat.mod_eq_of_lt (by omega)]

theorem size_eq (h : q.Holds l) : q.size.toNat = l.length := h.count_setWidth

theorem index_lt {index : U64} (h : q.Holds l) : index < q.count.setWidth 64 ↔ index.toNat < l.length := by
  rw [BitVec.lt_def, h.count_setWidth]

theorem topAt_of_lt {index : U64} (h : q.Holds l) (hi : index.toNat < l.length) :
    q.topAt index = some (some (q.slot index.toNat)) := by
  have hs := h.cyclic.start_lt
  have hlen := h.cyclic.length_le
  have hc := h.cap_le
  have hoff : ((q.start.setWidth 64 + index).setWidth 32).toNat = q.start.toNat + index.toNat := by
    simp only [BitVec.toNat_setWidth, BitVec.toNat_add]
    omega
  obtain ⟨r, hr, hrn⟩ := mod_eq h.cap_pos ((q.start.setWidth 64 + index).setWidth 32)
  rw [topAt, if_pos (h.index_lt.2 hi), hr, Option.bind_eq_bind, Option.bind_some, hrn, hoff]
  rfl

theorem topAt_of_le {index : U64} (h : q.Holds l) (hi : l.length ≤ index.toNat) : q.topAt index = some none := by
  rw [topAt, if_neg (fun hc => not_le.2 (h.index_lt.1 hc) hi)]
  rfl

theorem bottom_append (h : q.Holds (l ++ [x])) : q.bottom = some (some (q.slot l.length)) := by
  have hs := h.cyclic.start_lt
  have hc := h.cap_le
  have hlen := h.cyclic.length_le
  have hcount := h.count_eq
  rw [List.length_append, List.length_singleton] at hlen hcount
  have hoff : (q.start + q.count - 1).toNat = q.start.toNat + l.length := by
    have hadd : (q.start + q.count).toNat = q.start.toNat + (l.length + 1) := by
      rw [BitVec.toNat_add, hcount, Nat.mod_eq_of_lt (by omega)]
    bv_omega
  obtain ⟨r, hr, hrn⟩ := mod_eq h.cap_pos (q.start + q.count - 1)
  rw [bottom, if_pos (h.count_ne_zero.2 (List.append_ne_nil_of_right_ne_nil _ (List.cons_ne_nil _ _))), hr,
    Option.bind_eq_bind, Option.bind_some, hrn, hoff]
  rfl

theorem bottom_nil (h : q.Holds []) : q.bottom = some none := by
  rw [bottom, if_neg (fun hc => h.count_ne_zero.1 hc rfl)]
  rfl

theorem bottomAt_of_lt {index : U64} (h : q.Holds l) (hi : index.toNat < l.length) :
    q.bottomAt index = some (some (q.slot (l.length - 1 - index.toNat))) := by
  have hs := h.cyclic.start_lt
  have hlen := h.cyclic.length_le
  have hc := h.cap_le
  have hoff : (((q.start + q.count).setWidth 64 - index - 1).setWidth 32).toNat =
      q.start.toNat + (l.length - 1 - index.toNat) := by
    have hadd : ((q.start + q.count).setWidth 64).toNat = q.start.toNat + l.length := by
      rw [BitVec.toNat_setWidth, BitVec.toNat_add, h.count_eq, Nat.mod_eq_of_lt (by omega),
        Nat.mod_eq_of_lt (by omega)]
    have hsub : ((q.start + q.count).setWidth 64 - index - 1).toNat = q.start.toNat + (l.length - 1 - index.toNat) := by
      bv_omega
    rw [BitVec.toNat_setWidth, hsub, Nat.mod_eq_of_lt (by omega)]
  obtain ⟨r, hr, hrn⟩ := mod_eq h.cap_pos (((q.start + q.count).setWidth 64 - index - 1).setWidth 32)
  rw [bottomAt, if_pos (h.index_lt.2 hi), hr, Option.bind_eq_bind, Option.bind_some, hrn, hoff]
  rfl

theorem bottomAt_of_le {index : U64} (h : q.Holds l) (hi : l.length ≤ index.toNat) : q.bottomAt index = some none := by
  rw [bottomAt, if_neg (fun hc => not_le.2 (h.index_lt.1 hc) hi)]
  rfl

theorem slot_inj {i j : Nat} (h : q.Holds l) (hi : i < l.length) (hj : j < l.length) : q.slot i = q.slot j ↔ i = j :=
  Cyclic.mod_inj h.cyclic.start_lt (lt_of_lt_of_le hi h.cyclic.length_le) (lt_of_lt_of_le hj h.cyclic.length_le)

theorem map {A : Type} (f : T → A) (h : q.Holds l) : (q.map f).Holds (l.map f) :=
  ⟨h.cap_le, by rw [List.length_map]; exact h.count_eq, h.cyclic.map f⟩

theorem empty_eq (h : q.Holds l) : q.empty = l.isEmpty := by
  rw [BoundedQueue.empty, Bool.eq_iff_iff, decide_eq_true_iff, List.isEmpty_iff]
  exact not_iff_not.1 h.count_ne_zero

theorem full_eq (h : q.Holds l) : q.full = decide (q.cap.toNat = l.length) := by
  rw [full, ← h.count_eq, decide_eq_decide, BitVec.toNat_inj]

end Holds

end BoundedQueue
end ContentionProf
