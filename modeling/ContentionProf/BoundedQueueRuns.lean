import ContentionProf.BoundedQueue
import ContentionProf.Run
/-!
# BoundedQueueRuns — a bounded queue is a double-ended list, as long as `pop_bottom` meets no wrap

Any number of queues, which may be swapped.  The caller of a method that returns an address reads what lies there.
-/
namespace ContentionProf

/-- A call of a method. -/
inductive QueueOp (T : Type)
  | push (item : T)
  | pushNew
  | elimPush (item : T)
  | pushTop (item : T)
  | pushTopNew
  | pop
  | popCopy
  | popBottom
  | popBottomCopy
  | clear
  | top
  | topAt (index : U64)
  | bottom
  | bottomAt (index : U64)
  | size
  | empty
  | full

/-- What the caller has then. -/
inductive QueueRet (T : Type)
  | done
  | bool (b : Bool)
  | size (n : Nat)
  /-- `NULL` or `false`, or the item that was copied or lies at the address. -/
  | item (v : Option T)

/-- **A double-ended list** of at most `cap` items. -/
structure Deque (T : Type) where
  cap : Nat
  items : List T

namespace Deque

variable {T : Type} [Inhabited T]

def pushBack (d : Deque T) (x : T) : Deque T :=
  if d.items.length < d.cap then { d with items := d.items ++ [x] } else d

def pushFront (d : Deque T) (x : T) : Deque T := if d.items.length < d.cap then { d with items := x :: d.items } else d

/-- **What every method is for.** -/
def apply (d : Deque T) : QueueOp T → Deque T × QueueRet T
  | .push x         => (d.pushBack x, .bool (d.items.length < d.cap))
  | .pushNew        => (d.pushBack default, .item (if d.items.length < d.cap then some default else none))
  | .elimPush x     =>
    ({ d with items := (if d.items.length < d.cap then d.items else d.items.tail) ++ [x] }, .done)
  | .pushTop x      => (d.pushFront x, .bool (d.items.length < d.cap))
  | .pushTopNew     => (d.pushFront default, .item (if d.items.length < d.cap then some default else none))
  | .pop            => ({ d with items := d.items.tail }, .bool (!d.items.isEmpty))
  | .popCopy        => ({ d with items := d.items.tail }, .item d.items.head?)
  | .popBottom      => ({ d with items := d.items.dropLast }, .bool (!d.items.isEmpty))
  | .popBottomCopy  => ({ d with items := d.items.dropLast }, .item d.items.getLast?)
  | .clear          => ({ d with items := [] }, .done)
  | .top            => (d, .item d.items.head?)
  | .topAt index    => (d, .item d.items[index.toNat]?)
  | .bottom         => (d, .item d.items.getLast?)
  | .bottomAt index =>
    (d, .item (if index.toNat < d.items.length then d.items[d.items.length - 1 - index.toNat]? else none))
  | .size           => (d, .size d.items.length)
  | .empty          => (d, .bool d.items.isEmpty)
  | .full           => (d, .bool (d.cap = d.items.length))

end Deque

namespace BoundedQueue

variable {T : Type}

/-- The caller reads what an address stands for. -/
def load (q : BoundedQueue T) : Option Nat → Option (QueueRet T)
  | none   => some (.item none)
  | some n => (q.read n).map (fun x => .item (some x))

/-- A method, and what its caller has. -/
def apply [Inhabited T] (q : BoundedQueue T) : QueueOp T → Option (BoundedQueue T × QueueRet T)
  | .push x         => (q.push x).map (fun r => (r.1, .bool r.2))
  | .pushNew        => q.pushNew.bind (fun r => (r.1.load r.2).map (fun v => (r.1, v)))
  | .elimPush x     => (q.elimPush x).map (fun q => (q, .done))
  | .pushTop x      => (q.pushTop x).map (fun r => (r.1, .bool r.2))
  | .pushTopNew     => q.pushTopNew.bind (fun r => (r.1.load r.2).map (fun v => (r.1, v)))
  | .pop            => q.pop.map (fun r => (r.1, .bool r.2))
  | .popCopy        => q.popCopy.map (fun r => (r.1, .item r.2))
  | .popBottom      => q.popBottom.map (fun r => (r.1, .bool r.2))
  | .popBottomCopy  => q.popBottomCopy.map (fun r => (r.1, .item r.2))
  | .clear          => q.clear.map (fun q => (q, .done))
  | .top            => (q.load q.top).map (fun v => (q, v))
  | .topAt index    => (q.topAt index).bind (fun a => (q.load a).map (fun v => (q, v)))
  | .bottom         => q.bottom.bind (fun a => (q.load a).map (fun v => (q, v)))
  | .bottomAt index => (q.bottomAt index).bind (fun a => (q.load a).map (fun v => (q, v)))
  | .size           => some (q, .size q.size.toNat)
  | .empty          => some (q, .bool q.empty)
  | .full           => some (q, .bool q.full)

/-- **The queue stands for a double-ended list.** -/
structure Stands (q : BoundedQueue T) (d : Deque T) : Prop where
  holds : q.Holds d.items
  cap_eq : q.cap.toNat = d.cap

/-- What a call asks of the queue: `pop_bottom` finds the last item before the end of the storage. -/
def InPlace (q : BoundedQueue T) : QueueOp T → Prop
  | .popBottom | .popBottomCopy => q.BottomInside
  | _                           => True

instance (q : BoundedQueue T) : ∀ op : QueueOp T, Decidable (q.InPlace op)
  | .popBottom | .popBottomCopy => inferInstanceAs (Decidable q.BottomInside)
  | .push _ | .pushNew | .elimPush _ | .pushTop _ | .pushTopNew | .pop | .popCopy | .clear | .top | .topAt _ | .bottom
  | .bottomAt _ | .size | .empty | .full => .isTrue trivial

variable {q : BoundedQueue T} {d : Deque T} {l : List T} {x : T}

theorem Holds.load_slot {k : Nat} (h : q.Holds l) (hk : k < l.length) :
    q.load (some (q.slot k)) = some (.item l[k]?) := by
  rw [load, h.read_slot hk, List.getElem?_eq_getElem hk]
  rfl

/-- The queue afterwards, from what its specification says. -/
theorem Stands.of_holds {q' : BoundedQueue T} (h : q.Stands d) (h' : q'.Holds l) (hcap : q'.cap = q.cap) :
    q'.Stands { d with items := l } := ⟨h', by rw [hcap]; exact h.cap_eq⟩

variable [Inhabited T]

theorem Stands.pushes (h : q.Stands d) (x : T) :
    (∃ q', q.apply (.push x) = some (q', .bool (d.items.length < d.cap)) ∧ q'.Stands (d.pushBack x)) ∧
    (∃ q', q.apply (.pushTop x) = some (q', .bool (d.items.length < d.cap)) ∧ q'.Stands (d.pushFront x)) ∧
    (∃ q', q.apply .pushNew = some (q', .item (if d.items.length < d.cap then some default else none)) ∧
      q'.Stands (d.pushBack default)) ∧
    ∃ q', q.apply .pushTopNew = some (q', .item (if d.items.length < d.cap then some default else none)) ∧
      q'.Stands (d.pushFront default) := by
  have hh := h.holds
  unfold Deque.pushBack Deque.pushFront
  by_cases hl : d.items.length < d.cap
  · have hl' : d.items.length < q.cap.toNat := by rw [h.cap_eq]; exact hl
    simp only [hl, if_true, decide_true]
    obtain ⟨q₁, h₁, hq₁, hc₁⟩ := hh.push_of_lt hl' x
    obtain ⟨q₂, h₂, hq₂, hc₂⟩ := hh.pushTop_of_lt hl' x
    obtain ⟨q₃, n₃, h₃, hq₃, hc₃, hr₃⟩ := hh.pushNew_of_lt hl'
    obtain ⟨q₄, n₄, h₄, hq₄, hc₄, hr₄⟩ := hh.pushTopNew_of_lt hl'
    refine ⟨⟨q₁, ?_, h.of_holds hq₁ hc₁⟩, ⟨q₂, ?_, h.of_holds hq₂ hc₂⟩, ⟨q₃, ?_, h.of_holds hq₃ hc₃⟩,
      ⟨q₄, ?_, h.of_holds hq₄ hc₄⟩⟩
    · rw [apply, h₁, Option.map_some]
    · rw [apply, h₂, Option.map_some]
    · rw [apply, h₃, Option.bind_some, load, hr₃]
      rfl
    · rw [apply, h₄, Option.bind_some, load, hr₄]
      rfl
  · have hl' : ¬ d.items.length < q.cap.toNat := by rw [h.cap_eq]; exact hl
    simp only [hl, if_false, decide_false]
    refine ⟨⟨q, ?_, h⟩, ⟨q, ?_, h⟩, ⟨q, ?_, h⟩, ⟨q, ?_, h⟩⟩
    · rw [apply, hh.push_of_full hl', Option.map_some]
    · rw [apply, hh.pushTop_of_full hl', Option.map_some]
    · rw [apply, hh.pushNew_of_full hl']
      rfl
    · rw [apply, hh.pushTopNew_of_full hl']
      rfl

theorem Stands.elimPush (h : q.Stands d) (x : T) :
    ∃ q', q.apply (.elimPush x) = some (q', .done) ∧
      q'.Stands { d with items := (if d.items.length < d.cap then d.items else d.items.tail) ++ [x] } := by
  by_cases hl : d.items.length < d.cap
  · obtain ⟨q', h', hq', hc'⟩ := h.holds.elimPush_of_lt (by rw [h.cap_eq]; exact hl) x
    simp only [if_pos hl]
    exact ⟨q', by rw [apply, h', Option.map_some], h.of_holds hq' hc'⟩
  · obtain ⟨cap, items⟩ := d
    simp only [if_neg hl]
    cases items with
    | nil =>
      have hpos := h.holds.cap_pos
      rw [h.cap_eq] at hpos
      exact absurd hpos hl
    | cons y l =>
      obtain ⟨q', h', hq', hc'⟩ := h.holds.elimPush_of_full (by rw [h.cap_eq]; exact hl) x
      exact ⟨q', by rw [apply, h', Option.map_some], h.of_holds hq' hc'⟩

theorem Stands.pops (h : q.Stands d) :
    (∃ q', q.apply .pop = some (q', .bool (!d.items.isEmpty)) ∧ q'.Stands { d with items := d.items.tail }) ∧
    ∃ q', q.apply .popCopy = some (q', .item d.items.head?) ∧ q'.Stands { d with items := d.items.tail } := by
  obtain ⟨cap, items⟩ := d
  cases items with
  | nil =>
    refine ⟨⟨q, ?_, h⟩, ⟨q, ?_, h⟩⟩
    · rw [apply, h.holds.pop_nil]
      rfl
    · rw [apply, h.holds.popCopy_nil]
      rfl
  | cons x l =>
    obtain ⟨q₁, h₁, hq₁, hc₁⟩ := h.holds.pop_cons
    obtain ⟨q₂, h₂, hq₂, hc₂⟩ := h.holds.popCopy_cons
    refine ⟨⟨q₁, ?_, h.of_holds hq₁ hc₁⟩, ⟨q₂, ?_, h.of_holds hq₂ hc₂⟩⟩
    · rw [apply, h₁]
      rfl
    · rw [apply, h₂]
      rfl

theorem Stands.popBottoms (h : q.Stands d) (hin : q.BottomInside) :
    (∃ q', q.apply .popBottom = some (q', .bool (!d.items.isEmpty)) ∧ q'.Stands { d with items := d.items.dropLast }) ∧
    ∃ q', q.apply .popBottomCopy = some (q', .item d.items.getLast?) ∧
      q'.Stands { d with items := d.items.dropLast } := by
  obtain ⟨cap, items⟩ := d
  rcases List.eq_nil_or_concat items with rfl | ⟨l, x, rfl⟩
  · refine ⟨⟨q, ?_, h⟩, ⟨q, ?_, h⟩⟩
    · rw [apply, h.holds.popBottom_nil]
      rfl
    · rw [apply, h.holds.popBottomCopy_nil]
      rfl
  · rw [List.concat_eq_append] at h
    obtain ⟨q₁, h₁, hq₁, hc₁⟩ := h.holds.popBottom_append hin
    obtain ⟨q₂, h₂, hq₂, hc₂⟩ := h.holds.popBottomCopy_append hin
    simp only [List.concat_eq_append, List.dropLast_concat, List.getLast?_concat]
    refine ⟨⟨q₁, ?_, h.of_holds hq₁ hc₁⟩, ⟨q₂, ?_, h.of_holds hq₂ hc₂⟩⟩
    · rw [apply, h₁]
      simp
    · rw [apply, h₂]
      rfl

theorem Stands.addresses (h : q.Stands d) (index : U64) :
    q.apply .top = some (q, .item d.items.head?) ∧ q.apply (.topAt index) = some (q, .item d.items[index.toNat]?) ∧
    q.apply .bottom = some (q, .item d.items.getLast?) ∧
    q.apply (.bottomAt index) = some (q, .item
      (if index.toNat < d.items.length then d.items[d.items.length - 1 - index.toNat]? else none)) := by
  obtain ⟨cap, items⟩ := d
  have hh : q.Holds items := h.holds
  refine ⟨?_, ?_, ?_, ?_⟩
  · cases items with
    | nil =>
      rw [apply, hh.top_nil]
      rfl
    | cons x l =>
      rw [apply, hh.top_cons, hh.load_slot (Nat.succ_pos _)]
      rfl
  · by_cases hi : index.toNat < items.length
    · rw [apply, hh.topAt_of_lt hi, Option.bind_some, hh.load_slot hi, Option.map_some]
    · rw [apply, hh.topAt_of_le (not_lt.1 hi), List.getElem?_eq_none (not_lt.1 hi)]
      rfl
  · rcases List.eq_nil_or_concat items with rfl | ⟨l, x, rfl⟩
    · rw [apply, hh.bottom_nil]
      rfl
    · simp only [List.concat_eq_append] at hh ⊢
      rw [apply, hh.bottom_append, Option.bind_some, hh.load_slot (by simp), Option.map_some]
      simp
  · by_cases hi : index.toNat < items.length
    · rw [apply, hh.bottomAt_of_lt hi, Option.bind_some, hh.load_slot (by omega), Option.map_some, if_pos hi]
    · rw [apply, hh.bottomAt_of_le (not_lt.1 hi), if_neg hi]
      rfl

/-- **Each method does what it is for**, if it is called in place. -/
theorem Stands.apply (h : q.Stands d) (op : QueueOp T) (hin : q.InPlace op) :
    ∃ q', q.apply op = some (q', (d.apply op).2) ∧ q'.Stands (d.apply op).1 := by
  cases op with
  | push x => exact (h.pushes x).1
  | pushNew => exact (h.pushes default).2.2.1
  | elimPush x => exact h.elimPush x
  | pushTop x => exact (h.pushes x).2.1
  | pushTopNew => exact (h.pushes default).2.2.2
  | pop => exact h.pops.1
  | popCopy => exact h.pops.2
  | popBottom => exact (h.popBottoms hin).1
  | popBottomCopy => exact (h.popBottoms hin).2
  | clear =>
    obtain ⟨q', h', hq', hc'⟩ := h.holds.clear
    exact ⟨q', by rw [BoundedQueue.apply, h']; rfl, h.of_holds hq' hc'⟩
  | top => exact ⟨q, (h.addresses 0).1, h⟩
  | topAt index => exact ⟨q, (h.addresses index).2.1, h⟩
  | bottom => exact ⟨q, (h.addresses 0).2.2.1, h⟩
  | bottomAt index => exact ⟨q, (h.addresses index).2.2.2, h⟩
  | size => exact ⟨q, by rw [BoundedQueue.apply, h.holds.size_eq]; rfl, h⟩
  | empty => exact ⟨q, by rw [BoundedQueue.apply, h.holds.empty_eq]; rfl, h⟩
  | full => exact ⟨q, by rw [BoundedQueue.apply, h.holds.full_eq, h.cap_eq]; rfl, h⟩

/-- **Out of place a method is not survived.** -/
theorem Stands.apply_outside (h : q.Stands d) (op : QueueOp T) (hout : ¬ q.InPlace op) : q.apply op = none := by
  cases op with
  | popBottom => rw [BoundedQueue.apply, (h.holds.popBottom_outside hout).1]; rfl
  | popBottomCopy => rw [BoundedQueue.apply, (h.holds.popBottom_outside hout).2]; rfl
  | _ => exact absurd trivial hout

end BoundedQueue

/-! ### Runs on any number of queues -/

namespace Queues

/-- A method of one queue, or a swap of two. -/
inductive Call (ι T : Type)
  | on (i : ι) (op : QueueOp T)
  | swap (i j : ι)

/-- The queues, and what the calls so far returned. -/
structure State (ι T : Type) where
  queue : ι → BoundedQueue T
  returned : List (QueueRet T)

/-- The same with double-ended lists. -/
structure Spec (ι T : Type) where
  deque : ι → Deque T
  returned : List (QueueRet T)

variable {ι T : Type} [DecidableEq ι] [Inhabited T]

def step (s : State ι T) : Call ι T → Option (State ι T)
  | .on i op  => ((s.queue i).apply op).map (fun r =>
      { queue := Function.update s.queue i r.1, returned := s.returned ++ [r.2] })
  | .swap i j =>
    let r := (s.queue i).swap (s.queue j)
    some { queue := Function.update (Function.update s.queue i r.1) j r.2, returned := s.returned ++ [.done] }

def Spec.apply (d : Spec ι T) : Call ι T → Spec ι T
  | .on i op  =>
    let r := (d.deque i).apply op
    { deque := Function.update d.deque i r.1, returned := d.returned ++ [r.2] }
  | .swap i j =>
    { deque := Function.update (Function.update d.deque i (d.deque j)) j (d.deque i)
      returned := d.returned ++ [.done] }

/-- Each queue constructed with a capacity of its own. -/
def start (capacity : ι → U64) (ownership : ι → StorageOwnership) : State ι T :=
  { queue := fun i => .construct (capacity i) (ownership i), returned := [] }

def Spec.start (capacity : ι → U64) : Spec ι T :=
  { deque := fun i => { cap := (capacity i).toNat, items := [] }, returned := [] }

def queues : System (State ι T) (Call ι T) where
  init s := ∃ capacity ownership, s = start capacity ownership
  step := step

/-- Every queue stands for its list, and the same was returned. -/
structure Stands (s : State ι T) (d : Spec ι T) : Prop where
  queue : ∀ i, (s.queue i).Stands (d.deque i)
  returned : s.returned = d.returned

/-- Every `pop_bottom` of a call finds its queue's last item before the end of the storage. -/
def InPlace (s : State ι T) : Call ι T → Prop
  | .on i op  => (s.queue i).InPlace op
  | .swap _ _ => True

instance (s : State ι T) : ∀ a : Call ι T, Decidable (InPlace s a)
  | .on i op  => inferInstanceAs (Decidable ((s.queue i).InPlace op))
  | .swap _ _ => .isTrue trivial

theorem Stands.step {s : State ι T} {d : Spec ι T} (h : Stands s d) (a : Call ι T) (hin : InPlace s a) :
    ∃ s', Queues.step s a = some s' ∧ Stands s' (d.apply a) := by
  cases a with
  | on i op =>
    obtain ⟨q', hq', hs'⟩ := (h.queue i).apply op hin
    refine ⟨_, by rw [Queues.step, hq', Option.map_some], fun j => ?_, ?_⟩
    · by_cases hj : j = i
      · subst hj
        simpa [Spec.apply] using hs'
      · simpa [Spec.apply, hj] using h.queue j
    · simp [Spec.apply, h.returned]
  | swap i j =>
    refine ⟨_, rfl, fun k => ?_, ?_⟩
    · by_cases hj : k = j
      · subst hj
        simpa [Spec.apply, BoundedQueue.swap] using h.queue i
      · by_cases hi : k = i
        · subst hi
          simpa [Spec.apply, BoundedQueue.swap, hj] using h.queue j
        · simpa [Spec.apply, BoundedQueue.swap, hj, hi] using h.queue k
    · simp [Spec.apply, h.returned]

theorem Stands.step_outside {s : State ι T} {d : Spec ι T} (h : Stands s d) (a : Call ι T) (hout : ¬ InPlace s a) :
    Queues.step s a = none := by
  cases a with
  | on i op => rw [Queues.step, (h.queue i).apply_outside op hout, Option.map_none]
  | swap i j => exact absurd trivial hout

omit [DecidableEq ι] [Inhabited T] in
theorem stands_start (capacity : ι → U64) (ownership : ι → StorageOwnership)
    (hcap : ∀ i, 1 ≤ (capacity i).toNat ∧ (capacity i).toNat ≤ 2 ^ 31) :
    Stands (start capacity ownership : State ι T) (Spec.start capacity) := by
  refine ⟨fun i => ⟨.construct (hcap i).1 (hcap i).2, ?_⟩, rfl⟩
  show ((capacity i).setWidth 32).toNat = (capacity i).toNat
  rw [BitVec.toNat_setWidth, Nat.mod_eq_of_lt (by have := (hcap i).2; omega)]

/-- **Any calls on any queues** go through, leave what the double-ended lists hold and return what these return,
exactly if every `pop_bottom` meets a queue whose contents do not go round the end of its storage. -/
theorem behave_iff (capacity : ι → U64) (ownership : ι → StorageOwnership)
    (hcap : ∀ i, 1 ≤ (capacity i).toNat ∧ (capacity i).toNat ≤ 2 ^ 31) (calls : List (Call ι T)) :
    (∃ s, queues.run (start capacity ownership) calls = some s ∧ Stands s
      (calls.foldl Spec.apply (Spec.start capacity)))
      ↔ queues.RunOk InPlace (start capacity ownership) calls :=
  System.follows_iff_runOk (fun _ _ a h hin => h.step a hin) (fun _ _ a h hout => h.step_outside a hout)
    (stands_start capacity ownership hcap)

/-- Two items of three places, the last one taken back. -/
def straight : List (Call Unit Nat) := [.on () (.push 1), .on () (.push 2), .on () .popBottomCopy]

theorem behave_straight : ∃ s, queues.run (start (fun _ => 3) (fun _ => .ownsStorage)) straight = some s ∧
    Stands s (straight.foldl Spec.apply (Spec.start (fun _ => 3))) :=
  (behave_iff (fun _ => 3) (fun _ => .ownsStorage) (fun _ => by decide) straight).2 (by decide)

/-- Two places filled, the first item taken out and another one pushed, which goes to the first place. -/
def around : List (Call Unit Nat) :=
  [.on () (.push 1), .on () (.push 2), .on () .pop, .on () (.push 3), .on () .popBottom]

/-- **`pop_bottom` then looks behind the end of the storage.** -/
theorem around_outside : ¬ ∃ s, queues.run (start (fun _ => 2) (fun _ => .ownsStorage)) around = some s ∧
    Stands s (around.foldl Spec.apply (Spec.start (fun _ => 2))) := by
  rintro ⟨s, hs, -⟩
  have hnone : (queues.run (start (fun _ => 2) (fun _ => .ownsStorage)) around).isNone = true := by decide
  rw [hs] at hnone
  cases hnone

end Queues
end ContentionProf
