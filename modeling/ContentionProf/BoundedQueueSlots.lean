import ContentionProf.BoundedQueueRuns
/-!
# BoundedQueueSlots — for which capacities `_mod` finds the slot (`common/bounded_queue.h`)

`_mod` is given a sum of 32 bits that stands for `_start` and an offset, and both are close to the capacity.  Up to a
capacity of `2 ^ 31` the sum does not wrap.  `max_capacity()` says that there may be almost twice as many items.
-/
namespace ContentionProf

/-- The methods whose slot lies an offset behind `_start`. -/
def QueueOp.Places {T : Type} : QueueOp T → Prop
  | .push _ | .pushNew | .elimPush _ | .topAt _ | .bottom | .bottomAt _ => True
  | .pushTop _ | .pushTopNew | .pop | .popCopy | .popBottom | .popBottomCopy | .clear | .top | .size | .empty
  | .full => False

namespace BoundedQueue

variable {T : Type}

/-- `max_capacity`. -/
def maxCapacity : U64 := (1 <<< 32) - 1

/-- What a method gives to `_mod`, each with the numbers it stands for. -/
def sums (q : BoundedQueue T) : QueueOp T → List (U32 × Nat)
  | .push _ | .pushNew => if q.count < q.cap then [(q.start + q.count, q.start.toNat + q.count.toNat)] else []
  | .elimPush _        =>
    if q.count < q.cap then [(q.start + q.count, q.start.toNat + q.count.toNat)]
    else [(q.start + 1, q.start.toNat + 1)]
  | .pop | .popCopy    => if q.count ≠ 0 then [(q.start + 1, q.start.toNat + 1)] else []
  | .clear             =>
    (List.range q.count.toNat).map (fun i => (q.start + BitVec.ofNat 32 i, q.start.toNat + i))
  | .topAt index       =>
    if index < q.count.setWidth 64 then
      [((q.start.setWidth 64 + index).setWidth 32, q.start.toNat + index.toNat)]
    else []
  | .bottom            =>
    if q.count ≠ 0 then [(q.start + q.count - 1, q.start.toNat + (q.count.toNat - 1))] else []
  | .bottomAt index    =>
    if index < q.count.setWidth 64 then
      [(((q.start + q.count).setWidth 64 - index - 1).setWidth 32,
        q.start.toNat + (q.count.toNat - 1 - index.toNat))]
    else []
  | .pushTop _ | .pushTopNew | .popBottom | .popBottomCopy | .top | .size | .empty | .full => []

/-- **Every loop of a method's `_mod` ends**, and finds the slot if the method places an item or looks for one: the sum
does not wrap, and its remainder is that of the numbers. -/
def Right (q : BoundedQueue T) (op : QueueOp T) : Prop :=
  ∀ p ∈ q.sums op, ∃ r, mod p.1 q.cap = some r ∧ (op.Places → r.toNat = p.2 % q.cap.toNat ∧ p.2 < 2 ^ 32)

variable {q : BoundedQueue T} {op : QueueOp T} {p : U32 × Nat}

/-- Each item fits, and the first one is in the storage. -/
structure InRange (q : BoundedQueue T) : Prop where
  start_lt : q.start.toNat < q.cap.toNat
  count_le : q.count.toNat ≤ q.cap.toNat

theorem count_toNat_pos (hne : q.count ≠ 0) : 0 < q.count.toNat :=
  Nat.pos_of_ne_zero (fun h0 => hne (BitVec.eq_of_toNat_eq h0))

theorem lt_of_index {index : U64} (hi : index < q.count.setWidth 64) : index.toNat < q.count.toNat := by
  have hlt := BitVec.lt_def.1 hi
  rwa [BitVec.toNat_setWidth, Nat.mod_eq_of_lt (by omega)] at hlt

/-- **The sums in 32 bits**, which as numbers are less than twice the capacity. -/
theorem InRange.sums (h : q.InRange) (hp : p ∈ q.sums op) : p.1.toNat = p.2 % 2 ^ 32 ∧ p.2 < 2 * q.cap.toNat := by
  have hs := h.start_lt
  have hc := h.count_le
  cases op with
  | push x | pushNew =>
    rw [BoundedQueue.sums, List.mem_ite_nil_right, List.mem_singleton] at hp
    obtain ⟨-, rfl⟩ := hp
    exact ⟨BitVec.toNat_add _ _, by dsimp only; omega⟩
  | elimPush x =>
    rw [BoundedQueue.sums] at hp
    by_cases hroom : q.count < q.cap
    · rw [if_pos hroom, List.mem_singleton] at hp
      subst hp
      exact ⟨BitVec.toNat_add _ _, by dsimp only; omega⟩
    · rw [if_neg hroom, List.mem_singleton] at hp
      subst hp
      exact ⟨BitVec.toNat_add _ _, by dsimp only; omega⟩
  | pop | popCopy =>
    rw [BoundedQueue.sums, List.mem_ite_nil_right, List.mem_singleton] at hp
    obtain ⟨-, rfl⟩ := hp
    exact ⟨BitVec.toNat_add _ _, by dsimp only; omega⟩
  | clear =>
    obtain ⟨i, hi, rfl⟩ := List.mem_map.1 hp
    rw [List.mem_range] at hi
    refine ⟨?_, by dsimp only; omega⟩
    rw [BitVec.toNat_add, BitVec.toNat_ofNat, Nat.add_mod_mod]
  | topAt index =>
    rw [BoundedQueue.sums, List.mem_ite_nil_right, List.mem_singleton] at hp
    obtain ⟨hi, rfl⟩ := hp
    have hindex := lt_of_index hi
    refine ⟨?_, by dsimp only; omega⟩
    simp only [BitVec.toNat_setWidth, BitVec.toNat_add]
    omega
  | bottom =>
    rw [BoundedQueue.sums, List.mem_ite_nil_right, List.mem_singleton] at hp
    obtain ⟨hne, rfl⟩ := hp
    have hpos := count_toNat_pos hne
    refine ⟨?_, by dsimp only; omega⟩
    dsimp only
    bv_omega
  | bottomAt index =>
    rw [BoundedQueue.sums, List.mem_ite_nil_right, List.mem_singleton] at hp
    obtain ⟨hi, rfl⟩ := hp
    have hindex := lt_of_index hi
    refine ⟨?_, by dsimp only; omega⟩
    dsimp only
    bv_omega
  | _ => cases hp

/-- **The remainder is right exactly if the sum does not wrap**: one that wraps leaves a number less than the capacity,
and that is `2 ^ 32` away from the sum, not a capacity. -/
theorem mod_eq_iff {off cap : U32} {n : Nat} (hcap : 0 < cap.toNat) (hoff : off.toNat = n % 2 ^ 32)
    (hn : n < 2 * cap.toNat) : (∃ r, mod off cap = some r ∧ r.toNat = n % cap.toNat) ↔ n < 2 ^ 32 := by
  obtain ⟨r, hr, hrn⟩ := mod_eq hcap off
  have hlt := cap.isLt
  constructor
  · rintro ⟨r', hr', hn'⟩
    rw [hr] at hr'
    cases hr'
    by_contra hwrap
    rw [hrn, hoff, Nat.mod_eq_sub_mod (by omega : 2 ^ 32 ≤ n), Nat.mod_eq_of_lt (by omega : n - 2 ^ 32 < 2 ^ 32),
      Nat.mod_eq_of_lt (by omega : n - 2 ^ 32 < cap.toNat), Nat.mod_eq_sub_mod (by omega : cap.toNat ≤ n),
      Nat.mod_eq_of_lt (by omega : n - cap.toNat < cap.toNat)] at hn'
    omega
  · intro hno
    exact ⟨r, hr, by rw [hrn, hoff, Nat.mod_eq_of_lt hno]⟩

/-- **A call is right exactly if no sum of its slots wraps.** -/
theorem InRange.right_iff (h : q.InRange) : q.Right op ↔ ∀ p ∈ q.sums op, op.Places → p.2 < 2 ^ 32 := by
  have hcap : 0 < q.cap.toNat := Nat.zero_lt_of_lt h.start_lt
  constructor
  · intro hright p hp hop
    obtain ⟨r, -, hr⟩ := hright p hp
    exact (hr hop).2
  · intro hno p hp
    obtain ⟨hoff, hlt⟩ := h.sums hp
    obtain ⟨r, hr, -⟩ := mod_eq hcap p.1
    refine ⟨r, hr, fun hop => ⟨?_, hno p hp hop⟩⟩
    obtain ⟨r', hr', hn⟩ := (mod_eq_iff hcap hoff hlt).2 (hno p hp hop)
    rw [hr] at hr'
    cases hr'
    exact hn

theorem InRange.right (h : q.InRange) (hle : q.cap.toNat ≤ 2 ^ 31) : q.Right op := by
  refine h.right_iff.2 (fun p hp _ => ?_)
  have hlt := (h.sums hp).2
  omega

theorem Holds.inRange {l : List T} (h : q.Holds l) : q.InRange :=
  ⟨h.cyclic.start_lt, by rw [h.count_eq]; exact h.cyclic.length_le⟩

theorem modLoop_zero : ∀ (n : Nat) (off : U32), modLoop n off 0 = none
  | 0, _       => rfl
  | n + 1, off => by
    rw [modLoop, if_pos (BitVec.le_def.2 (Nat.zero_le _))]
    exact modLoop_zero n _

/-- **Without room `elim_push` does not end.** -/
theorem elimPush_not_right (hcap : q.cap = 0) (x : T) : ¬ q.Right (.elimPush x) := by
  intro h
  have hfull : ¬ q.count < q.cap := by
    rw [hcap]
    exact BitVec.not_lt_zero
  obtain ⟨r, hr, -⟩ := h (q.start + 1, q.start.toNat + 1) (by rw [sums, if_neg hfull, List.mem_singleton])
  rw [hcap, mod, modLoop_zero] at hr
  cases hr

/-! ### A queue that has more than `2 ^ 31` places -/

/-- After one `push_top` all places but the last are filled from below. -/
def filled (cap : U32) (ownership : StorageOwnership) (x : T) (k : Nat) : BoundedQueue T :=
  { count := BitVec.ofNat 32 k, cap, start := cap - 1, ownership
    items := fun n => if n = cap.toNat - 1 ∨ n + 1 < k then some x else none }

variable {cap : U32} {o : StorageOwnership} {x : T} {k : Nat}

theorem filled_items (n : Nat) :
    (filled cap o x k).items n = if n = cap.toNat - 1 ∨ n + 1 < k then some x else none := rfl

theorem sub_one_toNat (hcap : 0 < cap.toNat) : (cap - 1).toNat = cap.toNat - 1 := by bv_omega

theorem pushTop_construct (cap : U32) (o : StorageOwnership) (x : T) (hcap : 0 < cap.toNat) :
    (construct (cap.setWidth 64) o : BoundedQueue T).pushTop x = some (filled cap o x 1, true) := by
  have hwidth : (cap.setWidth 64).setWidth 32 = cap := BitVec.setWidth_setWidth_of_le _ (by decide)
  have hroom : (0 : U32) < cap := BitVec.lt_def.2 hcap
  rw [pushTop, construct, hwidth, if_pos hroom]
  dsimp only
  rw [if_neg (not_not.2 rfl), constructAt_eq (by dsimp only; rw [sub_one_toNat hcap]; omega) rfl, sub_one_toNat hcap]
  have hitems : Function.update (fun _ => none) (cap.toNat - 1) (some x) = (filled cap o x 1).items := by
    funext n
    by_cases hn : n = cap.toNat - 1 <;> simp [filled, hn]
  dsimp only
  rw [hitems]
  rfl

/-- A push before the sum wraps. -/
theorem push_filled (cap : U32) (o : StorageOwnership) (x : T) {k : Nat} (hk : 0 < k)
    (hsum : cap.toNat - 1 + k < 2 ^ 32) (hroom : k < cap.toNat) :
    (filled cap o x k).push x = some (filled cap o x (k + 1), true) := by
  have hcount : (BitVec.ofNat 32 k).toNat = k := by rw [BitVec.toNat_ofNat, Nat.mod_eq_of_lt (by omega)]
  have hcap : 0 < cap.toNat := by omega
  obtain ⟨r, hr, hrn⟩ := mod_eq hcap (cap - 1 + BitVec.ofNat 32 k)
  have hslot : r.toNat = k - 1 := by
    rw [hrn, BitVec.toNat_add, sub_one_toNat hcap, hcount, Nat.mod_eq_of_lt hsum,
      show cap.toNat - 1 + k = k - 1 + cap.toNat by omega, Nat.add_mod_right, Nat.mod_eq_of_lt (by omega)]
  have hfree : (filled cap o x k).items (k - 1) = none := by
    rw [filled_items, if_neg (by omega)]
  have hitems : Function.update (filled cap o x k).items (k - 1) (some x) = (filled cap o x (k + 1)).items := by
    funext n
    by_cases hn : n = k - 1
    · have hin : n = cap.toNat - 1 ∨ n + 1 < k + 1 := by omega
      rw [hn, Function.update_self, ← hn, filled_items, if_pos hin]
    · have hin : n = cap.toNat - 1 ∨ n + 1 < k ↔ n = cap.toNat - 1 ∨ n + 1 < k + 1 := by omega
      rw [Function.update_of_ne hn, filled_items, filled_items]
      exact if_congr hin rfl rfl
  have hlt : (filled cap o x k).count < (filled cap o x k).cap := BitVec.lt_def.2 (by rw [filled, hcount]; exact hroom)
  have hmod : mod ((filled cap o x k).start + (filled cap o x k).count) (filled cap o x k).cap = some r := hr
  rw [push, if_pos hlt, hmod, Option.bind_eq_bind, Option.bind_some, hslot,
    constructAt_eq (by show k - 1 < cap.toNat; omega) hfree, Option.bind_eq_bind, Option.bind_some, hitems]
  have hnext : (filled cap o x k).count + 1 = (filled cap o x (k + 1)).count := by
    show BitVec.ofNat 32 k + 1#32 = BitVec.ofNat 32 (k + 1)
    rw [BitVec.ofNat_add]
  dsimp only
  rw [hnext]
  rfl

/-- The next push is put into the wrong slot once the sum wraps. -/
theorem push_filled_not_right (cap : U32) (o : StorageOwnership) (x : T) {k : Nat} (hk : k < cap.toNat)
    (hsum : cap.toNat - 1 + k = 2 ^ 32) :
    ¬ (filled cap o x k).Right (.push x) := by
  have hcap : 0 < cap.toNat := by omega
  have hcount : (filled cap o x k).count.toNat = k := by
    show (BitVec.ofNat 32 k).toNat = k
    rw [BitVec.toNat_ofNat, Nat.mod_eq_of_lt (by omega)]
  have hstart : (filled cap o x k).start.toNat = cap.toNat - 1 := sub_one_toNat hcap
  have hin : (filled cap o x k).InRange :=
    ⟨by rw [hstart]; show cap.toNat - 1 < cap.toNat; omega, by rw [hcount]; exact hk.le⟩
  intro h
  have hlt : (filled cap o x k).count < (filled cap o x k).cap := BitVec.lt_def.2 (by rw [hcount]; exact hk)
  have hno := hin.right_iff.1 h _ (by rw [sums, if_pos hlt, List.mem_singleton]) trivial
  dsimp only at hno
  omega

end BoundedQueue

namespace Queues

variable {ι T : Type} [DecidableEq ι] [Inhabited T]

theorem step_on {s : State ι T} {i : ι} {op : QueueOp T} {q' : BoundedQueue T} {ret : QueueRet T}
    (h : (s.queue i).apply op = some (q', ret)) :
    ∃ s', queues.step s (.on i op) = some s' ∧ s'.queue i = q' := by
  refine ⟨{ queue := Function.update s.queue i q', returned := s.returned ++ [ret] }, ?_, Function.update_self _ _ _⟩
  show ((s.queue i).apply op).map _ = _
  rw [h]
  rfl

/-- A `push_top`, then so many pushes. -/
def filling (i : ι) (x : T) (k : Nat) : List (Call ι T) := .on i (.pushTop x) :: List.replicate k (.on i (.push x))

theorem run_filling (cap : ι → U32) (ownership : ι → StorageOwnership) (i : ι) (x : T)
    (hbig : 2 ^ 31 < (cap i).toNat) : ∀ k : Nat, (cap i).toNat + k ≤ 2 ^ 32 →
      ∃ s, queues.run (start (fun i => (cap i).setWidth 64) ownership) (filling i x k) = some s ∧
        s.queue i = .filled (cap i) (ownership i) x (k + 1)
  | 0, _      => by
    have hpush : ((start (fun i => (cap i).setWidth 64) ownership).queue i).apply (.pushTop x) =
        some (.filled (cap i) (ownership i) x 1, .bool true) := by
      rw [BoundedQueue.apply, start, BoundedQueue.pushTop_construct (cap i) (ownership i) x (by omega), Option.map_some]
    obtain ⟨s, hs, hq⟩ := step_on hpush
    exact ⟨s, by rw [filling, List.replicate_zero, System.run_cons, hs]; rfl, hq⟩
  | k + 1, hk => by
    obtain ⟨s, hs, hq⟩ := run_filling cap ownership i x hbig k (by omega)
    have hpush : (s.queue i).apply (.push x) = some (.filled (cap i) (ownership i) x (k + 1 + 1), .bool true) := by
      rw [BoundedQueue.apply, hq,
        BoundedQueue.push_filled (cap i) (ownership i) x (by omega : 0 < k + 1) (by omega) (by omega), Option.map_some]
    obtain ⟨s', hs', hq'⟩ := step_on hpush
    have hsnoc : (filling i x (k + 1) : List (Call ι T)) = filling i x k ++ [.on i (.push x)] := by
      rw [filling, List.replicate_succ', ← List.cons_append, ← filling]
    exact ⟨s', by rw [hsnoc, System.run_append, hs, Option.bind_some, System.run_cons, hs']; rfl, hq'⟩

/-- A call that is survived was in place. -/
theorem Stands.step_some {s s' : State ι T} {d : Spec ι T} {a : Call ι T} (h : Stands s d)
    (hs : queues.step s a = some s') : Stands s' (d.apply a) := by
  by_cases hin : InPlace s a
  · obtain ⟨s₁, hs₁, h₁⟩ := h.step a hin
    rw [show queues.step s a = some s₁ from hs₁] at hs
    cases hs
    exact h₁
  · rw [show queues.step s a = none from h.step_outside a hin] at hs
    cases hs

theorem Stands.run : ∀ {calls : List (Call ι T)} {s s' : State ι T} {d : Spec ι T}, Stands s d →
    queues.run s calls = some s' → Stands s' (calls.foldl Spec.apply d)
  | [], s, s', d, h, hr         => by
    cases hr
    exact h
  | a :: calls, s, s', d, h, hr => by
    rw [System.run_cons] at hr
    obtain ⟨s₁, hs, hr'⟩ := Option.bind_eq_some_iff.1 hr
    exact (h.step_some hs).run hr'

/-- **Every call of every run on any queues is right exactly if each capacity is 1 to `2 ^ 31`.** -/
theorem slots_right_iff (cap : ι → U32) (ownership : ι → StorageOwnership) :
    (∀ (calls : List (Call ι T)) (s : State ι T),
      queues.run (start (fun i => (cap i).setWidth 64) ownership) calls = some s → ∀ i op, (s.queue i).Right op) ↔
    ∀ i, 1 ≤ (cap i).toNat ∧ (cap i).toNat ≤ 2 ^ 31 := by
  constructor
  · intro h i
    constructor
    · by_contra hzero
      have hcap : cap i = 0 := BitVec.eq_of_toNat_eq (by simpa using hzero)
      have hstart := h [] _ rfl i (.elimPush (default : T))
      refine BoundedQueue.elimPush_not_right ?_ (default : T) hstart
      show ((cap i).setWidth 64).setWidth 32 = 0
      rw [hcap]
      rfl
    · by_contra hbig
      have hlt := (cap i).isLt
      obtain ⟨s, hs, hq⟩ := run_filling cap ownership i (default : T) (by omega) (2 ^ 32 - (cap i).toNat) (by omega)
      have hwrong := BoundedQueue.push_filled_not_right (cap i) (ownership i) (default : T)
        (show 2 ^ 32 - (cap i).toNat + 1 < (cap i).toNat by omega) (by omega)
      rw [← hq] at hwrong
      exact hwrong (h _ s hs i (.push default))
  · intro hcap calls s hs i op
    have hwidth : ∀ j, ((cap j).setWidth 64).toNat = (cap j).toNat := fun j => by
      rw [BitVec.toNat_setWidth, Nat.mod_eq_of_lt (by have := (cap j).isLt; omega)]
    have hstart : Stands (start (fun j => (cap j).setWidth 64) ownership : State ι T) _ :=
      stands_start _ _ (fun j => by rw [hwidth]; exact hcap j)
    have hq := ((hstart.run hs).queue i).holds
    exact hq.inRange.right hq.cap_le

/-- One item in the last of as many places as `max_capacity()` allows, and one in the first. -/
def crowded : List (Call Unit Nat) := [.on () (.pushTop 1), .on () (.push 2)]

/-- **The next item is not for the second place, but for the first, where one lives**: it is not survived. -/
theorem crowded_wrong :
    (∃ s, queues.run (start (fun _ => BoundedQueue.maxCapacity) (fun _ => .ownsStorage)) crowded = some s ∧
      BoundedQueue.mod ((s.queue ()).start + (s.queue ()).count) (s.queue ()).cap = some 0 ∧
      ((s.queue ()).start.toNat + (s.queue ()).count.toNat) % (s.queue ()).cap.toNat = 1 ∧
      (s.queue ()).items 0 = some 2 ∧ ¬ (s.queue ()).Right (.push 3)) ∧
    queues.run (start (fun _ => BoundedQueue.maxCapacity) (fun _ => .ownsStorage)) (crowded ++ [.on () (.push 3)]) =
      none := by
  refine ⟨⟨_, rfl, rfl, rfl, rfl, fun h => ?_⟩, rfl⟩
  obtain ⟨r, -, hr⟩ := h _ (List.mem_singleton.2 rfl)
  exact absurd (hr trivial).2 (by decide)

end Queues
end ContentionProf
