import ContentionProf.Completion
import ContentionProf.CombinerCompletion
/-!
# CombinerSections — every call of a reducer ends

`modify`, `exchange` and `load` lock the mutex of one element: a walk that owns `mtx_` waits for the thread that is
inside `modify` of the agent it comes to.  Here the lock of an element is a step of its own, and what its section does
and the unlock are another one.  Locking and unlocking a mutex runs no callback.
-/
namespace ContentionProf
namespace Combiner

variable {α : Type}

def Pc.isModify : Pc α → Bool
  | .modify _ => true
  | _         => false

namespace Readers

/-- The agent whose element the next step of the thread works on. -/
def touches (s : Readers α) (t : Thread) : Option Thread :=
  match s.read t with
  | .walk node _ _ => s.base.agents[node]?
  | .lock          => none
  | .idle          => match s.base.pc t with
    | .modify _        => some t
    | .exchange node _ => s.base.agents[node]?
    | .load            => some t
    | _                => none

/-- `Agent::reset`, at the beginning of `operator<<`, stores into the element. -/
def stores (s : Readers α) : Label α → Option Thread
  | .other (.submit t _) => if s.base.combiner t then none else some t
  | _                    => none

def Label.thread : Label α → Thread
  | .other a => a.thread
  | .get t   => t
  | .go t    => t

/-- The next step of the call that the thread is in. -/
def next (s : Readers α) (t : Thread) : Label α := if (s.read t).isIdle then .other (.go t) else .go t

end Readers

/-- A reducer with the mutexes of the elements. -/
structure Sections (α : Type) where
  base : Readers α
  /-- The owner of the mutex of a thread's agent. -/
  elementMtx : Thread → Option Thread

namespace Sections

inductive Label (α : Type)
  /-- A step that works on no element, or begins a call. -/
  | other (a : Readers.Label α)
  /-- The lock of an element. -/
  | enter (t : Thread)
  /-- What its section does, and the unlock. -/
  | leave (t : Thread)

def step (f : Sections α) : Label α → Option (Sections α)
  | .other a =>
    if (f.base.touches a.thread).isNone && ((f.base.stores a).bind f.elementMtx).isNone then
      (f.base.step a).map (fun b => { f with base := b })
    else none
  | .enter t => match f.base.touches t with
    | some v =>
      if (f.elementMtx v).isNone then some { f with elementMtx := Function.update f.elementMtx v (some t) } else none
    | none   => none
  | .leave t => match f.base.touches t with
    | some v =>
      if f.elementMtx v = some t then
        (f.base.step (f.base.next t)).map (fun b => ⟨b, Function.update f.elementMtx v none⟩)
      else none
    | none   => none

def system (α : Type) : System (Sections α) (Label α) where
  init f := (Readers.system α).init f.base ∧ f.elementMtx = (fun _ => none)
  step := step

/-- A step of the thread inside a call, or of a thread that leaves the section of an element. -/
def Label.moves (t : Thread) : Label α → Prop
  | .other a => a.goes t
  | .enter u => u = t
  | .leave _ => True

end Sections

/-! ## What holds of the reducer without the elements -/

variable {s s' : Readers α} {f f' : Sections α} {t u v : Thread}

structure Standing (s : Readers α) : Prop where
  locked : s.Locked
  nodup : s.base.agents.Nodup
  idle : ∀ t, s.base.pc t = .idle → (s.base.combiner t = true ↔ t ∈ s.base.agents)
  pc : ∀ t, (s.base.pc t).inside = true → s.base.mtx = some t
  read : ∀ t, (s.read t).inside = true → s.base.mtx = some t

theorem standing (h : (Readers.system α).Reachable s) : Standing s := by
  have hl : s.Locked := h.invariant (fun _ => locked_init) (fun _ _ _ h _ hs => locked_step h hs)
  obtain ⟨s, hs, rfl⟩ := Readers.exists_tagged h
  have hi := Readers.inv_reachable hs
  refine ⟨hl, hi.base.nodup, fun t hp => ?_, fun t hp => ?_, fun t hr => ?_⟩
  · have hpc := hi.base.pc t
    cases hpt : s.base.pc t with
    | idle => rw [hpt] at hpc; exact hpc
    | _ => simp [Readers.map, State.map, hpt, Pc.map] at hp
  · have hpc := hi.base.pc t
    have hp : ((s.base.pc t).map Prod.snd).inside = true := hp
    cases hpt : s.base.pc t with
    | exchange node tmp => rw [hpt] at hpc; exact hpc.2.1
    | load => rw [hpt] at hpc; exact hpc.2.2
    | erase val => rw [hpt] at hpc; exact hpc.2.2.1
    | _ => rw [hpt] at hp; cases hp
  · have hread := hi.read t
    have hr : ((s.read t).map Prod.snd).inside = true := hr
    cases hrt : s.read t with
    | walk node ret start => rw [hrt] at hread; exact hread.2.1
    | _ => rw [hrt] at hr; cases hr

/-- The list gets a new agent while `mtx_` is free, and loses one by its owner. -/
theorem agents_advance {b b' : State α} (hs : advance b t = some b') : b'.agents = b.agents ∨
    (b.mtx = none ∧ b'.agents = b.agents ++ [t]) ∨ ((b.pc t).inside = true ∧ b'.agents = b.agents.erase t) := by
  cases hp : b.pc t with
  | idle => simp [advance, hp] at hs
  | append v => cases hm : b.mtx <;> simp [advance, hp, hm] at hs; subst hs; exact .inr (.inl ⟨rfl, rfl⟩)
  | reset => cases hm : b.mtx <;> simp [advance, hp, hm] at hs; subst hs; exact .inl rfl
  | exchange node tmp => cases hn : b.agents[node]? <;> simp [advance, hp, hn] at hs <;> subst hs <;> exact .inl rfl
  | commit => cases hm : b.mtx <;> simp [advance, hp, hm] at hs; subst hs; exact .inl rfl
  | erase val => simp [advance, hp] at hs; subst hs; exact .inr (.inr ⟨rfl, rfl⟩)
  | _ => simp [advance, hp] at hs; subst hs; exact .inl rfl

theorem agents_step {a : Readers.Label α} (hs : s.step a = some s') : s'.base.agents = s.base.agents ∨
    (s.base.mtx = none ∧ s'.base.agents = s.base.agents ++ [a.thread]) ∨
      ((s.base.pc a.thread).inside = true ∧ s'.base.agents = s.base.agents.erase a.thread) := by
  cases a with
  | other a =>
    obtain ⟨-, hs⟩ := Option.ite_none_right_eq_some.1 hs
    obtain ⟨b, hb, rfl⟩ := Option.map_eq_some_iff.1 hs
    cases a with
    | submit t v =>
      obtain ⟨-, hb⟩ := Option.ite_none_right_eq_some.1 hb
      cases hb
      refine .inl ?_
      unfold submit
      dsimp only
      split <;> rfl
    | reset t => obtain ⟨-, hb⟩ := Option.ite_none_right_eq_some.1 hb; cases hb; exact .inl rfl
    | exit t => obtain ⟨-, hb⟩ := Option.ite_none_right_eq_some.1 hb; cases hb; exact .inl rfl
    | go t => exact agents_advance hb
  | get t =>
    obtain ⟨-, hs⟩ := Option.ite_none_right_eq_some.1 hs
    cases hs
    exact .inl rfl
  | go t =>
    have hs : s.advance t = some s' := hs
    unfold Readers.advance at hs
    split at hs
    · cases hs
    · split at hs <;> cases hs; exact .inl rfl
    · split at hs <;> cases hs <;> exact .inl rfl

/-- A step moves one thread only. -/
theorem others_still {a : Readers.Label α} (hs : s.step a = some s') (ht : t ≠ a.thread) :
    s'.base.pc t = s.base.pc t ∧ s'.read t = s.read t := by
  cases a with
  | other a =>
    obtain ⟨-, hs⟩ := Option.ite_none_right_eq_some.1 hs
    obtain ⟨b, hb, rfl⟩ := Option.map_eq_some_iff.1 hs
    exact ⟨step_pc hb (Ne.symm ht), rfl⟩
  | get u =>
    obtain ⟨-, hs⟩ := Option.ite_none_right_eq_some.1 hs
    cases hs
    exact ⟨rfl, Function.update_of_ne ht ..⟩
  | go u =>
    have hs : s.advance u = some s' := hs
    unfold Readers.advance at hs
    split at hs
    · cases hs
    · split at hs <;> cases hs; exact ⟨rfl, Function.update_of_ne ht ..⟩
    · split at hs <;> cases hs <;> exact ⟨rfl, Function.update_of_ne ht ..⟩

/-- **Who works on an element** is inside `mtx_`, with its own agent or a listed one, or adds to its own. -/
theorem touches_cases (h : s.touches t = some v) :
    ((s.base.pc t).inside = true ∨ (s.read t).inside = true) ∧ (v = t ∨ v ∈ s.base.agents) ∨
      v = t ∧ s.read t = .idle ∧ (s.base.pc t).isModify = true := by
  unfold Readers.touches at h
  cases hr : s.read t <;> rw [hr] at h <;> dsimp only at h
  case walk node ret start => exact .inl ⟨.inr rfl, .inr (List.mem_of_getElem? h)⟩
  case lock => cases h
  case idle =>
    cases hp : s.base.pc t <;> rw [hp] at h <;> dsimp only at h
    case modify w => exact .inr ⟨(Option.some.inj h).symm, rfl, rfl⟩
    case exchange node tmp => exact .inl ⟨.inl rfl, .inr (List.mem_of_getElem? h)⟩
    case load => exact .inl ⟨.inl rfl, .inl (Option.some.inj h).symm⟩
    all_goals cases h

/-- What a thread works on does not change while others move: in a walk it owns `mtx_`. -/
theorem touches_other {a : Readers.Label α} (hst : Standing s) (hs : s.step a = some s') (ht : t ≠ a.thread)
    (h : s.touches t = some v) : s'.touches t = some v := by
  obtain ⟨hp, hr⟩ := others_still hs ht
  have hagents : s.base.mtx = some t → s'.base.agents = s.base.agents := by
    intro hm
    rcases agents_step hs with h | ⟨hnone, -⟩ | ⟨hin, -⟩
    · exact h
    · rw [hm] at hnone; cases hnone
    · have hm' := hst.pc _ hin
      rw [hm] at hm'
      exact absurd (Option.some.inj hm') ht
  unfold Readers.touches at h ⊢
  rw [hp, hr]
  cases hrt : s.read t <;> rw [hrt] at h <;> dsimp only at h ⊢
  case walk node ret start => rwa [hagents (hst.read t (by rw [hrt]; rfl))]
  case lock => cases h
  case idle =>
    cases hpt : s.base.pc t <;> rw [hpt] at h <;> dsimp only at h ⊢
    case exchange node tmp => rwa [hagents (hst.pc t (by rw [hpt]; rfl))]
    all_goals exact h

/-! ## The owners of the elements -/

namespace Sections

structure Inv (f : Sections α) : Prop where
  reach : (Readers.system α).Reachable f.base
  /-- Who owns the mutex of an element works on it. -/
  inside : ∀ {v t}, f.elementMtx v = some t → f.base.touches t = some v

/-- The thread is inside the section of an element. -/
def holds (f : Sections α) (t : Thread) : Bool := (f.base.touches t).any (fun v => f.elementMtx v == some t)

end Sections

open Sections (Inv)

theorem Sections.holds_iff : f.holds t = true ↔ ∃ v, f.base.touches t = some v ∧ f.elementMtx v = some t := by
  unfold Sections.holds
  rw [Option.any_eq_true]
  exact exists_congr fun v => and_congr_right fun _ => beq_iff_eq

theorem Readers.next_thread (s : Readers α) (t : Thread) : (s.next t).thread = t := by
  unfold Readers.next
  split <;> rfl

/-- A thread that goes on takes the next step of its call. -/
theorem eq_next {a : Readers.Label α} (ha : a.goes t) (hs : s.step a = some s') : a = s.next t := by
  cases a with
  | other a =>
    cases a with
    | go u =>
      obtain rfl : u = t := ha
      obtain ⟨hi, -⟩ := Option.ite_none_right_eq_some.1 hs
      exact (if_pos hi).symm
    | _ => exact ha.elim
  | get u => exact ha.elim
  | go u =>
    obtain rfl : u = t := ha
    have hno : (s.read u).isIdle = false := by
      cases hr : s.read u with
      | idle =>
        have hs : s.advance u = some s' := hs
        simp [Readers.advance, hr] at hs
      | _ => rfl
    exact (if_neg (by rw [hno]; exact Bool.false_ne_true)).symm

/-! ### Steps -/

theorem step_other {a : Readers.Label α} (hs : f.step (.other a) = some f') : f.base.touches a.thread = none ∧
    ∃ b, f.base.step a = some b ∧ f' = { f with base := b } := by
  obtain ⟨hc, hs⟩ := Option.ite_none_right_eq_some.1 hs
  obtain ⟨b, hb, rfl⟩ := Option.map_eq_some_iff.1 hs
  exact ⟨by simpa using (Bool.and_eq_true_iff.1 hc).1, b, hb, rfl⟩

theorem step_enter (hs : f.step (.enter t) = some f') : ∃ v, f.base.touches t = some v ∧ f.elementMtx v = none ∧
    f' = { f with elementMtx := Function.update f.elementMtx v (some t) } := by
  cases hv : f.base.touches t with
  | none => simp [Sections.step, hv] at hs
  | some v =>
    simp only [Sections.step, hv] at hs
    obtain ⟨hc, hs⟩ := Option.ite_none_right_eq_some.1 hs
    exact ⟨v, rfl, by simpa using hc, (Option.some.inj hs).symm⟩

theorem step_leave (hs : f.step (.leave t) = some f') : ∃ v b, f.base.touches t = some v ∧ f.elementMtx v = some t ∧
    f.base.step (f.base.next t) = some b ∧ f' = ⟨b, Function.update f.elementMtx v none⟩ := by
  cases hv : f.base.touches t with
  | none => simp [Sections.step, hv] at hs
  | some v =>
    simp only [Sections.step, hv] at hs
    obtain ⟨hc, hs⟩ := Option.ite_none_right_eq_some.1 hs
    obtain ⟨b, hb, rfl⟩ := Option.map_eq_some_iff.1 hs
    exact ⟨v, b, rfl, hc, hb, rfl⟩

theorem Sections.Inv.standing (h : f.Inv) : Standing f.base := Combiner.standing h.reach

theorem inv_init_sections (h : (Sections.system α).init f) : f.Inv :=
  ⟨.init h.1, fun hv => by rw [h.2] at hv; cases hv⟩

theorem inv_step_sections {a : Sections.Label α} (h : f.Inv) (hs : f.step a = some f') : f'.Inv := by
  cases a with
  | other a =>
    obtain ⟨hnone, b, hb, rfl⟩ := step_other hs
    refine ⟨h.reach.step trivial hb, fun {v u} hv => ?_⟩
    have hu := h.inside hv
    refine touches_other h.standing hb (fun hua => ?_) hu
    rw [hua, hnone] at hu
    cases hu
  | enter t =>
    obtain ⟨w, hw, -, rfl⟩ := step_enter hs
    refine ⟨h.reach, fun {v u} hv => ?_⟩
    dsimp only at hv
    rw [Function.update_apply] at hv
    split at hv
    · rename_i hvw
      cases hv
      rw [hvw]
      exact hw
    · exact h.inside hv
  | leave t =>
    obtain ⟨w, b, hw, hwt, hb, rfl⟩ := step_leave hs
    refine ⟨h.reach.step trivial hb, fun {v u} hv => ?_⟩
    dsimp only at hv
    rw [Function.update_apply] at hv
    split at hv
    · cases hv
    · rename_i hvw
      have hu := h.inside hv
      refine touches_other h.standing hb (fun hut => ?_) hu
      rw [hut, Readers.next_thread, hw] at hu
      exact hvw (Option.some.inj hu).symm

/-! ## How far a call is from its end -/

/-- Inside `modify`, where a walk may come by. -/
def Sections.adds (f : Sections α) (v : Thread) : Bool := (f.base.base.pc v).isModify && f.elementMtx v == some v

def Sections.adding (f : Sections α) : Nat := f.base.base.agents.countP f.adds

/-- A bound on the steps that are left of a call, with those of the threads that it may wait for at an element. -/
def Sections.left (f : Sections α) (t : Thread) : Nat :=
  if f.base.left t = 0 then 0 else 3 * f.base.left t + f.adding - if f.holds t then 2 else 0

theorem countP_lt {p q : Thread → Bool} : ∀ {l : List Thread},
    (∀ w ∈ l, q w = true → p w = true ∧ w ≠ v) → v ∈ l → p v = true → l.countP q < l.countP p
  | [], _, hv, _     => absurd hv List.not_mem_nil
  | w :: l, h, hv, hp => by
    have hle : l.countP q ≤ l.countP p :=
      List.countP_mono_left fun x hx hq => (h x (List.mem_cons_of_mem _ hx) hq).1
    rw [List.countP_cons, List.countP_cons]
    by_cases hw : w = v
    · have hq : q w = false := by
        by_contra hq
        exact (h w List.mem_cons_self (by simpa using hq)).2 hw
      rw [hq, hw, hp]
      exact Nat.lt_succ_of_le hle
    · have ih := countP_lt (fun x hx => h x (List.mem_cons_of_mem _ hx))
        ((List.mem_cons.1 hv).resolve_left (Ne.symm hw)) hp
      have hqw : (if q w = true then 1 else 0) ≤ if p w = true then 1 else 0 := by
        split_ifs with hq hpw hpw
        · exact Nat.le_refl _
        · exact absurd (h w List.mem_cons_self hq).1 hpw
        · exact Nat.zero_le _
        · exact Nat.le_refl _
      omega

theorem countP_le_succ {p q : Thread → Bool} : ∀ {l : List Thread}, l.Nodup →
    (∀ w ∈ l, q w = true → p w = true ∨ w = v) → l.countP q ≤ l.countP p + 1
  | [], _, _       => Nat.zero_le _
  | w :: l, hnd, h => by
    obtain ⟨hwl, hnd⟩ := List.nodup_cons.1 hnd
    rw [List.countP_cons, List.countP_cons]
    by_cases hw : w = v
    · -- no other one is `v`
      have hle : l.countP q ≤ l.countP p := List.countP_mono_left fun x hx hq =>
        (h x (List.mem_cons_of_mem _ hx) hq).resolve_right (fun hxv => hwl (by rw [hw, ← hxv]; exact hx))
      split_ifs <;> omega
    · have ih := countP_le_succ hnd (fun x hx => h x (List.mem_cons_of_mem _ hx))
      have hqw : (if q w = true then 1 else 0) ≤ if p w = true then 1 else 0 := by
        split_ifs with hq hpw hpw
        · exact Nat.le_refl _
        · exact absurd ((h w List.mem_cons_self hq).resolve_right hw) hpw
        · exact Nat.zero_le _
        · exact Nat.le_refl _
      omega

theorem Sections.adds_iff : f.adds v = true ↔ (f.base.base.pc v).isModify = true ∧ f.elementMtx v = some v := by
  unfold Sections.adds
  rw [Bool.and_eq_true, beq_iff_eq]

/-- A step adds nobody who is inside `modify`. -/
theorem adding_le {b : Readers α} {e : Thread → Option Thread} (hb : f.base.step (f.base.next t) = some b)
    (he : ∀ w, e w = some w → w ≠ t ∧ f.elementMtx w = some w) : (⟨b, e⟩ : Sections α).adding ≤ f.adding := by
  have ht : (⟨b, e⟩ : Sections α).adds t = false := by
    by_contra h
    exact (he t (Sections.adds_iff.1 (by simpa using h)).2).1 rfl
  have hle : b.base.agents.countP (⟨b, e⟩ : Sections α).adds ≤
      f.base.base.agents.countP (⟨b, e⟩ : Sections α).adds := by
    rcases agents_step hb with h | ⟨-, h⟩ | ⟨-, h⟩ <;> rw [h]
    · rw [Readers.next_thread, List.countP_append, List.countP_singleton, if_neg (by rw [ht]; exact Bool.false_ne_true)]
      exact Nat.le_refl _
    · exact List.erase_sublist.countP_le
  refine Nat.le_trans hle (List.countP_mono_left fun w _ hw => ?_)
  obtain ⟨hp, hw⟩ := Sections.adds_iff.1 hw
  obtain ⟨hwt, hold⟩ := he w hw
  have hpc := (others_still hb (t := w) (by rw [Readers.next_thread]; exact hwt)).1
  exact Sections.adds_iff.2 ⟨by rw [← hpc]; exact hp, hold⟩

/-- Who is inside a section stays inside while another thread moves. -/
theorem holds_other {b : Readers α} {e : Thread → Option Thread} (hi : f.Inv)
    (hb : f.base.step (f.base.next t) = some b) (hut : u ≠ t)
    (he : ∀ w, f.elementMtx w = some u → e w = some u) (h : f.holds u = true) :
    (⟨b, e⟩ : Sections α).holds u = true := by
  obtain ⟨v, hv, hm⟩ := Sections.holds_iff.1 h
  exact Sections.holds_iff.2
    ⟨v, touches_other hi.standing hb (by rw [Readers.next_thread]; exact hut) hv, he v hm⟩

/-- A call of which nothing more is left comes no further from its end. -/
theorem sections_left_le (hb : f'.base.left u ≤ f.base.left u) (ha : f'.adding ≤ f.adding)
    (hh : f.holds u = true → f'.holds u = true) : f'.left u ≤ f.left u := by
  unfold Sections.left
  by_cases hz : f'.base.left u = 0
  · rw [if_pos hz]
    exact Nat.zero_le _
  · rw [if_neg hz, if_neg (show ¬ f.base.left u = 0 by omega)]
    by_cases hold : f.holds u = true
    · rw [if_pos hold, if_pos (hh hold)]
      omega
    · rw [if_neg hold]
      omega

theorem sections_left_lt (hz : f.base.left t ≠ 0) (h : 3 * f'.base.left t + f'.adding + (if f.holds t then 2 else 0) <
    3 * f.base.left t + f.adding + if f'.holds t then 2 else 0) : f'.left t < f.left t := by
  unfold Sections.left
  rw [if_neg hz]
  by_cases hz' : f'.base.left t = 0
  · rw [if_pos hz']
    split_ifs <;> omega
  · rw [if_neg hz']
    split_ifs at h ⊢ <;> omega

/-- Inside `modify` the element gets the value and the call ends. -/
theorem modify_step (hr : s.read t = .idle) (hp : (s.base.pc t).isModify = true) : ∃ b, s.step (s.next t) = some b ∧
    b.base.agents = s.base.agents ∧ b.base.mtx = s.base.mtx ∧ b.read t = .idle ∧ b.base.pc t = .idle := by
  cases hpt : s.base.pc t with
  | modify v =>
    have hs : s.step (s.next t) =
        some { s with base := (s.base.setElement t (s.base.element t ++ [v])).setPc t .idle } := by
      unfold Readers.next
      rw [hr]
      simp [Readers.step, Read.isIdle, Label.thread, hr, Combiner.step, advance, hpt]
    exact ⟨_, hs, rfl, rfl, hr, Function.update_self ..⟩
  | _ => rw [hpt] at hp; cases hp

theorem left_other {b : Readers α} (hb : s.step (s.next t) = some b) (ha : b.base.agents = s.base.agents)
    (hut : u ≠ t) : b.left u = s.left u := by
  obtain ⟨hp, hr⟩ := others_still hb (t := u) (by rw [Readers.next_thread]; exact hut)
  unfold Readers.left
  rw [hp, hr, ha]

/-- What a move of the call of one thread brings about. -/
def Moved (f f' : Sections α) (t : Thread) : Prop :=
  f'.Inv ∧ f'.left t < f.left t ∧ (f'.base.base.mtx = none ∨ f'.base.base.mtx = some t) ∧
    ∀ u, f.base.base.mtx = some t → f'.left u ≤ f.left u

/-- The thread works on no element. -/
theorem moved_other {b : Readers α} (hi : f.Inv) (hz : f.base.left t ≠ 0) (ht : f.base.touches t = none)
    (hb : f.base.step (f.base.next t) = some b) (hnext : Next f.base b t) :
    f.step (.other (f.base.next t)) = some { f with base := b } ∧ Moved f { f with base := b } t := by
  obtain ⟨-, hlt, hm, hle⟩ := hnext
  have hs : f.step (.other (f.base.next t)) = some { f with base := b } := by
    have hstores : f.base.stores (f.base.next t) = none := by unfold Readers.next; split <;> rfl
    show (if _ then _ else none) = _
    rw [Readers.next_thread, ht, hstores, hb]
    rfl
  have hnot : f.holds t = false := by unfold Sections.holds; rw [ht]; rfl
  have hadd : (⟨b, f.elementMtx⟩ : Sections α).adding ≤ f.adding := by
    refine adding_le hb (fun w hw => ⟨fun hwt => ?_, hw⟩)
    rw [hwt] at hw
    have := hi.inside hw
    rw [ht] at this
    cases this
  have hltt : (⟨b, f.elementMtx⟩ : Sections α).left t < f.left t := by
    have hlt : (⟨b, f.elementMtx⟩ : Sections α).base.left t < f.base.left t := hlt
    refine sections_left_lt hz ?_
    rw [if_neg (by rw [hnot]; exact Bool.false_ne_true)]
    split_ifs <;> omega
  refine ⟨hs, inv_step_sections hi hs, hltt, hm, fun u hu => ?_⟩
  by_cases hut : u = t
  · rw [hut]; exact Nat.le_of_lt hltt
  · exact sections_left_le (hle u hu) hadd (holds_other hi hb hut fun _ hw => hw)

/-- It leaves the section. -/
theorem moved_leave {b : Readers α} (hi : f.Inv) (hz : f.base.left t ≠ 0) (ht : f.base.touches t = some v)
    (hv : f.elementMtx v = some t) (hb : f.base.step (f.base.next t) = some b) (hnext : Next f.base b t) :
    f.step (.leave t) = some ⟨b, Function.update f.elementMtx v none⟩ ∧
      Moved f ⟨b, Function.update f.elementMtx v none⟩ t := by
  obtain ⟨-, hlt, hm, hle⟩ := hnext
  have hs : f.step (.leave t) = some ⟨b, Function.update f.elementMtx v none⟩ := by
    simp only [Sections.step, ht, if_pos hv, hb]
    rfl
  have hhold : f.holds t = true := Sections.holds_iff.2 ⟨v, ht, hv⟩
  have hold : ∀ {w u}, Function.update f.elementMtx v none w = some u → w ≠ v ∧ f.elementMtx w = some u := by
    intro w u hw
    rw [Function.update_apply] at hw
    split at hw
    · cases hw
    · exact ⟨‹_›, hw⟩
  have hadd : (⟨b, Function.update f.elementMtx v none⟩ : Sections α).adding ≤ f.adding := by
    refine adding_le hb (fun w hw => ⟨fun hwt => ?_, (hold hw).2⟩)
    obtain ⟨hwv, hwe⟩ := hold hw
    rw [hwt] at hwe hwv
    have := hi.inside hwe
    rw [ht] at this
    exact hwv (Option.some.inj this).symm
  have hltt : (⟨b, Function.update f.elementMtx v none⟩ : Sections α).left t < f.left t := by
    have hlt : (⟨b, Function.update f.elementMtx v none⟩ : Sections α).base.left t < f.base.left t := hlt
    refine sections_left_lt hz ?_
    rw [if_pos hhold]
    split_ifs <;> omega
  refine ⟨hs, inv_step_sections hi hs, hltt, hm, fun u hu => ?_⟩
  by_cases hut : u = t
  · rw [hut]; exact Nat.le_of_lt hltt
  · refine sections_left_le (hle u hu) hadd (holds_other hi hb hut fun w hw => ?_)
    rw [Function.update_of_ne (fun hwv => ?_)]
    · exact hw
    · rw [hwv, hv] at hw
      exact hut (Option.some.inj hw).symm

/-- It locks a free element. -/
theorem moved_enter (hi : f.Inv) (hz : f.base.left t ≠ 0) (ht : f.base.touches t = some v)
    (hv : f.elementMtx v = none) (hm : f.base.base.mtx = none ∨ f.base.base.mtx = some t) :
    f.step (.enter t) = some { f with elementMtx := Function.update f.elementMtx v (some t) } ∧
      Moved f { f with elementMtx := Function.update f.elementMtx v (some t) } t := by
  have hs : f.step (.enter t) = some { f with elementMtx := Function.update f.elementMtx v (some t) } := by
    simp only [Sections.step, ht, hv]
    rfl
  let f' : Sections α := { f with elementMtx := Function.update f.elementMtx v (some t) }
  have hnot : f.holds t = false := by
    by_contra h
    obtain ⟨w, hw, hwt⟩ := Sections.holds_iff.1 (by simpa using h)
    rw [ht] at hw
    cases hw
    rw [hv] at hwt
    cases hwt
  have hhold : f'.holds t = true := Sections.holds_iff.2 ⟨v, ht, Function.update_self ..⟩
  have hadds : ∀ w, f'.adds w = true → f.adds w = true ∨ w = v := by
    intro w hw
    obtain ⟨hp, hw⟩ := Sections.adds_iff.1 hw
    by_cases hwv : w = v
    · exact .inr hwv
    · have hw : Function.update f.elementMtx v (some t) w = some w := hw
      rw [Function.update_of_ne hwv] at hw
      exact .inl (Sections.adds_iff.2 ⟨hp, hw⟩)
  have hadd : f'.adding ≤ f.adding + 1 := countP_le_succ hi.standing.nodup fun w _ => hadds w
  have hltt : f'.left t < f.left t := by
    have hz' : f'.base.left t = f.base.left t := rfl
    refine sections_left_lt hz ?_
    rw [hz', if_pos hhold, if_neg (by rw [hnot]; exact Bool.false_ne_true)]
    omega
  refine ⟨hs, inv_step_sections hi hs, hltt, hm, fun u hu => ?_⟩
  by_cases hut : u = t
  · rw [hut]; exact Nat.le_of_lt hltt
  · refine sections_left_le (Nat.le_refl _) (List.countP_mono_left fun w _ hw => ?_) (fun h => ?_)
    · -- the owner of `mtx_` is not inside `modify`
      refine (hadds w hw).resolve_right (fun hwv => ?_)
      obtain ⟨hp, hwm⟩ := Sections.adds_iff.1 hw
      have hwm : Function.update f.elementMtx v (some t) w = some w := hwm
      rw [hwv, Function.update_self] at hwm
      have htw : t = w := (Option.some.inj hwm).trans hwv.symm
      have hp : (f.base.base.pc w).isModify = true := hp
      rcases hi.standing.locked.inside t hu with hin | hin
      · rw [← htw] at hp
        cases hpt : f.base.base.pc t with
        | modify w => rw [hpt] at hin; cases hin
        | _ => rw [hpt] at hp; cases hp
      · rcases hi.standing.locked.one t with hr | hpt
        · rw [hr] at hin; cases hin
        · rw [← htw, hpt] at hp; cases hp
    · obtain ⟨w, hw, hwu⟩ := Sections.holds_iff.1 h
      refine Sections.holds_iff.2 ⟨w, hw, ?_⟩
      show Function.update f.elementMtx v (some t) w = some u
      rw [Function.update_of_ne (fun hwv => ?_)]
      · exact hwu
      · rw [hwv, hv] at hwu
        cases hwu

/-- The thread inside `modify` of the element that another one waits for leaves it. -/
theorem moved_away {x : Thread} (hi : f.Inv) (hz : f.base.left t ≠ 0) (ht : f.base.touches t = some v)
    (hx : f.elementMtx v = some x) (hxt : x ≠ t) (hm : f.base.base.mtx = none ∨ f.base.base.mtx = some t) :
    ∃ f', f.step (.leave x) = some f' ∧ Moved f f' t := by
  have hst := hi.standing
  have hout : ∀ {y}, (f.base.base.pc y).inside = true ∨ (f.base.read y).inside = true → y = t := by
    intro y hy
    have hy := hy.elim (hst.pc y) (hst.read y)
    rcases hm with hm | hm <;> rw [hm] at hy
    · cases hy
    · exact (Option.some.inj hy).symm
  have hxv := hi.inside hx
  obtain ⟨rfl, hr, hp⟩ : v = x ∧ f.base.read x = .idle ∧ (f.base.base.pc x).isModify = true := by
    rcases touches_cases hxv with ⟨hin, -⟩ | h
    · exact absurd (hout hin) hxt
    · exact h
  have hmem : v ∈ f.base.base.agents := by
    rcases touches_cases ht with ⟨-, h | h⟩ | ⟨h, -⟩
    · exact absurd h hxt
    · exact h
    · exact absurd h hxt
  obtain ⟨b, hb, hag, hmtx, hbr, hbp⟩ := modify_step hr hp
  let f' : Sections α := ⟨b, Function.update f.elementMtx v none⟩
  have hs : f.step (.leave v) = some f' := by
    simp only [Sections.step, hxv, if_pos hx, hb]
    rfl
  have hadds : ∀ w, f'.adds w = true → f.adds w = true ∧ w ≠ v := by
    intro w hw
    obtain ⟨hpw, hw⟩ := Sections.adds_iff.1 hw
    have hw : Function.update f.elementMtx v none w = some w := hw
    rw [Function.update_apply] at hw
    split at hw
    · cases hw
    · rename_i hwv
      have hpc := (others_still hb (t := w) (by rw [Readers.next_thread]; exact hwv)).1
      exact ⟨Sections.adds_iff.2 ⟨by rw [← hpc]; exact hpw, hw⟩, hwv⟩
  have hadd : f'.adding < f.adding := by
    unfold Sections.adding
    rw [show f'.base.base.agents = f.base.base.agents from hag]
    exact countP_lt (fun w _ => hadds w) hmem (Sections.adds_iff.2 ⟨hp, hx⟩)
  have hother : ∀ u, u ≠ v → f'.base.left u = f.base.left u := fun u hu => left_other hb hag hu
  have hholds : ∀ u, u ≠ v → f.holds u = true → f'.holds u = true := fun u hu => holds_other hi hb hu fun w hw => by
    rw [Function.update_of_ne (fun hwv => ?_)]
    · exact hw
    · rw [hwv, hx] at hw
      exact hu (Option.some.inj hw).symm
  refine ⟨f', hs, inv_step_sections hi hs, ?_, by rw [show f'.base.base.mtx = _ from hmtx]; exact hm, fun u _ => ?_⟩
  · have hh := hholds t (Ne.symm hxt)
    refine sections_left_lt hz ?_
    rw [hother t (Ne.symm hxt)]
    by_cases hold : f.holds t = true
    · rw [if_pos hold, if_pos (hh hold)]
      omega
    · rw [if_neg hold]
      omega
  · by_cases hu : u = v
    · have hzero : f'.base.left u = 0 := by
        unfold Readers.left
        rw [hu, show f'.base.read v = .idle from hbr, show f'.base.base.pc v = .idle from hbp]
        rfl
      exact Nat.le_trans (Nat.le_of_eq (if_pos hzero)) (Nat.zero_le _)
    · exact sections_left_le (Nat.le_of_eq (hother u hu)) (Nat.le_of_lt hadd) (hholds u hu)

theorem sections_left_pos (h : f.base.left t ≠ 0) : f.left t ≠ 0 := by
  unfold Sections.left
  rw [if_neg h]
  split_ifs <;> omega

/-- **The element mutexes leave one lock to wait for**: who is inside one of them can leave it. -/
theorem oneLock : System.OneLock (Sections.system α) Sections.Inv (fun t a => a.moves t) Sections.left
    (fun f => f.base.base.mtx) where
  inside f t hi hm := by
    refine sections_left_pos (Nat.ne_of_gt ?_)
    rcases hi.standing.locked.inside t hm with h | h
    · exact Nat.add_pos_right _ (Pc.left_pos h)
    · exact Nat.add_pos_left (Read.left_pos h) _
  go f t hi hz ho := by
    have hz : f.base.left t ≠ 0 := fun h => hz (if_pos h)
    have hm : f.base.base.mtx = none ∨ f.base.base.mtx = some t := by
      cases hm : f.base.base.mtx with
      | none => exact .inl rfl
      | some u => exact .inr (by rw [ho u hm])
    obtain ⟨a, b, ha, hb, hnext⟩ := goes_on hi.standing.locked hz ho
    obtain rfl := eq_next ha hb
    cases ht : f.base.touches t with
    | none =>
      obtain ⟨hs, hmoved⟩ := moved_other hi hz ht hb hnext
      exact ⟨.other (f.base.next t), _, ha, hs, hmoved⟩
    | some v =>
      cases hv : f.elementMtx v with
      | none =>
        obtain ⟨hs, hmoved⟩ := moved_enter hi hz ht hv hm
        exact ⟨.enter t, _, rfl, hs, hmoved⟩
      | some x =>
        by_cases hxt : x = t
        · obtain ⟨hs, hmoved⟩ := moved_leave hi hz ht (by rw [hv, hxt]) hb hnext
          exact ⟨.leave t, _, trivial, hs, hmoved⟩
        · obtain ⟨f', hs, hmoved⟩ := moved_away hi hz ht hv hxt hm
          exact ⟨.leave x, f', trivial, hs, hmoved⟩

theorem sections_left_bound (hi : f.Inv) (t : Thread) : f.left t ≤ 4 * f.base.base.agents.length + 9 := by
  have hb := left_bound hi.standing.locked t
  have ha : f.adding ≤ f.base.base.agents.length := List.countP_le_length
  unfold Sections.left
  split_ifs <;> omega

/-- `operator<<` begins without waiting: nobody is at the element of an agent that is not in the list. -/
theorem submit_begins (hi : f.Inv) (hr : f.base.read t = .idle) (hp : f.base.base.pc t = .idle) (v : α) :
    ∃ f', f.step (.other (.other (.submit t v))) = some f' := by
  have ht : f.base.touches t = none := by unfold Readers.touches; rw [hr, hp]
  have hfree : (f.base.stores (.other (.submit t v))).bind f.elementMtx = none := by
    show (if f.base.base.combiner t = true then none else some t).bind f.elementMtx = none
    split_ifs with hc
    · rfl
    · show f.elementMtx t = none
      by_contra hm
      obtain ⟨u, hu⟩ := Option.ne_none_iff_exists'.1 hm
      rcases touches_cases (hi.inside hu) with ⟨hin, hut | hmem⟩ | ⟨hut, -, hmod⟩
      · rw [← hut, hp, hr] at hin
        rcases hin with hin | hin <;> cases hin
      · exact hc ((hi.standing.idle t hp).2 hmem)
      · rw [← hut, hp] at hmod
        cases hmod
  have hs : f.base.step (.other (.submit t v)) = some { f.base with base := submit f.base.base t v } := by
    simp [Readers.step, Label.thread, hr, Read.isIdle, Combiner.step, hp, Pc.isIdle]
  refine ⟨{ f with base := { f.base with base := submit f.base.base t v } }, ?_⟩
  show (if _ then _ else none) = _
  rw [show f.base.touches (Readers.Label.other (.submit t v) : Readers.Label α).thread = none from ht, hfree, hs]
  rfl

/-- **Every call of a reducer ends**, whatever the other threads were doing: its own thread and the owner of `mtx_` go
on, each walks the list once, and who is inside the section of an element leaves it; nobody else moves.  And
`operator<<` can begin whenever its thread is in no call. -/
theorem calls_end (hr : (Sections.system α).Reachable f) (t : Thread) :
    (∃ as f', (Sections.system α).run f as = some f' ∧ f'.base.read t = .idle ∧ f'.base.base.pc t = .idle ∧
      as.length ≤ 8 * f.base.base.agents.length + 18 ∧
      ∀ a ∈ as, a.moves t ∨ ∃ u, f.base.base.mtx = some u ∧ a.moves u) ∧
    (f.base.read t = .idle → f.base.base.pc t = .idle → ∀ v, ∃ f',
      (Sections.system α).step f (.other (.other (.submit t v))) = some f') := by
  have hi : f.Inv := hr.invariant (fun _ => inv_init_sections) (fun _ _ _ h _ hs => inv_step_sections h hs)
  obtain ⟨as, f', hrun, -, hz, hlen, hall⟩ := oneLock.completes hi t
  have howner : System.ownerLeft Sections.left (fun f : Sections α => f.base.base.mtx) f t ≤
      4 * f.base.base.agents.length + 9 := by
    unfold System.ownerLeft
    dsimp only
    split
    · split
      · exact Nat.zero_le _
      · exact sections_left_bound hi _
    · exact Nat.zero_le _
  have hleft := sections_left_bound hi t
  have hbase : f'.base.left t = 0 := by
    by_contra hne
    exact sections_left_pos hne hz
  exact ⟨⟨as, f', hrun, (idle_of_left hbase).1, (idle_of_left hbase).2, by omega, hall⟩, submit_begins hi⟩

/-- Thread 1 has come to the agent of thread 2 in a `reset`, and thread 2 is inside `modify`, when thread 3 calls
`get_value`. -/
def waitingRun : List (Sections.Label Nat) :=
  [.other (.other (.submit 1 10)), .other (.other (.go 1)), .enter 1, .leave 1, .other (.other (.submit 2 20)),
    .other (.other (.go 2)), .enter 2, .other (.other (.reset 1)), .other (.other (.go 1)), .enter 1, .leave 1,
    .other (.get 3)]

theorem calls_end_waitingRun : ∃ f, (Sections.system Nat).Reachable f ∧ f.base.base.mtx = some 1 ∧
    f.base.touches 1 = some 2 ∧ f.elementMtx 2 = some 2 ∧ (f.base.read 3).isIdle = false ∧
    ∃ as f', (Sections.system Nat).run f as = some f' ∧ f'.base.read 3 = .idle ∧ f'.base.base.pc 3 = .idle ∧
      as.length ≤ 8 * f.base.base.agents.length + 18 ∧
      ∀ a ∈ as, a.moves 3 ∨ ∃ u, f.base.base.mtx = some u ∧ a.moves u := by
  have hrun : ((Sections.system Nat).run ⟨⟨emptyState, fun _ => .idle, []⟩, fun _ => none⟩ waitingRun).map
      (fun f => (f.base.base.mtx, f.base.touches 1, f.elementMtx 2, (f.base.read 3).isIdle)) =
        some (some 1, some 2, some 2, false) := by decide
  obtain ⟨f, hf, hx⟩ := Option.map_eq_some_iff.1 hrun
  obtain ⟨hm, hx⟩ := Prod.mk.inj hx
  obtain ⟨ht, hx⟩ := Prod.mk.inj hx
  obtain ⟨he, hr⟩ := Prod.mk.inj hx
  have hreach : (Sections.system Nat).Reachable f :=
    System.Reachable.run (.init ⟨⟨⟨rfl, rfl, rfl, rfl, rfl, rfl, rfl⟩, rfl, rfl⟩, rfl⟩) waitingRun hf
  exact ⟨f, hreach, hm, ht, he, hr, (calls_end hreach 3).1⟩

end Combiner
end ContentionProf
