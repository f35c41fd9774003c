import ContentionProf.CombinerReads
/-!
# CombinerCompletion — how far a call of a reducer is from its end

The sections of the elements apart, `operator<<`, `reset`, `get_value` and the exit of a thread wait for `mtx_` only,
and who has it walks a list that nobody else can change.
-/
namespace ContentionProf
namespace Combiner

variable {α : Type} {s s' : Readers α} {t u : Thread}

/-- Between the lock and the unlock of `mtx_`. -/
def Pc.inside : Pc α → Bool
  | .exchange _ _ => true
  | .load         => true
  | .erase _      => true
  | _             => false

def Read.inside : Read α → Bool
  | .walk _ _ _ => true
  | _           => false

/-- The steps that are left of a call, with `n` agents in the list. -/
def Pc.left (n : Nat) : Pc α → Nat
  | .idle            => 0
  | .append _        => 2
  | .modify _        => 1
  | .reset           => n + 2
  | .exchange node _ => n - node + 1
  | .commit          => 3
  | .load            => 2
  | .erase _         => 1

def Read.left (n : Nat) : Read α → Nat
  | .idle          => 0
  | .lock          => n + 2
  | .walk node _ _ => n - node + 1

namespace Readers

def left (s : Readers α) (t : Thread) : Nat :=
  (s.read t).left s.base.agents.length + (s.base.pc t).left s.base.agents.length

/-- A step of the thread inside a call. -/
def Label.goes (t : Thread) : Label α → Prop
  | .other (.go u) => u = t
  | .go u          => u = t
  | _              => False

/-- The owner of `mtx_` is inside, and a thread is in one call at a time. -/
structure Locked (s : Readers α) : Prop where
  inside : ∀ t, s.base.mtx = some t → (s.base.pc t).inside = true ∨ (s.read t).inside = true
  one : ∀ t, s.read t = .idle ∨ s.base.pc t = .idle

end Readers

/-! ## The owner is inside -/

/-- What a step does to `mtx_`: nothing, or its thread takes it or gives it back. -/
theorem step_mtx {s s' : State α} {a : Label α} (hs : step s a = some s') :
    (s'.mtx = s.mtx ∧ (s'.pc a.thread).inside = (s.pc a.thread).inside) ∨
      (s'.mtx = some a.thread ∧ (s'.pc a.thread).inside = true) ∨ s'.mtx = none := by
  have hpc : ∀ {s₁ : State α} {p : Pc α} {t : Thread}, (s₁.setPc t p).pc t = p := Function.update_self ..
  cases a with
  | submit t v =>
    simp only [step] at hs
    split at hs
    · rename_i hp
      cases hs
      have hp := isIdle_iff.1 hp
      refine .inl ?_
      unfold submit
      dsimp only [Label.thread]
      split <;> exact ⟨rfl, by rw [hpc, hp]; rfl⟩
    · cases hs
  | reset t =>
    simp only [step] at hs
    split at hs
    · rename_i hp
      cases hs
      exact .inl ⟨rfl, by rw [Label.thread, hpc, isIdle_iff.1 hp]; rfl⟩
    · cases hs
  | exit t =>
    simp only [step] at hs
    split at hs
    · rename_i hp
      cases hs
      exact .inl ⟨rfl, by rw [Label.thread, hpc, isIdle_iff.1 (Bool.and_eq_true_iff.1 hp).1]; rfl⟩
    · cases hs
  | go t =>
    have hs : advance s t = some s' := hs
    dsimp only [Label.thread]
    cases hp : s.pc t with
    | idle => simp [advance, hp] at hs
    | append v => cases hm : s.mtx <;> simp [advance, hp, hm] at hs; subst hs; exact .inr (.inr rfl)
    | modify v => simp [advance, hp] at hs; subst hs; exact .inl ⟨rfl, by rw [hpc]; rfl⟩
    | reset => cases hm : s.mtx <;> simp [advance, hp, hm] at hs; subst hs; exact .inr (.inl ⟨rfl, by rw [hpc]; rfl⟩)
    | exchange node tmp =>
      cases hn : s.agents[node]? <;> simp [advance, hp, hn] at hs <;> subst hs
      · exact .inr (.inr rfl)
      · exact .inl ⟨rfl, by rw [hpc]; rfl⟩
    | commit => cases hm : s.mtx <;> simp [advance, hp, hm] at hs; subst hs; exact .inr (.inl ⟨rfl, by rw [hpc]; rfl⟩)
    | load => simp [advance, hp] at hs; subst hs; exact .inl ⟨rfl, by rw [hpc]; rfl⟩
    | erase val => simp [advance, hp] at hs; subst hs; exact .inr (.inr rfl)

theorem locked_init (h : (Readers.system α).init s) : s.Locked := by
  obtain ⟨⟨hm, -⟩, hr, -⟩ := h
  exact ⟨fun t ht => (by rw [hm] at ht; cases ht), fun t => .inl (by rw [hr])⟩

theorem locked_other {a : Combiner.Label α} {b : State α} (h : s.Locked) (hi : s.read a.thread = .idle)
    (hb : Combiner.step s.base a = some b) : ({ s with base := b } : Readers α).Locked where
  inside t ht := by
    rcases step_mtx hb with ⟨hm, hp⟩ | ⟨hm, hp⟩ | hm
    · have hold := h.inside t (by rw [← hm]; exact ht)
      by_cases hat : a.thread = t
      · rw [← hat] at hold ⊢
        exact hold.imp (fun h => by rw [hp]; exact h) id
      · exact hold.imp (fun h => by rw [step_pc hb hat]; exact h) id
    · rw [hm] at ht
      rw [← Option.some.inj ht]
      exact .inl hp
    · rw [hm] at ht
      cases ht
  one t := by
    by_cases hat : a.thread = t
    · exact .inl (hat ▸ hi)
    · exact (h.one t).imp id (fun hp => (step_pc hb hat).trans hp)

theorem locked_step {a : Readers.Label α} (h : s.Locked) (hs : s.step a = some s') : s'.Locked := by
  have read : ∀ {s₁ : Readers α} {r : Read α} {u t : Thread},
      (s₁.setRead t r).read u = if u = t then r else s₁.read u := Function.update_apply ..
  cases a with
  | other a =>
    simp only [Readers.step] at hs
    split at hs
    · rename_i hi
      obtain ⟨b, hb, rfl⟩ := Option.map_eq_some_iff.1 hs
      exact locked_other h (Read.isIdle_iff.1 hi) hb
    · cases hs
  | get t =>
    simp only [Readers.step] at hs
    split at hs
    · rename_i hi
      cases hs
      obtain ⟨hr, hp⟩ := Bool.and_eq_true_iff.1 hi
      refine ⟨fun u hu => ?_, fun u => ?_⟩
      · refine (h.inside u hu).imp id (fun hin => ?_)
        rw [read]
        split
        · rename_i hut
          rw [hut, Read.isIdle_iff.1 hr] at hin
          cases hin
        · exact hin
      · rw [read]
        split
        · rename_i hut; exact .inr (by rw [hut]; exact isIdle_iff.1 hp)
        · exact h.one u
    · cases hs
  | go t =>
    have hs : s.advance t = some s' := hs
    unfold Readers.advance at hs
    cases hr : s.read t with rw [hr] at hs
    | idle => cases hs
    | lock =>
      have hp : s.base.pc t = .idle := (h.one t).resolve_left (fun hx => by rw [hr] at hx; cases hx)
      dsimp only at hs
      split at hs <;> cases hs
      refine ⟨fun u hu => ?_, fun u => ?_⟩
      · have hu : some t = some u := hu
        rw [read, if_pos (Option.some.inj hu).symm]
        exact .inr rfl
      · rw [read]
        split
        · rename_i hut; exact .inr (hut ▸ hp)
        · exact h.one u
    | walk node ret start =>
      have hp : s.base.pc t = .idle := (h.one t).resolve_left (fun hx => by rw [hr] at hx; cases hx)
      dsimp only at hs
      split at hs <;> cases hs
      · refine ⟨fun u hu => ?_, fun u => ?_⟩
        · refine (h.inside u hu).imp id (fun hin => ?_)
          rw [read]
          split
          · rfl
          · exact hin
        · rw [read]
          split
          · rename_i hut; exact .inr (hut ▸ hp)
          · exact h.one u
      · refine ⟨fun u hu => (by cases hu), fun u => ?_⟩
        rw [read]
        split
        · exact .inl rfl
        · exact h.one u

/-! ## Who does not wait goes on -/

theorem Pc.left_mono {n n' : Nat} (h : n ≤ n') : ∀ p : Pc α, p.left n ≤ p.left n'
  | .reset           => Nat.add_le_add_right h 2
  | .exchange node _ => Nat.add_le_add_right (Nat.sub_le_sub_right h node) 1
  | .idle            => Nat.le_refl _
  | .append _        => Nat.le_refl _
  | .modify _        => Nat.le_refl _
  | .commit          => Nat.le_refl _
  | .load            => Nat.le_refl _
  | .erase _         => Nat.le_refl _

theorem Read.left_mono {n n' : Nat} (h : n ≤ n') : ∀ r : Read α, r.left n ≤ r.left n'
  | .idle          => Nat.le_refl _
  | .lock          => Nat.add_le_add_right h 2
  | .walk node _ _ => Nat.add_le_add_right (Nat.sub_le_sub_right h node) 1

/-- The other threads come no further from their ends when the list does not grow. -/
theorem left_le (hlt : s'.left t < s.left t) (hn : s'.base.agents.length ≤ s.base.agents.length)
    (hpc : ∀ u, u ≠ t → s'.base.pc u = s.base.pc u) (hr : ∀ u, u ≠ t → s'.read u = s.read u) (u : Thread) :
    s'.left u ≤ s.left u := by
  by_cases hu : u = t
  · rw [hu]; exact Nat.le_of_lt hlt
  · unfold Readers.left
    rw [hpc u hu, hr u hu]
    exact Nat.add_le_add (Read.left_mono hn _) (Pc.left_mono hn _)

/-- What the thread does next. -/
def Next (s s' : Readers α) (t : Thread) : Prop :=
  s'.Locked ∧ s'.left t < s.left t ∧ (s'.base.mtx = none ∨ s'.base.mtx = some t) ∧
    ∀ u, s.base.mtx = some t → s'.left u ≤ s.left u

/-- A step of a call other than `get_value`. -/
theorem next_other {b : State α} (hl : s.Locked) (hi : s.read t = .idle) (hb : advance s.base t = some b)
    (hlt : (b.pc t).left b.agents.length < (s.base.pc t).left s.base.agents.length)
    (hm : b.mtx = none ∨ b.mtx = some t) (hn : s.base.mtx = some t → b.agents.length ≤ s.base.agents.length) :
    (Readers.system α).step s (.other (.go t)) = some { s with base := b } ∧ Next s { s with base := b } t := by
  have hs : s.step (.other (.go t)) = some { s with base := b } := by
    show (if (s.read t).isIdle = true then (advance s.base t).map (fun b => { s with base := b }) else none) = _
    rw [if_pos (by rw [hi]; rfl), hb]
    rfl
  have hlt' : ({ s with base := b } : Readers α).left t < s.left t := by
    unfold Readers.left
    rw [hi]
    exact Nat.add_lt_add_left hlt _
  refine ⟨hs, locked_step hl hs, hlt', hm, fun u ht => ?_⟩
  exact left_le hlt' (hn ht) (fun v hv => step_pc (a := .go t) hb (fun h => hv h.symm)) (fun _ _ => rfl) u

/-- A step of `get_value`. -/
theorem next_read (hl : s.Locked) (hs : s.advance t = some s') (hpc : s'.base.pc = s.base.pc)
    (hag : s'.base.agents = s.base.agents)
    (hlt : (s'.read t).left s.base.agents.length < (s.read t).left s.base.agents.length)
    (hr : ∀ u, u ≠ t → s'.read u = s.read u) (hm : s'.base.mtx = none ∨ s'.base.mtx = some t) :
    (Readers.system α).step s (.go t) = some s' ∧ Next s s' t := by
  have hlt' : s'.left t < s.left t := by
    unfold Readers.left
    rw [hpc, hag]
    exact Nat.add_lt_add_right hlt _
  refine ⟨hs, locked_step (a := .go t) hl hs, hlt', hm, fun u _ => ?_⟩
  exact left_le hlt' (Nat.le_of_eq (by rw [hag])) (fun v _ => by rw [hpc]) hr u

/-- Who has `mtx_` is inside, so outside it is free for a thread that waits for nobody. -/
theorem Readers.Locked.free (hl : s.Locked) (ho : ∀ u, s.base.mtx = some u → u = t)
    (hp : (s.base.pc t).inside = false) (hr : (s.read t).inside = false) : s.base.mtx = none := by
  cases hm : s.base.mtx with
  | none => rfl
  | some u =>
    have hut := ho u hm
    subst hut
    rcases hl.inside u hm with h | h
    · rw [hp] at h; cases h
    · rw [hr] at h; cases h

/-- **A thread in a call goes on unless another one has `mtx_`.** -/
theorem goes_on (hl : s.Locked) (hz : s.left t ≠ 0) (ho : ∀ u, s.base.mtx = some u → u = t) :
    ∃ (a : Readers.Label α) (s' : Readers α), a.goes t ∧ (Readers.system α).step s a = some s' ∧ Next s s' t := by
  have hmtx : s.base.mtx = none ∨ s.base.mtx = some t := by
    cases hm : s.base.mtx with
    | none => exact .inl rfl
    | some u => exact .inr (by rw [ho u hm])
  have hupd : ∀ {s₁ : State α} {p : Pc α}, (s₁.setPc t p).pc t = p := Function.update_self ..
  have hread : ∀ {s₁ : Readers α} {r : Read α}, (s₁.setRead t r).read t = r := Function.update_self ..
  have hrest : ∀ {s₁ : Readers α} {r : Read α} (u : Thread), u ≠ t → (s₁.setRead t r).read u = s₁.read u :=
    fun u hu => Function.update_of_ne hu ..
  cases hr : s.read t with
  | idle =>
    have hno : (s.read t).inside = false := by rw [hr]; rfl
    suffices h : ∃ b, advance s.base t = some b ∧
        (b.pc t).left b.agents.length < (s.base.pc t).left s.base.agents.length ∧
        (b.mtx = none ∨ b.mtx = some t) ∧ (s.base.mtx = some t → b.agents.length ≤ s.base.agents.length) by
      obtain ⟨b, hb, hlt, hm, hn⟩ := h
      obtain ⟨hs, hnext⟩ := next_other hl hr hb hlt hm hn
      exact ⟨.other (.go t), _, rfl, hs, hnext⟩
    unfold advance
    cases hp : s.base.pc t with
    | idle => exact absurd (by unfold Readers.left; rw [hr, hp]; rfl) hz
    | append v =>
      have hm := hl.free ho (by rw [hp]; rfl) hno
      simp only [hm]
      refine ⟨_, rfl, ?_, .inl rfl, fun ht => by cases ht⟩
      rw [hupd]; exact Nat.lt_succ_self 1
    | modify v =>
      refine ⟨_, rfl, ?_, hmtx, fun _ => Nat.le_refl _⟩
      rw [hupd]; exact Nat.zero_lt_one
    | reset =>
      have hm := hl.free ho (by rw [hp]; rfl) hno
      simp only [hm]
      refine ⟨_, rfl, ?_, .inr rfl, fun _ => Nat.le_refl _⟩
      rw [hupd]; exact Nat.lt_succ_self _
    | exchange node tmp =>
      cases hn : s.base.agents[node]? with
      | none =>
        simp only [hn]
        refine ⟨_, rfl, ?_, .inl rfl, fun _ => Nat.le_refl _⟩
        rw [hupd]; exact Nat.succ_pos _
      | some u =>
        simp only [hn]
        refine ⟨_, rfl, ?_, hmtx, fun _ => Nat.le_refl _⟩
        obtain ⟨hlt, -⟩ := List.getElem?_eq_some_iff.1 hn
        rw [hupd]
        show s.base.agents.length - (node + 1) + 1 < s.base.agents.length - node + 1
        omega
    | commit =>
      have hm := hl.free ho (by rw [hp]; rfl) hno
      simp only [hm]
      refine ⟨_, rfl, ?_, .inr rfl, fun _ => Nat.le_refl _⟩
      rw [hupd]; exact Nat.lt_succ_self 2
    | load =>
      refine ⟨_, rfl, ?_, hmtx, fun _ => Nat.le_refl _⟩
      rw [hupd]; exact Nat.lt_succ_self 1
    | erase val =>
      refine ⟨_, rfl, ?_, .inl rfl, fun _ => List.length_erase_le⟩
      rw [hupd]; exact Nat.zero_lt_one
  | lock =>
    have hp : s.base.pc t = .idle := (hl.one t).resolve_left (fun hx => by rw [hr] at hx; cases hx)
    have hm := hl.free ho (by rw [hp]; rfl) (by rw [hr]; rfl)
    have hs : s.advance t =
        some ({ s with base := { s.base with mtx := some t } }.setRead t (.walk 0 s.base.globalResult s.base)) := by
      simp only [Readers.advance, hr, hm]
    obtain ⟨hs, hnext⟩ := next_read hl hs rfl rfl (by rw [hread, hr]; exact Nat.lt_succ_self _) hrest (.inr rfl)
    exact ⟨.go t, _, rfl, hs, hnext⟩
  | walk node ret start =>
    have hp : s.base.pc t = .idle := (hl.one t).resolve_left (fun hx => by rw [hr] at hx; cases hx)
    cases hn : s.base.agents[node]? with
    | none =>
      let r : Returned α := ⟨t, ret, start, s.base⟩
      have hs : s.advance t =
          some ({ s with base := { s.base with mtx := none }, returned := s.returned ++ [r] }.setRead t .idle) := by
        simp only [Readers.advance, hr, hn, r]
      obtain ⟨hs, hnext⟩ := next_read hl hs rfl rfl (by rw [hread, hr]; exact Nat.succ_pos _) hrest (.inl rfl)
      exact ⟨.go t, _, rfl, hs, hnext⟩
    | some u =>
      have hs : s.advance t = some (s.setRead t (.walk (node + 1) (ret ++ s.base.element u) start)) := by
        simp only [Readers.advance, hr, hn]
      obtain ⟨hlt, -⟩ := List.getElem?_eq_some_iff.1 hn
      have hleft : s.base.agents.length - (node + 1) + 1 < s.base.agents.length - node + 1 := by omega
      obtain ⟨hs, hnext⟩ := next_read hl hs rfl rfl (by rw [hread, hr]; exact hleft) hrest hmtx
      exact ⟨.go t, _, rfl, hs, hnext⟩

theorem Pc.left_pos {n : Nat} : ∀ {p : Pc α}, p.inside = true → 0 < p.left n
  | .exchange _ _, _ => Nat.succ_pos _
  | .load, _         => Nat.succ_pos _
  | .erase _, _      => Nat.succ_pos _

theorem Read.left_pos {n : Nat} : ∀ {r : Read α}, r.inside = true → 0 < r.left n
  | .walk _ _ _, _ => Nat.succ_pos _

theorem idle_of_left (h : s.left t = 0) : s.read t = .idle ∧ s.base.pc t = .idle := by
  obtain ⟨hr, hp⟩ := Nat.add_eq_zero_iff.1 h
  constructor
  · cases h : s.read t with
    | idle => rfl
    | _ => rw [h] at hr; cases hr
  · cases h : s.base.pc t with
    | idle => rfl
    | _ => rw [h] at hp; cases hp

theorem left_bound (hl : s.Locked) (t : Thread) : s.left t ≤ s.base.agents.length + 3 := by
  unfold Readers.left
  rcases hl.one t with h | h <;> rw [h]
  · show 0 + (s.base.pc t).left _ ≤ _
    cases s.base.pc t <;> dsimp only [Pc.left] <;> omega
  · show (s.read t).left _ + 0 ≤ _
    cases s.read t <;> dsimp only [Read.left] <;> omega

end Combiner
end ContentionProf
