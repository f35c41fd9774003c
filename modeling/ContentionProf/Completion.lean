import ContentionProf.Run
import Mathlib.Algebra.GroupWithZero.Nat
/-!
# Completion — calls that end because the owner of the lock goes on

Parties share one lock.  A party inside a call can go on unless another one owns the lock, and the owner is inside a
call and comes nearer to its end with each of its moves.  Then no party is stuck: its call ends after a bounded number
of moves, its own and those of the owner.
-/
namespace ContentionProf
namespace System

variable {σ α τ : Type} {S : System σ α}

/-- **What always has a step that makes a measure smaller comes to its goal**, in at most as many steps. -/
theorem ends {I G : σ → Prop} {A : α → Prop} {μ : σ → Nat}
    (h : ∀ s, I s → ¬ G s → ∃ a s', A a ∧ S.step s a = some s' ∧ I s' ∧ μ s' < μ s) {s : σ} (hi : I s) :
    ∃ as s', S.run s as = some s' ∧ I s' ∧ G s' ∧ as.length ≤ μ s ∧ ∀ a ∈ as, A a := by
  induction hn : μ s using Nat.strongRecOn generalizing s with
  | ind n ih =>
    by_cases hg : G s
    · exact ⟨[], s, rfl, hi, hg, Nat.zero_le _, nofun⟩
    obtain ⟨a, s₁, ha, hs, hi₁, hlt⟩ := h s hi hg
    obtain ⟨as, s', hr, hi', hg', hlen, hall⟩ := ih (μ s₁) (hn ▸ hlt) hi₁ rfl
    refine ⟨a :: as, s', by rw [run_cons, hs]; exact hr, hi', hg', ?_, fun b hb => ?_⟩
    · rw [List.length_cons]; omega
    · rcases List.mem_cons.1 hb with rfl | hb
      · exact ha
      · exact hall b hb

/-- **What a run uses up**: where a move costs no more than the measure drops and the move adds to it. -/
theorem run_measure {I : σ → Prop} {μ : σ → Nat} {cost gain : α → Nat}
    (hstep : ∀ s a s', I s → S.step s a = some s' → I s' ∧ cost a + μ s' ≤ μ s + gain a) :
    ∀ {as : List α} {s s' : σ}, I s → S.run s as = some s' →
      (as.map cost).sum + μ s' ≤ μ s + (as.map gain).sum
  | [], s, s', _, hr      => by
    cases hr
    simp
  | a :: as, s, s', h, hr => by
    rw [run_cons] at hr
    obtain ⟨s₁, hs, hr'⟩ := Option.bind_eq_some_iff.1 hr
    obtain ⟨h₁, hc⟩ := hstep s a s₁ h hs
    have hlater := run_measure hstep h₁ hr'
    rw [List.map_cons, List.sum_cons, List.map_cons, List.sum_cons]
    omega

/-- Moves in `A` lead from one state to another. -/
def Goes (S : System σ α) (A : α → Prop) (s s' : σ) : Prop := ∃ as, S.run s as = some s' ∧ ∀ a ∈ as, A a

/-- **From `P` moves in `A` can lead to `Q`.** -/
def Leads (S : System σ α) (A : α → Prop) (P Q : σ → Prop) : Prop := ∀ s, P s → ∃ s', S.Goes A s s' ∧ Q s'

namespace Goes

variable {A : α → Prop} {s s₁ s' : σ}

theorem refl (s : σ) : S.Goes A s s := ⟨[], rfl, nofun⟩

theorem step {a : α} (ha : A a) (h : S.step s a = some s') : S.Goes A s s' :=
  ⟨[a], by rw [run_cons, h]; rfl, by simpa using ha⟩

theorem trans (h : S.Goes A s s₁) (h' : S.Goes A s₁ s') : S.Goes A s s' := by
  obtain ⟨as, hr, hall⟩ := h
  obtain ⟨bs, hr', hall'⟩ := h'
  refine ⟨as ++ bs, by rw [run_append, hr]; exact hr', fun a ha => ?_⟩
  exact (List.mem_append.1 ha).elim (hall a) (hall' a)

/-- What can be reached later on. -/
theorem andThen {Q : σ → Prop} (h : S.Goes A s s₁) (h' : ∃ s', S.Goes A s₁ s' ∧ Q s') : ∃ s', S.Goes A s s' ∧ Q s' := by
  obtain ⟨s', hg, hq⟩ := h'
  exact ⟨s', h.trans hg, hq⟩

/-- What every move keeps still holds at the end. -/
theorem keeps {I : σ → Prop} (h : S.Goes A s s') (hI : ∀ s a s', I s → S.step s a = some s' → I s') (hs : I s) :
    I s' := by
  obtain ⟨as, hr, -⟩ := h
  induction as generalizing s with
  | nil => cases hr; exact hs
  | cons a as ih =>
    obtain ⟨s₁, hst, hr'⟩ := Option.bind_eq_some_iff.1 hr
    exact ih (hI s a s₁ hs hst) hr'

theorem reachable (h : S.Goes A s s') (hs : S.Reachable s) : S.Reachable s' :=
  h.keeps (fun _ _ _ hs hst => hs.step trivial hst) hs

end Goes

namespace Leads

variable {A : α → Prop} {P Q R : σ → Prop}

theorem step (h : ∀ s, P s → ∃ a s', A a ∧ S.step s a = some s' ∧ Q s') : S.Leads A P Q := by
  intro s hs
  obtain ⟨a, s', ha, hst, hq⟩ := h s hs
  exact ⟨s', .step ha hst, hq⟩

theorem trans (h : S.Leads A P Q) (h' : S.Leads A Q R) : S.Leads A P R := by
  intro s hs
  obtain ⟨s₁, hg, hq⟩ := h s hs
  exact hg.andThen (h' s₁ hq)

theorem «exists» {ι : Type} {P : ι → σ → Prop} (h : ∀ i, S.Leads A (P i) R) : S.Leads A (fun s => ∃ i, P i s) R :=
  fun s ⟨i, hs⟩ => h i s hs

end Leads

/-- **One lock**: `left` bounds the moves that a party has left in its call, `moves` are the moves of a party. -/
structure OneLock (S : System σ α) (I : σ → Prop) (moves : τ → α → Prop) (left : σ → τ → Nat) (owner : σ → Option τ) :
    Prop where
  /-- Who owns the lock is inside a call. -/
  inside : ∀ s t, I s → owner s = some t → left s t ≠ 0
  /-- Who does not wait for another one can go on. -/
  go : ∀ s t, I s → left s t ≠ 0 → (∀ u, owner s = some u → u = t) →
    ∃ a s', moves t a ∧ S.step s a = some s' ∧ I s' ∧ left s' t < left s t ∧ (owner s' = none ∨ owner s' = some t) ∧
      ∀ u, owner s = some t → left s' u ≤ left s u

variable {I : σ → Prop} {moves : τ → α → Prop} {left : σ → τ → Nat} {owner : σ → Option τ}

/-- A party that waits for nobody ends its call alone. -/
theorem OneLock.alone (h : OneLock S I moves left owner) {s : σ} {t : τ} (hi : I s)
    (ho : ∀ u, owner s = some u → u = t) :
    ∃ as s', S.run s as = some s' ∧ I s' ∧ left s' t = 0 ∧ as.length ≤ left s t ∧ ∀ a ∈ as, moves t a := by
  have hgo : ∀ s, (I s ∧ ∀ u, owner s = some u → u = t) → ¬ left s t = 0 →
      ∃ a s', moves t a ∧ S.step s a = some s' ∧ (I s' ∧ ∀ u, owner s' = some u → u = t) ∧ left s' t < left s t := by
    rintro s ⟨hi, ho⟩ hz
    obtain ⟨a, s₁, ha, hs, hi₁, hlt, hnone | hsome, -⟩ := h.go s t hi hz ho
    · exact ⟨a, s₁, ha, hs, ⟨hi₁, fun u hu => by rw [hnone] at hu; cases hu⟩, hlt⟩
    · exact ⟨a, s₁, ha, hs, ⟨hi₁, fun u hu => by rw [hsome] at hu; exact (Option.some.inj hu).symm⟩, hlt⟩
  obtain ⟨as, s', hr, ⟨hi', -⟩, hz, hlen, hall⟩ := ends hgo ⟨hi, ho⟩
  exact ⟨as, s', hr, hi', hz, hlen, hall⟩

/-- The owner gives the lock back, and takes no other party further from its end. -/
theorem OneLock.release (h : OneLock S I moves left owner) {s : σ} {t : τ} (hi : I s) (ho : owner s = some t) :
    ∃ as s', S.run s as = some s' ∧ I s' ∧ owner s' = none ∧ (∀ u, left s' u ≤ left s u) ∧ as.length ≤ left s t ∧
      ∀ a ∈ as, moves t a := by
  let J (s' : σ) : Prop := I s' ∧ (owner s' = none ∨ owner s' = some t) ∧ ∀ u, left s' u ≤ left s u
  have hgo : ∀ s, J s → ¬ owner s = none →
      ∃ a s', moves t a ∧ S.step s a = some s' ∧ J s' ∧ left s' t < left s t := by
    rintro s₁ ⟨hi, ho, hle⟩ hsome
    have ho := ho.resolve_left hsome
    obtain ⟨a, s₂, ha, hs, hi₂, hlt, ho₂, hle₂⟩ := h.go s₁ t hi (h.inside s₁ t hi ho)
      (fun u hu => (Option.some.inj (ho.symm.trans hu)).symm)
    exact ⟨a, s₂, ha, hs, ⟨hi₂, ho₂, fun u => Nat.le_trans (hle₂ u ho) (hle u)⟩, hlt⟩
  obtain ⟨as, s', hr, ⟨hi', -, hle⟩, hnone, hlen, hall⟩ := ends hgo ⟨hi, .inr ho, fun _ => Nat.le_refl _⟩
  exact ⟨as, s', hr, hi', hnone, hle, hlen, hall⟩

/-- What the owner of the lock has left, if it is another party. -/
def ownerLeft [DecidableEq τ] (left : σ → τ → Nat) (owner : σ → Option τ) (s : σ) (t : τ) : Nat :=
  match owner s with
  | some u => if u = t then 0 else left s u
  | none   => 0

/-- **Every call can end**, by moves of its party and of the owner of the lock only. -/
theorem OneLock.completes [DecidableEq τ] (h : OneLock S I moves left owner) {s : σ} (hi : I s) (t : τ) :
    ∃ as s', S.run s as = some s' ∧ I s' ∧ left s' t = 0 ∧ as.length ≤ left s t + ownerLeft left owner s t ∧
      ∀ a ∈ as, moves t a ∨ ∃ u, owner s = some u ∧ moves u a := by
  by_cases hother : ∃ u, owner s = some u ∧ u ≠ t
  · obtain ⟨u, hu, hut⟩ := hother
    obtain ⟨as, s₁, hr, hi₁, hnone, hle, hlen, hall⟩ := h.release hi hu
    obtain ⟨bs, s', hr', hi', hz, hlen', hall'⟩ := h.alone hi₁ (t := t)
      (fun v hv => by rw [hnone] at hv; cases hv)
    refine ⟨as ++ bs, s', by rw [run_append, hr]; exact hr', hi', hz, ?_, fun a ha => ?_⟩
    · have hle := hle t
      simp only [ownerLeft, hu, if_neg hut, List.length_append]
      omega
    · rcases List.mem_append.1 ha with ha | ha
      · exact .inr ⟨u, hu, hall a ha⟩
      · exact .inl (hall' a ha)
  · obtain ⟨as, s', hr, hi', hz, hlen, hall⟩ := h.alone hi (t := t)
      (fun v hv => by_contra (fun hne => hother ⟨v, hv, hne⟩))
    exact ⟨as, s', hr, hi', hz, Nat.le_trans hlen (Nat.le_add_right ..), fun a ha => .inl (hall a ha)⟩

end System
end ContentionProf
