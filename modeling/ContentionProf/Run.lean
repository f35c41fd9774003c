import Mathlib.Data.List.Basic
import Mathlib.Logic.Function.Basic
/-!
# Run — labelled transition systems and what holds along their runs

A `System` has initial states and a partial step function: the label says which party moves and which inputs it reads,
`none` says that this party cannot make that move now.  `ReachableVia ok` collects the states reached by steps that all
meet `ok`, so a property that holds only of disciplined runs is an invariant of `ReachableVia`, and
`ReachableVia.invariant` is the one induction.
-/
namespace ContentionProf

structure System (σ α : Type) where
  init : σ → Prop
  step : σ → α → Option σ

namespace System

variable {σ α τ β : Type} {S : System σ α} {ok : σ → α → Prop}

/-- The state a list of moves leads to. -/
def run (S : System σ α) : σ → List α → Option σ
  | s, []      => some s
  | s, a :: as => (S.step s a).bind (fun s' => S.run s' as)

@[simp] theorem run_nil (s : σ) : S.run s [] = some s := rfl

theorem run_cons (s : σ) (a : α) (as : List α) :
    S.run s (a :: as) = (S.step s a).bind (fun s' => S.run s' as) := rfl

theorem run_append (as bs : List α) : ∀ s : σ, S.run s (as ++ bs) = (S.run s as).bind (fun s' => S.run s' bs) := by
  induction as with
  | nil => intro s; rfl
  | cons a as ih =>
    intro s
    rw [List.cons_append, run_cons, run_cons]
    cases S.step s a with
    | none => rfl
    | some s' => exact ih s'

/-- A run from `s₀` passes through a state. -/
def Passes (S : System σ α) (s₀ : σ) (as : List α) (s : σ) : Prop :=
  ∃ as₁ as₂, as = as₁ ++ as₂ ∧ S.run s₀ as₁ = some s

/-- **Reached from an initial state by moves that all meet `ok`**, read at the state before the move. -/
inductive ReachableVia (S : System σ α) (ok : σ → α → Prop) : σ → Prop
  | init {s : σ} (h : S.init s) : ReachableVia S ok s
  | step {s s' : σ} {a : α} (h : ReachableVia S ok s) (hok : ok s a) (hs : S.step s a = some s') : ReachableVia S ok s'

/-- Reached from an initial state by any moves. -/
abbrev Reachable (S : System σ α) : σ → Prop := S.ReachableVia (fun _ _ => True)

/-- **What holds at the start and is kept by every allowed move holds in every state reached.** -/
theorem ReachableVia.invariant {I : σ → Prop} (h0 : ∀ s, S.init s → I s)
    (hstep : ∀ s a s', I s → ok s a → S.step s a = some s' → I s') {s : σ} (h : S.ReachableVia ok s) : I s := by
  induction h with
  | init h => exact h0 _ h
  | step _ hok hs ih => exact hstep _ _ _ ih hok hs

theorem ReachableVia.mono {ok' : σ → α → Prop} (hok : ∀ s a, ok s a → ok' s a) {s : σ} (h : S.ReachableVia ok s) :
    S.ReachableVia ok' s := by
  induction h with
  | init h => exact .init h
  | step _ ha hs ih => exact .step ih (hok _ _ ha) hs

theorem ReachableVia.reachable {s : σ} (h : S.ReachableVia ok s) : S.Reachable s := h.mono (fun _ _ _ => trivial)

/-- Moves that all meet `ok`, each at the state the moves before it lead to. -/
def RunOk (S : System σ α) (ok : σ → α → Prop) : σ → List α → Prop
  | _, []      => True
  | s, a :: as => ok s a ∧ ∀ s', S.step s a = some s' → RunOk S ok s' as

instance RunOk.decidable [∀ s a, Decidable (ok s a)] : ∀ (s : σ) (as : List α), Decidable (RunOk S ok s as)
  | _, []      => .isTrue trivial
  | s, a :: as =>
    have : Decidable (∀ s', S.step s a = some s' → RunOk S ok s' as) :=
      match hs : S.step s a with
      | none    => .isTrue (fun _ h => by cases h)
      | some s₁ => match RunOk.decidable s₁ as with
        | .isTrue h  => .isTrue (fun s' h' => by cases h'; exact h)
        | .isFalse h => .isFalse (fun hall => h (hall s₁ rfl))
    inferInstanceAs (Decidable (_ ∧ _))

theorem ReachableVia.run {s s' : σ} (h : S.ReachableVia ok s) :
    ∀ (as : List α), RunOk S ok s as → S.run s as = some s' → S.ReachableVia ok s' := by
  intro as
  induction as generalizing s with
  | nil => intro _ hr; cases hr; exact h
  | cons a as ih =>
    rintro ⟨ha, hrest⟩ hr
    rw [run_cons] at hr
    obtain ⟨s₁, hs, hr'⟩ := Option.bind_eq_some_iff.1 hr
    exact ih (h.step ha hs) (hrest s₁ hs) hr'

theorem RunOk.of_forall (h : ∀ s a, ok s a) : ∀ (as : List α) (s : σ), RunOk S ok s as
  | [], _      => trivial
  | a :: as, s => ⟨h s a, fun s' _ => RunOk.of_forall h as s'⟩

theorem RunOk.mono {ok' : σ → α → Prop} (h : ∀ s a, ok s a → ok' s a) :
    ∀ {as : List α} {s : σ}, RunOk S ok s as → RunOk S ok' s as
  | [], _, _           => trivial
  | _ :: _, _, ⟨ha, hr⟩ => ⟨h _ _ ha, fun s' hs => RunOk.mono h (hr s' hs)⟩

theorem RunOk.of_append : ∀ {as bs : List α} {s : σ}, RunOk S ok s (as ++ bs) → RunOk S ok s as
  | [], _, _, _              => trivial
  | _ :: _, _, _, ⟨ha, hr⟩ => ⟨ha, fun s' hs => RunOk.of_append (hr s' hs)⟩

theorem Reachable.run {s s' : σ} (h : S.Reachable s) (as : List α) (hr : S.run s as = some s') : S.Reachable s' :=
  ReachableVia.run h as (RunOk.of_forall (fun _ _ => trivial) as s) hr

theorem RunOk.congr {ok' : σ → α → Prop} (h : ∀ s a s', S.step s a = some s' → (ok s a ↔ ok' s a)) :
    ∀ {as : List α} {s s' : σ}, S.run s as = some s' → (S.RunOk ok s as ↔ S.RunOk ok' s as) := by
  intro as
  induction as with
  | nil => intro s s' _; exact Iff.rfl
  | cons a as ih =>
    intro s s' hr
    rw [run_cons] at hr
    obtain ⟨s₁, hs, hr'⟩ := Option.bind_eq_some_iff.1 hr
    refine and_congr (h s a s₁ hs) (forall_congr' (fun s₂ => ?_))
    refine imp_congr_right (fun h₂ => ?_)
    rw [hs] at h₂
    cases h₂
    exact ih hr'

/-- **Moves that change nothing can be left out.** -/
theorem run_filter {keep : α → Bool} (h : ∀ s a s', ok s a → keep a = false → S.step s a = some s' → s' = s) :
    ∀ {as : List α} {s s' : σ}, S.RunOk ok s as → S.run s as = some s' → S.run s (as.filter keep) = some s' := by
  intro as
  induction as with
  | nil => intro s s' _ hr; exact hr
  | cons a as ih =>
    rintro s s' ⟨ha, hrest⟩ hr
    rw [run_cons] at hr
    obtain ⟨s₁, hs, hr'⟩ := Option.bind_eq_some_iff.1 hr
    have hlater := ih (hrest s₁ hs) hr'
    by_cases hk : keep a = true
    · rw [List.filter_cons_of_pos hk, run_cons, hs]
      exact hlater
    · rw [List.filter_cons_of_neg hk]
      rw [h s a s₁ ha (by simpa using hk) hs] at hlater
      exact hlater

/-- **The moves that keep a run good, exactly**: if moves that meet `ok` keep `I`, which gives `P`, and any other move
from `I` breaks `P`, then the runs that pass through states with `P` only are those whose moves all meet `ok`. -/
theorem passes_iff_runOk {I P : σ → Prop} (hP : ∀ s, I s → P s)
    (hstep : ∀ s a s', I s → ok s a → S.step s a = some s' → I s')
    (hbad : ∀ s a s', I s → ¬ ok s a → S.step s a = some s' → ¬ P s') :
    ∀ {as : List α} {s₀ s : σ}, I s₀ → S.run s₀ as = some s →
      ((∀ s₁, S.Passes s₀ as s₁ → P s₁) ↔ S.RunOk ok s₀ as) := by
  intro as
  induction as with
  | nil =>
    rintro s₀ s h -
    refine iff_of_true ?_ trivial
    rintro s₁ ⟨as₁, as₂, has, hr⟩
    obtain ⟨rfl, rfl⟩ := List.append_eq_nil_iff.1 has.symm
    cases hr
    exact hP _ h
  | cons a as ih =>
    intro s₀ s h hr
    rw [run_cons] at hr
    obtain ⟨s₁, hs, hr'⟩ := Option.bind_eq_some_iff.1 hr
    constructor
    · intro hall
      have hone : S.Passes s₀ (a :: as) s₁ := ⟨[a], as, rfl, by rw [run_cons, hs]; rfl⟩
      have hok : ok s₀ a := by
        by_contra hok
        exact hbad _ _ _ h hok hs (hall s₁ hone)
      refine ⟨hok, fun s₂ h₂ => ?_⟩
      rw [hs] at h₂
      cases h₂
      refine (ih (hstep _ _ _ h hok hs) hr').1 (fun s₂ h₂ => ?_)
      obtain ⟨as₁, as₂, rfl, hr₂⟩ := h₂
      exact hall s₂ ⟨a :: as₁, as₂, rfl, by rw [run_cons, hs]; exact hr₂⟩
    · rintro ⟨hok, hrest⟩ s₂ ⟨as₁, as₂, has, hr₂⟩
      cases as₁ with
      | nil => cases hr₂; exact hP _ h
      | cons b as₁ =>
        obtain ⟨rfl, rfl⟩ := List.cons.inj has
        rw [run_cons, hs] at hr₂
        exact (ih (hstep _ _ _ h hok hs) hr').2 (hrest s₁ hs) s₂ ⟨as₁, as₂, rfl, hr₂⟩

/-- Where every move is possible and keeps `I`, every run goes through. -/
theorem run_total {I : σ → Prop} (hstep : ∀ s a, I s → ∃ s', S.step s a = some s' ∧ I s') :
    ∀ (as : List α) {s : σ}, I s → ∃ s', S.run s as = some s' ∧ I s'
  | [], s, h      => ⟨s, rfl, h⟩
  | a :: as, s, h => by
    obtain ⟨s₁, hs, h₁⟩ := hstep s a h
    obtain ⟨s', hr, h'⟩ := run_total hstep as h₁
    exact ⟨s', by rw [run_cons, hs]; exact hr, h'⟩

/-- **Runs that follow a total function, exactly**: if moves that meet `ok` are possible and do what `f` says, and from
a related state no other move is possible, then the runs that follow `f` to the end are those whose moves all meet
`ok`. -/
theorem follows_iff_runOk {R : σ → τ → Prop} {f : τ → α → τ}
    (hstep : ∀ s t a, R s t → ok s a → ∃ s', S.step s a = some s' ∧ R s' (f t a))
    (hbad : ∀ s t a, R s t → ¬ ok s a → S.step s a = none) :
    ∀ {as : List α} {s : σ} {t : τ}, R s t →
      ((∃ s', S.run s as = some s' ∧ R s' (as.foldl f t)) ↔ S.RunOk ok s as) := by
  intro as
  induction as with
  | nil =>
    intro s t h
    exact iff_of_true ⟨s, rfl, h⟩ trivial
  | cons a as ih =>
    intro s t h
    rw [run_cons, List.foldl_cons]
    by_cases hok : ok s a
    · obtain ⟨s₁, hs, h₁⟩ := hstep s t a h hok
      rw [hs, Option.bind_some, ih h₁]
      refine ⟨fun hr => ⟨hok, fun s₂ h₂ => ?_⟩, fun hr => hr.2 s₁ hs⟩
      rw [hs] at h₂
      cases h₂
      exact hr
    · rw [hbad s t a h hok, Option.bind_none]
      refine iff_of_false ?_ (fun hr => hok hr.1)
      rintro ⟨s', hs', -⟩
      cases hs'

/-- **Forward simulation**: every move of `S` from a related state is matched by moves of `T`. -/
structure Simulation (S : System σ α) (T : System τ β) (R : σ → τ → Prop) : Prop where
  init : ∀ s, S.init s → ∃ t, T.init t ∧ R s t
  step : ∀ s t a s', R s t → S.step s a = some s' → ∃ bs t', T.run t bs = some t' ∧ R s' t'

/-- **A reachable state is related to a reachable abstract one.** -/
theorem Simulation.reachable {T : System τ β} {R : σ → τ → Prop} (h : Simulation S T R) {s : σ} (hs : S.Reachable s) :
    ∃ t, T.Reachable t ∧ R s t := by
  induction hs with
  | init h0 =>
    obtain ⟨t, ht, hR⟩ := h.init _ h0
    exact ⟨t, .init ht, hR⟩
  | step _ _ hst ih =>
    obtain ⟨t, ht, hR⟩ := ih
    obtain ⟨bs, t', hrun, hR'⟩ := h.step _ _ _ _ hR hst
    exact ⟨t', ht.run bs hrun, hR'⟩

/-- The system with a record of its moves, which no move reads. -/
def record (S : System σ α) (f : σ → α → τ → τ) (t₀ : τ) : System (σ × τ) α where
  init p := S.init p.1 ∧ p.2 = t₀
  step p a := (S.step p.1 a).map (fun s' => (s', f p.1 a p.2))

theorem record_step {f : σ → α → τ → τ} {t₀ : τ} {p p' : σ × τ} {a : α} (h : (S.record f t₀).step p a = some p') :
    S.step p.1 a = some p'.1 ∧ p'.2 = f p.1 a p.2 := by
  obtain ⟨s', hs, rfl⟩ := Option.map_eq_some_iff.1 h
  exact ⟨hs, rfl⟩

/-- **What is reached is reached with a record**, and the record changes nothing. -/
theorem reachableVia_iff_record {f : σ → α → τ → τ} {t₀ : τ} {s : σ} :
    S.ReachableVia ok s ↔ ∃ t, (S.record f t₀).ReachableVia (fun p a => ok p.1 a) (s, t) := by
  constructor
  · intro h
    induction h with
    | init h0 => exact ⟨t₀, .init ⟨h0, rfl⟩⟩
    | step _ hok hs ih =>
      obtain ⟨t, ht⟩ := ih
      exact ⟨_, ht.step hok (Option.map_eq_some_iff.2 ⟨_, hs, rfl⟩)⟩
  · rintro ⟨t, ht⟩
    have hinv := ReachableVia.invariant (S := S.record f t₀) (I := fun p : σ × τ => S.ReachableVia ok p.1)
      (fun p h0 => .init h0.1) (fun p a p' hp hok hs => hp.step hok (record_step hs).1) ht
    exact hinv

/-- What a run of `S` is in moves of another system. -/
def image (S : System σ α) (f : σ → α → List β) : σ → List α → List β
  | _, []      => []
  | s, a :: as => f s a ++ match S.step s a with
    | some s' => S.image f s' as
    | none    => []

theorem image_cons {f : σ → α → List β} {s s' : σ} {a : α} {as : List α} (h : S.step s a = some s') :
    S.image f s (a :: as) = f s a ++ S.image f s' as := by
  rw [image, h]

/-- **A run of `S` is a run of `T`**, where every move of `S` is what `f` says in moves of `T`. -/
theorem run_image {T : System τ β} {I : σ → Prop} {f : σ → α → List β} {g : σ → τ}
    (hstep : ∀ s a s', I s → S.step s a = some s' → I s' ∧ T.run (g s) (f s a) = some (g s')) :
    ∀ {as : List α} {s s' : σ}, I s → S.run s as = some s' → T.run (g s) (S.image f s as) = some (g s')
  | [], s, s', _, hr      => by
    cases hr
    rfl
  | a :: as, s, s', h, hr => by
    rw [run_cons] at hr
    obtain ⟨s₁, hs, hr'⟩ := Option.bind_eq_some_iff.1 hr
    obtain ⟨h₁, hT⟩ := hstep s a s₁ h hs
    rw [image_cons hs, run_append, hT]
    exact run_image hstep h₁ hr'

end System

end ContentionProf
