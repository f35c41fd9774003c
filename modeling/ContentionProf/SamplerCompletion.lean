import ContentionProf.Completion
import ContentionProf.SamplerRounds
/-!
# SamplerCompletion — the rounds of the sampling thread end (`common/sampler.cpp`)

The sampling thread waits for the mutex of the combiner and for those of the samplers, and who owns one of them comes to
its unlock.  So a round can come to its end from wherever the threads are, and the next one deletes every sampler that
was scheduled and destroyed before.
-/
namespace ContentionProf
namespace SamplerCollector

open Links (RootList)

variable {s s' : State} {t : Thread} {x : Nat}

/-! ## Who owns a mutex is on the way to its unlock -/

def State.hasMtx (s : State) : Party → Bool
  | .user t   => (s.pc t).hasMtx
  | .sampling => s.run.hasMtx

def State.locked (s : State) : Party → Option Nat
  | .user t   => (s.pc t).locked
  | .sampling => s.run.locked

structure Locks (s : State) : Prop where
  combiner : ∀ o, s.combinerMtx = some o → s.hasMtx o = true
  sampler : ∀ x < s.created, ∀ o, s.mtx x = some o → s.locked o = some x

/-- The party that moves and the others. -/
structure Moves (s s' : State) (p : Party) : Prop where
  created : s'.created = s.created
  hasMtx : ∀ o, o ≠ p → s'.hasMtx o = s.hasMtx o
  locked : ∀ o, o ≠ p → s'.locked o = s.locked o

theorem moves_user {q : Pc} (hcreated : s'.created = s.created) (hpc : s'.pc = Function.update s.pc t q)
    (hrun : s'.run = s.run) : Moves s s' (.user t) := by
  refine ⟨hcreated, ?_, ?_⟩
  all_goals
    intro o ho
    cases o with
    | sampling => simp only [State.hasMtx, State.locked, hrun]
    | user u =>
      have hu : u ≠ t := fun hu => ho (by rw [hu])
      simp only [State.hasMtx, State.locked, hpc, Function.update_of_ne hu]

theorem moves_run (hcreated : s'.created = s.created) (hpc : s'.pc = s.pc) : Moves s s' .sampling := by
  refine ⟨hcreated, ?_, ?_⟩
  all_goals
    intro o ho
    cases o with
    | sampling => exact absurd rfl ho
    | user u => simp only [State.hasMtx, State.locked, hpc]

/-- **A step**: a mutex is as before, or free, or its new owner is the party that moved. -/
theorem Locks.move {p : Party} (h : Locks s) (hm : Moves s s' p)
    (hcombiner : ∀ o, s'.combinerMtx = some o → (o ≠ p ∧ s.combinerMtx = some o) ∨ s'.hasMtx o = true)
    (hsampler : ∀ x < s.created, ∀ o, s'.mtx x = some o → (o ≠ p ∧ s.mtx x = some o) ∨ s'.locked o = some x) :
    Locks s' where
  combiner o ho := by
    rcases hcombiner o ho with ⟨hne, ho⟩ | ho
    · rw [hm.hasMtx o hne]; exact h.combiner o ho
    · exact ho
  sampler x hx o ho := by
    rw [hm.created] at hx
    rcases hsampler x hx o ho with ⟨hne, ho⟩ | ho
    · rw [hm.locked o hne]; exact h.sampler x hx o ho
    · exact ho

/-- A step of a party that keeps the mutexes that it has. -/
theorem Locks.quiet {p : Party} (h : Locks s) (hm : Moves s s' p) (hcombiner : s'.combinerMtx = s.combinerMtx)
    (hmtx : s'.mtx = s.mtx) (hhas : s'.hasMtx p = s.hasMtx p) (hlocked : s'.locked p = s.locked p) : Locks s' := by
  refine h.move hm (fun o ho => ?_) (fun x hx o ho => ?_)
  · rw [hcombiner] at ho
    by_cases hop : o = p
    · rw [hop] at ho ⊢
      exact .inr (hhas.trans (h.combiner p ho))
    · exact .inl ⟨hop, ho⟩
  · rw [hmtx] at ho
    by_cases hop : o = p
    · rw [hop] at ho ⊢
      exact .inr (hlocked.trans (h.sampler x hx p ho))
    · exact .inl ⟨hop, ho⟩

/-- A thread that is in no section under a mutex, before and after. -/
theorem Locks.outside {q : Pc} (h : Locks s) (hcreated : s'.created = s.created)
    (hpc : s'.pc = Function.update s.pc t q) (hrun : s'.run = s.run) (hcombiner : s'.combinerMtx = s.combinerMtx)
    (hmtx : s'.mtx = s.mtx) (hhas : q.hasMtx = (s.pc t).hasMtx) (hlocked : q.locked = (s.pc t).locked) : Locks s' := by
  refine h.quiet (moves_user hcreated hpc hrun) hcombiner hmtx ?_ ?_
  · simp only [State.hasMtx, hpc, Function.update_self, hhas]
  · simp only [State.locked, hpc, Function.update_self, hlocked]

theorem hasMtx_update {q : Pc} (hpc : s'.pc = Function.update s.pc t q) : s'.hasMtx (.user t) = q.hasMtx := by
  simp only [State.hasMtx, hpc, Function.update_self]

theorem locked_update {q : Pc} (hpc : s'.pc = Function.update s.pc t q) : s'.locked (.user t) = q.locked := by
  simp only [State.locked, hpc, Function.update_self]

/-- A party takes or gives back the mutex of the combiner. -/
theorem Locks.combinerMtx {p : Party} {o : Option Party} (h : Locks s) (hm : Moves s s' p)
    (hcombiner : s'.combinerMtx = o) (ho : ∀ o', o = some o' → s'.hasMtx o' = true) (hmtx : s'.mtx = s.mtx)
    (hlocked : s'.locked p = s.locked p) : Locks s' := by
  refine h.move hm (fun o' ho' => .inr (ho o' (hcombiner.symm.trans ho'))) (fun x hx o' ho' => ?_)
  rw [hmtx] at ho'
  by_cases hop : o' = p
  · rw [hop] at ho' ⊢
    exact .inr (hlocked.trans (h.sampler x hx p ho'))
  · exact .inl ⟨hop, ho'⟩

/-- A party takes or gives back the mutex of a sampler. -/
theorem Locks.setMtx {p : Party} {o : Option Party} {y : Nat} (h : Locks s) (hm : Moves s s' p)
    (hcombiner : s'.combinerMtx = s.combinerMtx) (hhas : s'.hasMtx p = s.hasMtx p)
    (hmtx : s'.mtx = Function.update s.mtx y o) (ho : ∀ o', o = some o' → s'.locked o' = some y)
    (hold : ∀ x, s.locked p = some x → x = y) : Locks s' := by
  refine h.move hm (fun o' ho' => ?_) (fun x hx o' ho' => ?_)
  · rw [hcombiner] at ho'
    by_cases hop : o' = p
    · rw [hop] at ho' ⊢
      exact .inr (hhas.trans (h.combiner p ho'))
    · exact .inl ⟨hop, ho'⟩
  · rw [hmtx] at ho'
    by_cases hxy : x = y
    · rw [hxy, Function.update_self] at ho'
      exact .inr (hxy ▸ ho o' ho')
    · rw [Function.update_of_ne hxy] at ho'
      refine .inl ⟨fun hop => hxy (hold x ?_), ho'⟩
      rw [← hop]
      exact h.sampler x hx o' ho'

theorem locks_user (h : Locks s) (hs : userStep s t = some s') : Locks s' := by
  unfold userStep at hs
  cases hp : s.pc t with rw [hp] at hs
  | append r x =>
    dsimp only at hs
    split at hs <;> cases hs
    exact h.outside rfl rfl rfl rfl rfl (by rw [hp]; rfl) (by rw [hp]; rfl)
  | modify r x => cases hs; exact h.outside rfl rfl rfl rfl rfl (by rw [hp]; rfl) (by rw [hp]; rfl)
  | lock r x =>
    dsimp only at hs
    split at hs
    · have hs := Option.some.inj hs
      have hpc : s'.pc = Function.update s.pc t (.store r x) := by rw [← hs]; rfl
      have hrun : s'.run = s.run := by rw [← hs]; rfl
      have hmtx : s'.mtx = Function.update s.mtx x (some (.user t)) := by rw [← hs]; rfl
      refine h.setMtx (moves_user (by rw [← hs]; rfl) hpc hrun) (by rw [← hs]; rfl) ?_ hmtx ?_ ?_
      · rw [hasMtx_update hpc, State.hasMtx, hp]; rfl
      · rintro _ ⟨⟩
        exact locked_update hpc
      · intro y hy
        rw [State.locked, hp] at hy
        cases hy
    · cases hs
  | store r x => cases hs; exact h.outside rfl rfl rfl rfl rfl (by rw [hp]; rfl) (by rw [hp]; rfl)
  | unlock r x =>
    have hs := Option.some.inj hs
    have hpc : s'.pc = Function.update s.pc t .idle := by rw [← hs]; rfl
    have hrun : s'.run = s.run := by rw [← hs]; rfl
    have hmtx : s'.mtx = Function.update s.mtx x none := by rw [← hs]; rfl
    refine h.setMtx (moves_user (by rw [← hs]; rfl) hpc hrun) (by rw [← hs]; rfl) ?_ hmtx nofun ?_
    · rw [hasMtx_update hpc, State.hasMtx, hp]; rfl
    · intro y hy
      rw [State.locked, hp] at hy
      exact (Option.some.inj hy).symm
  | commit =>
    dsimp only at hs
    split at hs
    · have hs := Option.some.inj hs
      have hpc : s'.pc = Function.update s.pc t .load := by rw [← hs]; rfl
      have hrun : s'.run = s.run := by rw [← hs]; rfl
      have hcombiner : s'.combinerMtx = some (.user t) := by rw [← hs]; rfl
      refine h.combinerMtx (moves_user (by rw [← hs]; rfl) hpc hrun) hcombiner ?_ (by rw [← hs]; rfl) ?_
      · rintro _ ⟨⟩
        exact hasMtx_update hpc
      · rw [locked_update hpc, State.locked, hp]; rfl
    · cases hs
  | load => cases hs; exact h.outside rfl rfl rfl rfl rfl (by rw [hp]; rfl) (by rw [hp]; rfl)
  | erase val =>
    have hs := Option.some.inj hs
    have hpc : s'.pc = Function.update s.pc t .idle := by rw [← hs]; rfl
    have hrun : s'.run = s.run := by rw [← hs]; rfl
    have hcombiner : s'.combinerMtx = none := by rw [← hs]; rfl
    refine h.combinerMtx (moves_user (by rw [← hs]; rfl) hpc hrun) hcombiner nofun (by rw [← hs]; rfl) ?_
    rw [locked_update hpc, State.locked, hp]; rfl
  | idle => cases hs
  | agent r x => cases hs

/-- A step of the sampling thread within a section, or outside of all. -/
theorem Locks.run (h : Locks s) (hcreated : s'.created = s.created) (hpc : s'.pc = s.pc)
    (hcombiner : s'.combinerMtx = s.combinerMtx) (hmtx : s'.mtx = s.mtx) (hhas : s'.run.hasMtx = s.run.hasMtx)
    (hlocked : s'.run.locked = s.run.locked) : Locks s' :=
  h.quiet (moves_run hcreated hpc) hcombiner hmtx hhas hlocked

/-- The sampling thread unlocks the sampler that it has. -/
theorem Locks.runUnlock {q : RunPc} (h : Locks s) (hr : s.run.locked = some x) (hq : q.hasMtx = s.run.hasMtx) :
    Locks { s.setMtx x none with run := q } := by
  refine h.setMtx (y := x) (moves_run rfl rfl) rfl hq rfl nofun (fun y hy => ?_)
  exact Option.some.inj (hy.symm.trans hr)

theorem locks_run (h : Locks s) (hs : runStep s = some s') : Locks s' := by
  unfold runStep at hs
  cases hr : s.run with rw [hr] at hs
  | reset =>
    dsimp only at hs
    split at hs <;> cases hs
    refine h.combinerMtx (moves_run rfl rfl) rfl ?_ rfl (by rw [State.locked, State.locked, hr]; rfl)
    rintro _ ⟨⟩
    rfl
  | exchange node tmp =>
    dsimp only at hs
    split at hs <;> cases hs
    · exact h.run rfl rfl rfl rfl (by rw [hr]; rfl) (by rw [hr]; rfl)
    · exact h.combinerMtx (moves_run rfl rfl) rfl nofun rfl (by rw [State.locked, State.locked, hr]; rfl)
  | combine node tmp prev => cases hs; exact h.run rfl rfl rfl rfl (by rw [hr]; rfl) (by rw [hr]; rfl)
  | splice a => cases a <;> cases hs <;> exact h.run rfl rfl rfl rfl (by rw [hr]; rfl) (by rw [hr]; rfl)
  | loop p => cases p <;> cases hs <;> exact h.run rfl rfl rfl rfl (by rw [hr]; rfl) (by rw [hr]; rfl)
  | lock x p =>
    dsimp only at hs
    split at hs <;> cases hs
    refine h.setMtx (y := x) (moves_run rfl rfl) rfl (by rw [State.hasMtx, State.hasMtx, hr]; rfl) rfl ?_ ?_
    · rintro _ ⟨⟩
      rfl
    · intro y hy
      rw [State.locked, hr] at hy
      cases hy
  | check x p =>
    cases hs
    refine h.run rfl rfl rfl rfl ?_ ?_ <;> rw [hr] <;> dsimp only <;> split <;> rfl
  | sample x p => cases hs; exact h.run rfl rfl rfl rfl (by rw [hr]; rfl) (by rw [hr]; rfl)
  | sampled x p =>
    cases hs
    exact h.runUnlock (by rw [hr]; rfl) (by rw [hr]; rfl)
  | unlock x p =>
    cases hs
    exact h.runUnlock (by rw [hr]; rfl) (by rw [hr]; rfl)
  | remove x p => cases hs; exact h.run rfl rfl rfl rfl (by rw [hr]; rfl) (by rw [hr]; rfl)
  | delete x p => cases hs; exact h.run rfl rfl rfl rfl (by rw [hr]; rfl) (by rw [hr]; rfl)
  | sleep => cases hs; exact h.run rfl rfl rfl rfl (by rw [hr]; rfl) (by rw [hr]; rfl)

/-- A new sampler's mutex is free. -/
theorem Locks.newSampler (h : Locks s) (r : Var) : Locks (s.newSampler r) where
  combiner o ho := by
    have hsame : (s.newSampler r).hasMtx o = s.hasMtx o := by cases o <;> rfl
    rw [hsame]
    exact h.combiner o ho
  sampler x hx o ho := by
    have hsame : (s.newSampler r).locked o = s.locked o := by cases o <;> rfl
    have ho : Function.update s.mtx s.created none x = some o := ho
    by_cases hnew : x = s.created
    · rw [hnew, Function.update_self] at ho
      cases ho
    · rw [Function.update_of_ne hnew] at ho
      rw [hsame]
      exact h.sampler x (Nat.lt_of_le_of_ne (Nat.lt_succ_iff.1 hx) hnew) o ho

theorem locks_step {a : Label} (h : Locks s) (hs : step s a = some s') : Locks s' := by
  cases a with
  | run => exact locks_run h hs
  | user t => exact locks_user h hs
  | exit t =>
    simp only [step] at hs
    split at hs
    · rename_i hidle
      cases hs
      exact h.outside rfl rfl rfl rfl rfl (by rw [hidle.1]; rfl) (by rw [hidle.1]; rfl)
    · cases hs
  | getSampler t r =>
    simp only [step, getSampler] at hs
    split at hs
    · rename_i hidle
      have hidle' : (s.newSampler r).pc t = .idle := hidle.1
      split at hs
      · cases hs; exact h
      · cases hs
        exact (h.newSampler r).outside rfl rfl rfl rfl rfl (by rw [hidle']; rfl) (by rw [hidle']; rfl)
    · cases hs
  | agent t =>
    simp only [step, getAgent] at hs
    cases hp : s.pc t with rw [hp] at hs
    | agent r x =>
      dsimp only at hs
      split at hs <;> cases hs <;> exact h.outside rfl rfl rfl rfl rfl (by rw [hp]; rfl) (by rw [hp]; rfl)
    | _ => cases hs
  | destroy t r =>
    simp only [step, destroyVar] at hs
    split at hs
    · rename_i hidle
      split at hs <;> cases hs
      · exact h.outside rfl rfl rfl rfl rfl (by rw [hidle.1]; rfl) (by rw [hidle.1]; rfl)
      · exact h.outside (t := t) (q := .idle) rfl (by rw [← hidle.1, Function.update_eq_self]; rfl) rfl rfl rfl
          (by rw [hidle.1]) (by rw [hidle.1])
    · cases hs

theorem locks_reachable (h : system.Reachable s) : Locks s :=
  h.invariant (I := Locks)
    (fun s h0 => by
      obtain ⟨-, hcreated, -, -, -, hmtx, -⟩ := h0
      exact ⟨by rw [hmtx]; exact nofun, fun x hx => by rw [hcreated] at hx; exact absurd hx (Nat.not_lt_zero x)⟩)
    (fun _ _ _ hi _ hs => locks_step hi hs)

/-! ## The owner of a mutex gives it back -/

/-- A thread goes on in its call, or the sampling thread in its round. -/
def GoOn (a : Label) : Prop := a = .run ∨ ∃ t, a = .user t

theorem goOn_run : GoOn .run := .inl rfl

theorem goOn_user (t : Thread) : GoOn (.user t) := .inr ⟨t, rfl⟩

/-- The mutex of the combiner can be had, unless the sampling thread has it. -/
theorem frees_combiner (h : Locks s) (hrun : s.run.hasMtx = false) :
    ∃ s', system.Goes GoOn s s' ∧ s'.combinerMtx = none ∧ SameRun s s' := by
  cases ho : s.combinerMtx with
  | none => exact ⟨s, .refl s, ho, ⟨rfl, rfl, rfl, rfl, rfl⟩⟩
  | some o =>
    have hhas := h.combiner o ho
    cases o with
    | sampling => exact absurd hhas (by rw [State.hasMtx, hrun]; decide)
    | user t =>
      have herase : ∀ {s v}, s.pc t = .erase v → system.step s (.user t) = some (s.erase t v) := by
        intro s v hp
        show userStep s t = _
        rw [userStep, hp]
      cases hp : s.pc t with
      | load =>
        have hload : system.step s (.user t) = some (s.setPc t (.erase (s.element t))) := by
          show userStep s t = _
          rw [userStep, hp]
        exact ⟨_, (System.Goes.step (goOn_user t) hload).trans
          (.step (goOn_user t) (herase (Function.update_self ..))), rfl, ⟨rfl, rfl, rfl, rfl, rfl⟩⟩
      | erase v => exact ⟨_, .step (goOn_user t) (herase hp), rfl, ⟨rfl, rfl, rfl, rfl, rfl⟩⟩
      | _ =>
        rw [State.hasMtx, hp] at hhas
        cases hhas

/-- The mutex of a sampler can be had, unless the sampling thread has it. -/
theorem frees_sampler (h : Locks s) (hx : x < s.created) (hrun : s.run.locked = none) :
    ∃ s', system.Goes GoOn s s' ∧ s'.mtx x = none ∧ SameRun s s' := by
  cases ho : s.mtx x with
  | none => exact ⟨s, .refl s, ho, ⟨rfl, rfl, rfl, rfl, rfl⟩⟩
  | some o =>
    have hlocked := h.sampler x hx o ho
    cases o with
    | sampling => exact absurd hlocked (by rw [State.locked, hrun]; exact nofun)
    | user t =>
      have hunlock : ∀ {s r}, s.pc t = .unlock r x →
          ∃ s', system.step s (.user t) = some s' ∧ s'.mtx x = none ∧ SameRun s s' := by
        intro s r hp
        show ∃ s', userStep s t = some s' ∧ _
        rw [userStep, hp]
        exact ⟨_, rfl, Function.update_self .., ⟨rfl, rfl, rfl, rfl, rfl⟩⟩
      cases hp : s.pc t with
      | store r y =>
        rw [State.locked, hp] at hlocked
        obtain rfl : y = x := Option.some.inj hlocked
        have hstore : system.step s (.user t) =
            some ({ s with used := Function.update s.used y false }.setPc t (.unlock r y)) := by
          show userStep s t = _
          rw [userStep, hp]
        obtain ⟨s', hs, hfree, hsame⟩ := hunlock
          (s := { s with used := Function.update s.used y false }.setPc t (.unlock r y)) (Function.update_self ..)
        exact ⟨s', (System.Goes.step (goOn_user t) hstore).trans (.step (goOn_user t) hs), hfree,
          ⟨hsame.run, hsame.deleted, hsame.due, hsame.begun, hsame.visited⟩⟩
      | unlock r y =>
        rw [State.locked, hp] at hlocked
        obtain rfl : y = x := Option.some.inj hlocked
        obtain ⟨s', hs, hfree, hsame⟩ := hunlock hp
        exact ⟨s', .step (goOn_user t) hs, hfree, hsame⟩
      | _ =>
        rw [State.locked, hp] at hlocked
        cases hlocked

/-! ## The lists are taken -/

theorem goes_run (hs : runStep s = some s') : system.Goes GoOn s s' := .step goOn_run hs

/-- `reset_all_agents` comes to its end: no agent is added while the sampling thread has the mutex. -/
theorem exchange_goes (n : Nat) : ∀ {s : State} {node tmp}, s.run = .exchange node tmp → s.agents.length ≤ node + n →
    ∃ s', system.Goes GoOn s s' ∧ ∃ tmp', s'.run = .splice tmp' := by
  induction n with
  | zero =>
    intro s node tmp hr hle
    have hnone : s.agents[node]? = none := List.getElem?_eq_none hle
    refine ⟨{ s with combinerMtx := none, run := .splice tmp }, goes_run ?_, tmp, rfl⟩
    rw [runStep, hr]; dsimp only; rw [hnone]
  | succ n ih =>
    intro s node tmp hr hle
    cases hu : s.agents[node]? with
    | none =>
      refine ⟨{ s with combinerMtx := none, run := .splice tmp }, goes_run ?_, tmp, rfl⟩
      rw [runStep, hr]; dsimp only; rw [hu]
    | some u =>
      have hexchange : runStep s = some { s.setElement u none with run := .combine node tmp (s.element u) } := by
        rw [runStep, hr]; dsimp only; rw [hu]
      let c := combine s.links tmp (s.element u)
      have hcombine : runStep { s.setElement u none with run := .combine node tmp (s.element u) } =
          some { s.setElement u none with links := c.1, run := .exchange (node + 1) c.2 } := rfl
      exact ((goes_run hexchange).trans (goes_run hcombine)).andThen (ih rfl (Nat.le_trans hle (by omega)))

/-! ## A sampler is visited -/

/-- The pass has come to its next turn, with `k` more samplers visited. -/
def Turned (k : Nat) (s s' : State) : Prop :=
  (∃ p, s'.run = .loop p) ∧ s'.begun = s.begun ∧ s'.visited.length = s.visited.length + k

theorem sampled_goes {p : Node} (hr : s.run = .sampled x p) : ∃ s', system.Goes GoOn s s' ∧ Turned 0 s s' :=
  ⟨{ s.setMtx x none with run := .loop p }, goes_run (by rw [runStep, hr]), ⟨p, rfl⟩, rfl, rfl⟩

theorem sample_goes {p : Node} (hr : s.run = .sample x p) : ∃ s', system.Goes GoOn s s' ∧ Turned 1 s s' := by
  let s₁ := { s with visited := s.visited ++ [(x, true)], run := .sampled x p }
  have hs : runStep s = some s₁ := by rw [runStep, hr]
  obtain ⟨s', hg, hp, hbegun, hvisited⟩ := sampled_goes (s := s₁) rfl
  refine ⟨s', (goes_run hs).trans hg, hp, hbegun, hvisited.trans ?_⟩
  exact List.length_append

theorem delete_goes {p : Node} (hr : s.run = .delete x p) : ∃ s', system.Goes GoOn s s' ∧ Turned 1 s s' := by
  let s₁ := { s with deleted := s.deleted ++ [x], visited := s.visited ++ [(x, false)], run := .loop p }
  have hs : runStep s = some s₁ := by rw [runStep, hr]
  exact ⟨s₁, goes_run hs, ⟨p, rfl⟩, rfl, List.length_append⟩

theorem remove_goes {p : Node} (hr : s.run = .remove x p) : ∃ s', system.Goes GoOn s s' ∧ Turned 1 s s' := by
  let s₁ := { s with links := s.links.removeFromList (.sampler x), run := .delete x p }
  have hs : runStep s = some s₁ := by rw [runStep, hr]
  exact (goes_run hs).andThen (delete_goes (s := s₁) rfl)

theorem unlock_goes {p : Node} (hr : s.run = .unlock x p) : ∃ s', system.Goes GoOn s s' ∧ Turned 1 s s' := by
  let s₁ := { s.setMtx x none with run := .remove x p }
  have hs : runStep s = some s₁ := by rw [runStep, hr]
  exact (goes_run hs).andThen (remove_goes (s := s₁) rfl)

theorem check_goes {p : Node} (hr : s.run = .check x p) : ∃ s', system.Goes GoOn s s' ∧ Turned 1 s s' := by
  have hs : runStep s = some { s with run := if s.used x then .sample x p else .unlock x p } := by rw [runStep, hr]
  by_cases hu : s.used x = true
  · rw [if_pos hu] at hs
    exact (goes_run hs).andThen (sample_goes (s := { s with run := .sample x p }) rfl)
  · rw [if_neg hu] at hs
    exact (goes_run hs).andThen (unlock_goes (s := { s with run := .unlock x p }) rfl)

theorem lock_goes {p : Node} (h : Locks s) (hx : x < s.created) (hr : s.run = .lock x p) :
    ∃ s', system.Goes GoOn s s' ∧ Turned 1 s s' := by
  obtain ⟨s₁, hfrees, hfree, hsame⟩ := frees_sampler h hx (by rw [hr]; rfl)
  have hr₁ := hsame.run.trans hr
  let s₂ := { s₁.setMtx x (some .sampling) with run := .check x p }
  have hlock : runStep s₁ = some s₂ := by rw [runStep, hr₁]; dsimp only; rw [hfree]
  obtain ⟨s', hg, hp, hbegun, hvisited⟩ := check_goes (s := s₂) rfl
  refine ⟨s', (hfrees.trans (goes_run hlock)).trans hg, hp, hbegun.trans hsame.begun, hvisited.trans ?_⟩
  exact congrArg (fun l => l.length + 1) hsame.visited

/-! ## The pass -/

/-- **A pass comes to its end**: of the list it began with there is one sampler less to visit after each turn. -/
theorem pass_goes (n : Nat) : ∀ {s : State} {p : Node} {l}, system.Reachable s → s.run = .loop p →
    s.begun.RootList .sampler .root l → l.length ≤ s.visited.length + n →
    ∃ s', system.Goes GoOn s s' ∧ s'.run = .sleep := by
  induction n with
  | zero =>
    intro s p l hreach hr hl hle
    obtain rfl : p = .root := by
      obtain ⟨m, hI⟩ := inv_reachable hreach
      obtain ⟨⟨todo, -, hbegun, hp, -⟩, -⟩ := hI.rounds.pass (p := p) (by rw [hr]; rfl)
      cases todo with
      | nil => exact hp
      | cons y todo =>
        rw [hl.unique sampler_injective hbegun] at hle
        simp only [List.append_nil, List.length_append, List.length_map, List.length_cons] at hle
        omega
    exact ⟨{ s with run := .sleep }, goes_run (by rw [runStep, hr]), rfl⟩
  | succ n ih =>
    intro s p l hreach hr hl hle
    cases p with
    | root => exact ⟨{ s with run := .sleep }, goes_run (by rw [runStep, hr]), rfl⟩
    | sampler x =>
      let s₁ := { s with run := .lock x (s.links.next (.sampler x)) }
      have hs : system.step s .run = some s₁ := by show runStep s = _; rw [runStep, hr]
      have hreach₁ : system.Reachable s₁ := hreach.step trivial hs
      obtain ⟨m, hI⟩ := inv_reachable hreach₁
      have hx : x < s₁.created := hI.owned.current rfl
      obtain ⟨s₂, hg, ⟨p, hr₂⟩, hbegun, hvisited⟩ := lock_goes (locks_reachable hreach₁) hx rfl
      have hg := (goes_run hs).trans hg
      have hvisited : s₂.visited.length = s.visited.length + 1 := hvisited
      exact hg.andThen (ih (hg.reachable hreach) hr₂ (hbegun ▸ hl) (by omega))

theorem loop_goes {p : Node} (hreach : system.Reachable s) (hr : s.run = .loop p) :
    ∃ s', system.Goes GoOn s s' ∧ s'.run = .sleep := by
  obtain ⟨m, hI⟩ := inv_reachable hreach
  obtain ⟨⟨todo, -, hbegun, -, -⟩, -⟩ := hI.rounds.pass (p := p) (by rw [hr]; rfl)
  exact pass_goes _ hreach hr hbegun (Nat.le_add_left ..)

theorem splice_goes {tmp : Option Nat} (hreach : system.Reachable s) (hr : s.run = .splice tmp) :
    ∃ s', system.Goes GoOn s s' ∧ s'.run = .sleep := by
  obtain ⟨s₁, hg, p, hr₁⟩ : ∃ s₁, system.Goes GoOn s s₁ ∧ ∃ p, s₁.run = .loop p := by
    cases tmp with
    | none =>
      let s₁ := { s with begun := s.links, visited := [], run := .loop (s.links.next .root) }
      have hs : runStep s = some s₁ := by rw [runStep, hr]
      exact ⟨s₁, goes_run hs, _, rfl⟩
    | some a =>
      let h := s.links.insertBeforeAsList (.sampler a) .root
      let s₁ := { s with links := h, begun := h, visited := [], run := .loop (h.next .root) }
      have hs : runStep s = some s₁ := by rw [runStep, hr]
      exact ⟨s₁, goes_run hs, _, rfl⟩
  exact hg.andThen (loop_goes (hg.reachable hreach) hr₁)

theorem collect_goes {node : Nat} {tmp : Option Nat} (hreach : system.Reachable s) (hr : s.run = .exchange node tmp) :
    ∃ s', system.Goes GoOn s s' ∧ s'.run = .sleep := by
  obtain ⟨s₁, hg, tmp', hr₁⟩ := exchange_goes _ hr (Nat.le_add_left ..)
  exact hg.andThen (splice_goes (hg.reachable hreach) hr₁)

theorem turned_goes {k : Nat} (hreach : system.Reachable s) (h : ∃ s', system.Goes GoOn s s' ∧ Turned k s s') :
    ∃ s', system.Goes GoOn s s' ∧ s'.run = .sleep := by
  obtain ⟨s₁, hg, ⟨p, hr⟩, -⟩ := h
  exact hg.andThen (loop_goes (hg.reachable hreach) hr)

/-! ## Rounds -/

/-- What is scheduled and destroyed stays so, and is due when a round begins. -/
theorem step_due {a : Label} (hs : step s a = some s') : (∀ x ∈ s.scheduled, x ∈ s'.scheduled) ∧
    (∀ x ∈ s.destroyed, x ∈ s'.destroyed) ∧
    (s'.due = s.due ∨ s'.due = s.scheduled.filter (fun x => x ∈ s.destroyed)) := by
  cases a with
  | getSampler t r =>
    simp only [step, getSampler] at hs
    repeat' split at hs
    all_goals cases hs
    all_goals exact ⟨fun _ hx => hx, fun _ hx => hx, .inl rfl⟩
  | agent t =>
    simp only [step, getAgent] at hs
    repeat' split at hs
    all_goals cases hs
    all_goals exact ⟨fun _ hx => hx, fun _ hx => hx, .inl rfl⟩
  | destroy t r =>
    simp only [step, destroyVar] at hs
    repeat' split at hs
    all_goals cases hs
    all_goals exact ⟨fun _ hx => hx, fun _ hx => hx, .inl rfl⟩
  | exit t =>
    simp only [step] at hs
    split at hs
    all_goals cases hs
    exact ⟨fun _ hx => hx, fun _ hx => hx, .inl rfl⟩
  | user t =>
    simp only [step, userStep] at hs
    repeat' split at hs
    all_goals cases hs
    -- `element.modify` schedules, and the unlock ends `destroy`
    case h_2 => exact ⟨fun _ hx => List.mem_append_left _ hx, fun _ hx => hx, .inl rfl⟩
    case h_5 => exact ⟨fun _ hx => hx, fun _ hx => List.mem_append_left _ hx, .inl rfl⟩
    all_goals exact ⟨fun _ hx => hx, fun _ hx => hx, .inl rfl⟩
  | run =>
    simp only [step, runStep] at hs
    repeat' split at hs
    all_goals cases hs
    all_goals refine ⟨fun _ hx => hx, fun _ hx => hx, ?_⟩
    all_goals first | exact .inl rfl | exact .inr rfl

/-- Scheduled and destroyed. -/
def Condemned (s : State) (x : Nat) : Prop := x ∈ s.scheduled ∧ x ∈ s.destroyed

theorem condemned_step {a : Label} (h : Condemned s x) (hs : system.step s a = some s') : Condemned s' x :=
  ⟨(step_due hs).1 x h.1, (step_due hs).2.1 x h.2⟩

theorem due_step {a : Label} (h : Condemned s x ∧ x ∈ s.due) (hs : system.step s a = some s') :
    Condemned s' x ∧ x ∈ s'.due := by
  refine ⟨condemned_step h.1 hs, ?_⟩
  rcases (step_due hs).2.2 with hdue | hdue
  · rw [hdue]
    exact h.2
  · rw [hdue]
    exact List.mem_filter.2 ⟨h.1.1, decide_eq_true h.1.2⟩

/-- **A round deletes what is condemned when it begins.** -/
theorem reset_goes (hreach : system.Reachable s) (hr : s.run = .reset) :
    ∃ s', system.Goes GoOn s s' ∧ s'.run = .sleep ∧ ∀ x, Condemned s x → x ∈ s'.deleted := by
  obtain ⟨s₁, hfrees, hfree, hsame⟩ := frees_combiner (locks_reachable hreach) (by rw [hr]; rfl)
  obtain ⟨s₂, hs, hr₂, hdue⟩ : ∃ s₂, runStep s₁ = some s₂ ∧ s₂.run = .exchange 0 s₁.globalResult ∧
      s₂.due = s₁.scheduled.filter (fun x => x ∈ s₁.destroyed) := by
    rw [runStep, hsame.run.trans hr]; dsimp only; rw [hfree]
    exact ⟨_, rfl, rfl, rfl⟩
  have hreach₂ := (goes_run hs).reachable (hfrees.reachable hreach)
  obtain ⟨s', hg, hsleep⟩ := collect_goes hreach₂ hr₂
  refine ⟨s', (hfrees.trans (goes_run hs)).trans hg, hsleep, fun x hx => ?_⟩
  have hx₁ : Condemned s₁ x := hfrees.keeps (fun _ _ _ h hs => condemned_step h hs) hx
  have hx₂ : Condemned s₂ x ∧ x ∈ s₂.due := by
    refine ⟨condemned_step (a := .run) hx₁ hs, ?_⟩
    rw [hdue]
    exact List.mem_filter.2 ⟨hx₁.1, decide_eq_true hx₁.2⟩
  have hx' : Condemned s' x ∧ x ∈ s'.due := hg.keeps (fun _ _ _ h hs => due_step h hs) hx₂
  obtain ⟨m, hI⟩ := inv_reachable (hg.reachable hreach₂)
  exact (hI.round hsleep).due x hx'.2

/-- **The round of the sampling thread comes to its end**, wherever the threads stand. -/
theorem sleep_goes (hreach : system.Reachable s) : ∃ s', system.Goes GoOn s s' ∧ s'.run = .sleep := by
  cases hr : s.run with
  | reset =>
    obtain ⟨s', hg, hsleep, -⟩ := reset_goes hreach hr
    exact ⟨s', hg, hsleep⟩
  | exchange node tmp => exact collect_goes hreach hr
  | combine node tmp prev =>
    let c := combine s.links tmp prev
    have hs : runStep s = some { s with links := c.1, run := .exchange (node + 1) c.2 } := by rw [runStep, hr]
    exact (goes_run hs).andThen (collect_goes ((goes_run hs).reachable hreach) rfl)
  | splice tmp => exact splice_goes hreach hr
  | loop p => exact loop_goes hreach hr
  | lock x p =>
    obtain ⟨m, hI⟩ := inv_reachable hreach
    exact turned_goes hreach (lock_goes (locks_reachable hreach) (hI.owned.current (by rw [hr]; rfl)) hr)
  | check x p => exact turned_goes hreach (check_goes hr)
  | sample x p => exact turned_goes hreach (sample_goes hr)
  | sampled x p => exact turned_goes hreach (sampled_goes hr)
  | unlock x p => exact turned_goes hreach (unlock_goes hr)
  | remove x p => exact turned_goes hreach (remove_goes hr)
  | delete x p => exact turned_goes hreach (delete_goes hr)
  | sleep => exact ⟨s, .refl s, hr⟩

/-- **A destroyed sampler is deleted**: wherever the threads stand, the sampling thread ends its
round and the next one, by its own steps and those of calls under way, and then it has deleted all of them. -/
theorem destroyed_deleted (hreach : system.Reachable s) :
    ∃ s', system.Goes GoOn s s' ∧ s'.run = .sleep ∧ ∀ x ∈ s.destroyed, x ∈ s'.deleted := by
  obtain ⟨s₁, hg, hsleep₁⟩ := sleep_goes hreach
  have hs : runStep s₁ = some { s₁ with run := .reset } := by rw [runStep, hsleep₁]
  have hg := hg.trans (goes_run hs)
  obtain ⟨s', hg', hsleep, hdeleted⟩ := reset_goes (hg.reachable hreach) rfl
  refine ⟨s', hg.trans hg', hsleep, fun x hx => hdeleted x ?_⟩
  exact hg.keeps (fun _ _ _ h hs => condemned_step h hs) ⟨scheduled_of_destroyed hreach x hx, hx⟩

/-- The run stops when the first reducer is destroyed, and its sampler is still in the list. -/
theorem destroyed_deleted_roundsRun : ∃ s s', system.run started (roundsRun.take 30) = some s ∧ s.deleted = [] ∧
    system.Goes GoOn s s' ∧ 0 ∈ s'.deleted := by
  have hrun : (system.run started (roundsRun.take 30)).map (fun s => (s.destroyed, s.deleted)) = some ([0], []) := by
    decide
  obtain ⟨s, hs, hx⟩ := Option.map_eq_some_iff.1 hrun
  simp only [Prod.mk.injEq] at hx
  have hinit : system.init started :=
    ⟨⟨rfl, rfl⟩, rfl, rfl, rfl, rfl, rfl, rfl, rfl, rfl, rfl, rfl, rfl, rfl, rfl, rfl⟩
  obtain ⟨s', hg, -, hdeleted⟩ := destroyed_deleted (System.Reachable.run (.init hinit) _ hs)
  refine ⟨s, s', hs, hx.2, hg, hdeleted 0 ?_⟩
  rw [hx.1]
  exact List.mem_singleton_self 0

end SamplerCollector
end ContentionProf
