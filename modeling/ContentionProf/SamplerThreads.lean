import ContentionProf.SamplerPlaces
/-!
# SamplerThreads — the threads that make and destroy samplers (`common/reducer.h`, `common/combiner.h`)

`Inv` joins who owns a sampler, the state of the combiner, the places of the samplers and what a round has done so far;
here each step of a thread keeps it.
-/
namespace ContentionProf
namespace SamplerCollector

open Links (RootList)

/-- The agents whose lists this round has not taken. -/
def RunPc.rest (agents : List Thread) : RunPc → Option (List Thread)
  | .exchange node _  => some (agents.drop node)
  | .combine node _ _ => some (agents.drop (node + 1))
  | .splice _         => some []
  | _                 => none

/-- In the pass: the sampler it is at, if it has not been dealt with and while it is linked, and the loop variable. -/
def RunPc.pass : RunPc → Option (List Nat × List Nat × Node)
  | .loop p      => some ([], [], p)
  | .lock x p    => some ([x], [x], p)
  | .check x p   => some ([x], [x], p)
  | .sample x p  => some ([x], [x], p)
  | .sampled _ p => some ([], [], p)
  | .unlock x p  => some ([x], [x], p)
  | .remove x p  => some ([x], [x], p)
  | .delete x p  => some ([x], [], p)
  | .sleep       => some ([], [], .root)
  | _            => none

/-- The samplers that were used when they were visited. -/
def State.kept (s : State) : List Nat := (s.visited.filter Prod.snd).map Prod.fst

/-- **What a pass has done and has to do**: of the list it began with it has visited a beginning, those that were used
are still linked, and `todo` is before it. -/
def AtWork (s : State) (list cur linked : List Nat) (p : Node) : Prop :=
  (∃ todo, list = s.kept ++ linked ++ todo ∧
    s.begun.RootList .sampler .root (s.visited.map Prod.fst ++ cur ++ todo) ∧ p = Links.first .sampler .root todo ∧
    ∀ x ∈ s.due, x ∈ s.deleted ∨ x ∈ s.visited.map Prod.fst ++ cur ++ todo) ∧
  ∀ x, (x, true) ∈ s.visited → x ∉ s.due

structure Rounds (s : State) (m : Place → List Nat) : Prop where
  due : ∀ x ∈ s.due, x ∈ s.destroyed
  rest : ∀ {l}, s.run.rest s.agents = some l → ∀ x ∈ s.due,
    x ∈ s.deleted ∨ x ∈ m .tmp ∨ x ∈ m .prev ∨ x ∈ m .list ∨ ∃ u ∈ l, x ∈ m (.agent u)
  pass : ∀ {cur linked p}, s.run.pass = some (cur, linked, p) → AtWork s (m .list) cur linked p
  gone : ∀ x, (x, false) ∈ s.visited → x ∈ s.deleted
  deleted : ∀ x ∈ s.deleted, x ∈ s.destroyed

structure Inv (s : State) (m : Place → List Nat) : Prop where
  owned : Owned s
  combined : Combined s
  placement : Placement s m
  rounds : Rounds s m

variable {s s' : State} {m m' : Place → List Nat} {t : Thread} {r : Var} {x : Nat}

/-- The fields of the sampling thread. -/
structure SameRun (s s' : State) : Prop where
  run : s'.run = s.run
  deleted : s'.deleted = s.deleted
  due : s'.due = s.due
  begun : s'.begun = s.begun
  visited : s'.visited = s.visited

/-- **A step of another thread leaves the round alone**: it changes no list that the sampling thread has, and no list of
an agent while the sampling thread collects, but for putting something behind it. -/
theorem Rounds.user (h : Rounds s m) (he : SameRun s s') (hdestroyed : ∀ x ∈ s.destroyed, x ∈ s'.destroyed)
    (hlist : m' .list = m .list) (htmp : m' .tmp = m .tmp) (hprev : m' .prev = m .prev)
    (hagents : s.run.hasMtx = true → s'.agents = s.agents ∧ ∀ u, ∀ x ∈ m (.agent u), x ∈ m' (.agent u)) :
    Rounds s' m' where
  due x hx := hdestroyed x (h.due x (he.due ▸ hx))
  rest {l} hl x hx := by
    rw [he.deleted, hlist, htmp, hprev]
    rw [he.run] at hl
    rw [he.due] at hx
    cases hm : s.run.hasMtx with
    | false =>
      -- nothing is left to take
      have hnil : l = [] ∧ s.run.rest s.agents = some [] := by
        revert hl hm
        cases s.run <;> simp [RunPc.rest, RunPc.hasMtx]
      refine (h.rest hnil.2 x hx).imp_right (Or.imp_right (Or.imp_right (Or.imp_right ?_)))
      rintro ⟨u, hu, -⟩
      exact absurd hu List.not_mem_nil
    | true =>
      obtain ⟨hsame, hsub⟩ := hagents hm
      rw [hsame] at hl
      refine (h.rest hl x hx).imp_right (Or.imp_right (Or.imp_right (Or.imp_right ?_)))
      rintro ⟨u, hu, hxu⟩
      exact ⟨u, hu, hsub u x hxu⟩
  pass {cur linked p} hp := by
    rw [he.run] at hp
    have hw := h.pass hp
    unfold AtWork State.kept at hw ⊢
    rw [hlist, he.begun, he.visited, he.deleted, he.due]
    exact hw
  gone := by rw [he.visited, he.deleted]; exact h.gone
  deleted := by rw [he.deleted]; exact fun x hx => hdestroyed x (h.deleted x hx)

/-- A step of another thread that moves no sampler. -/
theorem Rounds.quiet (h : Rounds s m) (he : SameRun s s') (hdestroyed : ∀ x ∈ s.destroyed, x ∈ s'.destroyed)
    (hagents : s'.agents = s.agents) : Rounds s' m :=
  h.user he hdestroyed rfl rfl rfl (fun _ => ⟨hagents, fun _ _ hx => hx⟩)

/-- A thread is in a call that schedules nothing after it. -/
theorem held_of_update {q : Pc} (hpc : s'.pc = Function.update s.pc t q)
    (hheld : ∀ x, q.held = some x → (s.pc t).held = some x) :
    ∀ {u x}, (s'.pc u).held = some x → (s.pc u).held = some x := by
  intro u x hu
  rw [hpc] at hu
  by_cases hut : u = t
  · subst hut
    rw [Function.update_self] at hu
    exact hheld x hu
  · rwa [Function.update_of_ne hut] at hu

/-- **A thread moves on, and nothing else but what it owns changes.** -/
theorem Inv.go {q : Pc} (h : Inv s m) (howned : Owned s') (hpc : s'.pc = Function.update s.pc t q)
    (hlinks : s'.links = s.links) (hagents : s'.agents = s.agents) (helement : s'.element = s.element)
    (hcombiner : s'.combiner = s.combiner) (hglobal : s'.globalResult = s.globalResult)
    (hmtx : s'.combinerMtx = s.combinerMtx) (he : SameRun s s') (hscheduled : s'.scheduled = s.scheduled)
    (hcreated : s'.created = s.created) (hdestroyed : ∀ x ∈ s.destroyed, x ∈ s'.destroyed) (hok : PcOk s t q)
    (hold : ∀ r x, s.pc t ≠ .append r x) (hnew : q.hasMtx = true → (s.pc t).hasMtx = true)
    (hheld : ∀ x, q.held = some x → (s.pc t).held = some x) : Inv s' m where
  owned := howned
  combined := h.combined.go hpc hagents helement hcombiner hmtx he.run hok hold hnew
  placement := by
    refine h.placement.of_eq ⟨hscheduled, he.deleted, hcreated, by rw [he.run], held_of_update hpc hheld⟩ hlinks
      (fun k => ?_)
    unfold holder
    rw [hagents, helement, hglobal, he.run]
  rounds := h.rounds.quiet he hdestroyed hagents

/-! ## Samplers are made -/

theorem Inv.getSampler (h : Inv s m) (hs : getSampler s t r = some s') : Inv s' m := by
  unfold SamplerCollector.getSampler at hs
  split at hs
  · rename_i hg
    obtain ⟨hidle, halive, hbusy⟩ := hg
    split at hs
    · cases hs
      exact h
    · rename_i hnone
      cases hs
      refine ⟨h.owned.newSampler hidle halive hbusy hnone, ?_, h.placement.newSampler hidle, ?_⟩
      · refine h.combined.go (q := .agent r s.created) rfl rfl rfl rfl rfl rfl trivial (fun r x he => ?_) (fun hm => ?_)
        · rw [hidle] at he
          cases he
        · cases hm
      · exact h.rounds.quiet ⟨rfl, rfl, rfl, rfl, rfl⟩ (fun _ hx => hx) rfl
  · cases hs

/-- A thread whose agent's `combiner` is null has no agent in the list. -/
theorem Combined.not_mem (h : Combined s) (hc : s.combiner t = false) : t ∉ s.agents := by
  intro hm
  rw [h.agents t hm] at hc
  cases hc

/-- `Agent::reset`. -/
theorem Inv.reset (h : Inv s m) (hpc : s.pc t = .agent r x) (hc : s.combiner t = false) :
    Inv ({ s.setElement t none with combiner := Function.update s.combiner t true }.setPc t (.append r x)) m := by
  have hm := h.combined.not_mem hc
  have hne : ∀ {u}, u ∈ s.agents → u ≠ t := by
    rintro u hu rfl
    exact hm hu
  refine ⟨?_, ?_, ?_, h.rounds.quiet ⟨rfl, rfl, rfl, rfl, rfl⟩ (fun _ hx => hx) rfl⟩
  · refine h.owned.go (t := t) (q := .append r x) ⟨rfl, rfl, rfl, rfl, rfl, rfl⟩ rfl rfl rfl rfl ?_ rfl
      (fun c hcall => ?_)
    · rw [hpc]
      rfl
    · rw [hpc]
      exact hcall
  · exact h.combined.move (t := t) (q := .append r x) rfl h.combined.nodup
      (fun u hu => ⟨Iff.rfl, Function.update_of_ne hu .., Function.update_of_ne hu ..⟩)
      ⟨hm, Function.update_self .., Function.update_self ..⟩ (fun _ => .inr ⟨r, x, rfl⟩) (fun hu => absurd hu hm)
      (fun hq => by cases hq) (fun _ ho _ => ho) rfl
  · refine h.placement.of_eq ⟨rfl, rfl, rfl, rfl, held_of_update (q := .append r x) rfl (fun y hy => ?_)⟩ rfl
      (fun k => ?_)
    · rw [hpc]
      exact hy
    · cases k with
      | agent u =>
        show Holder.head (if u ∈ s.agents then Function.update s.element t none u else none) = Holder.head _
        by_cases hu : u ∈ s.agents
        · rw [if_pos hu, if_pos hu, Function.update_of_ne (hne hu)]
        · rw [if_neg hu, if_neg hu]
      | _ => rfl

theorem Inv.getAgent (h : Inv s m) (hs : getAgent s t = some s') : Inv s' m := by
  unfold SamplerCollector.getAgent at hs
  split at hs
  · rename_i r x hpc
    have hlocked : (s.pc t).locked = none := by rw [hpc]; rfl
    have hold : ∀ r' y, s.pc t ≠ .append r' y := by
      intro r' y he
      rw [hpc] at he
      cases he
    split at hs
    · rename_i hc
      cases hs
      have hm : t ∈ s.agents := (h.combined.combiner t hc).resolve_right (fun ⟨r', y, he⟩ => hold r' y he)
      refine h.go (h.owned.go (t := t) (q := .modify r x) ⟨rfl, rfl, rfl, rfl, rfl, rfl⟩ rfl rfl rfl rfl hlocked rfl ?_)
        (q := .modify r x) rfl rfl rfl rfl rfl rfl rfl ⟨rfl, rfl, rfl, rfl, rfl⟩ rfl rfl (fun _ hx => hx) hm hold
        (fun hm => by cases hm) (fun y hy => ?_)
      · intro c hc
        rw [hpc]
        exact hc
      · rw [hpc]
        exact hy
    · rename_i hc
      cases hs
      exact h.reset hpc (by simpa using hc)
  · cases hs

/-- `agents_.Append`. -/
theorem Inv.append (h : Inv s m) (hpc : s.pc t = .append r x) (hfree : s.combinerMtx = none) :
    Inv ({ s with agents := s.agents ++ [t] }.setPc t (.modify r x)) m := by
  have hok := h.combined.pc t
  rw [hpc] at hok
  obtain ⟨hm, helement, hcombiner⟩ := hok
  have hmem : ∀ {u}, u ∈ s.agents ++ [t] ↔ u ∈ s.agents ∨ u = t := by simp
  have hother : ∀ {u}, u ≠ t → (u ∈ s.agents ++ [t] ↔ u ∈ s.agents) := fun hu => by simp [hu]
  refine ⟨?_, ?_, ?_, ?_⟩
  · refine h.owned.go (t := t) (q := .modify r x) ⟨rfl, rfl, rfl, rfl, rfl, rfl⟩ rfl rfl rfl rfl ?_ rfl
      (fun c hcall => ?_)
    · rw [hpc]
      rfl
    · rw [hpc]
      exact hcall
  · refine h.combined.move (t := t) (q := .modify r x) rfl ?_ (fun u hu => ⟨hother hu, rfl, rfl⟩) (hmem.2 (.inr rfl))
      (fun _ => .inl (hmem.2 (.inr rfl))) (fun _ => hcombiner) (fun hq => by cases hq) (fun _ ho _ => ho) rfl
    exact List.nodup_append.2 ⟨h.combined.nodup, List.nodup_singleton t, fun a ha b hb hab => by
      rw [List.mem_singleton.1 hb] at hab
      exact hm (hab ▸ ha)⟩
  · refine h.placement.of_eq ⟨rfl, rfl, rfl, rfl, held_of_update (q := .modify r x) rfl (fun y hy => ?_)⟩ rfl
      (fun k => ?_)
    · rw [hpc]
      exact hy
    · cases k with
      | agent u =>
        show Holder.head (if u ∈ s.agents ++ [t] then s.element u else none) = Holder.head _
        by_cases hut : u = t
        · subst hut
          rw [if_pos (hmem.2 (.inr rfl)), if_neg hm, helement]
        · simp only [hother hut]
      | _ => rfl
  · refine h.rounds.user ⟨rfl, rfl, rfl, rfl, rfl⟩ (fun _ hx => hx) rfl rfl rfl (fun hmtx => ?_)
    have := h.combined.run hmtx
    rw [hfree] at this
    cases this

/-- `element.modify`. -/
theorem Inv.schedule (h : Inv s m) (hpc : s.pc t = .modify r x) : ∃ m', Inv (s.schedule t r x) m' := by
  have hm : t ∈ s.agents := by
    have hok := h.combined.pc t
    rwa [hpc] at hok
  refine ⟨_, ?_, ?_, h.placement.schedule h.owned hpc hm, ?_⟩
  · refine h.owned.finish (t := t) (r := r) (x := x) ⟨rfl, rfl, rfl, rfl, rfl, rfl⟩ rfl rfl rfl rfl ?_ ?_
    · rw [hpc]
      rfl
    · rw [hpc]
      rfl
  · exact h.combined.move (t := t) (q := .idle) rfl h.combined.nodup
      (fun u hu => ⟨Iff.rfl, Function.update_of_ne hu .., rfl⟩) trivial (fun _ => .inl hm) (h.combined.agents t)
      (fun hq => by cases hq) (fun _ ho _ => ho) rfl
  · refine h.rounds.user ⟨rfl, rfl, rfl, rfl, rfl⟩ (fun _ hx => hx) (Function.update_of_ne (by simp) ..)
      (Function.update_of_ne (by simp) ..) (Function.update_of_ne (by simp) ..) (fun _ => ⟨rfl, fun u y hy => ?_⟩)
    by_cases hut : u = t
    · subst hut
      rw [Function.update_self]
      exact List.mem_append_left _ hy
    · rw [Function.update_of_ne (fun he => hut (by cases he; rfl))]
      exact hy

/-! ## Samplers are destroyed -/

theorem Inv.destroyVar (h : Inv s m) (hs : destroyVar s t r = some s') : Inv s' m := by
  unfold SamplerCollector.destroyVar at hs
  split at hs
  · rename_i hg
    obtain ⟨hidle, -, hbusy⟩ := hg
    split at hs
    · rename_i x hx
      cases hs
      refine h.go (t := t) (q := .lock r x) (h.owned.beginDestroy hidle hbusy hx) rfl rfl rfl rfl rfl rfl rfl
        ⟨rfl, rfl, rfl, rfl, rfl⟩ rfl rfl (fun _ hx => hx) trivial (fun r' y he => ?_) (fun hm => by cases hm)
        (fun y hy => by cases hy)
      rw [hidle] at he
      cases he
    · rename_i hnone
      cases hs
      have hpc : (s.dropVar r).pc = Function.update s.pc t (s.pc t) := (Function.update_eq_self ..).symm
      exact h.go (t := t) (q := s.pc t) (h.owned.dropVar hnone) hpc rfl rfl rfl rfl rfl rfl
        ⟨rfl, rfl, rfl, rfl, rfl⟩ rfl
        rfl (fun _ hx => hx) (h.combined.pc t) (fun r' y he => by rw [hidle] at he; cases he) (fun hm => hm)
        (fun _ hy => hy)
  · cases hs

/-! ## Threads exit -/

theorem Inv.exit (h : Inv s m) (hidle : s.pc t = .idle) (hc : s.combiner t = true) : Inv (s.setPc t .commit) m := by
  have hold : ∀ r x, s.pc t ≠ .append r x := by
    intro r x he
    rw [hidle] at he
    cases he
  have hm : t ∈ s.agents := (h.combined.combiner t hc).resolve_right (fun ⟨r, x, he⟩ => hold r x he)
  refine h.go (t := t) (q := .commit) (h.owned.go (t := t) (q := .commit)
    ⟨rfl, rfl, rfl, rfl, rfl, rfl⟩ rfl rfl rfl rfl ?_
    rfl (fun c hc => by cases hc)) rfl rfl rfl rfl rfl rfl rfl ⟨rfl, rfl, rfl, rfl, rfl⟩ rfl rfl
    (fun _ hx => hx) hm hold
    (fun hm => by cases hm) (fun y hy => by cases hy)
  rw [hidle]
  rfl

/-- `commit_and_erase`, the lock. -/
theorem Inv.commit (h : Inv s m) (hpc : s.pc t = .commit) (hfree : s.combinerMtx = none) :
    Inv ({ s with combinerMtx := some (.user t) }.setPc t .load) m := by
  have hok := h.combined.pc t
  rw [hpc] at hok
  refine ⟨?_, ?_, ?_, h.rounds.quiet ⟨rfl, rfl, rfl, rfl, rfl⟩ (fun _ hx => hx) rfl⟩
  · refine h.owned.go (t := t) (q := .load) ⟨rfl, rfl, rfl, rfl, rfl, rfl⟩ rfl rfl rfl rfl ?_ rfl
      (fun c hc => by cases hc)
    rw [hpc]
    rfl
  · refine h.combined.move (t := t) (q := .load) rfl h.combined.nodup (fun u _ => ⟨Iff.rfl, rfl, rfl⟩) hok
      (fun _ => .inl hok) (h.combined.agents t) (fun _ => rfl) (fun o ho _ => ?_) rfl
    rw [hfree] at ho
    cases ho
  · exact h.placement.of_eq ⟨rfl, rfl, rfl, rfl, held_of_update (q := .load) rfl (fun y hy => by cases hy)⟩ rfl
      (fun k => by cases k <;> rfl)

/-- The combination and `remove_from_list`. -/
theorem Inv.erase {val : Option Nat} (h : Inv s m) (hpc : s.pc t = .erase val) : ∃ m', Inv (s.erase t val) m' := by
  have hok := h.combined.pc t
  rw [hpc] at hok
  obtain ⟨hm, hval⟩ := hok
  have hmtx : s.combinerMtx = some (.user t) := h.combined.mtx (by rw [hpc]; rfl)
  refine ⟨_, ?_, ?_, h.placement.erase hm h.combined.nodup hval, ?_⟩
  · refine h.owned.go (t := t) (q := .idle) ⟨rfl, rfl, rfl, rfl, rfl, rfl⟩ rfl rfl rfl rfl ?_ rfl
      (fun c hc => by cases hc)
    rw [hpc]
    rfl
  · refine h.combined.move (t := t) (q := .idle) rfl (h.combined.nodup.erase t)
      (fun u hu => ⟨List.mem_erase_of_ne hu, rfl, Function.update_of_ne hu ..⟩) trivial (fun hc => ?_)
      (fun hu => absurd hu h.combined.nodup.not_mem_erase) (fun hq => by cases hq) (fun o ho hne => ?_) rfl
    · have hc : Function.update s.combiner t false t = true := hc
      rw [Function.update_self] at hc
      cases hc
    · rw [hmtx] at ho
      cases ho
      exact absurd rfl hne
  · refine h.rounds.user ⟨rfl, rfl, rfl, rfl, rfl⟩ (fun _ hx => hx) ?_ ?_ ?_ (fun hrun => ?_)
    · rw [Function.update_of_ne (by simp), Function.update_of_ne (by simp)]
    · rw [Function.update_of_ne (by simp), Function.update_of_ne (by simp)]
    · rw [Function.update_of_ne (by simp), Function.update_of_ne (by simp)]
    · have := (h.combined.run hrun).symm.trans hmtx
      cases this

/-- **Every step of a thread keeps the invariant.** -/
theorem Inv.userStep (h : Inv s m) (hs : userStep s t = some s') : ∃ m', Inv s' m' := by
  unfold SamplerCollector.userStep at hs
  split at hs
  · rename_i r x hpc
    split at hs
    · rename_i hfree
      cases hs
      exact ⟨m, h.append hpc hfree⟩
    · cases hs
  · rename_i r x hpc
    cases hs
    exact h.schedule hpc
  · rename_i r x hpc
    split at hs
    · rename_i hfree
      cases hs
      refine ⟨m, h.go (t := t) (q := .store r x) (h.owned.lock hpc hfree) rfl rfl rfl rfl rfl rfl rfl
        ⟨rfl, rfl, rfl, rfl, rfl⟩ rfl rfl (fun _ hx => hx) trivial (fun r' y he => ?_) (fun hm => by cases hm)
        (fun y hy => by cases hy)⟩
      rw [hpc] at he
      cases he
    · cases hs
  · rename_i r x hpc
    cases hs
    refine ⟨m, h.go (t := t) (q := .unlock r x) (h.owned.store hpc) rfl rfl rfl rfl rfl rfl rfl
      ⟨rfl, rfl, rfl, rfl, rfl⟩ rfl rfl (fun _ hx => hx) trivial (fun r' y he => ?_) (fun hm => by cases hm)
      (fun y hy => by cases hy)⟩
    rw [hpc] at he
    cases he
  · rename_i r x hpc
    cases hs
    refine ⟨m, h.go (t := t) (q := .idle) (h.owned.unlock hpc) rfl rfl rfl rfl rfl rfl rfl
      ⟨rfl, rfl, rfl, rfl, rfl⟩ rfl rfl (fun _ hx => List.mem_append_left _ hx) trivial (fun r' y he => ?_)
      (fun hm => by cases hm) (fun y hy => by cases hy)⟩
    rw [hpc] at he
    cases he
  · rename_i hpc
    split at hs
    · rename_i hfree
      cases hs
      exact ⟨m, h.commit hpc hfree⟩
    · cases hs
  · rename_i hpc
    cases hs
    have hok := h.combined.pc t
    rw [hpc] at hok
    refine ⟨m, h.go (t := t) (q := .erase (s.element t)) (h.owned.go (t := t) (q := .erase (s.element t))
      ⟨rfl, rfl, rfl, rfl, rfl, rfl⟩ rfl rfl rfl rfl ?_ rfl (fun c hc => by cases hc)) rfl rfl rfl rfl rfl rfl rfl
      ⟨rfl, rfl, rfl, rfl, rfl⟩ rfl rfl (fun _ hx => hx) ⟨hok, rfl⟩ (fun r' y he => ?_) (fun _ => ?_)
      (fun y hy => by cases hy)⟩
    · rw [hpc]
      rfl
    · rw [hpc] at he
      cases he
    · rw [hpc]
      rfl
  · rename_i val hpc
    cases hs
    exact h.erase hpc
  · cases hs

end SamplerCollector
end ContentionProf
