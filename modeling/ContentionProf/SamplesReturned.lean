import ContentionProf.SamplesOwner
/-!
# SamplesReturned — what is not given back

A profiler that has collected samples is named by `g_cp` or in the hands of the stop that took it, and the stop empties
its set before it deletes it.  So a collector at rest owes the pool nothing.
-/
namespace ContentionProf

namespace Sessions

variable {σ : Type} {s s' : State σ} {t : Thread} {p : Prof}

/-- The profiler is named by `g_cp` or taken by a stop. -/
def Kept (s : State σ) (p : Prof) : Prop := s.cp = some p ∨ ∃ t, p ∈ (s.pc t).taken

theorem Kept.of_pc (h : Kept s p) (hcp : s.cp = some p → s'.cp = some p) (hpc : ∀ u, u ≠ t → s'.pc u = s.pc u)
    (ht : p ∈ (s.pc t).taken → p ∈ (s'.pc t).taken) : Kept s' p := by
  refine h.imp hcp ?_
  rintro ⟨u, hu⟩
  by_cases hut : u = t
  · rw [hut] at hu
    exact ⟨t, ht hu⟩
  · exact ⟨u, by rw [hpc u hut]; exact hu⟩

/-- A step that leaves `g_cp` alone and moves a thread that has taken nothing. -/
theorem Kept.setPc {q : Pc σ} (h : Kept s p) (hcp : s'.cp = s.cp) (hpc : s'.pc = Function.update s.pc t q)
    (ht : p ∈ (s.pc t).taken → p ∈ q.taken) : Kept s' p := by
  refine h.of_pc (t := t) (fun hc => hcp.trans hc) (fun u hu => by rw [hpc, Function.update_of_ne hu]) ?_
  rw [hpc, Function.update_self]
  exact ht

/-- **A profiler is kept until the stop that took it deletes it.** -/
theorem Kept.advance (h : Kept s p) (hi : Inv s) (hs : advance s t = some s')
    (hdel : s.pc t ≠ .stopDelete p) : Kept s' p := by
  have hok := hi.pc t
  unfold Sessions.advance at hs
  cases hp : s.pc t with rw [hp] at hs hok
  | idle => cases hs
  | startSet q =>
    cases hs
    have hok : s.cp = none := hok
    refine h.of_pc (t := t) (fun hc => ?_) (fun u hu => Function.update_of_ne hu ..) (by rw [hp]; exact nofun)
    rw [hok] at hc
    cases hc
  | stopClear q =>
    cases hs
    have hok : s.cp = some q := hok
    rcases h with h | ⟨u, hu⟩
    · rw [hok] at h
      cases h
      exact .inr ⟨t, by rw [setPc_pc_self]; exact List.mem_cons_self⟩
    · have hut : u ≠ t := by rintro rfl; rw [hp] at hu; cases hu
      exact .inr ⟨u, by rw [setPc_pc_of_ne hut]; exact hu⟩
  | stopUnlock q => cases hs; exact h.setPc rfl rfl (by rw [hp]; exact id)
  | stopInit q => cases hs; exact h.setPc rfl rfl (by rw [hp]; exact id)
  | stopDelete q =>
    cases hs
    refine h.setPc rfl rfl (fun hq => ?_)
    rw [hp] at hq hdel
    rw [List.mem_singleton.1 hq] at hdel
    exact absurd rfl hdel
  | startLock q =>
    simp only [State.lock] at hs
    split at hs <;> cases hs
    exact h.setPc rfl rfl (by rw [hp]; exact nofun)
  | stopLock =>
    simp only [State.lock] at hs
    split at hs <;> cases hs
    exact h.setPc rfl rfl (by rw [hp]; exact nofun)
  | dumpLock x =>
    simp only [State.lock] at hs
    split at hs <;> cases hs
    exact h.setPc rfl rfl (by rw [hp]; exact nofun)
  | stopTake =>
    obtain ⟨q, -, rfl⟩ := Option.map_eq_some_iff.1 hs
    exact h.setPc rfl rfl (by rw [hp]; exact nofun)
  | dumpCall x =>
    obtain ⟨q, -, rfl⟩ := Option.map_eq_some_iff.1 hs
    exact h.setPc rfl rfl (by rw [hp]; exact nofun)
  | dumpUnlock x got => cases hs; exact h.setPc rfl (Function.update_idem ..) (by rw [hp]; exact nofun)
  | _ => cases hs; exact h.setPc rfl rfl (by rw [hp]; exact nofun)

theorem Kept.step {a : Label σ} (h : Kept s p) (hi : Inv s) (hs : step s a = some s')
    (hdel : ∀ t, a = .go t → s.pc t ≠ .stopDelete p) : Kept s' p := by
  have enter : ∀ {t : Thread} {q : Pc σ}, (if (s.pc t).isIdle then some (s.setPc t q) else none) = some s' →
      Kept s' p := by
    intro t q hs
    split at hs
    · rename_i hidle
      cases hs
      exact h.setPc rfl rfl (by rw [isIdle_iff.1 hidle]; exact nofun)
    · cases hs
  cases a with
  | start t => exact enter hs
  | stop t => exact enter hs
  | dump t x => exact enter hs
  | go t => exact h.advance hi hs (hdel t rfl)

end Sessions

namespace Samples

variable {c : Config} {s s' : State} {m : Place → List Obj} {t : Thread} {x : Obj}

/-! ## What a set needs -/

/-- **Only a profiler in use has samples**, and one that is about to be deleted has none left. -/
structure SetsOk (s : State) : Prop where
  kept : ∀ p, s.sets p ≠ ⟨[], none⟩ → Sessions.Kept s.sessions p
  emptied : ∀ t p, s.sessions.pc t = .stopDelete p → s.prof t = .returned → s.sets p = ⟨[], none⟩

theorem SetsOk.of_eq (h : SetsOk s) (hf : s'.sessions = s.sessions) (hp : s'.prof = s.prof) (hs : s'.sets = s.sets) :
    SetsOk s' := by
  constructor
  · rw [hf, hs]; exact h.kept
  · rw [hf, hp, hs]; exact h.emptied

theorem destroy_eq {malloc : Bool} (hs : destroy c s t x malloc = some s') :
    s'.sessions = s.sessions ∧ s'.prof = s.prof ∧ s'.sets = s.sets := by
  unfold destroy at hs
  split at hs
  · obtain ⟨p, -, rfl⟩ := Option.map_eq_some_iff.1 hs
    exact ⟨rfl, rfl, rfl⟩
  · cases hs
    exact ⟨rfl, rfl, rfl⟩

theorem SetsOk.destroy {malloc : Bool} (h : SetsOk s) (hs : destroy c s t x malloc = some s') : SetsOk s' :=
  h.of_eq (destroy_eq hs).1 (destroy_eq hs).2.1 (destroy_eq hs).2.2

theorem SetsOk.poolStep {a : Pool.Label} (h : SetsOk s) (hs : poolStep c s t a = some s') : SetsOk s' := by
  unfold Samples.poolStep at hs
  obtain ⟨p, -, hs⟩ := Option.bind_eq_some_iff.1 hs
  split at hs
  · cases hs; exact h.of_eq rfl rfl rfl
  · split at hs <;> cases hs
    exact h.of_eq rfl rfl rfl

theorem SetsOk.submit {late malloc : Bool} (h : SetsOk s) (hs : submit c s t late malloc = some s') :
    SetsOk s' := by
  unfold Samples.submit at hs
  split at hs
  · split at hs
    · have hidle : SetsOk (s.setPc t .idle) := h.of_eq rfl rfl rfl
      exact hidle.destroy hs
    · split at hs <;> cases hs <;> exact h.of_eq rfl rfl rfl
  · cases hs

theorem SetsOk.worker (h : SetsOk s) (hs : worker s t = some s') : SetsOk s' := by
  unfold Samples.worker at hs
  split at hs
  case h_1 => split at hs <;> cases hs; exact h.of_eq rfl rfl rfl
  case h_3 => split at hs <;> cases hs; exact h.of_eq rfl rfl rfl
  all_goals cases hs
  all_goals exact h.of_eq rfl rfl rfl

theorem SetsOk.grab {malloc : Bool} (h : SetsOk s) (hs : grabStep c s malloc = some s') : SetsOk s' := by
  unfold grabStep at hs
  cases hg : s.grab with rw [hg] at hs
  | samples k i it =>
    dsimp only at hs
    split at hs
    · cases hs; exact h.of_eq rfl rfl rfl
    · split at hs
      · have hdropped : SetsOk { s with
            grabCount := s.grabCount + 1, grab := .samples k (i + 1) it, dropCount := s.dropCount + 1 } :=
          h.of_eq rfl rfl rfl
        exact hdropped.destroy hs
      · cases hs; exact h.of_eq rfl rfl rfl
  | reset => dsimp only at hs; split at hs <;> cases hs; exact h.of_eq rfl rfl rfl
  | exchange node tmp => dsimp only at hs; split at hs <;> cases hs <;> exact h.of_eq rfl rfl rfl
  | head a => cases a <;> cases hs <;> exact h.of_eq rfl rfl rfl
  | sort p =>
    cases p with
    | obj x => cases hs; exact h.of_eq rfl rfl rfl
    | root r => dsimp only at hs; split at hs <;> cases hs; exact h.of_eq rfl rfl rfl
  | preps it => cases it <;> cases hs <;> exact h.of_eq rfl rfl rfl
  | push =>
    dsimp only at hs
    split at hs
    · split at hs <;> cases hs; exact h.of_eq rfl rfl rfl
    · cases hs; exact h.of_eq rfl rfl rfl
  | _ => cases hs; exact h.of_eq rfl rfl rfl

/-! ## Steps of the sessions and of a profiler -/

/-- A thread begins a start, a stop or a dump. -/
theorem SetsOk.enter {a : Sessions.Label Obj} {q : Sessions.Pc Obj} {f : Sessions.State Obj} (h : SetsOk s)
    (hi : Sessions.Inv s.sessions) (hs : Sessions.step s.sessions a = some f) (ha : ∀ u, a ≠ .go u)
    (hf : f = s.sessions.setPc t q) (hq : ∀ p, q ≠ .stopDelete p) (hsess : s'.sessions = f) (hprof : s'.prof = s.prof)
    (hsets : s'.sets = s.sets) : SetsOk s' where
  kept p hp := by
    rw [hsets] at hp
    rw [hsess]
    exact (h.kept p hp).step hi hs (fun u hu => absurd hu (ha u))
  emptied u p hu hr := by
    rw [hsess, hf] at hu
    rw [hprof] at hr
    rw [hsets]
    by_cases hut : u = t
    · rw [hut, Sessions.setPc_pc_self] at hu
      exact absurd hu (hq p)
    · rw [Sessions.setPc_pc_of_ne hut] at hu
      exact h.emptied u p hu hr

/-- The next step of a start, a stop or a dump; a profiler's destructor has returned. -/
theorem SetsOk.go {f : Sessions.State Obj} (h : SetsOk s) (hi : Sessions.Inv s.sessions)
    (hs : Sessions.step s.sessions (.go t) = some f) (hsess : s'.sessions = f) (hsets : s'.sets = s.sets)
    (hprof : ∀ u, u ≠ t → s'.prof u = s.prof u) (ht : s'.prof t ≠ .returned)
    (hr : ∀ p, s.sessions.pc t = .stopDelete p → s.prof t = .returned) : SetsOk s' where
  kept p hp := by
    rw [hsets] at hp
    rw [hsess]
    exact (h.kept p hp).advance hi hs (fun hd => hp (h.emptied t p hd (hr p hd)))
  emptied u p hu hr' := by
    rw [hsess] at hu
    rw [hsets]
    by_cases hut : u = t
    · rw [hut] at hr'
      exact absurd hr' ht
    · rw [(stepped_advance hs).others u hut] at hu
      rw [hprof u hut] at hr'
      exact h.emptied u p hu hr'

theorem SetsOk.session {malloc : Bool} (h : SetsOk s) (hi : Inv c s m) (hs : Samples.session c s t malloc = some s') :
    SetsOk s' := by
  -- outside a profiler's method
  have outside : Samples.method (s.sessions.pc t) = none →
      (Sessions.step s.sessions (.go t)).map (fun f => { s with sessions := f }) = some s' → SetsOk s' := by
    intro hm hs
    obtain ⟨f, hf, rfl⟩ := Option.map_eq_some_iff.1 hs
    refine h.go hi.sessions hf rfl rfl (fun _ _ => rfl) ?_ (fun p hp => ?_)
    · rw [show ({ s with sessions := f } : State).prof t = .none from hi.calls.prof_none hm]
      exact nofun
    · rw [hp] at hm; cases hm
  have returned : s.prof t = .returned →
      (Sessions.step s.sessions (.go t)).map (fun f => { s.setProf t .none with sessions := f }) = some s' →
      SetsOk s' := by
    intro hr hs
    obtain ⟨f, hf, rfl⟩ := Option.map_eq_some_iff.1 hs
    refine h.go hi.sessions hf rfl rfl (fun u hu => Function.update_of_ne hu ..) ?_ (fun _ _ => hr)
    show Function.update s.prof t .none t ≠ .returned
    rw [Function.update_self]
    exact nofun
  unfold Samples.session at hs
  cases hp : s.sessions.pc t <;> simp only [hp] at hs
  case dumping x p =>
    split at hs
    · rename_i hr; exact returned hr hs
    · cases hs
  case stopDelete p =>
    split at hs
    · rename_i hr; exact returned hr hs
    · cases hs
  case destroy x got =>
    obtain ⟨f, hf, hs⟩ := destroy_bind hs
    have hprof : s.prof t = .none := hi.calls.prof_none (by rw [hp]; rfl)
    have hgo : SetsOk { s with sessions := f } := by
      refine h.go hi.sessions hf rfl rfl (fun _ _ => rfl) ?_ (fun p hd => ?_)
      · show s.prof t ≠ .returned
        rw [hprof]
        exact nofun
      · rw [hp] at hd; cases hd
    exact hgo.destroy hs
  all_goals exact outside (by rw [hp]; rfl) hs

theorem method_kept {f : Sessions.State Obj} {p : Sessions.Prof} (h : Sessions.Inv f)
    (hm : Samples.method (f.pc t) = some p) : Sessions.Kept f p := by
  have hok := h.pc t
  cases hp : f.pc t <;> rw [hp] at hm hok <;> cases hm
  case dumping x => exact .inl hok
  case stopDelete => exact .inr ⟨t, by rw [hp]; exact List.mem_cons_self⟩

/-- **A thread in a method of its profiler changes this profiler's set only.** -/
theorem SetsOk.method {p : Sessions.Prof} {e : HashSet} (h : SetsOk s) (hi : Sessions.Inv s.sessions)
    (hm : Samples.method (s.sessions.pc t) = some p) (hsess : s'.sessions = s.sessions)
    (hprof : ∀ u, u ≠ t → s'.prof u = s.prof u) (hsets : s'.sets = Function.update s.sets p e)
    (he : s.sessions.pc t = .stopDelete p → s'.prof t = .returned → e = ⟨[], none⟩) : SetsOk s' where
  kept q hq := by
    rw [hsess]
    by_cases hqp : q = p
    · rw [hqp]; exact method_kept hi hm
    · rw [hsets, Function.update_of_ne hqp] at hq
      exact h.kept q hq
  emptied u q hu hr := by
    rw [hsess] at hu
    by_cases hut : u = t
    · rw [hut] at hu hr
      have hqp : p = q := by rw [hu] at hm; exact (Option.some.inj hm).symm
      rw [hsets, hqp, Function.update_self]
      exact he (hqp ▸ hu) hr
    · have hqp : q ≠ p := by
        rintro rfl
        exact hut (method_unique hi (by rw [hu]; rfl) hm)
      rw [hsets, Function.update_of_ne hqp]
      rw [hprof u hut] at hr
      exact h.emptied u q hu hr

theorem setProf_of_ne {r : ProfPc} {u : Thread} (hu : u ≠ t) : (s.setProf t r).prof u = s.prof u :=
  Function.update_of_ne hu ..

theorem setProf_self {r : ProfPc} : (s.setProf t r).prof t = r := Function.update_self ..

theorem SetsOk.beginFlush {p : Sessions.Prof} {order : List Obj} (h : SetsOk s) (hi : Sessions.Inv s.sessions)
    (hm : Samples.method (s.sessions.pc t) = some p) (hs : Samples.beginFlush s t p order = some s') : SetsOk s' := by
  unfold Samples.beginFlush at hs
  split at hs <;> cases hs
  refine h.method hi hm rfl (fun u hu => setProf_of_ne hu) rfl (fun _ hr => ?_)
  rw [setProf_self] at hr
  cases hr

theorem SetsOk.flush {p : Sessions.Prof} {malloc : Bool} (h : SetsOk s) (hi : Sessions.Inv s.sessions)
    (hm : Samples.method (s.sessions.pc t) = some p) (hf : s.prof t = .flush)
    (hs : Samples.flush c s t p malloc = some s') : SetsOk s' := by
  unfold Samples.flush at hs
  split at hs
  · rename_i x rest hw
    have hset : SetsOk (s.setSet p ⟨(s.sets p).members, some rest⟩) := by
      refine h.method hi hm rfl (fun _ _ => rfl) rfl (fun _ hr => ?_)
      rw [show (s.setSet p ⟨(s.sets p).members, some rest⟩).prof t = .flush from hf] at hr
      cases hr
    exact hset.destroy hs
  · cases hs
    exact h.method hi hm rfl (fun u hu => setProf_of_ne (s := s.setSet p ⟨[], none⟩) hu) rfl (fun _ _ => rfl)
  · cases hs

theorem SetsOk.profiler {order : List Obj} {malloc : Bool} (h : SetsOk s) (hi : Inv c s m)
    (hs : Samples.profiler c s t order malloc = some s') : SetsOk s' := by
  -- the set stays as it is
  have quiet : ∀ {p : Sessions.Prof} {r : ProfPc} {x : Obj}, s.sessions.pc t = .dumping x p →
      SetsOk (s.setProf t r) := by
    intro p r x hp
    refine h.method (e := s.sets p) hi.sessions (by rw [hp]; rfl) rfl (fun u hu => setProf_of_ne hu)
      (Function.update_eq_self ..).symm (fun hd => ?_)
    rw [hp] at hd
    cases hd
  unfold Samples.profiler at hs
  split at hs
  · rename_i x p hp hr
    split at hs
    · exact (quiet hp).destroy hs
    · cases hs
      refine h.method hi.sessions (by rw [hp]; rfl) rfl (fun u hu => setProf_of_ne (s := s.setSet p _) hu) rfl
        (fun hd => ?_)
      rw [hp] at hd
      cases hd
  · rename_i x p hp hr
    split at hs
    · exact h.beginFlush hi.sessions (by rw [hp]; rfl) hs
    · cases hs; exact quiet hp
  · rename_i p hp hr
    exact h.beginFlush hi.sessions (by rw [hp]; rfl) hs
  · rename_i x p hp hr
    exact h.flush hi.sessions (by rw [hp]; rfl) hr hs
  · rename_i p hp hr
    exact h.flush hi.sessions (by rw [hp]; rfl) hr hs
  · cases hs

/-! ## Every run -/

theorem setsOk_init (h : (system c).init s) : SetsOk s := by
  obtain ⟨-, -, -, hsessions, -, -, -, -, -, -, -, -, -, -, -, -, hsets, -⟩ := h
  refine ⟨fun p hp => absurd ?_ hp, fun u p hu => ?_⟩
  · rw [hsets]
  · rw [hsessions] at hu
    cases hu

theorem SetsOk.dump (h : SetsOk s) (hi : Inv c s m) (hs : dumpStep c s = some s') : SetsOk s' := by
  unfold dumpStep at hs
  cases hd : s.dump with rw [hd] at hs
  | wait =>
    dsimp only at hs
    split at hs <;> cases hs
    exact h.of_eq rfl rfl rfl
  | take a => cases hs; exact h.of_eq rfl rfl rfl
  | loop p =>
    cases p with
    | obj x => cases hs; exact h.of_eq rfl rfl rfl
    | root r =>
      dsimp only at hs
      split at hs <;> cases hs
      exact h.of_eq rfl rfl rfl
  | call x p =>
    obtain ⟨f, hf, rfl⟩ := Option.map_eq_some_iff.1 hs
    have hstep := hf
    simp only [Sessions.step] at hf
    split at hf <;> cases hf
    exact h.enter (q := .dump x) hi.sessions hstep (fun _ => by simp) rfl (fun _ => by simp) rfl rfl rfl
  | calling x p =>
    dsimp only at hs
    split at hs <;> cases hs
    exact h.of_eq rfl rfl rfl

theorem setsOk_step {a : Label} (h : SetsOk s) (hi : Inv c s m) (hs : step c s a = some s') : SetsOk s' := by
  have guard : ∀ {b : Bool} {o : Option State}, (if b then o else none) = some s' → o = some s' := by
    intro b o hs
    cases b with
    | true => exact hs
    | false => cases hs
  cases a with
  | contend t =>
    have hget : SetsOk (s.setPc t .get) := h.of_eq rfl rfl rfl
    exact hget.poolStep (guard hs)
  | pool t addBlock valid => exact h.poolStep hs
  | submit t late malloc => exact h.submit (guard hs)
  | worker t => exact h.worker (guard hs)
  | exit t => cases guard hs; exact h.of_eq rfl rfl rfl
  | poolExit t malloc =>
    obtain ⟨p, -, rfl⟩ := Option.map_eq_some_iff.1 (guard hs)
    exact h.of_eq rfl rfl rfl
  | grab malloc => exact h.grab (guard hs)
  | dump => exact h.dump hi (guard hs)
  | start t =>
    obtain ⟨f, hf, rfl⟩ := Option.map_eq_some_iff.1 (guard hs)
    have hstep := hf
    simp only [Sessions.step] at hf
    split at hf <;> cases hf
    exact h.enter (q := .start) hi.sessions hstep (fun _ => by simp) rfl (fun _ => by simp) rfl rfl rfl
  | stop t =>
    obtain ⟨f, hf, rfl⟩ := Option.map_eq_some_iff.1 (guard hs)
    have hstep := hf
    simp only [Sessions.step] at hf
    split at hf <;> cases hf
    exact h.enter (q := .stop) hi.sessions hstep (fun _ => by simp) rfl (fun _ => by simp) rfl rfl rfl
  | session t malloc => exact h.session hi (guard hs)
  | profiler t order malloc => exact h.profiler hi (guard hs)

theorem setsOk_reachable (h : (system c).Reachable s) : SetsOk s :=
  (h.invariant (I := fun s => SetsOk s ∧ ∃ m, Inv c s m) (fun _ h0 => ⟨setsOk_init h0, _, inv_init h0⟩)
    (fun _ _ _ ⟨hk, _, hi⟩ _ hs => ⟨setsOk_step hk hi hs, inv_step hi hs⟩)).1

/-- **Nothing is under way**: no worker is in a call, the reducer and the lists of the two threads are empty, and no
profiler is started. -/
structure AtRest (s : State) : Prop where
  workers : ∀ t, s.pc t = .idle
  agents : ∀ t ∈ s.agents, s.element t = none
  globalResult : s.globalResult = none
  grab : s.grab = .clear
  dump : s.dump = .wait
  dumpRoot : s.links.next (.root .dumpRoot) = .root .dumpRoot
  dumpLocal : s.links.next (.root .dumpLocal) = .root .dumpLocal
  sessions : ∀ t, s.sessions.pc t = .idle
  cp : s.sessions.cp = none

/-- **At rest every place is empty.** -/
theorem AtRest.empty (h : AtRest s) (hi : Inv c s m) (hk : SetsOk s) : ∀ k, m k = [] := by
  have list : ∀ {k : Place}, holder c s k = .list none → m k = [] := fun {k} hh => by
    have hholds := hi.place.holds k
    rw [hh] at hholds
    exact hholds
  have hidle : ∀ t, s.prof t = .none := fun t => hi.calls.prof_none (by rw [h.sessions t]; rfl)
  intro k
  cases k with
  | agent t =>
    refine list (congrArg Holder.list ?_)
    split
    · rename_i ht; exact h.agents t ht
    · rfl
  | globalResult => exact list (congrArg Holder.list h.globalResult)
  | tmp => exact list (by rw [holder, h.grab]; rfl)
  | prev => exact list (by rw [holder, h.grab]; rfl)
  | tmpRoot => exact list (by rw [holder, h.grab]; rfl)
  | root => exact list (by rw [holder, h.grab]; rfl)
  | head => exact list (by rw [holder, h.grab]; rfl)
  | newHead => exact list (by rw [holder, h.dump]; rfl)
  | dumpRoot => exact (root_first (hi.place.holds .dumpRoot)).1 h.dumpRoot
  | dumpLocal => exact (root_first (hi.place.holds .dumpLocal)).1 h.dumpLocal
  | submitter t => exact hi.place.flat (by rw [holder, h.workers t]; rfl)
  | vectors => exact hi.place.flat (by rw [holder, h.grab]; rfl)
  | hand => exact hi.place.flat (by rw [holder, h.dump, h.sessions, hidle]; rfl)
  | hashSet p =>
    have hset : s.sets p = ⟨[], none⟩ := by
      by_contra hne
      rcases hk.kept p hne with hcp | ⟨t, ht⟩
      · rw [h.cp] at hcp; cases hcp
      · rw [h.sessions t] at ht; cases ht
    exact hi.place.flat (by rw [holder, hset]; rfl)

/-- **Nothing is lost**: only a profiler that `g_cp` names or that a stop has taken has samples, so nothing is deleted
with a profiler, and at rest every sample that was obtained is in the pool and was given back as often as it was
obtained. -/
theorem returned_at_rest (h : (system c).Reachable s) :
    (∀ p, s.sets p ≠ ⟨[], none⟩ → Sessions.Kept s.sessions p) ∧
      (∀ d ∈ s.sessions.deleted, s.sets d.profiler = ⟨[], none⟩) ∧
      (AtRest s → ∀ x ∈ s.gets, InPool s x ∧ s.gets.count x = s.returns.count x) := by
  have hk := setsOk_reachable h
  obtain ⟨m, hi⟩ := Reachable.inv h
  refine ⟨hk.kept, fun d hd => ?_, fun hr x hx => ?_⟩
  · by_contra hne
    have hdel : d.profiler ∈ Sessions.content s.sessions .deleted := List.mem_map_of_mem hd
    rcases hk.kept _ hne with hcp | ⟨t, ht⟩
    · exact nomatch hi.sessions.places.unique .named .deleted _ (Option.mem_toList.2 hcp) hdel
    · exact nomatch hi.sessions.places.unique (.taken t) .deleted _ ht hdel
  · have hnot : x ∉ s.pool.live := by
      intro hl
      obtain ⟨k, hmem⟩ := (hi.place.live x).1 hl
      rw [hr.empty hi hk k] at hmem
      cases hmem
    have hcount := hi.tally.counts x
    rw [List.count_eq_zero_of_not_mem hnot] at hcount
    exact ⟨(hi.inPool_iff (hi.tally.built x hx)).2 hnot, hcount⟩

/-- The profiler is deleted and the threads of the collector find nothing more. -/
def restRun : List Label :=
  flushRun ++ [Label.profiler 2 [] true, Label.session 2 true, Label.dump, Label.dump] ++
    List.replicate 6 (Label.grab true)

theorem restRun_ends : ∃ s, (system collectorConfig).run startState restRun = some s ∧ AtRest s ∧
    s.gets = [firstObj] := by
  refine ⟨_, rfl, ⟨fun t => ?_, by decide, rfl, rfl, rfl, rfl, rfl, fun t => ?_, rfl⟩, rfl⟩
  · -- thread 0 has submitted
    cases t <;> rfl
  · -- threads 1 and 2 have started and stopped the profiler, thread 9 has dumped
    match t with
    | 0 | 1 | 2 | 3 | 4 | 5 | 6 | 7 | 8 | 9 => rfl
    | n + 10 => rfl

theorem returned_at_rest_restRun : ∃ s, (system collectorConfig).run startState restRun = some s ∧ AtRest s ∧
    InPool s firstObj ∧ s.gets.count firstObj = s.returns.count firstObj := by
  obtain ⟨s, hs, hrest, hgets⟩ := restRun_ends
  exact ⟨s, hs, hrest, (returned_at_rest (run_reachable hs)).2.2 hrest firstObj (by
    rw [hgets]; exact List.mem_cons_self)⟩

end Samples
end ContentionProf
