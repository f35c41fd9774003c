import ContentionProf.HookSession
import ContentionProf.SpeedLimit
import ContentionProf.Words
/-!
# Selection — which acquisitions are sampled, and with which weight (`collector.cpp`, `contention.cpp`)

The hooks within one session together with the speed limit: `is_collectable` reads the limit when it returns to the
lock hook, and the grab thread may set the limit to anything at any time.
-/
namespace ContentionProf
namespace Selection

open Hook (Acq Unlocked Pc Step)

/-- One call of `is_collectable`: its random word, the limit it read and the time. -/
structure Decision where
  fastRand : U64
  limit : CollectorSpeedLimit
  monotonicUs : U64

/-- What it returned. -/
def Decision.range (expectedPerSecond : Flag) (d : Decision) : U64 :=
  (isCollectable expectedPerSecond d.limit d.fastRand d.monotonicUs).2.1

structure State where
  hook : Hook.State
  limit : CollectorSpeedLimit
  /-- The last decision of a thread (ghost). -/
  latest : Thread → Option Decision
  /-- The decision on an acquisition (ghost). -/
  decided : Nat → Option Decision

inductive Label
  | hook (l : Hook.Label)
  /-- A pending `is_collectable` returns. -/
  | sample (t : Thread) (fastRand monotonicUs nowNs : U64)
  | setLimit (limit : CollectorSpeedLimit)

/-- A step of the hooks that is the return of `is_collectable`. -/
def collects (s : Hook.State) : Hook.Label → Bool
  | .go t _ => (s.ctl t).pc = .idle
  | _       => false

/-- The thread that acquires a mutex after `EBUSY`. -/
def acquires (s : Hook.State) : Hook.Label → Option Thread
  | .go t i => match (s.ctl t).pc with
    | .waiting _ _ _ _ => if i.res = 0 then some t else none
    | _                => none
  | _       => none

/-- The acquisition that a step makes after `EBUSY` goes with the last decision of its thread (ghost). -/
def decidedAfter (s : State) (l : Hook.Label) : Nat → Option Decision :=
  match acquires s.hook l with
  | some t => Function.update s.decided s.hook.mem.nacq (s.latest t)
  | none   => s.decided

def step (expectedPerSecond : Flag) (s : State) : Label → Option State
  | .hook l                             =>
    if collects s.hook l then none
    else (Hook.step (fun _ => false) s.hook l).map (fun h => { s with hook := h, decided := decidedAfter s l })
  | .sample t fastRand monotonicUs nowNs =>
    let d : Decision := ⟨fastRand, s.limit, monotonicUs⟩
    if collects s.hook (.go t ⟨nowNs, d.range expectedPerSecond, 0⟩) then
      (Hook.step (fun _ => false) s.hook (.go t ⟨nowNs, d.range expectedPerSecond, 0⟩)).map (fun h => { s with
        hook := h
        limit := (isCollectable expectedPerSecond s.limit fastRand monotonicUs).1
        latest := Function.update s.latest t (some d) })
    else none
  | .setLimit limit                      => some { s with limit }

/-- One session of version `v`; every mutex is free or was locked before, without a record. -/
def system (expectedPerSecond : Flag) (v : Nat) : System State Label where
  init s := Hook.SessionStart v s.hook ∧ ∀ m, (s.hook.mem.mutexes m).acq.contended = false
  step := step expectedPerSecond

/-- What `Hook.InSession` asks of the step of the hooks. -/
def InSession (expectedPerSecond : Flag) (s : State) : Label → Prop
  | .hook l                              => Hook.InSession s.hook l
  | .sample t fastRand monotonicUs nowNs =>
    Hook.InSession s.hook (.go t ⟨nowNs, (⟨fastRand, s.limit, monotonicUs⟩ : Decision).range expectedPerSecond, 0⟩)
  | .setLimit _                          => True

instance (expectedPerSecond : Flag) (s : State) : (l : Label) → Decidable (InSession expectedPerSecond s l)
  | .hook l                              => inferInstanceAs (Decidable (Hook.InSession s.hook l))
  | .sample t fastRand monotonicUs nowNs =>
    inferInstanceAs (Decidable (Hook.InSession s.hook
      (.go t ⟨nowNs, (⟨fastRand, s.limit, monotonicUs⟩ : Decision).range expectedPerSecond, 0⟩)))
  | .setLimit _                          => inferInstanceAs (Decidable True)

variable {F : Flag} {v : Nat}

/-- **The hooks see an ordinary session.** -/
theorem hook_reachable {s : State} (h : (system F v).ReachableVia (InSession F) s) :
    (Hook.sessionSystem v).ReachableVia Hook.InSession s.hook := by
  refine System.ReachableVia.invariant (I := fun s => (Hook.sessionSystem v).ReachableVia Hook.InSession s.hook)
    (fun s hs => System.ReachableVia.init (show (Hook.sessionSystem v).init s.hook from And.left hs))
    (fun s l s' hs hok hst => ?_) h
  cases l with
  | hook l =>
    simp only [system, step] at hst
    split at hst
    · cases hst
    · obtain ⟨h', hh, rfl⟩ := Option.map_eq_some_iff.1 hst
      exact hs.step hok hh
  | sample t fastRand monotonicUs nowNs =>
    simp only [system, step] at hst
    split at hst
    · obtain ⟨h', hh, rfl⟩ := Option.map_eq_some_iff.1 hst
      have hok' : Hook.InSession s.hook (.go t ⟨nowNs, (⟨fastRand, s.limit, monotonicUs⟩ : Decision).range F, 0⟩) := hok
      exact hs.step hok' hh
    · cases hst
  | setLimit limit =>
    cases hst
    exact hs

/-! ### Each acquisition has the range of its own decision -/

/-- The acquisitions a state tells of: the latest of each mutex, those being submitted and those in the log. -/
inductive Tells (s : Hook.State) : Acq → Prop
  | mutex (n : Addr) : Tells s (s.mem.mutexes n).acq
  | submit {t : Thread} {m : Addr} {a : Acq} {saved : Hook.Site} {ns : U64} (h : (s.ctl t).pc = .submit m a saved ns) :
      Tells s a
  | log {x : Unlocked} (h : x ∈ s.mem.log) : Tells s x.acq

/-- The part of an acquisition that never changes. -/
def Same (a b : Acq) : Prop := a.id = b.id ∧ a.contended = b.contended ∧ a.range = b.range

/-- Where an acquisition after a step comes from. -/
def Stems (s : Hook.State) (l : Hook.Label) (a : Acq) : Prop :=
  a.contended = false ∨ (∃ b, Tells s b ∧ Same a b) ∨
    ∃ t m k ns, acquires s l = some t ∧ a.id = s.mem.nacq ∧ (s.ctl t).pc = .waiting m a.range k ns

theorem Stems.told {s : Hook.State} {l : Hook.Label} {a : Acq} (h : Tells s a) : Stems s l a :=
  .inr (.inl ⟨a, h, rfl, rfl, rfl⟩)

theorem acquires_waiting {s : Hook.State} {t : Thread} {m : Addr} {r ns : U64} {k : Option Nat} {i : Hook.Input}
    (hpc : (s.ctl t).pc = .waiting m r k ns) (hres : i.res = 0) : acquires s (.go t i) = some t := by
  simp [acquires, hpc, hres]

/-- A mutex that is acquired with `EBUSY`; the other mutexes stay. -/
theorem stems_acquire {s : Hook.State} {t : Thread} {m n : Addr} {r ns : U64} {k : Option Nat} {i : Hook.Input}
    {mem : Hook.Mem} (hpc : (s.ctl t).pc = .waiting m r k ns) (hres : i.res = 0)
    (hid : (mem.mutexes m).acq.id = s.mem.nacq) (hr : (mem.mutexes m).acq.range = r)
    (hother : ∀ n, n ≠ m → mem.mutexes n = s.mem.mutexes n) : Stems s (.go t i) (mem.mutexes n).acq := by
  by_cases hn : n = m
  · subst hn
    exact .inr (.inr ⟨t, n, k, ns, acquires_waiting hpc hres, hid, by rw [hr]; exact hpc⟩)
  · rw [hother n hn]
    exact .told (.mutex n)

/-- A mutex that is acquired without; the other mutexes stay. -/
theorem stems_free {s : Hook.State} {l : Hook.Label} {t : Thread} {m n : Addr} :
    Stems s l ((s.mem.acquire t m false 0).mutexes n).acq := by
  rw [Hook.Mem.acquire_mutexes]
  split
  · exact .inl rfl
  · exact .told (.mutex n)

/-- A mutex whose acquisition gets a place or a wait. -/
theorem stems_setAcq {s : Hook.State} {l : Hook.Label} {m n : Addr} {a : Acq} (h : Same a (s.mem.mutexes m).acq) :
    Stems s l ((s.mem.setAcq m a).mutexes n).acq := by
  rw [Hook.Mem.setAcq_mutexes]
  split
  · exact .inr (.inl ⟨_, .mutex m, h⟩)
  · exact .told (.mutex n)

theorem release_acq (s : Hook.Mem) (m n : Addr) : ((s.release m).mutexes n).acq = (s.mutexes n).acq := by
  rw [Hook.Mem.release_mutexes]
  split
  · rename_i h
    rw [h]
  · rfl

theorem stems_mutex {s s' : Hook.State} {l : Hook.Label} (h : Step (fun _ => false) s l s') (n : Addr) :
    Stems s l (s'.mem.mutexes n).acq := by
  cases h with
  | lockFree => exact stems_free
  | bypassDone => exact stems_free
  | waitUnsampled hpc hres =>
    refine stems_acquire hpc hres ?_ ?_ (fun _ h => Hook.acquire_mutexes_of_ne h) <;>
      simp [Hook.Mem.acquire_mutexes]
  | waitTls hpc hres =>
    refine stems_acquire hpc hres ?_ ?_ (fun _ h => (Hook.setAcq_mutexes_of_ne h).trans
      (Hook.acquire_mutexes_of_ne h)) <;>
      simp [Hook.Mem.fillTls, Hook.Mem.setAcq_mutexes, Hook.Mem.acquire_mutexes]
  | waitMap hpc hres =>
    refine stems_acquire hpc hres ?_ ?_ (fun _ h => Hook.acquire_mutexes_of_ne h) <;>
      simp [Hook.Mem.acquire_mutexes]
  | casOk => exact stems_setAcq ⟨rfl, rfl, rfl⟩
  | storeDuration => exact stems_setAcq ⟨rfl, rfl, rfl⟩
  | unlockDone => exact (release_acq s.mem _ n).symm ▸ .told (.mutex n)
  | unlockSubmit => exact (release_acq s.mem _ n).symm ▸ .told (.mutex n)
  | _ => exact .told (.mutex n)

/-- What is being submitted after a step. -/
theorem stems_submit {s s' : Hook.State} {l : Hook.Label} (h : Step (fun _ => false) s l s') {t : Thread} {m : Addr}
    {a : Acq} {saved : Hook.Site} {ns : U64} (hpc : (s'.ctl t).pc = .submit m a saved ns) : Stems s l a := by
  by_cases hl : l.thread = some t
  · cases h with
    | start | stop => cases hl
    | unlockSubmit | foreignSubmit =>
      cases hl
      rw [Hook.State.setPc_pc_self] at hpc
      cases hpc
      exact .told (.mutex _)
    | _ =>
      cases hl
      simp_all
  · rw [h.ctl_other hl] at hpc
    exact .told (.submit hpc)

theorem stems_log {s s' : Hook.State} {l : Hook.Label} (h : Step (fun _ => false) s l s') {x : Unlocked}
    (hx : x ∈ s'.mem.log) : Stems s l x.acq := by
  cases h with
  | unlockDone | foreignDone =>
    rcases List.mem_cons.1 hx with rfl | hx
    · exact .told (.mutex _)
    · exact .told (.log hx)
  | submit hpc =>
    rcases List.mem_cons.1 hx with rfl | hx
    · exact .told (.submit hpc)
    · exact .told (.log hx)
  | _ => exact .told (.log hx)

/-- **Every acquisition a state tells of was told of before, was not contended, or is the one just made.** -/
theorem Tells.stems {s s' : Hook.State} {l : Hook.Label} {a : Acq} (h : Step (fun _ => false) s l s')
    (ha : Tells s' a) :
    Stems s l a := by
  cases ha with
  | mutex n => exact stems_mutex h n
  | submit hpc => exact stems_submit h hpc
  | log hx => exact stems_log h hx

theorem nacq_step {s s' : Hook.State} {l : Hook.Label} (h : Step (fun _ => false) s l s') :
    s.mem.nacq ≤ s'.mem.nacq ∧ ∀ t, acquires s l = some t → s.mem.nacq < s'.mem.nacq := by
  cases h
  case waitFail hpc hres => exact ⟨le_rfl, fun t ht => by simp [acquires, hpc, hres] at ht⟩
  case lockFree => exact ⟨Nat.le_succ _, fun _ ht => by cases ht⟩
  case bypassDone => exact ⟨Nat.le_succ _, fun _ _ => Nat.lt_succ_self _⟩
  case waitUnsampled => exact ⟨Nat.le_succ _, fun _ _ => Nat.lt_succ_self _⟩
  case waitTls => exact ⟨Nat.le_succ _, fun _ _ => Nat.lt_succ_self _⟩
  case waitMap => exact ⟨Nat.le_succ _, fun _ _ => Nat.lt_succ_self _⟩
  all_goals
    refine ⟨le_rfl, fun t ht => ?_⟩
    first
      | cases ht
      | simp_all [acquires]

/-- A thread that waits for a mutex waited before, or its `is_collectable` has just returned the range. -/
theorem waiting_step {s s' : Hook.State} {l : Hook.Label} (h : Step (fun _ => false) s l s') {t : Thread} {m : Addr}
    {r ns : U64} {k : Option Nat} (hpc : (s'.ctl t).pc = .waiting m r k ns) :
    (s.ctl t).pc = .waiting m r k ns ∨ ∃ i : Hook.Input, l = .go t i ∧ (s.ctl t).pc = .idle ∧ i.range = r := by
  by_cases hl : l.thread = some t
  · cases h with
    | start | stop => cases hl
    | collected hidle =>
      cases hl
      rw [Hook.State.setCtl_ctl_self] at hpc
      cases hpc
      exact .inr ⟨_, rfl, hidle, rfl⟩
    | _ =>
      cases hl
      simp_all
  · rw [h.ctl_other hl] at hpc
    exact .inl hpc

/-- A wait of a thread whose `is_collectable` has returned goes with its last decision, and a contended acquisition
with the decision made for it. -/
structure Inv (expectedPerSecond : Flag) (s : State) : Prop where
  waiting : ∀ {t m r k ns}, (s.hook.ctl t).pc = .waiting m r k ns →
    ∃ d, s.latest t = some d ∧ r = d.range expectedPerSecond
  told : ∀ {a}, Tells s.hook a → a.contended = true →
    a.id < s.hook.mem.nacq ∧ ∃ d, s.decided a.id = some d ∧ a.range = d.range expectedPerSecond

theorem inv_init {s : State} (h : (system F v).init s) : Inv F s where
  waiting := fun {t} _ _ _ _ hpc => by
    rw [h.1.ctl t] at hpc
    cases hpc
  told := by
    rintro a ha hc
    cases ha with
    | mutex n => exact absurd hc (by simp [h.2 n])
    | submit hpc =>
      rw [h.1.ctl] at hpc
      cases hpc
    | log hx =>
      rw [h.1.log] at hx
      cases hx

theorem decidedAfter_of_lt {s : State} {l : Hook.Label} {n : Nat} (h : n < s.hook.mem.nacq) :
    decidedAfter s l n = s.decided n := by
  cases hacq : acquires s.hook l with
  | none => simp [decidedAfter, hacq]
  | some t => simp [decidedAfter, hacq, Function.update_of_ne (Nat.ne_of_lt h)]

theorem decidedAfter_acquires {s : State} {l : Hook.Label} {t : Thread} (h : acquires s.hook l = some t) :
    decidedAfter s l s.hook.mem.nacq = s.latest t := by
  simp [decidedAfter, h]

theorem inv_hook {s : State} {l : Hook.Label} {h : Hook.State} (hi : Inv F s) (hc : collects s.hook l = false)
    (hh : Hook.step (fun _ => false) s.hook l = some h) :
    Inv F { s with hook := h, decided := decidedAfter s l } where
  waiting := by
    intro t m r k ns hpc
    rcases waiting_step (Hook.step_cases hh).1 hpc with hw | ⟨i, rfl, hidle, -⟩
    · exact hi.waiting hw
    · simp [collects, hidle] at hc
  told := by
    intro a ha hcont
    have hn := nacq_step (Hook.step_cases hh).1
    rcases ha.stems (Hook.step_cases hh).1 with hfree | ⟨b, hb, hid, hbc, hr⟩ | ⟨t, m, k, ns, hacq, hid, hw⟩
    · rw [hfree] at hcont
      cases hcont
    · obtain ⟨hlt, d, hd, hrange⟩ := hi.told hb (hbc ▸ hcont)
      rw [hid, hr]
      exact ⟨lt_of_lt_of_le hlt hn.1, d, (decidedAfter_of_lt hlt).trans hd, hrange⟩
    · obtain ⟨d, hd, hr⟩ := hi.waiting hw
      exact ⟨hid ▸ hn.2 t hacq, d, by rw [hid]; exact (decidedAfter_acquires hacq).trans hd, hr⟩

theorem inv_sample {s : State} {t : Thread} {fastRand monotonicUs nowNs : U64} {h : Hook.State} (hi : Inv F s)
    (hidle : (s.hook.ctl t).pc = .idle)
    (hh : Hook.step (fun _ => false) s.hook
      (.go t ⟨nowNs, (⟨fastRand, s.limit, monotonicUs⟩ : Decision).range F, 0⟩) = some h) :
    Inv F { s with
      hook := h
      limit := (isCollectable F s.limit fastRand monotonicUs).1
      latest := Function.update s.latest t (some ⟨fastRand, s.limit, monotonicUs⟩) } where
  waiting := by
    intro u m r k ns hpc
    dsimp only
    by_cases hu : u = t
    · subst hu
      rcases waiting_step (Hook.step_cases hh).1 hpc with hw | ⟨i, hl, -, hr⟩
      · rw [hidle] at hw
        cases hw
      · cases hl
        exact ⟨_, Function.update_self .., hr.symm⟩
    · rw [Function.update_of_ne hu]
      rw [(Hook.step_cases hh).1.ctl_other (fun hl => hu (by cases hl; rfl))] at hpc
      exact hi.waiting hpc
  told := by
    intro a ha hcont
    have hn := nacq_step (Hook.step_cases hh).1
    rcases ha.stems (Hook.step_cases hh).1 with hfree | ⟨b, hb, hid, hbc, hr⟩ | ⟨t', m, k, ns, hacq, -, -⟩
    · rw [hfree] at hcont
      cases hcont
    · obtain ⟨hlt, d, hd, hrange⟩ := hi.told hb (hbc ▸ hcont)
      rw [hid, hr]
      exact ⟨lt_of_lt_of_le hlt hn.1, d, hd, hrange⟩
    · simp [acquires, hidle] at hacq

theorem inv_step {s s' : State} {l : Label} (hi : Inv F s) (h : step F s l = some s') : Inv F s' := by
  cases l with
  | hook l =>
    simp only [step] at h
    split at h
    · cases h
    · rename_i hc
      obtain ⟨h', hh, rfl⟩ := Option.map_eq_some_iff.1 h
      exact inv_hook hi (by simpa using hc) hh
  | sample t fastRand monotonicUs nowNs =>
    simp only [step] at h
    split at h
    · rename_i hc
      obtain ⟨h', hh, rfl⟩ := Option.map_eq_some_iff.1 h
      exact inv_sample hi (by simpa [collects] using hc) hh
    · cases h
  | setLimit limit =>
    cases h
    exact ⟨hi.waiting, hi.told⟩

theorem inv_reachable {s : State} (h : (system F v).ReachableVia (InSession F) s) : Inv F s :=
  h.invariant (fun _ h0 => inv_init h0) (fun _ _ _ hi _ hst => inv_step hi hst)

end Selection
end ContentionProf
