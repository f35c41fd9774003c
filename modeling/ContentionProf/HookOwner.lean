import ContentionProf.HookCases
/-!
# HookOwner — who owns a mutex while a hook works on it

From the moment the real lock returned, and until the real unlock, the thread inside a hook owns the mutex it was
called for (`ownOk_reachable`), whatever the other threads and the profiler do; and a step changes only mutexes that
are free or owned by the thread that takes it (`Step.mutexes_frame`).
-/
namespace ContentionProf
namespace Hook

variable {recursive : Addr → Bool}

/-- The thread a move belongs to; starting and stopping the profiler belong to none. -/
def Label.thread : Label → Option Thread
  | .start        => none
  | .stop         => none
  | .lock t _     => some t
  | .unlock t _ _ => some t
  | .go t _       => some t
  | .endSubmit t  => some t

/-- The mutex a thread must own at this point of a hook. -/
def Pc.owns : Pc → Option Addr
  | .addLoad m _ _         => some m
  | .addDesired m _ _ _    => some m
  | .addCas m _ _ _ _      => some m
  | .storeDuration m _ _   => some m
  | .storeRange m _        => some m
  | .rmLoad m              => some m
  | .copyDuration m        => some m
  | .copyRange m _         => some m
  | .invalidate m _        => some m
  | .clear m _             => some m
  | .realUnlock m _ _      => some m
  | .idle                  => none
  | .bypassLock _          => none
  | .waiting _ _ _ _       => none
  | .submit _ _ _ _        => none

def OwnOk (s : State) : Prop := ∀ t m, (s.ctl t).pc.owns = some m → (s.mem.mutexes m).owner = some t

theorem Mem.owner_of_not_busy {s : Mem} {t : Thread} {m : Addr} (h : s.busy recursive t m = false) :
    (s.mutexes m).owner = none ∨ (s.mutexes m).owner = some t := by
  unfold Mem.busy at h
  split at h
  · rename_i hn; exact .inl hn
  · rename_i u hu
    simp only [Bool.not_eq_eq_eq_not, Bool.not_false, Bool.and_eq_true, beq_iff_eq] at h
    rw [h.1] at hu
    exact .inr hu

/-- Another thread's mutex is as it was, or the step's own thread may touch it: it was free or its own, and is so
afterwards. -/
def MutexFrame (s s' : State) (l : Label) (n : Addr) : Prop :=
  s'.mem.mutexes n = s.mem.mutexes n ∨ ∃ t, l.thread = some t ∧
    ((s.mem.mutexes n).owner = none ∨ (s.mem.mutexes n).owner = some t) ∧
    ((s'.mem.mutexes n).owner = none ∨ (s'.mem.mutexes n).owner = some t)

theorem MutexFrame.acquire {s s' : State} {l : Label} {t : Thread} {m n : Addr} {b : Bool} {r : U64}
    (hl : l.thread = some t) (hb : s.mem.busy recursive t m = false)
    (hm : ∀ n, (s'.mem.mutexes n).owner = ((s.mem.acquire t m b r).mutexes n).owner)
    (hne : ∀ n, n ≠ m → s'.mem.mutexes n = s.mem.mutexes n) : MutexFrame s s' l n := by
  by_cases h : n = m
  · subst h
    exact .inr ⟨t, hl, Mem.owner_of_not_busy hb, .inr (by rw [hm, Mem.acquire_owner, if_pos rfl])⟩
  · exact .inl (hne n h)

theorem MutexFrame.owned {s s' : State} {l : Label} {t : Thread} {m n : Addr} (hl : l.thread = some t)
    (ho : (s.mem.mutexes m).owner = some t)
    (hm : (s'.mem.mutexes m).owner = none ∨ (s'.mem.mutexes m).owner = some t)
    (hne : ∀ n, n ≠ m → s'.mem.mutexes n = s.mem.mutexes n) : MutexFrame s s' l n := by
  by_cases h : n = m
  · subst h
    exact .inr ⟨t, hl, .inr ho, hm⟩
  · exact .inl (hne n h)

theorem release_owner_or {s : Mem} {t : Thread} {m : Addr} (ho : (s.mutexes m).owner = some t) :
    ((s.release m).mutexes m).owner = none ∨ ((s.release m).mutexes m).owner = some t := by
  rw [Mem.release_mutexes, if_pos rfl]
  simp only
  split
  · exact .inl rfl
  · exact .inr ho

theorem release_mutexes_of_ne {s : Mem} {m n : Addr} (h : n ≠ m) : (s.release m).mutexes n = s.mutexes n := by
  rw [Mem.release_mutexes, if_neg h]

theorem acquire_mutexes_of_ne {s : Mem} {t : Thread} {m n : Addr} {b : Bool} {r : U64} (h : n ≠ m) :
    (s.acquire t m b r).mutexes n = s.mutexes n := by
  rw [Mem.acquire_mutexes, if_neg h]

theorem setAcq_mutexes_of_ne {s : Mem} {m n : Addr} {a : Acq} (h : n ≠ m) :
    (s.setAcq m a).mutexes n = s.mutexes n := by
  rw [Mem.setAcq_mutexes, if_neg h]

@[simp] theorem claim_owner (s : Mem) (t : Thread) (m n : Addr) (d : U64) :
    ((s.claim t m d).mutexes n).owner = (s.mutexes n).owner := by simp [Mem.claim]

@[simp] theorem fillDuration_owner (s : Mem) (m n : Addr) (w : U64) :
    ((s.fillDuration m w).mutexes n).owner = (s.mutexes n).owner := by simp [Mem.fillDuration]

@[simp] theorem fillTls_owner (s : Mem) (t : Thread) (m n : Addr) (k : Nat) (r w : U64) :
    ((s.fillTls t m k r w).mutexes n).owner = (s.mutexes n).owner := by simp [Mem.fillTls]

@[simp] theorem fillRange_mutexes (s : Mem) (m : Addr) (r : U64) : (s.fillRange m r).mutexes = s.mutexes := rfl
@[simp] theorem invalidate_mutexes (s : Mem) (m : Addr) : (s.invalidate m).mutexes = s.mutexes := rfl
@[simp] theorem clear_mutexes (s : Mem) (m : Addr) : (s.clear m).mutexes = s.mutexes := rfl

/-- **A step changes only mutexes that are free or owned by the thread that takes it.** -/
theorem Step.mutexes_frame {s s' : State} {l : Label} (h : Step recursive s l s') (hown : OwnOk s) (n : Addr) :
    MutexFrame s s' l n := by
  cases h with
  | lockFree hpc hcp hin hb => exact .acquire rfl hb (fun _ => rfl) (fun _ h => acquire_mutexes_of_ne h)
  | bypassDone hpc hres hb => exact .acquire rfl hb (fun _ => rfl) (fun _ h => acquire_mutexes_of_ne h)
  | waitUnsampled hpc hres hb => exact .acquire rfl hb (fun _ => rfl) (fun _ h => acquire_mutexes_of_ne h)
  | waitTls hpc hres hb hr =>
    refine .acquire rfl hb (fun n => by simp; rfl) (fun n h => ?_)
    exact (setAcq_mutexes_of_ne h).trans (acquire_mutexes_of_ne h)
  | waitMap hpc hres hb hr => exact .acquire rfl hb (fun _ => rfl) (fun _ h => acquire_mutexes_of_ne h)
  | casOk hpc he =>
    have ho := hown _ _ (show (s.ctl _).pc.owns = _ by rw [hpc]; rfl)
    exact .owned rfl ho (.inr (by simpa using ho)) (fun n h => setAcq_mutexes_of_ne h)
  | storeDuration hpc =>
    have ho := hown _ _ (show (s.ctl _).pc.owns = _ by rw [hpc]; rfl)
    exact .owned rfl ho (.inr (by simpa using ho)) (fun n h => setAcq_mutexes_of_ne h)
  | unlockDone hpc ho => exact .owned rfl ho (release_owner_or ho) (fun n h => release_mutexes_of_ne h)
  | unlockSubmit hpc hns ho => exact .owned rfl ho (release_owner_or ho) (fun n h => release_mutexes_of_ne h)
  | _ => exact .inl rfl

theorem MutexFrame.eq_of_owner {s s' : State} {l : Label} {n : Addr} {t : Thread} (h : MutexFrame s s' l n)
    (hl : l.thread ≠ some t) (ho : (s.mem.mutexes n).owner = some t) : s'.mem.mutexes n = s.mem.mutexes n := by
  rcases h with h | ⟨u, hu, h | h, -⟩
  · exact h
  · rw [ho] at h; cases h
  · rw [ho] at h; cases h; exact absurd hu hl

theorem MutexFrame.owner_of_owner {s s' : State} {l : Label} {n : Addr} {t : Thread} (h : MutexFrame s s' l n)
    (hl : l.thread ≠ some t) (ho : (s'.mem.mutexes n).owner = some t) : (s.mem.mutexes n).owner = some t := by
  rcases h with h | ⟨u, hu, -, h | h⟩
  · rw [← h]; exact ho
  · rw [ho] at h; cases h
  · rw [ho] at h; cases h; exact absurd hu hl

theorem Step.ctl_other {s s' : State} {l : Label} {t : Thread} (h : Step recursive s l s') (hl : l.thread ≠ some t) :
    s'.ctl t = s.ctl t := by
  cases h
  case start => rfl
  case stop => rfl
  all_goals
    have hne : t ≠ _ := fun h => hl (by rw [h]; rfl)
    exact State.setCtl_ctl_of_ne s hne _ _

theorem Step.owns_self {s s' : State} {l : Label} {t : Thread} {m : Addr} (h : Step recursive s l s')
    (how : OwnerUnlocks s l) (hown : OwnOk s) (hl : l.thread = some t) (hm : (s'.ctl t).pc.owns = some m) :
    (s'.mem.mutexes m).owner = some t := by
  have keep : ∀ {pc : Pc}, (s.ctl t).pc = pc → pc.owns = some m → (s.mem.mutexes m).owner = some t :=
    fun hpc hp => hown t m (by rw [hpc]; exact hp)
  cases h with
  | start => cases hl
  | stop => cases hl
  | lockBusy hpc => cases hl; rw [State.setCtl_ctl_self] at hm; exact keep rfl hm
  | waitMap => cases hl; rw [State.setPc_pc_self] at hm; cases hm; simp [Mem.acquire_owner]
  | addTake hpc => cases hl; rw [State.setPc_pc_self] at hm; exact keep hpc hm
  | addDesired hpc => cases hl; rw [State.setPc_pc_self] at hm; exact keep hpc hm
  | casOk hpc => cases hl; rw [State.setPc_pc_self] at hm; simpa using keep hpc hm
  | storeDuration hpc => cases hl; rw [State.setPc_pc_self] at hm; simpa using keep hpc hm
  | unlockBypass hpc => cases hl; rw [State.setCtl_ctl_self] at hm; cases hm; exact how
  | unlockValid hpc => cases hl; rw [State.setPc_pc_self] at hm; cases hm; exact how
  | unlockInvalid hpc => cases hl; rw [State.setPc_pc_self] at hm; cases hm; exact how
  | unlockMiss hpc => cases hl; rw [State.setPc_pc_self] at hm; cases hm; exact how
  | rmHit hpc => cases hl; rw [State.setPc_pc_self] at hm; exact keep hpc hm
  | rmMiss hpc => cases hl; rw [State.setPc_pc_self] at hm; exact keep hpc hm
  | copyDuration hpc => cases hl; rw [State.setPc_pc_self] at hm; exact keep hpc hm
  | copyRange hpc => cases hl; rw [State.setPc_pc_self] at hm; exact keep hpc hm
  | invalidate hpc => cases hl; rw [State.setPc_pc_self] at hm; exact keep hpc hm
  | clear hpc => cases hl; rw [State.setPc_pc_self] at hm; exact keep hpc hm
  | endSubmit hpc => cases hl; rw [State.setCtl_ctl_self] at hm; exact keep rfl hm
  | _ =>
    cases hl
    first
      | (rw [State.setPc_pc_self] at hm; cases hm)
      | (rw [State.setCtl_ctl_self] at hm; cases hm)

theorem ownOk_step {s s' : State} {l : Label} (hown : OwnOk s) (h : Step recursive s l s') (how : OwnerUnlocks s l) :
    OwnOk s' := by
  intro t m hm
  by_cases hl : l.thread = some t
  · exact h.owns_self how hown hl hm
  · rw [h.ctl_other hl] at hm
    have ho := hown t m hm
    rw [(h.mutexes_frame hown m).eq_of_owner hl ho]
    exact ho

/-- **Inside a hook a thread owns the mutex it works on**, in every run. -/
theorem ownOk_reachable {ok : State → Label → Prop} {s : State} (h : (system recursive).ReachableVia ok s) :
    OwnOk s := by
  refine System.ReachableVia.invariant (I := OwnOk) (fun s hs => ?_) (fun s l s' hown _ hst => ?_) h
  · cases hs
    intro t m hm
    cases hm
  · exact ownOk_step hown (step_cases hst).1 (step_cases hst).2

end Hook
end ContentionProf
