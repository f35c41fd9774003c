import ContentionProf.HookVersion
/-!
# HookFailure — lock calls that fail after `EBUSY`

`pthread_mutex_lock_impl` counts its entry of the thread's list before it calls the real lock, and nothing takes the
entry back when that call fails.  The entry names the mutex and carries whatever site the slot held.
-/
namespace ContentionProf
namespace Hook

/-- The live entries, oldest first. -/
def TLSPthreadContentionSites.records (f : TLSPthreadContentionSites) : List MutexAndContentionSite :=
  (List.range f.count).map f.list

/-- The call passes the test of line 118, trylock answers `EBUSY`, and the real lock fails. -/
def FailsBusy (s : Mem) (i : LockInput) : Prop := s.cp = true ∧ i.busy = true ∧ i.res ≠ 0

instance (s : Mem) (i : LockInput) : Decidable (FailsBusy s i) := inferInstanceAs (Decidable (_ ∧ _))

/-- A failing call leaves the records of its thread, but for those of an earlier session, and the map. -/
def LeavesRecords (recursive : Addr → Bool) (s : Mem) : Call → Prop
  | .lock t m i => FailsBusy s i → ∀ s', pthreadMutexLockImpl recursive s t m i = some s' →
      (s'.tls t).records = ((s.tls t).refresh s.cpVersion).records ∧ s'.map = s.map
  | _           => True

/-- A failing call finds its thread's list full of records of the running session. -/
def FullWhenFailing (s : Mem) : Call → Prop
  | .lock t _ i => FailsBusy s i → ((s.tls t).refresh s.cpVersion).count = tlsMaxCount
  | _           => True

instance : ∀ (s : Mem) (c : Call), Decidable (FullWhenFailing s c)
  | s, .lock t _ i => inferInstanceAs (Decidable (FailsBusy s i → ((s.tls t).refresh s.cpVersion).count = tlsMaxCount))
  | _, .start      => .isTrue trivial
  | _, .stop       => .isTrue trivial
  | _, .unlock ..  => .isTrue trivial

/-- The call is not a lock call that fails. -/
def Call.succeeds : Call → Bool
  | .lock _ _ i => i.res == 0
  | _           => true

/-! ## One call -/

section

variable {recursive : Addr → Bool} {s s' : Mem} {t : Thread} {m : Addr} {i : LockInput}

theorem failed_lock (hf : FailsBusy s i) (h : pthreadMutexLockImpl recursive s t m i = some s') :
    s' = s.setTls t (appended s t m i.range).1 := by
  obtain ⟨hcp, hb, hr⟩ := hf
  unfold pthreadMutexLockImpl at h
  rw [hcp, hb, if_neg (by decide), if_pos hr] at h
  split at h
  · cases h
  · exact (Option.some.inj h).symm

theorem refresh_of_count {f : TLSPthreadContentionSites} {v : Nat} (h : (f.refresh v).count = tlsMaxCount) :
    f.refresh v = f := by
  unfold TLSPthreadContentionSites.refresh at h ⊢
  split at h
  · exact absurd (show 0 = 3 from h) (by decide)
  · rename_i hv; rw [if_neg hv]

/-- **A failing call leaves the records exactly when it finds the list full.** -/
theorem failed_lock_iff (hf : FailsBusy s i) (h : pthreadMutexLockImpl recursive s t m i = some s') :
    (s'.tls t).records = ((s.tls t).refresh s.cpVersion).records ∧ s'.map = s.map ↔
      ((s.tls t).refresh s.cpVersion).count = tlsMaxCount := by
  obtain rfl := failed_lock hf h
  have htls : (s.setTls t (appended s t m i.range).1).tls t = (appended s t m i.range).1 := by
    rw [Mem.setTls_tls, if_pos rfl]
  rw [htls, appended]
  constructor
  · rintro ⟨hrec, -⟩
    rcases TLSPthreadContentionSites.append_cases ((s.tls t).refresh s.cpVersion) m i.range with happ | happ
    · have hlen := congrArg List.length hrec
      unfold TLSPthreadContentionSites.records at hlen
      rw [List.length_map, List.length_map, List.length_range, List.length_range, happ.2.1] at hlen
      omega
    · exact happ.2.2
  · intro hfull
    rcases TLSPthreadContentionSites.append_cases ((s.tls t).refresh s.cpVersion) m i.range with happ | happ
    · have hle := (((s.tls t).refresh s.cpVersion).append m i.range).1.count_le
      rw [happ.2.1, hfull] at hle
      exact absurd hle (by decide)
    · exact ⟨by rw [happ.2.1], rfl⟩

theorem failed_lock_of_full (hf : FailsBusy s i) (hfull : ((s.tls t).refresh s.cpVersion).count = tlsMaxCount)
    (h : pthreadMutexLockImpl recursive s t m i = some s') : s' = s := by
  rw [failed_lock hf h, appended]
  rcases TLSPthreadContentionSites.append_cases ((s.tls t).refresh s.cpVersion) m i.range with happ | happ
  · have hle := (((s.tls t).refresh s.cpVersion).append m i.range).1.count_le
    rw [happ.2.1, hfull] at hle
    exact absurd hle (by decide)
  · rw [happ.2.1, refresh_of_count hfull, Mem.setTls, Function.update_eq_self]

end

/-- A call that fails before it touches the list, or finds it full, changes nothing. -/
theorem failed_call {recursive : Addr → Bool} {s s' : Mem} {c : Call} (hok : FullWhenFailing s c)
    (hc : c.succeeds = false) (h : call recursive s c = some s') : s' = s := by
  cases c with
  | start => cases hc
  | stop => cases hc
  | unlock t m i => cases hc
  | lock t m i =>
    have hr : i.res ≠ 0 := by simpa [Call.succeeds] using hc
    by_cases hf : FailsBusy s i
    · exact failed_lock_of_full hf (hok hf) h
    · unfold FailsBusy at hf
      simp only [call, pthreadMutexLockImpl] at h
      rw [if_pos (by cases hcp : s.cp <;> cases hb : i.busy <;> simp_all), if_pos hr] at h
      exact (Option.some.inj h).symm

theorem leavesRecords_iff {recursive : Addr → Bool} {s s' : Mem} {c : Call} (h : call recursive s c = some s') :
    LeavesRecords recursive s c ↔ FullWhenFailing s c := by
  cases c with
  | start => exact Iff.rfl
  | stop => exact Iff.rfl
  | unlock t m i => exact Iff.rfl
  | lock t m i =>
    have h : pthreadMutexLockImpl recursive s t m i = some s' := h
    refine ⟨fun hl hf => (failed_lock_iff hf h).1 (hl hf s' h), fun hfull hf s₁ h₁ => ?_⟩
    exact (failed_lock_iff hf h₁).2 (hfull hf)

/-! ## Runs -/

/-- **Failing lock calls are traceless exactly when they find the list full**: the calls of a run that fail after
`EBUSY` all leave the records if and only if each of them finds its thread's list full, and then the run without them
ends in the same state, with the same samples submitted. -/
theorem failed_locks_traceless_iff {recursive : Addr → Bool} {s s' : Mem} {calls : List Call}
    (h : (callSystem recursive).run s calls = some s') :
    ((callSystem recursive).RunOk (LeavesRecords recursive) s calls ↔
      (callSystem recursive).RunOk FullWhenFailing s calls) ∧
    ((callSystem recursive).RunOk FullWhenFailing s calls →
      (callSystem recursive).run s (calls.filter Call.succeeds) = some s') := by
  constructor
  · exact System.RunOk.congr (fun _ _ _ hs => leavesRecords_iff hs) h
  · intro hok
    exact System.run_filter (fun s a s' (hok : FullWhenFailing s a) hc hs => failed_call hok hc hs) hok h

/-- Thread 1 fills its list, and a lock of mutex 8, which it holds, fails with `EDEADLK`. -/
def fullRun : List Call :=
  [.start, .lock 1 8 ⟨false, 0, 0, 0, 0⟩, .lock 1 101 ⟨true, 16, 0, 1, 5⟩, .lock 1 102 ⟨true, 0, 0, 0, 0⟩,
    .lock 1 103 ⟨true, 0, 0, 0, 0⟩, .lock 1 8 ⟨true, 16, 35, 6, 7⟩, .unlock 1 8 ⟨8, 9⟩]

theorem failed_locks_traceless_iff_fullRun : ∃ s, (callSystem (fun _ => false)).run initMem fullRun = some s ∧
    (callSystem (fun _ => false)).run initMem (fullRun.filter Call.succeeds) = some s := by
  have hrun : ((callSystem (fun _ => false)).run initMem fullRun).isSome = true := by decide
  have hok : (callSystem (fun _ => false)).RunOk FullWhenFailing initMem fullRun := by decide
  obtain ⟨s, hs⟩ := Option.isSome_iff_exists.1 hrun
  exact ⟨s, hs, (failed_locks_traceless_iff hs).2 hok⟩

/-- Mutex 8 met contention and was submitted.  Thread 1 locks mutex 16 without contention, a second lock of it fails
with `EDEADLK`, and it unlocks mutex 16. -/
def deadlockRun : List Call :=
  [.start, .lock 1 8 ⟨true, 16, 0, 1, 5⟩, .unlock 1 8 ⟨6, 7⟩, .lock 1 16 ⟨false, 0, 0, 0, 0⟩,
    .lock 1 16 ⟨true, 16, 35, 8, 9⟩, .unlock 1 16 ⟨10, 11⟩]

/-- The mutexes unlocked with a sample, each with the acquisition that wrote the submitted site. -/
def submissions (s : Mem) : List (Addr × Option Nat) :=
  s.log.filterMap (fun x => x.submitted.map (fun cs => (x.mutex, cs.acq.map Acq.id)))

/-- **A failed call makes the unlock of an uncontended hold submit the site of another mutex**, and leaves an entry. -/
theorem failed_lock_submits :
    ¬ (callSystem (fun _ => false)).RunOk (LeavesRecords (fun _ => false)) initMem deadlockRun ∧
    ((callSystem (fun _ => false)).run initMem deadlockRun).map submissions = some [(16, some 1), (8, some 1)] ∧
    ((callSystem (fun _ => false)).run initMem (deadlockRun.filter Call.succeeds)).map submissions =
      some [(8, some 1)] := by
  refine ⟨fun h => ?_, by decide, by decide⟩
  have hrun : ((callSystem (fun _ => false)).run initMem deadlockRun).isSome = true := by decide
  obtain ⟨s, hs⟩ := Option.isSome_iff_exists.1 hrun
  have hfull : ¬ (callSystem (fun _ => false)).RunOk FullWhenFailing initMem deadlockRun := by decide
  exact hfull ((System.RunOk.congr (fun _ _ _ hs => leavesRecords_iff hs) hs).1 h)

end Hook
end ContentionProf
