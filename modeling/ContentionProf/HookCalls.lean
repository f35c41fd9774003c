import ContentionProf.Hook
/-!
# HookCalls — everything one call of a hook can do

One case for each way through the coarse `pthread_mutex_lock_impl` and `pthread_mutex_unlock_impl`, and who owns a mutex
after the call.
-/
namespace ContentionProf
namespace Hook

/-! ## The lock hook -/

/-- The thread's list once a contended lock call has added its entry. -/
def appended (s : Mem) (t : Thread) (m : Addr) (range : U64) : TLSPthreadContentionSites × Option Nat :=
  ((s.tls t).refresh s.cpVersion).append m range

/-- The record of the latest acquisition in the slot of the mutex. -/
def recordInMap (s : Mem) (t : Thread) (m : Addr) (range wait : U64) : Mem :=
  ((s.claim t m (versioned s.cpVersion m)).fillDuration m wait).fillRange m range

/-- **Everything a lock call can do.** -/
inductive LockResult (recursive : Addr → Bool) (s : Mem) (t : Thread) (m : Addr) (i : LockInput) : Mem → Prop
  | failed (hr : i.res ≠ 0) : LockResult recursive s t m i s
  | acquired (hb : s.busy recursive t m = false) : LockResult recursive s t m i (s.acquire t m false 0)
  | failedBusy (hcp : s.cp = true) (hb : i.busy = true) (hr : i.res ≠ 0) :
      LockResult recursive s t m i (s.setTls t (appended s t m i.range).1)
  | unsampled (hcp : s.cp = true) (ho : (s.mutexes m).owner = none) (hr : i.range = 0) :
      LockResult recursive s t m i ((s.setTls t (appended s t m i.range).1).acquire t m true i.range)
  | listed {k : Nat} (hcp : s.cp = true) (ho : (s.mutexes m).owner = none) (hr : i.range ≠ 0)
      (hk : (appended s t m i.range).2 = some k) :
      LockResult recursive s t m i
        (((s.setTls t (appended s t m i.range).1).acquire t m true i.range).fillTls t m k i.range
          (i.nowNs - i.startNs))
  | unrecorded (hcp : s.cp = true) (ho : (s.mutexes m).owner = none) (hr : i.range ≠ 0)
      (hk : (appended s t m i.range).2 = none) :
      LockResult recursive s t m i ((s.setTls t (appended s t m i.range).1).acquire t m true i.range)
  | mapped (hcp : s.cp = true) (ho : (s.mutexes m).owner = none) (hr : i.range ≠ 0)
      (hk : (appended s t m i.range).2 = none)
      (ht : takeable s.cpVersion (s.map (mapIndex m)).versionedMutex = true) :
      LockResult recursive s t m i
        (recordInMap ((s.setTls t (appended s t m i.range).1).acquire t m true i.range) t m i.range
          (i.nowNs - i.startNs))

theorem pthreadMutexLockImpl_cases {recursive : Addr → Bool} {s s' : Mem} {t : Thread} {m : Addr} {i : LockInput}
    (h : pthreadMutexLockImpl recursive s t m i = some s') : LockResult recursive s t m i s' := by
  unfold pthreadMutexLockImpl at h
  split at h
  · split at h
    · rename_i hr; cases h; exact .failed hr
    split at h
    · cases h
    · rename_i hb
      cases h
      exact .acquired (by simpa using hb)
  rename_i hg
  have hcp : s.cp = true := by simp at hg; exact hg.1
  have hbusy : i.busy = true := by simp at hg; exact hg.2
  split at h
  · cases h
  rename_i hrec
  split at h
  · rename_i hr
    cases h
    exact .failedBusy hcp hbusy hr
  split at h
  · cases h
  rename_i hb
  have ho : (s.mutexes m).owner = none := by
    unfold Mem.busy at hb
    split at hb
    · assumption
    · rename_i u hu
      simp only [Bool.not_eq_true, Bool.not_eq_false', Bool.and_eq_true, beq_iff_eq] at hb
      exact absurd ⟨by rw [hu, hb.1], hb.2⟩ hrec
  split at h
  · rename_i hr
    cases h
    exact .unsampled hcp ho hr
  rename_i hr
  dsimp only at h
  split at h
  · rename_i k hk
    cases h
    exact .listed hcp ho hr hk
  rename_i hk
  unfold addPthreadContentionSite at h
  split at h
  · cases h
    exact .unrecorded hcp ho hr hk
  · rename_i s₃ hs₃
    split at hs₃
    · rename_i ht
      cases hs₃
      cases h
      exact .mapped hcp ho hr hk ht
    · cases hs₃

theorem LockResult.log {recursive : Addr → Bool} {s s' : Mem} {t : Thread} {m : Addr} {i : LockInput}
    (h : LockResult recursive s t m i s') : s'.log = s.log ∧ s'.cp = s.cp ∧ s'.cpVersion = s.cpVersion := by
  cases h with
  | listed | mapped =>
    simp only [recordInMap, Mem.fillTls, Mem.fillRange, Mem.fillDuration, Mem.claim, Mem.setTls_log, Mem.setTls_cp,
      Mem.setTls_cpVersion, Mem.setSlot_log, Mem.setSlot_cp, Mem.setSlot_cpVersion, Mem.setAcq_log, Mem.setAcq_cp,
      Mem.setAcq_cpVersion, Mem.acquire_log, Mem.acquire_cp, Mem.acquire_cpVersion, and_self]
  | _ => exact ⟨rfl, rfl, rfl⟩

/-! ## The unlock hook -/

/-- **Everything an unlock call can do**: the record it removes and the site it saves. -/
inductive UnlockResult (s : Mem) (t : Thread) (m : Addr) (i : UnlockInput) : Mem → Prop
  | off (hcp : s.cp = false) : UnlockResult s t m i (finishUnlock s t m .zero 0 i.endNs)
  | listed {k : Nat} (hcp : s.cp = true) (hk : (s.tls t).find m = some k)
      (hv : isContentionSiteValid ((s.tls t).list k).csite = true) :
      UnlockResult s t m i
        (finishUnlock (s.setTls t ((s.tls t).remove k)) t m ((s.tls t).list k).csite i.startNs i.endNs)
  | listedInvalid {k : Nat} (hcp : s.cp = true) (hk : (s.tls t).find m = some k)
      (hv : isContentionSiteValid ((s.tls t).list k).csite = false) :
      UnlockResult s t m i (finishUnlock (s.setTls t ((s.tls t).remove k)) t m .zero 0 i.endNs)
  | mapped (hcp : s.cp = true) (hk : (s.tls t).find m = none)
      (hn : namesMutex (s.map (mapIndex m)).versionedMutex m = true) :
      UnlockResult s t m i
        (finishUnlock ((s.invalidate m).clear m) t m (s.map (mapIndex m)).csite i.startNs i.endNs)
  | missing (hcp : s.cp = true) (hk : (s.tls t).find m = none)
      (hn : namesMutex (s.map (mapIndex m)).versionedMutex m = false) :
      UnlockResult s t m i (finishUnlock s t m .zero 0 i.endNs)

theorem pthreadMutexUnlockImpl_cases (s : Mem) (t : Thread) (m : Addr) (i : UnlockInput) :
    UnlockResult s t m i (pthreadMutexUnlockImpl s t m i) := by
  unfold pthreadMutexUnlockImpl
  split
  · rename_i hcp
    exact .off (by simpa using hcp)
  rename_i hcp
  have hcp : s.cp = true := by simpa using hcp
  split
  · rename_i k hk
    dsimp only
    split
    · rename_i hv; exact .listed hcp hk hv
    · rename_i hv; exact .listedInvalid hcp hk (by simpa using hv)
  · rename_i hk
    unfold removePthreadContentionSite
    by_cases hn : namesMutex (s.map (mapIndex m)).versionedMutex m = true
    · rw [if_pos hn]; exact .mapped hcp hk hn
    · rw [if_neg hn]; exact .missing hcp hk (by simpa using hn)

/-! ## Owners -/

def owners (s : Mem) (m : Addr) : Option Thread := (s.mutexes m).owner

/-- No mutex is locked twice. -/
def Single (s : Mem) : Prop := ∀ m, (s.mutexes m).count = if (s.mutexes m).owner = none then 0 else 1

variable {s s' : Mem} {t : Thread} {m : Addr}

theorem owners_of_mutexes (h : ∀ n, (s'.mutexes n).owner = (s.mutexes n).owner) : owners s' = owners s := funext h

theorem Single.of_eq (h : Single s) (ho : ∀ n, (s'.mutexes n).owner = (s.mutexes n).owner)
    (hc : ∀ n, (s'.mutexes n).count = (s.mutexes n).count) : Single s' := by
  intro n
  rw [ho, hc]
  exact h n

theorem owners_acquire (b : Bool) (r : U64) : owners (s.acquire t m b r) = Function.update (owners s) m (some t) := by
  funext n
  by_cases hn : n = m
  · subst hn
    simp [owners, Mem.acquire]
  · simp [owners, Mem.acquire, hn]

theorem Single.acquire {b : Bool} {r : U64} (h : Single s) (ho : owners s m = none) : Single (s.acquire t m b r) := by
  intro n
  rw [Mem.acquire_mutexes]
  have ho : (s.mutexes m).owner = none := ho
  have hm := h m
  rw [if_pos ho] at hm
  split
  · simp [hm]
  · exact h n

theorem owners_release (h : Single s) (ho : owners s m = some t) :
    owners (s.release m) = Function.update (owners s) m none := by
  have ho : (s.mutexes m).owner = some t := ho
  have hm := h m
  rw [if_neg (by rw [ho]; exact nofun)] at hm
  funext n
  by_cases hn : n = m
  · subst hn
    simp [owners, Mem.release, hm]
  · simp [owners, Mem.release, hn]

theorem Single.release (h : Single s) (ho : owners s m = some t) : Single (s.release m) := by
  have ho : (s.mutexes m).owner = some t := ho
  have hm := h m
  rw [if_neg (by rw [ho]; exact nofun)] at hm
  intro n
  rw [Mem.release_mutexes]
  split
  · simp [hm]
  · exact h n

theorem owners_acquire_release {b : Bool} {r : U64} (h : Single s) (ho : owners s m = none) :
    owners ((s.acquire t m b r).release m) = owners s ∧ Single ((s.acquire t m b r).release m) := by
  have hacq : owners (s.acquire t m b r) m = some t := by rw [owners_acquire, Function.update_self]
  refine ⟨?_, (h.acquire ho).release hacq⟩
  rw [owners_release (h.acquire ho) hacq, owners_acquire, Function.update_idem, ← ho, Function.update_eq_self]

theorem busy_false_iff : s.busy (fun _ => false) t m = false ↔ owners s m = none := by
  unfold Mem.busy owners
  cases (s.mutexes m).owner <;> simp

/-- **A lock call that returns 0 found the mutex free and owns it.** -/
theorem pthreadMutexLockImpl_owner {i : LockInput} (h : pthreadMutexLockImpl (fun _ => false) s t m i = some s')
    (hres : i.res = 0) :
    owners s m = none ∧ owners s' = Function.update (owners s) m (some t) ∧ (Single s → Single s') := by
  have hacq : ∀ (s₁ : Mem) (b : Bool) (r : U64), s₁.mutexes = s.mutexes → owners s m = none →
      (∀ n, (s'.mutexes n).owner = ((s₁.acquire t m b r).mutexes n).owner) →
      (∀ n, (s'.mutexes n).count = ((s₁.acquire t m b r).mutexes n).count) →
      owners s m = none ∧ owners s' = Function.update (owners s) m (some t) ∧ (Single s → Single s') := by
    intro s₁ b r hs ho howner hcount
    have hown : owners s₁ = owners s := by unfold owners; rw [hs]
    refine ⟨ho, ?_, fun h => ?_⟩
    · rw [owners_of_mutexes howner, owners_acquire, hown]
    · have h₁ : Single s₁ := h.of_eq (fun n => by rw [hs]) (fun n => by rw [hs])
      exact (h₁.acquire (hown ▸ ho)).of_eq howner hcount
  cases pthreadMutexLockImpl_cases h with
  | failed hr => exact absurd hres hr
  | acquired hb => exact hacq s _ _ rfl (busy_false_iff.1 hb) (fun _ => rfl) (fun _ => rfl)
  | failedBusy _ _ hr => exact absurd hres hr
  | unsampled _ ho _ =>
    exact hacq (s.setTls t (appended s t m i.range).1) true i.range rfl ho (fun _ => rfl) (fun _ => rfl)
  | listed _ ho _ _ =>
    exact hacq (s.setTls t (appended s t m i.range).1) true i.range rfl ho
      (fun _ => by simp only [Mem.fillTls, Mem.setTls_mutexes, Mem.setAcq_owner])
      (fun _ => by simp only [Mem.fillTls, Mem.setTls_mutexes, Mem.setAcq_count])
  | unrecorded _ ho _ _ =>
    exact hacq (s.setTls t (appended s t m i.range).1) true i.range rfl ho (fun _ => rfl) (fun _ => rfl)
  | mapped _ ho _ _ _ =>
    exact hacq (s.setTls t (appended s t m i.range).1) true i.range rfl ho
      (fun _ => by simp only [recordInMap, Mem.fillRange, Mem.fillDuration, Mem.claim, Mem.setSlot_mutexes,
        Mem.setAcq_owner])
      (fun _ => by simp only [recordInMap, Mem.fillRange, Mem.fillDuration, Mem.claim, Mem.setSlot_mutexes,
        Mem.setAcq_count])

/-- **An unlock call of the owner frees the mutex**, whatever it finds and submits. -/
theorem pthreadMutexUnlockImpl_owner (i : UnlockInput) (h : Single s) (ho : owners s m = some t) :
    owners (pthreadMutexUnlockImpl s t m i) = Function.update (owners s) m none ∧
      Single (pthreadMutexUnlockImpl s t m i) := by
  have hfinish : ∀ (s₁ : Mem) (cs : Site) (ns : U64), s₁.mutexes = s.mutexes →
      owners (finishUnlock s₁ t m cs ns i.endNs) = Function.update (owners s) m none ∧
        Single (finishUnlock s₁ t m cs ns i.endNs) := by
    intro s₁ cs ns hs
    have hown : owners s₁ = owners s := by unfold owners; rw [hs]
    have h₁ : Single s₁ := h.of_eq (fun n => by rw [hs]) (fun n => by rw [hs])
    have ho₁ : (s₁.mutexes m).owner = some t := by rw [hs]; exact ho
    have hreal : realUnlock s₁ t m = s₁.release m := if_pos ho₁
    have hmut : (finishUnlock s₁ t m cs ns i.endNs).mutexes = (s₁.release m).mutexes := by
      unfold finishUnlock
      rw [hreal, Mem.logUnlocked_mutexes]
    refine ⟨?_, (h₁.release ho₁).of_eq (fun n => by rw [hmut]) (fun n => by rw [hmut])⟩
    rw [← hown, ← owners_release h₁ ho₁]
    unfold owners
    rw [hmut]
  have hcases := pthreadMutexUnlockImpl_cases s t m i
  generalize pthreadMutexUnlockImpl s t m i = s' at hcases
  cases hcases with
  | off | listed | listedInvalid | mapped | missing => exact hfinish _ _ _ rfl

end Hook
end ContentionProf
