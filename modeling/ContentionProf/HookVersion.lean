import ContentionProf.HookList
import ContentionProf.HookOwner
import ContentionProf.HookCalls
/-!
# HookVersion — records that outlive a session

The two hooks as steps, with any number of starts and stops of the profiler in between.  A record made in one session
stays in the thread's list or in the map when the profiler stops, and the unlock hook takes it without a look at
`cp_version` or at the bits above `PTR_BITS`; only the lock hook compares versions.  What `submit_contention` and
`is_collectable` lock themselves they release again before the hook returns, without a record.
-/
namespace ContentionProf
namespace Hook

open TLSPthreadContentionSites (Live)

inductive Call
  | start
  | stop
  | lock (t : Thread) (m : Addr) (i : LockInput)
  | unlock (t : Thread) (m : Addr) (i : UnlockInput)
deriving DecidableEq

def call (recursive : Addr → Bool) (s : Mem) : Call → Option Mem
  | .start        => if s.cp then none else some { s with cp := true, cpVersion := s.cpVersion + 1 }
  | .stop         => if s.cp then some { s with cp := false } else none
  | .lock t m i   => pthreadMutexLockImpl recursive s t m i
  | .unlock t m i => some (pthreadMutexUnlockImpl s t m i)

def callSystem (recursive : Addr → Bool) : System Mem Call where
  init s := s = initMem
  step := call recursive

/-! ## What is promised -/

/-- The submitted site was recorded by the thread's own latest acquisition of the mutex, contended and in the session
the sample is submitted in. -/
def SubmitsOwn (x : Unlocked) : Prop := ∀ cs, x.submitted = some cs →
  cs.acq = some x.acq ∧ x.acq.contended = true ∧ x.acq.version = x.version ∧ x.acq.thread = x.thread

/-- The caller holds the mutex, once. -/
def HeldOnce (s : Mem) (t : Thread) (m : Addr) : Prop := (s.mutexes m).owner = some t ∧ (s.mutexes m).count = 1

/-- **When the record an unlock finds can be trusted**, read before the call: a failing lock call leaves no entry, a new
session finds no slot that already has its version bits, and an unlock that is about to submit finds its record in a
list or a slot of the current version and holds the mutex once. -/
def VersionsAgree (s : Mem) : Call → Prop
  | .start        => ∀ i, (s.map i).versionedMutex ≠ 0 →
      slotVersion (s.map i).versionedMutex ≠ versionBits (s.cpVersion + 1)
  | .stop         => True
  | .lock t m i   => ValidAddr m ∧ (s.cp = true → i.busy = true → i.res ≠ 0 →
      ((s.tls t).refresh s.cpVersion).count = tlsMaxCount)
  | .unlock t m _ => ValidAddr m ∧ (s.cp = true →
      (∀ k, (s.tls t).find m = some k → isContentionSiteValid ((s.tls t).list k).csite = true →
        (s.tls t).cpVersion = s.cpVersion ∧ HeldOnce s t m) ∧
      ((s.tls t).find m = none → namesMutex (s.map (mapIndex m)).versionedMutex m = true →
        slotVersion (s.map (mapIndex m)).versionedMutex = versionBits s.cpVersion ∧ HeldOnce s t m))

/-! ## The invariant -/

/-- The site was recorded by the latest acquisition of the mutex, by this thread, in this session. -/
def OwnSite (s : Mem) (t : Thread) (m : Addr) (cs : Site) : Prop :=
  cs.acq = some (s.mutexes m).acq ∧ (s.mutexes m).acq.contended = true ∧ (s.mutexes m).acq.version = s.cpVersion ∧
    (s.mutexes m).acq.thread = t

/-- The entry names a mutex the thread holds, and unless it was relocked a valid site is its own. -/
def EntryOk (s : Mem) (t : Thread) (e : MutexAndContentionSite) : Prop :=
  (s.mutexes e.mutex).owner = some t ∧
    (isContentionSiteValid e.csite = true → (s.mutexes e.mutex).count = 1 → OwnSite s t e.mutex e.csite)

/-- The slot is occupied with the version bits of this session. -/
def Current (s : Mem) (i : U64) : Prop :=
  (s.map i).versionedMutex ≠ 0 ∧ slotVersion (s.map i).versionedMutex = versionBits s.cpVersion

/-- The slot is the record of a mutex its filler holds and has no entry for. -/
def SlotOwn (s : Mem) (i : U64) (m : Addr) : Prop :=
  ValidAddr m ∧ mapIndex m = i ∧ (s.map i).versionedMutex = versioned s.cpVersion m ∧
    (s.mutexes m).owner = some (s.map i).filler ∧ (s.tls (s.map i).filler).cpVersion = s.cpVersion ∧
    ¬ Live (s.tls (s.map i).filler) m ∧
    ((s.mutexes m).count = 1 → OwnSite s (s.map i).filler m (s.map i).csite)

def Distinct (f : TLSPthreadContentionSites) : Prop :=
  ∀ i j, i < f.count → j < f.count → (f.list i).mutex = (f.list j).mutex → i = j

/-- The records of the running session. -/
structure Records (s : Mem) : Prop where
  list : ∀ t, (s.tls t).cpVersion = s.cpVersion → ∀ j, j < (s.tls t).count → EntryOk s t ((s.tls t).list j)
  distinct : ∀ t, (s.tls t).cpVersion = s.cpVersion → Distinct (s.tls t)
  slot : ∀ i, Current s i → ∃ m, SlotOwn s i m

/-- The thread holds the mutex and nothing of this session is recorded of it. -/
structure Fresh (s : Mem) (t : Thread) (m : Addr) : Prop where
  owner : (s.mutexes m).owner = some t
  list : ∀ u, (s.tls u).cpVersion = s.cpVersion → ¬ Live (s.tls u) m
  slot : ∀ i, Current s i → ¬ SlotOwn s i m

structure VersionInv (s : Mem) : Prop where
  lists : ∀ t, (s.tls t).cpVersion ≤ s.cpVersion
  held : ∀ m t, (s.mutexes m).owner = some t → 1 ≤ (s.mutexes m).count
  records : s.cp = true → Records s
  log : ∀ x ∈ s.log, SubmitsOwn x

theorem Records.live_owner {s : Mem} {t : Thread} {m : Addr} (h : Records s) (hv : (s.tls t).cpVersion = s.cpVersion)
    (hl : Live (s.tls t) m) : (s.mutexes m).owner = some t := by
  obtain ⟨j, hj, rfl⟩ := hl
  exact (h.list t hv j hj).1

/-! ## What a change of one part keeps -/

theorem EntryOk.of_eq {s s' : Mem} {t : Thread} {e : MutexAndContentionSite} (h : EntryOk s t e)
    (hm : s'.mutexes e.mutex = s.mutexes e.mutex) (hv : s'.cpVersion = s.cpVersion) : EntryOk s' t e := by
  unfold EntryOk OwnSite at *
  rw [hm, hv]
  exact h

theorem Records.setTls {s : Mem} {t : Thread} {g : TLSPthreadContentionSites} (h : Records s)
    (hl : g.cpVersion = s.cpVersion → ∀ j, j < g.count → EntryOk s t (g.list j))
    (hd : g.cpVersion = s.cpVersion → Distinct g)
    (hs : ∀ i m, Current s i → SlotOwn s i m → (s.map i).filler = t → g.cpVersion = s.cpVersion ∧ ¬ Live g m) :
    Records (s.setTls t g) where
  list := by
    intro u hv j hj
    rw [Mem.setTls_tls] at hv hj ⊢
    split at hv
    · rename_i hu
      subst hu
      rw [if_pos rfl] at hj ⊢
      exact hl hv j hj
    · rename_i hu
      rw [if_neg hu] at hj ⊢
      exact h.list u hv j hj
  distinct := by
    intro u hv
    rw [Mem.setTls_tls] at hv ⊢
    split at hv
    · rename_i hu
      rw [if_pos hu]
      exact hd hv
    · rename_i hu
      rw [if_neg hu]
      exact h.distinct u hv
  slot := by
    intro i hi
    obtain ⟨m, hm⟩ := h.slot i hi
    refine ⟨m, hm.1, hm.2.1, hm.2.2.1, hm.2.2.2.1, ?_, ?_, hm.2.2.2.2.2.2⟩
    · rw [Mem.setTls_map, Mem.setTls_tls]
      split
      · rename_i hu; exact (hs i m hi hm hu).1
      · exact hm.2.2.2.2.1
    · rw [Mem.setTls_map, Mem.setTls_tls]
      split
      · rename_i hu; exact (hs i m hi hm hu).2
      · exact hm.2.2.2.2.2.1

theorem Records.refresh {s : Mem} {t : Thread} (h : Records s) :
    Records (s.setTls t ((s.tls t).refresh s.cpVersion)) := by
  by_cases hv : (s.tls t).cpVersion = s.cpVersion
  · rw [TLSPthreadContentionSites.refresh, if_neg (not_not.2 hv), Mem.setTls, Function.update_eq_self]
    exact h
  · rw [TLSPthreadContentionSites.refresh, if_pos hv]
    refine h.setTls (fun _ j hj => absurd hj (Nat.not_lt_zero j)) (fun _ i j hi => absurd hi (Nat.not_lt_zero i))
      (fun i m _ hm hf => absurd (hf ▸ hm.2.2.2.2.1) hv)

theorem Records.of_mutexes {s s' : Mem} (h : Records s) (htls : s'.tls = s.tls) (hmap : s'.map = s.map)
    (hver : s'.cpVersion = s.cpVersion)
    (hlist : ∀ t, (s.tls t).cpVersion = s.cpVersion → ∀ j, j < (s.tls t).count → EntryOk s' t ((s.tls t).list j))
    (hslot : ∀ i m, Current s i → SlotOwn s i m → (s'.mutexes m).owner = some (s.map i).filler ∧
      ((s'.mutexes m).count = 1 → OwnSite s' (s.map i).filler m (s.map i).csite)) : Records s' where
  list := by rw [htls, hver]; exact hlist
  distinct := by rw [htls, hver]; exact h.distinct
  slot := by
    intro i hi
    unfold Current at hi
    rw [hmap, hver] at hi
    obtain ⟨m, hm⟩ := h.slot i hi
    refine ⟨m, ?_⟩
    unfold SlotOwn
    rw [hmap, hver, htls]
    exact ⟨hm.1, hm.2.1, hm.2.2.1, (hslot i m hi hm).1, hm.2.2.2.2.1, hm.2.2.2.2.2.1, (hslot i m hi hm).2⟩

theorem Records.acquire {recursive : Addr → Bool} {s : Mem} {t : Thread} {m : Addr} {b : Bool} {r : U64}
    (h : Records s) (held : ∀ m t, (s.mutexes m).owner = some t → 1 ≤ (s.mutexes m).count)
    (hb : s.busy recursive t m = false) : Records (s.acquire t m b r) := by
  -- a record of the mutex is the caller's own, who now holds it twice
  have relock : ∀ u, (s.mutexes m).owner = some u →
      ((s.acquire t m b r).mutexes m).owner = some u ∧ ((s.acquire t m b r).mutexes m).count ≠ 1 := by
    intro u hu
    have hc := held m u hu
    rcases Mem.owner_of_not_busy hb with ho | ho
    · rw [ho] at hu; cases hu
    · rw [ho] at hu
      cases hu
      rw [Mem.acquire_mutexes, if_pos rfl]
      exact ⟨rfl, by simp only; omega⟩
  refine h.of_mutexes rfl rfl rfl (fun u hv j hj => ?_) (fun i n hi hn => ?_)
  · have he := h.list u hv j hj
    by_cases hm : ((s.tls u).list j).mutex = m
    · rw [EntryOk, hm]
      have := relock u (hm ▸ he.1)
      exact ⟨this.1, fun _ hc => absurd hc this.2⟩
    · exact he.of_eq (acquire_mutexes_of_ne hm) rfl
  · by_cases hm : n = m
    · subst hm
      have := relock _ hn.2.2.2.1
      exact ⟨this.1, fun hc => absurd hc this.2⟩
    · unfold OwnSite
      rw [acquire_mutexes_of_ne hm]
      exact ⟨hn.2.2.2.1, hn.2.2.2.2.2.2⟩

theorem Fresh.acquire {s : Mem} {t : Thread} {m : Addr} {b : Bool} {r : U64} (h : Records s)
    (ho : (s.mutexes m).owner = none) : Fresh (s.acquire t m b r) t m where
  owner := by rw [Mem.acquire_owner, if_pos rfl]
  list := by
    intro u hv hl
    rw [h.live_owner hv hl] at ho
    cases ho
  slot := by
    intro i hi hn
    obtain ⟨n, hm⟩ := h.slot i hi
    have := versioned_inj hm.1 hn.1 (hm.2.2.1.symm.trans hn.2.2.1)
    subst this
    rw [hm.2.2.2.1] at ho
    cases ho

theorem Records.of_fresh {s s' : Mem} {t : Thread} {m : Addr} (h : Records s) (hf : Fresh s t m) (htls : s'.tls = s.tls)
    (hmap : s'.map = s.map) (hver : s'.cpVersion = s.cpVersion) (hm : ∀ n, n ≠ m → s'.mutexes n = s.mutexes n) :
    Records s' := by
  refine h.of_mutexes htls hmap hver (fun u hv j hj => ?_) (fun i n hi hn => ?_)
  · refine (h.list u hv j hj).of_eq (hm _ (fun he => ?_)) hver
    exact hf.list u hv ⟨j, hj, he⟩
  · have hne : n ≠ m := by rintro rfl; exact hf.slot i hi hn
    unfold OwnSite
    rw [hm n hne, hver]
    exact ⟨hn.2.2.2.1, hn.2.2.2.2.2.2⟩

/-! ## The lock hook -/

theorem appended_cpVersion (s : Mem) (t : Thread) (m : Addr) (r : U64) :
    (appended s t m r).1.cpVersion = s.cpVersion := by
  rcases TLSPthreadContentionSites.append_cases ((s.tls t).refresh s.cpVersion) m r with h | h
  · exact h.2.2.1.trans (TLSPthreadContentionSites.refresh_cpVersion _ _)
  · rw [appended, h.2.1]
    exact TLSPthreadContentionSites.refresh_cpVersion _ _

theorem LockResult.lists {recursive : Addr → Bool} {s s' : Mem} {t : Thread} {m : Addr} {i : LockInput}
    (h : LockResult recursive s t m i s') (hl : ∀ u, (s.tls u).cpVersion ≤ s.cpVersion) (u : Thread) :
    (s'.tls u).cpVersion ≤ s.cpVersion := by
  have happ : ((s.setTls t (appended s t m i.range).1).tls u).cpVersion ≤ s.cpVersion := by
    rw [Mem.setTls_tls]
    split
    · rw [appended_cpVersion]
    · exact hl u
  cases h with
  | failed => exact hl u
  | acquired => exact hl u
  | failedBusy => exact happ
  | unsampled => exact happ
  | listed =>
    refine le_trans (le_of_eq ?_) happ
    rw [Mem.fillTls, Mem.setTls_tls, Mem.setTls_tls]
    split
    · subst u
      simp [TLSPthreadContentionSites.setSite, Mem.setTls_tls]
    · simp only [Mem.setAcq_tls, Mem.acquire_tls, Mem.setTls_tls]
      rw [if_neg ‹_›]
  | unrecorded => exact happ
  | mapped => exact happ

theorem held_acquire {s : Mem} (h : ∀ m t, (s.mutexes m).owner = some t → 1 ≤ (s.mutexes m).count) {t : Thread}
    {m : Addr} {b : Bool} {r : U64} (n : Addr) (u : Thread)
    (ho : ((s.acquire t m b r).mutexes n).owner = some u) : 1 ≤ ((s.acquire t m b r).mutexes n).count := by
  rw [Mem.acquire_mutexes] at ho ⊢
  split
  · exact Nat.le_add_left _ _
  · rename_i hn
    rw [if_neg hn] at ho
    exact h n u ho

theorem LockResult.held {recursive : Addr → Bool} {s s' : Mem} {t : Thread} {m : Addr} {i : LockInput}
    (h : LockResult recursive s t m i s') (hh : ∀ m t, (s.mutexes m).owner = some t → 1 ≤ (s.mutexes m).count)
    (n : Addr) (u : Thread) (ho : (s'.mutexes n).owner = some u) : 1 ≤ (s'.mutexes n).count := by
  cases h with
  | failed => exact hh n u ho
  | acquired => exact held_acquire hh n u ho
  | failedBusy => exact hh n u ho
  | unsampled => exact held_acquire hh n u ho
  | listed =>
    simp only [fillTls_owner] at ho
    simp only [Mem.fillTls, Mem.setTls_mutexes, Mem.setAcq_count]
    exact held_acquire hh n u ho
  | unrecorded => exact held_acquire hh n u ho
  | mapped =>
    simp only [recordInMap, fillRange_mutexes, fillDuration_owner, claim_owner] at ho
    simp only [recordInMap, fillRange_mutexes, Mem.fillDuration, Mem.claim, Mem.setSlot_mutexes, Mem.setAcq_count]
    exact held_acquire hh n u ho

theorem Records.append {s : Mem} {t : Thread} {m : Addr} {g : TLSPthreadContentionSites} (h : Records s)
    (hf : Fresh s t m) (hv : (s.tls t).cpVersion = s.cpVersion) (hgv : g.cpVersion = s.cpVersion)
    (hc : g.count = (s.tls t).count + 1) (hl : ∀ j, j < (s.tls t).count → g.list j = (s.tls t).list j)
    (hm : (g.list (s.tls t).count).mutex = m) (he : EntryOk s t (g.list (s.tls t).count)) :
    Records (s.setTls t g) := by
  have hlt : ∀ {j}, j < g.count → j < (s.tls t).count ∨ j = (s.tls t).count := fun hj => by
    rw [hc] at hj; exact Nat.lt_succ_iff_lt_or_eq.1 hj
  refine h.setTls (fun _ j hj => ?_) (fun _ i j hi hj hij => ?_) (fun i n hi hn hfl => ⟨hgv, ?_⟩)
  · rcases hlt hj with hj | rfl
    · rw [hl j hj]; exact h.list t hv j hj
    · exact he
  · rcases hlt hi with hi | rfl <;> rcases hlt hj with hj | rfl
    · rw [hl i hi, hl j hj] at hij
      exact h.distinct t hv i j hi hj hij
    · rw [hl i hi, hm] at hij
      exact absurd ⟨i, hi, hij⟩ (hf.list t hv)
    · rw [hl j hj, hm] at hij
      exact absurd ⟨j, hj, hij.symm⟩ (hf.list t hv)
    · rfl
  · rintro ⟨j, hj, rfl⟩
    rcases hlt hj with hj | rfl
    · have hlive := hn.2.2.2.2.2.1
      rw [hfl, hl j hj] at hlive
      exact hlive ⟨j, hj, rfl⟩
    · rw [hm] at hn
      exact hf.slot i hi hn

theorem setTls_setTls (s : Mem) (t : Thread) (f g : TLSPthreadContentionSites) :
    (s.setTls t f).setTls t g = s.setTls t g := by
  simp [Mem.setTls]

theorem fillTls_setTls (s : Mem) (t : Thread) (m : Addr) (k : Nat) (r w : U64) (g : TLSPthreadContentionSites) :
    (s.setTls t g).fillTls t m k r w =
      (s.setAcq m { (s.mutexes m).acq with wait := w, place := .tls }).setTls t
        (g.setSite k ⟨w, r, some { (s.mutexes m).acq with wait := w, place := .tls }⟩) := by
  have hg : (s.setTls t g).tls t = g := by rw [Mem.setTls_tls, if_pos rfl]
  rw [Mem.fillTls, hg]
  exact setTls_setTls (s.setAcq m _) t g _

theorem Fresh.refresh {s : Mem} {t : Thread} {m : Addr} (h : Records s) (hf : Fresh s t m) :
    Fresh (s.setTls t ((s.tls t).refresh s.cpVersion)) t m where
  owner := hf.owner
  list := by
    intro u hv hl
    rw [Mem.setTls_tls] at hv hl
    split at hl
    · rename_i hu
      rw [TLSPthreadContentionSites.refresh] at hl
      split at hl
      · obtain ⟨j, hj, -⟩ := hl
        exact Nat.not_lt_zero j hj
      · rename_i hv'
        exact hf.list t (not_not.1 hv') hl
    · rename_i hu
      rw [if_neg hu] at hv
      exact hf.list u hv hl
  slot := by
    intro i hi hn
    obtain ⟨n, hm⟩ := h.slot i hi
    have := versioned_inj hm.1 hn.1 (hm.2.2.1.symm.trans hn.2.2.1)
    subst this
    exact hf.slot i hi hm

theorem Fresh.setAcq {s : Mem} {t : Thread} {m : Addr} {a : Acq} (h : Records s) (hf : Fresh s t m) :
    Fresh (s.setAcq m a) t m where
  owner := by rw [Mem.setAcq_owner]; exact hf.owner
  list := hf.list
  slot := by
    intro i hi hn
    obtain ⟨n, hm⟩ := h.slot i hi
    have := versioned_inj hm.1 hn.1 (hm.2.2.1.symm.trans hn.2.2.1)
    subst this
    exact hf.slot i hi hm

/-- The record of a mutex that has none goes to its slot. -/
theorem Records.mapped {s : Mem} {t : Thread} {m : Addr} {r w : U64} (h : Records s) (hf : Fresh s t m)
    (hm : ValidAddr m) (hv : (s.tls t).cpVersion = s.cpVersion) (ha : (s.mutexes m).acq.contended = true ∧
      (s.mutexes m).acq.version = s.cpVersion ∧ (s.mutexes m).acq.thread = t) : Records (recordInMap s t m r w) := by
  have hmut : ∀ n, n ≠ m → (recordInMap s t m r w).mutexes n = s.mutexes n := by
    intro n hn
    simp [recordInMap, Mem.fillDuration, Mem.claim, Mem.setAcq_mutexes, hn]
  have hmap : ∀ i, i ≠ mapIndex m → (recordInMap s t m r w).map i = s.map i := by
    intro i hi
    simp [recordInMap, Mem.fillRange, Mem.fillDuration, Mem.claim, Mem.setSlot_map, hi]
  have hslot : ((recordInMap s t m r w).map (mapIndex m)).versionedMutex = versioned s.cpVersion m ∧
      ((recordInMap s t m r w).map (mapIndex m)).filler = t ∧
      ((recordInMap s t m r w).map (mapIndex m)).csite.acq = some ((recordInMap s t m r w).mutexes m).acq ∧
      ((recordInMap s t m r w).mutexes m).owner = (s.mutexes m).owner ∧
      ((recordInMap s t m r w).mutexes m).acq = { (s.mutexes m).acq with place := .map, wait := w } := by
    simp [recordInMap, Mem.fillRange, Mem.fillDuration, Mem.claim, Mem.setSlot_map, Mem.setAcq_mutexes]
  obtain ⟨hw, hfl, hcs, how, hacq⟩ := hslot
  constructor
  case list =>
    intro u hu j hj
    refine EntryOk.of_eq (h.list u hu j hj) (hmut _ (fun he => ?_)) rfl
    exact hf.list u hu ⟨j, hj, he⟩
  case distinct => exact h.distinct
  case slot =>
    intro i hi
    by_cases him : i = mapIndex m
    · subst him
      refine ⟨m, hm, rfl, hw, ?_, ?_, ?_, fun _ => ?_⟩
      · rw [how, hfl]; exact hf.owner
      · rw [hfl]; exact hv
      · rw [hfl]; exact hf.list t hv
      · rw [hfl]
        exact ⟨hcs, by rw [hacq]; exact ha⟩
    · have hi' : Current s i := by unfold Current at hi ⊢; rw [hmap i him] at hi; exact hi
      obtain ⟨n, hn⟩ := h.slot i hi'
      have hne : n ≠ m := by rintro rfl; exact hf.slot i hi' hn
      refine ⟨n, ?_⟩
      unfold SlotOwn OwnSite
      rw [hmap i him, hmut n hne]
      exact hn

/-- A free mutex after the real lock, with the thread's list of this session. -/
def contended (s : Mem) (t : Thread) (m : Addr) (r : U64) : Mem :=
  (s.acquire t m true r).setTls t ((s.tls t).refresh s.cpVersion)

theorem contended_tls (s : Mem) (t : Thread) (m : Addr) (r : U64) :
    (contended s t m r).tls t = (s.tls t).refresh s.cpVersion := by
  rw [contended, Mem.setTls_tls, if_pos rfl]

theorem Records.contended {s : Mem} {t : Thread} {m : Addr} {r : U64} (h : Records s)
    (held : ∀ m t, (s.mutexes m).owner = some t → 1 ≤ (s.mutexes m).count) (ho : (s.mutexes m).owner = none) :
    Records (contended s t m r) ∧ Fresh (Hook.contended s t m r) t m := by
  have hb : s.busy (fun _ => false) t m = false := by simp [Mem.busy, ho]
  exact ⟨(h.acquire held hb).refresh, (Fresh.acquire h ho).refresh (h.acquire held hb)⟩

theorem appended_setTls (s : Mem) (t : Thread) (m : Addr) (r : U64) (g : TLSPthreadContentionSites) :
    (s.setTls t g).acquire t m true r = (contended s t m r).setTls t g :=
  (setTls_setTls (s.acquire t m true r) t _ g).symm

theorem LockResult.records {recursive : Addr → Bool} {s s' : Mem} {t : Thread} {m : Addr} {i : LockInput}
    (h : LockResult recursive s t m i s') (hr : Records s)
    (held : ∀ m t, (s.mutexes m).owner = some t → 1 ≤ (s.mutexes m).count) (hm : ValidAddr m)
    (hfull : i.busy = true → i.res ≠ 0 → ((s.tls t).refresh s.cpVersion).count = tlsMaxCount) : Records s' := by
  have hver := TLSPthreadContentionSites.refresh_cpVersion (s.tls t) s.cpVersion
  have happ := TLSPthreadContentionSites.append_cases ((s.tls t).refresh s.cpVersion) m i.range
  rw [← appended] at happ
  cases h with
  | failed => exact hr
  | acquired hb => exact hr.acquire held hb
  | failedBusy hcp hb hres =>
    rcases happ with ⟨-, hc, -⟩ | ⟨-, hg, -⟩
    · have hle := (appended s t m i.range).1.count_le
      rw [hc, hfull hb hres] at hle
      exact absurd hle (by decide)
    · rw [hg]; exact hr.refresh
  | unsampled hcp ho hz =>
    obtain ⟨hrec, hf⟩ := hr.contended (t := t) (r := i.range) held ho
    rw [appended_setTls]
    rcases happ with ⟨-, hc, hcv, hn, hz', hl⟩ | ⟨-, hg, -⟩
    · rw [← contended_tls s t m i.range] at hc hn hz' hl hcv hver
      refine hrec.append hf hver (hcv.trans hver) hc (fun j hj => hl j (Nat.ne_of_lt hj)) hn ?_
      refine ⟨by rw [hn]; exact hf.owner, fun hvalid => ?_⟩
      rw [isContentionSiteValid, hz' hz] at hvalid
      cases hvalid
    · rw [hg, contended, setTls_setTls]
      exact hrec
  | @listed k hcp ho hz hk =>
    obtain ⟨hrec, hf⟩ := hr.contended (t := t) (r := i.range) held ho
    rw [appended_setTls]
    rcases happ with ⟨hk', hc, hcv, hn, -, hl⟩ | ⟨hk', -⟩
    · rw [hk] at hk'
      cases hk'
      rw [fillTls_setTls]
      have ha : ((contended s t m i.range).mutexes m).acq = ⟨s.nacq, t, s.cpVersion, true, i.range, 0, .nowhere⟩ := by
        rw [contended, Mem.setTls_mutexes, Mem.acquire_mutexes, if_pos rfl]
      rw [← contended_tls s t m i.range] at hc hn hl hcv hver ⊢
      refine Records.append (hrec.of_fresh hf rfl rfl rfl (fun n hn => setAcq_mutexes_of_ne hn)) (hf.setAcq hrec) hver
        (hcv.trans hver) hc (fun j hj => ?_) ?_ ⟨?_, fun _ _ => ?_⟩
      · have hj : j < ((contended s t m i.range).tls t).count := hj
        simpa [TLSPthreadContentionSites.setSite, Nat.ne_of_lt hj] using hl j (Nat.ne_of_lt hj)
      · simpa [TLSPthreadContentionSites.setSite] using hn
      · simpa [TLSPthreadContentionSites.setSite, hn] using hf.owner
      · rw [ha]
        have hcp : (contended s t m i.range).cpVersion = s.cpVersion := rfl
        simp [OwnSite, TLSPthreadContentionSites.setSite, hn, Mem.setAcq_mutexes, hcp]
    · rw [hk] at hk'; cases hk'
  | unrecorded hcp ho hz hk =>
    obtain ⟨hrec, -⟩ := hr.contended (t := t) (r := i.range) held ho
    rcases happ with ⟨hk', -⟩ | ⟨-, hg, -⟩
    · rw [hk] at hk'; cases hk'
    · rw [appended_setTls, hg, contended, setTls_setTls]
      exact hrec
  | mapped hcp ho hz hk htk =>
    obtain ⟨hrec, hf⟩ := hr.contended (t := t) (r := i.range) held ho
    rcases happ with ⟨hk', -⟩ | ⟨-, hg, -⟩
    · rw [hk] at hk'; cases hk'
    · rw [appended_setTls, hg, contended, setTls_setTls]
      refine hrec.mapped hf hm (by rw [contended_tls]; exact hver) ?_
      rw [contended, Mem.setTls_mutexes, Mem.acquire_mutexes, if_pos rfl]
      exact ⟨rfl, rfl, rfl⟩

/-! ## The unlock hook -/

theorem Records.release {s : Mem} {t : Thread} {m : Addr} (h : Records s) (hf : Fresh s t m) : Records (s.release m) :=
  h.of_fresh hf rfl rfl rfl (fun _ hn => release_mutexes_of_ne hn)

theorem Records.realUnlock {s : Mem} {t : Thread} {m : Addr} (h : Records s)
    (hf : (s.mutexes m).owner = some t → Fresh s t m) : Records (realUnlock s t m) := by
  unfold Hook.realUnlock
  split
  · exact h.release (hf ‹_›)
  · exact h

theorem held_realUnlock {s : Mem} (h : ∀ m t, (s.mutexes m).owner = some t → 1 ≤ (s.mutexes m).count) {t : Thread}
    {m : Addr} (n : Addr) (u : Thread) (ho : ((realUnlock s t m).mutexes n).owner = some u) :
    1 ≤ ((realUnlock s t m).mutexes n).count := by
  unfold realUnlock at ho ⊢
  split at ho
  · rename_i hm
    rw [if_pos hm]
    rw [Mem.release_mutexes] at ho ⊢
    split at ho
    · rename_i hn
      rw [if_pos hn]
      simp only at ho ⊢
      split at ho
      · cases ho
      · omega
    · rename_i hn
      rw [if_neg hn]
      exact h n u ho
  · rename_i hm
    rw [if_neg hm]
    exact h n u ho

theorem Fresh.of_list_removed {s : Mem} {t : Thread} {m : Addr} {k : Nat} (h : Records s)
    (hk : (s.tls t).find m = some k) (ho : (s.mutexes m).owner = some t) :
    Fresh (s.setTls t ((s.tls t).remove k)) t m := by
  obtain ⟨hkc, hkm⟩ := TLSPthreadContentionSites.find_some hk
  constructor
  case owner => exact ho
  case list =>
    intro u hv hl
    rw [Mem.setTls_tls] at hv hl
    split at hl
    · rename_i hu
      subst hu
      rw [if_pos rfl] at hv
      obtain ⟨j, hj, hjm⟩ := hl
      obtain ⟨i, hi, hik, he, -, -⟩ := TLSPthreadContentionSites.remove_list hkc hj
      rw [he] at hjm
      exact hik (h.distinct u hv i k hi hkc (hjm.trans hkm.symm))
    · rename_i hu
      rw [if_neg hu] at hv
      have := h.live_owner hv hl
      rw [ho] at this
      cases this
      exact hu rfl
  case slot =>
    -- a slot of this session has no entry beside it
    intro i hi hn
    obtain ⟨n, hm⟩ := h.slot i hi
    have := versioned_inj hm.1 hn.1 (hm.2.2.1.symm.trans hn.2.2.1)
    subst this
    have hfl : (s.map i).filler = t := by
      have := hm.2.2.2.1
      rw [ho] at this
      cases this
      rfl
    rw [SlotOwn, hfl] at hm
    exact hm.2.2.2.2.2.1 ⟨k, hkc, hkm⟩

theorem Records.list_removed {s : Mem} {t : Thread} {m : Addr} {k : Nat} (h : Records s)
    (hk : (s.tls t).find m = some k) : Records (s.setTls t ((s.tls t).remove k)) := by
  obtain ⟨hkc, -⟩ := TLSPthreadContentionSites.find_some hk
  refine h.setTls (fun hv j hj => ?_) (fun hv i j hi hj hij => ?_) (fun i n hi hn hfl => ⟨?_, ?_⟩)
  · obtain ⟨i, hi, -, he, -, -⟩ := TLSPthreadContentionSites.remove_list hkc hj
    rw [he]
    exact h.list t hv i hi
  · obtain ⟨i', hi', hik, hei, hi1, hi2⟩ := TLSPthreadContentionSites.remove_list hkc hi
    obtain ⟨j', hj', hjk, hej, hj1, hj2⟩ := TLSPthreadContentionSites.remove_list hkc hj
    rw [hei, hej] at hij
    have := h.distinct t hv i' j' hi' hj' hij
    have hcnt : ((s.tls t).remove k).count = (s.tls t).count - 1 := rfl
    rw [hcnt] at hi hj
    by_cases h1 : i = k <;> by_cases h2 : j = k
    · rw [h1, h2]
    · have := hi1 h1; have := hj2 h2; omega
    · have := hi2 h1; have := hj1 h2; omega
    · have := hi2 h1; have := hj2 h2; omega
  · exact hfl ▸ hn.2.2.2.2.1
  · rintro ⟨j, hj, rfl⟩
    obtain ⟨i', hi', -, he, -, -⟩ := TLSPthreadContentionSites.remove_list hkc hj
    have hlive := hn.2.2.2.2.2.1
    rw [hfl, he] at hlive
    exact hlive ⟨i', hi', rfl⟩

/-- An owner whose list has no entry for the mutex, and no slot names it. -/
theorem Fresh.of_missing {s : Mem} {t : Thread} {m : Addr} (h : Records s) (hk : (s.tls t).find m = none)
    (ho : (s.mutexes m).owner = some t) (hs : ∀ i, Current s i → ¬ SlotOwn s i m) : Fresh s t m where
  owner := ho
  list := by
    intro u hv hl
    have := h.live_owner hv hl
    rw [ho] at this
    cases this
    exact TLSPthreadContentionSites.find_none hk hl
  slot := hs

theorem Records.slot_removed {s : Mem} {m : Addr} (h : Records s) : Records ((s.invalidate m).clear m) := by
  have hmap : ∀ i, i ≠ mapIndex m → ((s.invalidate m).clear m).map i = s.map i := by
    intro i hi
    simp [Mem.clear, Mem.invalidate, Mem.setSlot_map, hi]
  constructor
  case list => exact h.list
  case distinct => exact h.distinct
  case slot =>
    intro i hi
    by_cases him : i = mapIndex m
    · subst him
      exact absurd (by simp [Mem.clear, Mem.setSlot_map]) hi.1
    · have hi' : Current s i := by unfold Current at hi ⊢; rw [hmap i him] at hi; exact hi
      obtain ⟨n, hn⟩ := h.slot i hi'
      refine ⟨n, ?_⟩
      unfold SlotOwn OwnSite
      rw [hmap i him]
      exact hn

theorem Fresh.of_slot_removed {s : Mem} {t : Thread} {m : Addr} (h : Records s) (hk : (s.tls t).find m = none)
    (ho : (s.mutexes m).owner = some t) : Fresh ((s.invalidate m).clear m) t m := by
  refine Fresh.of_missing h.slot_removed hk ho (fun i hi hn => ?_)
  refine hi.1 ?_
  rw [← hn.2.1]
  simp [Mem.clear, Mem.setSlot_map]

/-- The slot the hook found, of this session, is the caller's record. -/
theorem Records.slot_found {s : Mem} {t : Thread} {m : Addr} (h : Records s) (hm : ValidAddr m)
    (hn : namesMutex (s.map (mapIndex m)).versionedMutex m = true)
    (hv : slotVersion (s.map (mapIndex m)).versionedMutex = versionBits s.cpVersion) (ho : HeldOnce s t m) :
    OwnSite s t m (s.map (mapIndex m)).csite := by
  obtain ⟨n, hs⟩ := h.slot _ ⟨ne_zero_of_namesMutex hm hn, hv⟩
  rw [hs.2.2.1] at hn
  have := namesMutex_unique hn (namesMutex_versioned _ hs.1)
  subst this
  have hfl := hs.2.2.2.1
  rw [ho.1] at hfl
  cases hfl
  exact hs.2.2.2.2.2.2 ho.2

/-- What an unlock logs, when the site it saved is its own or none is submitted. -/
theorem submitsOwn_finish {s s₁ : Mem} {t : Thread} {m : Addr} {saved : Site} {startNs endNs : U64}
    (hlog : ∀ x ∈ s.log, SubmitsOwn x) (h1 : s₁.log = s.log) (hown : startNs ≠ 0 → OwnSite s₁ t m saved) :
    ∀ x ∈ (finishUnlock s₁ t m saved startNs endNs).log, SubmitsOwn x := by
  intro x hx
  have hl : (realUnlock s₁ t m).log = s.log := by unfold realUnlock; split <;> exact h1
  rw [finishUnlock, Mem.logUnlocked_log, hl] at hx
  rcases List.mem_cons.1 hx with rfl | hx
  · intro cs hcs
    simp only at hcs
    split at hcs
    · cases hcs
    · rename_i hns
      cases hcs
      exact hown hns
  · exact hlog x hx

theorem finishUnlock_tls (s : Mem) (t : Thread) (m : Addr) (saved : Site) (a b : U64) :
    (finishUnlock s t m saved a b).tls = s.tls := by
  unfold finishUnlock realUnlock
  dsimp only
  split <;> rfl

theorem finishUnlock_cp (s : Mem) (t : Thread) (m : Addr) (saved : Site) (a b : U64) :
    (finishUnlock s t m saved a b).cp = s.cp ∧ (finishUnlock s t m saved a b).cpVersion = s.cpVersion := by
  unfold finishUnlock realUnlock
  dsimp only
  split <;> exact ⟨rfl, rfl⟩

/-- One unlock, from the state with the record removed. -/
theorem VersionInv.finish {s s₁ : Mem} {t : Thread} {m : Addr} {saved : Site} {startNs endNs : U64} (h : VersionInv s)
    (hlog : s₁.log = s.log) (hcp : s₁.cp = s.cp) (hver : s₁.cpVersion = s.cpVersion) (hmut : s₁.mutexes = s.mutexes)
    (hlists : ∀ u, (s₁.tls u).cpVersion = (s.tls u).cpVersion) (hrec : s.cp = true → Records s₁)
    (hf : s.cp = true → (s₁.mutexes m).owner = some t → Fresh s₁ t m) (hown : startNs ≠ 0 → OwnSite s₁ t m saved) :
    VersionInv (finishUnlock s₁ t m saved startNs endNs) where
  lists := by
    intro u
    rw [finishUnlock_tls, (finishUnlock_cp ..).2, hver, hlists]
    exact h.lists u
  held := held_realUnlock (s := s₁) (by rw [hmut]; exact h.held)
  records := by
    intro hon
    rw [(finishUnlock_cp ..).1, hcp] at hon
    have := (hrec hon).realUnlock (hf hon)
    exact ⟨this.list, this.distinct, this.slot⟩
  log := submitsOwn_finish h.log hlog hown

theorem VersionInv.unlock {s s' : Mem} {t : Thread} {m : Addr} {i : UnlockInput} (h : VersionInv s)
    (hok : VersionsAgree s (.unlock t m i)) (hu : UnlockResult s t m i s') : VersionInv s' := by
  obtain ⟨hm, hok⟩ := hok
  have hlists : ∀ k u, ((s.setTls t ((s.tls t).remove k)).tls u).cpVersion = (s.tls u).cpVersion := by
    intro k u
    rw [Mem.setTls_tls]
    split
    · rename_i hu; rw [hu]; rfl
    · rfl
  cases hu with
  | off hcp =>
    have hoff : s.cp ≠ true := by rw [hcp]; decide
    exact h.finish rfl rfl rfl rfl (fun _ => rfl) (fun hon => absurd hon hoff) (fun hon => absurd hon hoff)
      (fun hz => absurd rfl hz)
  | @listed k hcp hk hv =>
    have hrec := h.records hcp
    refine h.finish rfl rfl rfl rfl (hlists k) (fun _ => hrec.list_removed hk)
      (fun _ ho => Fresh.of_list_removed hrec hk ho) (fun _ => ?_)
    obtain ⟨hver, ho⟩ := (hok hcp).1 k hk hv
    obtain ⟨hkc, hkm⟩ := TLSPthreadContentionSites.find_some hk
    have he := hrec.list t hver k hkc
    rw [EntryOk, hkm] at he
    exact he.2 hv ho.2
  | @listedInvalid k hcp hk hv =>
    have hrec := h.records hcp
    exact h.finish rfl rfl rfl rfl (hlists k) (fun _ => hrec.list_removed hk)
      (fun _ ho => Fresh.of_list_removed hrec hk ho) (fun hz => absurd rfl hz)
  | mapped hcp hk hn =>
    have hrec := h.records hcp
    refine h.finish rfl rfl rfl rfl (fun _ => rfl) (fun _ => hrec.slot_removed)
      (fun _ ho => Fresh.of_slot_removed hrec hk ho) (fun _ => ?_)
    obtain ⟨hver, ho⟩ := (hok hcp).2 hk hn
    exact hrec.slot_found hm hn hver ho
  | missing hcp hk hn =>
    have hrec := h.records hcp
    refine h.finish rfl rfl rfl rfl (fun _ => rfl) (fun _ => hrec) (fun _ ho => ?_) (fun hz => absurd rfl hz)
    refine Fresh.of_missing hrec hk ho (fun i _ hs => ?_)
    rw [hs.2.1, hs.2.2.1, namesMutex_versioned _ hm] at hn
    cases hn

/-! ## Runs -/

theorem versionInv_step {recursive : Addr → Bool} {s s' : Mem} {c : Call} (h : VersionInv s) (hok : VersionsAgree s c)
    (hs : call recursive s c = some s') : VersionInv s' := by
  cases c with
  | start =>
    rw [call] at hs
    split at hs
    · cases hs
    cases hs
    have hlt : ∀ t, (s.tls t).cpVersion ≠ s.cpVersion + 1 := fun t => Nat.ne_of_lt (Nat.lt_succ_of_le (h.lists t))
    refine ⟨fun t => Nat.le_succ_of_le (h.lists t), h.held, fun _ => ?_, h.log⟩
    exact ⟨fun t hv => absurd hv (hlt t), fun t hv => absurd hv (hlt t), fun i hi => absurd hi.2 (hok i hi.1)⟩
  | stop =>
    rw [call] at hs
    split at hs
    · cases hs
      exact ⟨h.lists, h.held, nofun, h.log⟩
    · cases hs
  | lock t m i =>
    have hres := pthreadMutexLockImpl_cases hs
    obtain ⟨hlog, hcp, hver⟩ := hres.log
    refine ⟨fun u => by rw [hver]; exact hres.lists h.lists u, hres.held h.held, fun hon => ?_,
      by rw [hlog]; exact h.log⟩
    rw [hcp] at hon
    exact hres.records (h.records hon) h.held hok.1 (hok.2 hon)
  | unlock t m i =>
    cases hs
    exact h.unlock hok (pthreadMutexUnlockImpl_cases s t m i)

theorem versionInv_reachable {recursive : Addr → Bool} {s : Mem}
    (h : (callSystem recursive).ReachableVia VersionsAgree s) : VersionInv s := by
  refine System.ReachableVia.invariant (I := VersionInv) (fun s hs => ?_) (fun s c s' hi hok hst => ?_) h
  · cases hs
    exact ⟨fun _ => Nat.le_refl _, nofun, nofun, nofun⟩
  · exact versionInv_step hi hok hst

/-- **Every submitted site is the record of the thread's own latest acquisition of the mutex, contended and in the
running session**, in every run whose calls all meet `VersionsAgree`. -/
theorem submits_own_record {recursive : Addr → Bool} {s : Mem}
    (h : (callSystem recursive).ReachableVia VersionsAgree s) :
    ∀ x ∈ s.log, SubmitsOwn x :=
  (versionInv_reachable h).log

/-- Thread 1 locks mutex 8 with contention, the profiler stops, it unlocks; in the next session it locks mutex 8
without contention and unlocks. -/
def staleRun : List Call :=
  [.start, .lock 1 8 ⟨true, 16, 0, 1, 5⟩, .stop, .unlock 1 8 ⟨6, 7⟩, .start, .lock 1 8 ⟨false, 0, 0, 0, 0⟩,
    .unlock 1 8 ⟨8, 9⟩]

/-- **A session submits the record of an earlier one**, for an acquisition that met no contention. -/
theorem stale_record_submitted : ∃ s, (callSystem (fun _ => false)).Reachable s ∧ ∃ x ∈ s.log, ¬ SubmitsOwn x := by
  have hrun : ((callSystem (fun _ => false)).run initMem staleRun).map (fun s => s.log.any (fun x =>
      x.submitted.isSome && !x.acq.contended)) = some true := by decide
  obtain ⟨s, hs, hx⟩ := Option.map_eq_some_iff.1 hrun
  obtain ⟨x, hx, hc⟩ := List.any_eq_true.1 hx
  simp only [Bool.and_eq_true, Bool.not_eq_true', Option.isSome_iff_exists] at hc
  obtain ⟨⟨cs, hcs⟩, hct⟩ := hc
  refine ⟨s, System.Reachable.run (.init rfl) staleRun hs, x, hx, fun h => ?_⟩
  have := (h cs hcs).2.1
  rw [hct] at this
  cases this

/-- Thread 1 locks four mutexes with contention, the last one recorded in the map, and unlocks two of them. -/
def ownRun : List Call :=
  [.lock 1 101 ⟨true, 0, 0, 0, 0⟩, .lock 1 102 ⟨true, 32, 0, 2, 4⟩, .lock 1 103 ⟨true, 0, 0, 0, 0⟩,
    .lock 1 8 ⟨true, 16, 0, 1, 5⟩, .unlock 1 8 ⟨6, 7⟩, .unlock 1 102 ⟨8, 9⟩]

/-- A part of `VersionsAgree` that can be evaluated. -/
def agrees (s : Mem) : Call → Bool
  | .start        => false
  | .stop         => true
  | .lock _ m i   => decide (ValidAddr m) && i.res == 0
  | .unlock t m _ => decide (ValidAddr m) && (s.mutexes m).owner == some t && (s.mutexes m).count == 1 &&
      match (s.tls t).find m with
      | some _ => (s.tls t).cpVersion == s.cpVersion
      | none   => slotVersion (s.map (mapIndex m)).versionedMutex == versionBits s.cpVersion

theorem versionsAgree_of_agrees {s : Mem} {c : Call} (h : agrees s c = true) : VersionsAgree s c := by
  cases c with
  | start => cases h
  | stop => trivial
  | lock t m i =>
    simp only [agrees, Bool.and_eq_true, decide_eq_true_eq, beq_iff_eq] at h
    exact ⟨h.1, fun _ _ hr => absurd h.2 hr⟩
  | unlock t m i =>
    simp only [agrees, Bool.and_eq_true, decide_eq_true_eq, beq_iff_eq] at h
    obtain ⟨⟨⟨hm, ho⟩, hc⟩, hv⟩ := h
    refine ⟨hm, fun _ => ⟨fun k hk _ => ?_, fun hk _ => ?_⟩⟩
    · rw [hk] at hv
      exact ⟨beq_iff_eq.1 hv, ho, hc⟩
    · rw [hk] at hv
      exact ⟨beq_iff_eq.1 hv, ho, hc⟩

theorem submits_own_record_ownRun : ∃ s, (callSystem (fun _ => false)).ReachableVia VersionsAgree s ∧
    (∃ x ∈ s.log, x.submitted.isSome = true ∧ x.acq.place = .map) ∧ ∀ x ∈ s.log, SubmitsOwn x := by
  have hrun : ((callSystem (fun _ => false)).run { initMem with cp := true, cpVersion := 1 } ownRun).map (fun s =>
      s.log.any (fun x => x.submitted.isSome && x.acq.place == .map)) = some true := by decide
  have hok : System.RunOk (callSystem (fun _ => false)) (fun s c => agrees s c = true)
      { initMem with cp := true, cpVersion := 1 } ownRun := by decide
  obtain ⟨s, hs, hx⟩ := Option.map_eq_some_iff.1 hrun
  have hstart : (callSystem (fun _ => false)).ReachableVia VersionsAgree { initMem with cp := true, cpVersion := 1 } :=
    .step (.init rfl) (a := .start) (fun i h => absurd rfl h) rfl
  have hreach := hstart.run ownRun (System.RunOk.mono (fun _ _ h => versionsAgree_of_agrees h) hok) hs
  exact ⟨s, hreach, by simpa using hx, submits_own_record hreach⟩

end Hook
end ContentionProf
