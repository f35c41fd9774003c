import ContentionProf.HookStep
/-!
# HookCases — everything a step of the hooks can do

`Step` has one constructor for each branch of `hookStep`, guards included; `hookStep_cases` is the only place where the
step function is unfolded.
-/
namespace ContentionProf
namespace Hook

variable {recursive : Addr → Bool}

inductive Step (recursive : Addr → Bool) (s : State) : Label → State → Prop
  | start (h : s.mem.cp = false) :
      Step recursive s .start { s with mem := { s.mem with cp := true, cpVersion := s.mem.cpVersion + 1 } }
  | stop (h : s.mem.cp = true) : Step recursive s .stop { s with mem := { s.mem with cp := false } }
  | lockBypass {t : Thread} {m : Addr} (hpc : (s.ctl t).pc = .idle)
      (h : s.mem.cp = false ∨ (s.ctl t).inside = true) :
      Step recursive s (.lock t m) (s.setPc t (.bypassLock m) s.mem)
  | lockBusy {t : Thread} {m : Addr} (hpc : (s.ctl t).pc = .idle) (hcp : s.mem.cp = true)
      (hin : (s.ctl t).inside = false) (h : s.mem.busy recursive t m = true) :
      Step recursive s (.lock t m) (s.setCtl t { s.ctl t with pending := m :: (s.ctl t).pending } s.mem)
  | lockFree {t : Thread} {m : Addr} (hpc : (s.ctl t).pc = .idle) (hcp : s.mem.cp = true)
      (hin : (s.ctl t).inside = false) (h : s.mem.busy recursive t m = false) :
      Step recursive s (.lock t m) (s.setPc t .idle (s.mem.acquire t m false 0))
  | collected {t : Thread} {m : Addr} {ms : List Addr} {i : Input} (hpc : (s.ctl t).pc = .idle)
      (hin : (s.ctl t).inside = false) (hpd : (s.ctl t).pending = m :: ms) :
      Step recursive s (.go t i)
        (s.setCtl t
          { s.ctl t with
            pc := .waiting m i.range (((s.mem.tls t).refresh s.mem.cpVersion).append m i.range).2 i.nowNs
            pending := ms }
          (s.mem.setTls t (((s.mem.tls t).refresh s.mem.cpVersion).append m i.range).1))
  | bypassFail {t : Thread} {m : Addr} {i : Input} (hpc : (s.ctl t).pc = .bypassLock m) (hres : i.res ≠ 0) :
      Step recursive s (.go t i) (s.setPc t .idle s.mem)
  | bypassDone {t : Thread} {m : Addr} {i : Input} (hpc : (s.ctl t).pc = .bypassLock m) (hres : i.res = 0)
      (h : s.mem.busy recursive t m = false) :
      Step recursive s (.go t i)
        (s.setCtl t
          { s.ctl t with
            pc := .idle
            inner := if (s.ctl t).inside then m :: (s.ctl t).inner else (s.ctl t).inner }
          (s.mem.acquire t m false 0))
  | waitFail {t : Thread} {m : Addr} {r : U64} {k : Option Nat} {ns : U64} {i : Input}
      (hpc : (s.ctl t).pc = .waiting m r k ns) (hres : i.res ≠ 0) :
      Step recursive s (.go t i) (s.setPc t .idle s.mem)
  | waitUnsampled {t : Thread} {m : Addr} {k : Option Nat} {ns : U64} {i : Input}
      (hpc : (s.ctl t).pc = .waiting m 0 k ns) (hres : i.res = 0) (h : s.mem.busy recursive t m = false) :
      Step recursive s (.go t i) (s.setPc t .idle (s.mem.acquire t m true 0))
  | waitTls {t : Thread} {m : Addr} {r : U64} {k : Nat} {ns : U64} {i : Input}
      (hpc : (s.ctl t).pc = .waiting m r (some k) ns) (hres : i.res = 0) (h : s.mem.busy recursive t m = false)
      (hr : r ≠ 0) :
      Step recursive s (.go t i)
        (s.setPc t .idle ((s.mem.acquire t m true r).fillTls t m k r (i.nowNs - ns)))
  | waitMap {t : Thread} {m : Addr} {r : U64} {ns : U64} {i : Input} (hpc : (s.ctl t).pc = .waiting m r none ns)
      (hres : i.res = 0) (h : s.mem.busy recursive t m = false) (hr : r ≠ 0) :
      Step recursive s (.go t i) (s.setPc t (.addLoad m r ns) (s.mem.acquire t m true r))
  | addTake {t : Thread} {m : Addr} {r ns : U64} {i : Input} (hpc : (s.ctl t).pc = .addLoad m r ns)
      (h : takeable s.mem.cpVersion (s.mem.map (mapIndex m)).versionedMutex = true) :
      Step recursive s (.go t i)
        (s.setPc t (.addDesired m r ns (s.mem.map (mapIndex m)).versionedMutex) s.mem)
  | addSkip {t : Thread} {m : Addr} {r ns : U64} {i : Input} (hpc : (s.ctl t).pc = .addLoad m r ns)
      (h : takeable s.mem.cpVersion (s.mem.map (mapIndex m)).versionedMutex = false) :
      Step recursive s (.go t i) (s.setPc t .idle s.mem)
  | addDesired {t : Thread} {m : Addr} {r ns e : U64} {i : Input} (hpc : (s.ctl t).pc = .addDesired m r ns e) :
      Step recursive s (.go t i) (s.setPc t (.addCas m r ns e (versioned s.mem.cpVersion m)) s.mem)
  | casOk {t : Thread} {m : Addr} {r ns e d : U64} {i : Input} (hpc : (s.ctl t).pc = .addCas m r ns e d)
      (h : (s.mem.map (mapIndex m)).versionedMutex = e) :
      Step recursive s (.go t i) (s.setPc t (.storeDuration m r ns) (s.mem.claim t m d))
  | casFail {t : Thread} {m : Addr} {r ns e d : U64} {i : Input} (hpc : (s.ctl t).pc = .addCas m r ns e d)
      (h : (s.mem.map (mapIndex m)).versionedMutex ≠ e) : Step recursive s (.go t i) (s.setPc t .idle s.mem)
  | storeDuration {t : Thread} {m : Addr} {r ns : U64} {i : Input} (hpc : (s.ctl t).pc = .storeDuration m r ns) :
      Step recursive s (.go t i) (s.setPc t (.storeRange m r) (s.mem.fillDuration m (i.nowNs - ns)))
  | storeRange {t : Thread} {m : Addr} {r : U64} {i : Input} (hpc : (s.ctl t).pc = .storeRange m r) :
      Step recursive s (.go t i) (s.setPc t .idle (s.mem.fillRange m r))
  | unlockBypass {t : Thread} {m : Addr} {now : U64} (hpc : (s.ctl t).pc = .idle)
      (hinn : (s.ctl t).inside = true → m ∈ (s.ctl t).inner)
      (h : s.mem.cp = false ∨ (s.ctl t).inside = true) :
      Step recursive s (.unlock t m now)
        (s.setCtl t { s.ctl t with pc := .realUnlock m .zero 0, inner := (s.ctl t).inner.erase m } s.mem)
  | unlockValid {t : Thread} {m : Addr} {now : U64} {k : Nat} (hpc : (s.ctl t).pc = .idle)
      (hcp : s.mem.cp = true) (hin : (s.ctl t).inside = false)
      (hk : (s.mem.tls t).find m = some k) (h : isContentionSiteValid ((s.mem.tls t).list k).csite = true) :
      Step recursive s (.unlock t m now)
        (s.setPc t (.realUnlock m ((s.mem.tls t).list k).csite now) (s.mem.setTls t ((s.mem.tls t).remove k)))
  | unlockInvalid {t : Thread} {m : Addr} {now : U64} {k : Nat} (hpc : (s.ctl t).pc = .idle)
      (hcp : s.mem.cp = true) (hin : (s.ctl t).inside = false)
      (hk : (s.mem.tls t).find m = some k) (h : isContentionSiteValid ((s.mem.tls t).list k).csite = false) :
      Step recursive s (.unlock t m now)
        (s.setPc t (.realUnlock m .zero 0) (s.mem.setTls t ((s.mem.tls t).remove k)))
  | unlockMiss {t : Thread} {m : Addr} {now : U64} (hpc : (s.ctl t).pc = .idle)
      (hcp : s.mem.cp = true) (hin : (s.ctl t).inside = false)
      (hk : (s.mem.tls t).find m = none) :
      Step recursive s (.unlock t m now) (s.setPc t (.rmLoad m) s.mem)
  | rmHit {t : Thread} {m : Addr} {i : Input} (hpc : (s.ctl t).pc = .rmLoad m)
      (h : namesMutex (s.mem.map (mapIndex m)).versionedMutex m = true) :
      Step recursive s (.go t i) (s.setPc t (.copyDuration m) s.mem)
  | rmMiss {t : Thread} {m : Addr} {i : Input} (hpc : (s.ctl t).pc = .rmLoad m)
      (h : namesMutex (s.mem.map (mapIndex m)).versionedMutex m = false) :
      Step recursive s (.go t i) (s.setPc t (.realUnlock m .zero 0) s.mem)
  | copyDuration {t : Thread} {m : Addr} {i : Input} (hpc : (s.ctl t).pc = .copyDuration m) :
      Step recursive s (.go t i)
        (s.setPc t (.copyRange m { Site.zero with durationNs := (s.mem.map (mapIndex m)).csite.durationNs }) s.mem)
  | copyRange {t : Thread} {m : Addr} {saved : Site} {i : Input} (hpc : (s.ctl t).pc = .copyRange m saved) :
      Step recursive s (.go t i)
        (s.setPc t (.invalidate m { saved with
          samplingRange := (s.mem.map (mapIndex m)).csite.samplingRange
          acq := (s.mem.map (mapIndex m)).csite.acq }) s.mem)
  | invalidate {t : Thread} {m : Addr} {saved : Site} {i : Input} (hpc : (s.ctl t).pc = .invalidate m saved) :
      Step recursive s (.go t i) (s.setPc t (.clear m saved) (s.mem.invalidate m))
  | clear {t : Thread} {m : Addr} {saved : Site} {i : Input} (hpc : (s.ctl t).pc = .clear m saved) :
      Step recursive s (.go t i) (s.setPc t (.realUnlock m saved i.nowNs) (s.mem.clear m))
  | unlockDone {t : Thread} {m : Addr} {saved : Site} {i : Input} (hpc : (s.ctl t).pc = .realUnlock m saved 0)
      (how : (s.mem.mutexes m).owner = some t) :
      Step recursive s (.go t i)
        (s.setPc t .idle ((s.mem.release m).logUnlocked
          ⟨t, m, (s.mem.mutexes m).acq, s.mem.cpVersion, none, 0, i.nowNs⟩))
  | unlockSubmit {t : Thread} {m : Addr} {saved : Site} {ns : U64} {i : Input}
      (hpc : (s.ctl t).pc = .realUnlock m saved ns) (hns : ns ≠ 0) (how : (s.mem.mutexes m).owner = some t) :
      Step recursive s (.go t i) (s.setPc t (.submit m (s.mem.mutexes m).acq saved ns) (s.mem.release m))
  | foreignDone {t : Thread} {m : Addr} {saved : Site} {i : Input} (hpc : (s.ctl t).pc = .realUnlock m saved 0)
      (how : (s.mem.mutexes m).owner ≠ some t) :
      Step recursive s (.go t i)
        (s.setPc t .idle (s.mem.logUnlocked ⟨t, m, (s.mem.mutexes m).acq, s.mem.cpVersion, none, 0, i.nowNs⟩))
  | foreignSubmit {t : Thread} {m : Addr} {saved : Site} {ns : U64} {i : Input}
      (hpc : (s.ctl t).pc = .realUnlock m saved ns) (hns : ns ≠ 0) (how : (s.mem.mutexes m).owner ≠ some t) :
      Step recursive s (.go t i) (s.setPc t (.submit m (s.mem.mutexes m).acq saved ns) s.mem)
  | submit {t : Thread} {m : Addr} {a : Acq} {saved : Site} {ns : U64} {i : Input}
      (hpc : (s.ctl t).pc = .submit m a saved ns) :
      Step recursive s (.go t i)
        (s.setCtl t { s.ctl t with pc := .idle, inside := true }
          (s.mem.logUnlocked ⟨t, m, a, s.mem.cpVersion,
            some { saved with durationNs := saved.durationNs + (i.nowNs - ns) }, ns, i.nowNs⟩))
  | endSubmit {t : Thread} (hpc : (s.ctl t).pc = .idle) (hin : (s.ctl t).inside = true)
      (hinn : (s.ctl t).inner = []) :
      Step recursive s (.endSubmit t) (s.setCtl t { s.ctl t with inside := false } s.mem)

theorem lockCall_cases {s s' : State} {t : Thread} {m : Addr} (h : lockCall recursive s t m = some s') :
    Step recursive s (.lock t m) s' := by
  simp only [lockCall] at h
  split at h
  · cases h
  rename_i hpc
  have hpc : (s.ctl t).pc = .idle := not_not.1 hpc
  split at h
  · rename_i hb
    cases h
    exact .lockBypass hpc (by simpa using hb)
  rename_i hb
  have hcp : s.mem.cp = true := by simp at hb; exact hb.1
  have hin : (s.ctl t).inside = false := by simp at hb; exact hb.2
  split at h
  · rename_i hbusy
    cases h
    exact .lockBusy hpc hcp hin hbusy
  · rename_i hbusy
    cases h
    exact .lockFree hpc hcp hin (by simpa using hbusy)

theorem unlockCall_cases {s s' : State} {t : Thread} {m : Addr} {now : U64} (h : unlockCall s t m now = some s') :
    Step recursive s (.unlock t m now) s' := by
  simp only [unlockCall] at h
  split at h
  · cases h
  rename_i hg
  simp only [not_or, not_not, not_and] at hg
  obtain ⟨hpc, hinn⟩ := hg
  split at h
  · rename_i hb
    cases h
    exact .unlockBypass hpc hinn (by simpa using hb)
  rename_i hb
  have hcp : s.mem.cp = true := by simp at hb; exact hb.1
  have hin : (s.ctl t).inside = false := by simp at hb; exact hb.2
  split at h
  · rename_i k hk
    split at h
    · rename_i hv
      cases h
      exact .unlockValid hpc hcp hin hk hv
    · rename_i hv
      cases h
      exact .unlockInvalid hpc hcp hin hk (by simpa using hv)
  · rename_i hk
    cases h
    exact .unlockMiss hpc hcp hin hk

theorem advance_cases {s s' : State} {t : Thread} {i : Input} (h : advance recursive s t i = some s') :
    Step recursive s (.go t i) s' := by
  simp only [advance] at h
  split at h
  · rename_i hpc
    split at h
    · cases h
    rename_i m ms hpd
    split at h
    · cases h
    rename_i hin
    cases h
    exact .collected hpc (by simpa using hin) hpd
  · rename_i m hpc
    split at h
    · rename_i hres
      cases h
      exact .bypassFail hpc hres
    rename_i hres
    split at h
    · cases h
    rename_i hb
    cases h
    exact .bypassDone hpc (not_not.1 hres) (by simpa using hb)
  · rename_i m r k ns hpc
    split at h
    · rename_i hres
      cases h
      exact .waitFail hpc hres
    rename_i hres
    split at h
    · cases h
    rename_i hb
    have hb : s.mem.busy recursive t m = false := by simpa using hb
    split at h
    · rename_i hr
      subst hr
      cases h
      exact .waitUnsampled hpc (not_not.1 hres) hb
    rename_i hr
    split at h
    · rename_i k
      cases h
      exact .waitTls hpc (not_not.1 hres) hb hr
    · cases h
      exact .waitMap hpc (not_not.1 hres) hb hr
  · rename_i m r ns hpc
    split at h
    · rename_i ht
      cases h
      exact .addTake hpc ht
    · rename_i ht
      cases h
      exact .addSkip hpc (by simpa using ht)
  · rename_i m r ns e hpc
    cases h
    exact .addDesired hpc
  · rename_i m r ns e d hpc
    split at h
    · rename_i he
      cases h
      exact .casOk hpc he
    · rename_i he
      cases h
      exact .casFail hpc he
  · rename_i m r ns hpc
    cases h
    exact .storeDuration hpc
  · rename_i m r hpc
    cases h
    exact .storeRange hpc
  · rename_i m hpc
    split at h
    · rename_i hn
      cases h
      exact .rmHit hpc hn
    · rename_i hn
      cases h
      exact .rmMiss hpc (by simpa using hn)
  · rename_i m hpc
    cases h
    exact .copyDuration hpc
  · rename_i m saved hpc
    cases h
    exact .copyRange hpc
  · rename_i m saved hpc
    cases h
    exact .invalidate hpc
  · rename_i m saved hpc
    cases h
    exact .clear hpc
  · rename_i m saved ns hpc
    by_cases how : (s.mem.mutexes m).owner = some t
    · rw [show realUnlock s.mem t m = s.mem.release m from if_pos how] at h
      split at h
      · rename_i hns
        subst hns
        cases h
        exact .unlockDone hpc how
      · rename_i hns
        cases h
        exact .unlockSubmit hpc hns how
    · rw [show realUnlock s.mem t m = s.mem from if_neg how] at h
      split at h
      · rename_i hns
        subst hns
        cases h
        exact .foreignDone hpc how
      · rename_i hns
        cases h
        exact .foreignSubmit hpc hns how
  · rename_i m a saved ns hpc
    cases h
    exact .submit hpc

/-- **Everything a step can do.** -/
theorem hookStep_cases {s s' : State} {l : Label} (h : hookStep recursive s l = some s') : Step recursive s l s' := by
  cases l with
  | start =>
    simp only [hookStep] at h
    split at h
    · cases h
    · rename_i hcp
      cases h
      exact .start (by simpa using hcp)
  | stop =>
    simp only [hookStep] at h
    split at h
    · rename_i hcp
      cases h
      exact .stop hcp
    · cases h
  | lock t m => exact lockCall_cases h
  | unlock t m now => exact unlockCall_cases h
  | go t i => exact advance_cases h
  | endSubmit t =>
    simp only [hookStep, endSubmit] at h
    split at h
    · rename_i hg
      cases h
      exact .endSubmit hg.1 hg.2.1 hg.2.2
    · cases h

theorem step_cases {s s' : State} {l : Label} (h : step recursive s l = some s') :
    Step recursive s l s' ∧ OwnerUnlocks s l := by
  obtain ⟨how, hs⟩ := Option.ite_none_right_eq_some.1 h
  exact ⟨hookStep_cases hs, how⟩

end Hook
end ContentionProf
