import ContentionProf.HookList
import ContentionProf.HookOwner
/-!
# HookSession — the records within one profiling session

The profiler is on and its version fixed, both stores start empty, every real lock call returns 0.  The record of an
acquisition lives in the thread's list or in a slot of the map; the invariant ties both to the ownership of the mutex,
thread by thread (`ThreadOk`) and slot by slot (`SlotOk`).  A step of one thread cannot disturb another: it writes only
its own list, mutexes that are free or its own, and slots that are empty or its own.
-/
namespace ContentionProf
namespace Hook

open TLSPthreadContentionSites (Live)

/-! ## The invariant -/

/-- The site is the acquisition's: its range, and if it was sampled its wait and its place. -/
def SiteFor (cs : Site) (a : Acq) (p : Place) : Prop :=
  cs.samplingRange = a.range ∧ (a.range ≠ 0 → a.contended = true ∧ a.place = p ∧ cs.durationNs = a.wait)

/-- The slot of the mutex names it, in this session, and the thread filled it. -/
def Claims (v : Nat) (s : Mem) (t : Thread) (m : Addr) : Prop :=
  ValidAddr m ∧ (s.map (mapIndex m)).versionedMutex = versioned v m ∧ (s.map (mapIndex m)).filler = t

/-- The acquisition is one whose sample the unlock submits. -/
def Acq.Recorded (a : Acq) : Prop := a.contended = true ∧ a.range ≠ 0 ∧ a.place ≠ .nowhere

/-- The clock was read at the unlock exactly for a recorded acquisition, and then the saved site is the
acquisition's. -/
def Saved (a : Acq) (saved : Site) (ns : U64) : Prop :=
  (ns ≠ 0 ↔ a.Recorded) ∧ (ns ≠ 0 → saved.samplingRange = a.range ∧ saved.durationNs = a.wait)

/-- A sampled acquisition that has no record yet. -/
def Unplaced (s : Mem) (t : Thread) (m : Addr) (r : U64) : Prop :=
  ValidAddr m ∧ ¬ Live (s.tls t) m ∧ (s.mutexes m).acq.contended = true ∧ (s.mutexes m).acq.range = r ∧ r ≠ 0 ∧
    (s.mutexes m).acq.place = .nowhere

/-- A sampled acquisition whose record is in the map. -/
def InMap (s : Mem) (t : Thread) (m : Addr) : Prop :=
  ValidAddr m ∧ ¬ Live (s.tls t) m ∧ (s.mutexes m).acq.contended = true ∧ (s.mutexes m).acq.range ≠ 0 ∧
    (s.mutexes m).acq.place = .map

/-- The entry of the list whose mutex the thread is acquiring. -/
def Pc.acquiring : Pc → Option (Addr × Nat)
  | .waiting m _ (some k) _ => some (m, k)
  | _                       => none

/-- The slot names the mutex, but its site is not the acquisition's yet, or no longer. -/
def Pc.filling : Pc → Option Addr
  | .storeDuration m _ _ => some m
  | .storeRange m _      => some m
  | .clear m _           => some m
  | _                    => none

/-- The record of the mutex has been removed. -/
def Pc.gone : Pc → Option Addr
  | .realUnlock m _ _ => some m
  | _                 => none

/-- Where a thread can stand while `tls_inside_lock` is set and it has taken the mutexes `inner`. -/
def Pc.bypasses (inner : List Addr) : Pc → Prop
  | .idle              => True
  | .bypassLock _      => True
  | .realUnlock m _ ns => ns = 0 ∧ m ∉ inner
  | _                  => False

def PcOk (v : Nat) (s : Mem) (t : Thread) : Pc → Prop
  | .waiting m r (some k) _  => ValidAddr m ∧ (s.mutexes m).owner ≠ some t ∧ k < (s.tls t).count ∧
      ((s.tls t).list k).mutex = m ∧ (r = 0 → ((s.tls t).list k).csite.samplingRange = 0)
  | .waiting m _ none _      => ValidAddr m ∧ (s.mutexes m).owner ≠ some t ∧ ¬ Live (s.tls t) m
  | .bypassLock m            => (s.mutexes m).owner ≠ some t
  | .addLoad m r _           => Unplaced s t m r
  | .addDesired m r _ e      => Unplaced s t m r ∧ e = 0
  | .addCas m r _ e d        => Unplaced s t m r ∧ e = 0 ∧ d = versioned v m
  | .storeDuration m r _     => InMap s t m ∧ (s.mutexes m).acq.range = r
  | .storeRange m r          => InMap s t m ∧ (s.mutexes m).acq.range = r ∧
      (s.map (mapIndex m)).csite.durationNs = (s.mutexes m).acq.wait
  | .rmLoad m                => ValidAddr m ∧ ¬ Live (s.tls t) m
  | .copyDuration m          => InMap s t m
  | .copyRange m saved       => InMap s t m ∧ saved.durationNs = (s.mutexes m).acq.wait
  | .invalidate m saved      => InMap s t m ∧ saved.samplingRange = (s.mutexes m).acq.range ∧
      saved.durationNs = (s.mutexes m).acq.wait
  | .clear m saved           => InMap s t m ∧ saved.samplingRange = (s.mutexes m).acq.range ∧
      saved.durationNs = (s.mutexes m).acq.wait
  | .realUnlock m saved ns   => ValidAddr m ∧ ¬ Live (s.tls t) m ∧
      (s.map (mapIndex m)).versionedMutex ≠ versioned v m ∧ Saved (s.mutexes m).acq saved ns
  | .submit _ a saved ns     => ns ≠ 0 ∧ Saved a saved ns
  | .idle                    => True

/-- What one thread relies on: its list, the mutexes it owns and the slots it filled. -/
structure ThreadOk (v : Nat) (s : Mem) (t : Thread) (c : Ctl) : Prop where
  version : 0 < (s.tls t).count → (s.tls t).cpVersion = v
  distinct : ∀ i j, i < (s.tls t).count → j < (s.tls t).count →
    ((s.tls t).list i).mutex = ((s.tls t).list j).mutex → i = j
  entry : ∀ j, j < (s.tls t).count → c.pc.acquiring = some (((s.tls t).list j).mutex, j) ∨
    ((s.mutexes ((s.tls t).list j).mutex).owner = some t ∧
      SiteFor ((s.tls t).list j).csite (s.mutexes ((s.tls t).list j).mutex).acq .tls)
  tls : ∀ m, (s.mutexes m).owner = some t → (s.mutexes m).acq.place = .tls → c.pc.gone ≠ some m → Live (s.tls t) m
  map : ∀ m, (s.mutexes m).owner = some t → (s.mutexes m).acq.place = .map → c.pc.gone ≠ some m → Claims v s t m ∧
    (c.pc.filling ≠ some m → SiteFor (s.map (mapIndex m)).csite (s.mutexes m).acq .map)
  pending : ∀ m ∈ c.pending, ValidAddr m
  inner : ∀ m ∈ c.inner, (s.mutexes m).owner = some t ∧ (s.mutexes m).acq.place = .nowhere ∧ ¬ Live (s.tls t) m
  innerNodup : c.inner.Nodup
  outside : c.inside = false → c.inner = []
  inside : c.inside = true → c.pc.bypasses c.inner
  pc : PcOk v s t c.pc

/-- An occupied slot names a mutex of this session, held by the thread that filled it. -/
def SlotOk (v : Nat) (s : Mem) (i : U64) : Prop :=
  (s.map i).versionedMutex ≠ 0 → ∃ m, ValidAddr m ∧ mapIndex m = i ∧ (s.map i).versionedMutex = versioned v m ∧
    (s.mutexes m).owner = some (s.map i).filler ∧ (s.mutexes m).acq.Recorded ∧ (s.mutexes m).acq.place = .map

/-- A mutex that is not recursive is locked once or not at all. -/
def CountOk (s : Mem) : Prop := ∀ m, (s.mutexes m).count = if (s.mutexes m).owner = none then 0 else 1

/-- What a finished unlock submitted. -/
def UnlockedOk (x : Unlocked) : Prop :=
  (x.submitted.isSome = true ↔ x.acq.Recorded) ∧ ∀ cs, x.submitted = some cs →
    cs.samplingRange = x.acq.range ∧ cs.durationNs = x.acq.wait + (x.endNs - x.startNs)

structure SessionInv (v : Nat) (s : State) : Prop where
  on : s.mem.cp = true
  version : s.mem.cpVersion = v
  own : OwnOk s
  count : CountOk s.mem
  thread : ∀ t, ThreadOk v s.mem t (s.ctl t)
  slot : ∀ i, SlotOk v s.mem i
  log : ∀ x ∈ s.mem.log, UnlockedOk x

/-! ## Other threads -/

/-- What a step of another thread leaves to a thread. -/
structure Untouched (v : Nat) (s s' : Mem) (t : Thread) : Prop where
  tls : s'.tls t = s.tls t
  mutexes : ∀ m, (s.mutexes m).owner = some t → s'.mutexes m = s.mutexes m
  owner : ∀ m, (s'.mutexes m).owner = some t → (s.mutexes m).owner = some t
  map : ∀ m, (s.mutexes m).owner = some t → Claims v s t m → s'.map (mapIndex m) = s.map (mapIndex m)
  word : ∀ m, ValidAddr m → (s.mutexes m).owner = some t → (s.map (mapIndex m)).versionedMutex ≠ versioned v m →
    (s'.map (mapIndex m)).versionedMutex ≠ versioned v m

theorem InMap.frame {v : Nat} {s s' : Mem} {t : Thread} {m : Addr} (h : InMap s t m) (hu : Untouched v s s' t)
    (ho : (s.mutexes m).owner = some t) : InMap s' t m := by
  unfold InMap at *
  rw [hu.tls, hu.mutexes m ho]
  exact h

theorem Unplaced.frame {v : Nat} {s s' : Mem} {t : Thread} {m : Addr} {r : U64} (h : Unplaced s t m r)
    (hu : Untouched v s s' t) (ho : (s.mutexes m).owner = some t) : Unplaced s' t m r := by
  unfold Unplaced at *
  rw [hu.tls, hu.mutexes m ho]
  exact h

theorem ThreadOk.claims {v : Nat} {s : Mem} {t : Thread} {c : Ctl} {m : Addr} (h : ThreadOk v s t c)
    (ho : (s.mutexes m).owner = some t) (hm : InMap s t m) (hg : c.pc.gone ≠ some m) : Claims v s t m :=
  (h.map m ho hm.2.2.2.2 hg).1

theorem PcOk.frame {v : Nat} {s s' : Mem} {t : Thread} {c : Ctl} (h : ThreadOk v s t c)
    (hown : ∀ m, c.pc.owns = some m → (s.mutexes m).owner = some t) (hu : Untouched v s s' t) :
    PcOk v s' t c.pc := by
  have hpc := h.pc
  cases hp : c.pc with
  | idle => trivial
  | bypassLock m => rw [hp] at hpc; exact fun ho => hpc (hu.owner m ho)
  | waiting m r k ns =>
    rw [hp] at hpc
    cases k with
    | none => exact ⟨hpc.1, fun ho => hpc.2.1 (hu.owner m ho), by rw [hu.tls]; exact hpc.2.2⟩
    | some k => exact ⟨hpc.1, fun ho => hpc.2.1 (hu.owner m ho), by rw [hu.tls]; exact hpc.2.2⟩
  | addLoad m r ns => rw [hp] at hpc; exact Unplaced.frame hpc hu (hown m (by rw [hp]; rfl))
  | addDesired m r ns e => rw [hp] at hpc; exact ⟨hpc.1.frame hu (hown m (by rw [hp]; rfl)), hpc.2⟩
  | addCas m r ns e d => rw [hp] at hpc; exact ⟨hpc.1.frame hu (hown m (by rw [hp]; rfl)), hpc.2⟩
  | storeDuration m r ns =>
    rw [hp] at hpc
    have ho := hown m (by rw [hp]; rfl)
    exact ⟨hpc.1.frame hu ho, by rw [hu.mutexes m ho]; exact hpc.2⟩
  | storeRange m r =>
    rw [hp] at hpc
    have ho := hown m (by rw [hp]; rfl)
    have hc := h.claims ho hpc.1 (by rw [hp]; exact nofun)
    exact ⟨hpc.1.frame hu ho, by rw [hu.mutexes m ho]; exact hpc.2.1,
      by rw [hu.mutexes m ho, hu.map m ho hc]; exact hpc.2.2⟩
  | rmLoad m => rw [hp] at hpc; exact ⟨hpc.1, by rw [hu.tls]; exact hpc.2⟩
  | copyDuration m => rw [hp] at hpc; exact InMap.frame hpc hu (hown m (by rw [hp]; rfl))
  | copyRange m saved =>
    rw [hp] at hpc
    have ho := hown m (by rw [hp]; rfl)
    exact ⟨hpc.1.frame hu ho, by rw [hu.mutexes m ho]; exact hpc.2⟩
  | invalidate m saved =>
    rw [hp] at hpc
    have ho := hown m (by rw [hp]; rfl)
    exact ⟨hpc.1.frame hu ho, by rw [hu.mutexes m ho]; exact hpc.2⟩
  | clear m saved =>
    rw [hp] at hpc
    have ho := hown m (by rw [hp]; rfl)
    exact ⟨hpc.1.frame hu ho, by rw [hu.mutexes m ho]; exact hpc.2⟩
  | realUnlock m saved ns =>
    rw [hp] at hpc
    have ho := hown m (by rw [hp]; rfl)
    exact ⟨hpc.1, by rw [hu.tls]; exact hpc.2.1, hu.word m hpc.1 ho hpc.2.2.1, by rw [hu.mutexes m ho]; exact hpc.2.2.2⟩
  | submit m a saved ns => rw [hp] at hpc; exact hpc

/-- **A step of another thread keeps what a thread relies on.** -/
theorem ThreadOk.frame {v : Nat} {s s' : Mem} {t : Thread} {c : Ctl} (h : ThreadOk v s t c)
    (hown : ∀ m, c.pc.owns = some m → (s.mutexes m).owner = some t) (hu : Untouched v s s' t) :
    ThreadOk v s' t c where
  version := by rw [hu.tls]; exact h.version
  distinct := by rw [hu.tls]; exact h.distinct
  entry := by
    rw [hu.tls]
    intro j hj
    rcases h.entry j hj with ha | ⟨ho, hs⟩
    · exact .inl ha
    · exact .inr (by rw [hu.mutexes _ ho]; exact ⟨ho, hs⟩)
  tls := by
    intro m ho hp hg
    have ho := hu.owner m ho
    rw [hu.mutexes m ho] at hp
    rw [hu.tls]
    exact h.tls m ho hp hg
  map := by
    intro m ho hp hg
    have ho := hu.owner m ho
    rw [hu.mutexes m ho] at hp
    obtain ⟨hc, hs⟩ := h.map m ho hp hg
    rw [hu.mutexes m ho, Claims, hu.map m ho hc]
    exact ⟨hc, hs⟩
  pending := h.pending
  inner := by
    intro m hm
    obtain ⟨ho, hp, hl⟩ := h.inner m hm
    rw [hu.mutexes m ho, hu.tls]
    exact ⟨ho, hp, hl⟩
  innerNodup := h.innerNodup
  outside := h.outside
  inside := h.inside
  pc := PcOk.frame h hown hu

/-- What a step may write in a slot: nothing, or the slot of a mutex its thread owns, which was empty or its own. -/
def SlotFrame (v : Nat) (s s' : State) (l : Label) (i : U64) : Prop :=
  s'.mem.map i = s.mem.map i ∨ ∃ u m, l.thread = some u ∧ ValidAddr m ∧ i = mapIndex m ∧
    (s.mem.mutexes m).owner = some u ∧ ((s.mem.map i).versionedMutex = 0 ∨ Claims v s.mem u m) ∧
    ((s'.mem.map i).versionedMutex = 0 ∨ (s'.mem.map i).versionedMutex = versioned v m)

theorem SessionInv.pcOk {v : Nat} {s : State} {t : Thread} {pc : Pc} (hi : SessionInv v s) (hpc : (s.ctl t).pc = pc) :
    PcOk v s.mem t pc := hpc ▸ (hi.thread t).pc

theorem SessionInv.owner {v : Nat} {s : State} {t : Thread} {pc : Pc} {m : Addr} (hi : SessionInv v s)
    (hpc : (s.ctl t).pc = pc) (hm : pc.owns = some m) : (s.mem.mutexes m).owner = some t :=
  hi.own t m (by rw [hpc]; exact hm)

theorem SessionInv.claims {v : Nat} {s : State} {t : Thread} {pc : Pc} {m : Addr} (hi : SessionInv v s)
    (hpc : (s.ctl t).pc = pc) (hm : pc.owns = some m) (hin : InMap s.mem t m) (hg : pc.gone ≠ some m) :
    Claims v s.mem t m := (hi.thread t).claims (hi.owner hpc hm) hin (by rw [hpc]; exact hg)

variable {recursive : Addr → Bool}

theorem Step.slot_frame {v : Nat} {s s' : State} {l : Label} (h : Step recursive s l s') (hi : SessionInv v s)
    (i : U64) : SlotFrame v s s' l i := by
  cases h with
  | @casOk t m _ _ _ _ _ hpc he =>
    obtain ⟨hup, he0, hd⟩ := hi.pcOk hpc
    by_cases him : i = mapIndex m
    · subst him
      refine .inr ⟨t, m, rfl, hup.1, rfl, hi.owner hpc rfl, .inl (he.trans he0), .inr ?_⟩
      simp [Mem.claim, Mem.setSlot_map, hd]
    · exact .inl (by simp [Mem.claim, Mem.setSlot_map, him])
  | @storeDuration t m _ _ _ hpc =>
    have hin := (hi.pcOk hpc).1
    have hc := hi.claims hpc rfl hin (fun h => by cases h)
    by_cases him : i = mapIndex m
    · subst him
      refine .inr ⟨t, m, rfl, hin.1, rfl, hi.owner hpc rfl, .inr hc, .inr ?_⟩
      simp [Mem.fillDuration, Mem.setSlot_map, hc.2.1]
    · exact .inl (by simp [Mem.fillDuration, Mem.setSlot_map, him])
  | @storeRange t m _ _ hpc =>
    have hin := (hi.pcOk hpc).1
    have hc := hi.claims hpc rfl hin (fun h => by cases h)
    by_cases him : i = mapIndex m
    · subst him
      refine .inr ⟨t, m, rfl, hin.1, rfl, hi.owner hpc rfl, .inr hc, .inr ?_⟩
      simp [Mem.fillRange, Mem.setSlot_map, hc.2.1]
    · exact .inl (by simp [Mem.fillRange, Mem.setSlot_map, him])
  | @invalidate t m _ _ hpc =>
    have hin := (hi.pcOk hpc).1
    have hc := hi.claims hpc rfl hin (fun h => by cases h)
    by_cases him : i = mapIndex m
    · subst him
      refine .inr ⟨t, m, rfl, hin.1, rfl, hi.owner hpc rfl, .inr hc, .inr ?_⟩
      simp [Mem.invalidate, Mem.setSlot_map, hc.2.1]
    · exact .inl (by simp [Mem.invalidate, Mem.setSlot_map, him])
  | @clear t m _ _ hpc =>
    have hin := (hi.pcOk hpc).1
    have hc := hi.claims hpc rfl hin (fun h => by cases h)
    by_cases him : i = mapIndex m
    · subst him
      refine .inr ⟨t, m, rfl, hin.1, rfl, hi.owner hpc rfl, .inr hc, .inl ?_⟩
      simp [Mem.clear, Mem.setSlot_map]
    · exact .inl (by simp [Mem.clear, Mem.setSlot_map, him])
  | _ => exact .inl rfl

theorem Step.tls_other {s s' : State} {l : Label} {t : Thread} (h : Step recursive s l s') (hl : l.thread ≠ some t) :
    s'.mem.tls t = s.mem.tls t := by
  cases h with
  | collected =>
    have hne : t ≠ _ := fun h => hl (by rw [h]; rfl)
    exact (Mem.setTls_tls ..).trans (if_neg hne)
  | waitTls =>
    have hne : t ≠ _ := fun h => hl (by rw [h]; rfl)
    exact (Mem.setTls_tls ..).trans (if_neg hne)
  | unlockValid =>
    have hne : t ≠ _ := fun h => hl (by rw [h]; rfl)
    exact (Mem.setTls_tls ..).trans (if_neg hne)
  | unlockInvalid =>
    have hne : t ≠ _ := fun h => hl (by rw [h]; rfl)
    exact (Mem.setTls_tls ..).trans (if_neg hne)
  | _ => rfl

theorem Step.untouched {v : Nat} {s s' : State} {l : Label} {t : Thread} (h : Step recursive s l s')
    (hi : SessionInv v s) (hl : l.thread ≠ some t) : Untouched v s.mem s'.mem t where
  tls := h.tls_other hl
  mutexes := fun m ho => (h.mutexes_frame hi.own m).eq_of_owner hl ho
  owner := fun m ho => (h.mutexes_frame hi.own m).owner_of_owner hl ho
  map := by
    intro m ho hc
    rcases h.slot_frame hi (mapIndex m) with h | ⟨u, n, hlu, hn, hmn, hon, h0 | hcn, -⟩
    · exact h
    · exact absurd (hc.2.1.symm.trans h0) (versioned_ne_zero v hc.1)
    · -- both threads would have filled the slot
      have hf := hcn.2.2
      rw [← hmn, hc.2.2] at hf
      exact absurd (hf ▸ hlu) hl
  word := by
    intro m hm ho hw
    rcases h.slot_frame hi (mapIndex m) with h | ⟨u, n, hlu, hn, hmn, hon, -, h0 | hn'⟩
    · rw [h]; exact hw
    · rw [h0]; exact (versioned_ne_zero v hm).symm
    · rw [hn']
      intro he
      have hnm := versioned_inj hn hm he
      subst hnm
      rw [ho] at hon
      cases hon
      exact hl hlu

/-! ## The thread that acts -/

/-- A move inside the hook that leaves memory alone. -/
theorem ThreadOk.goto {v : Nat} {s : Mem} {t : Thread} {c c' : Ctl} (h : ThreadOk v s t c)
    (ha : c.pc.acquiring = none) (hf : c.pc.filling = none) (hg : c.pc.gone = none)
    (hpend : ∀ m ∈ c'.pending, ValidAddr m) (hinner : c'.inner.Sublist c.inner)
    (hout : c'.inside = false → c'.inner = []) (hin : c'.inside = true → c'.pc.bypasses c'.inner)
    (hpc : PcOk v s t c'.pc) :
    ThreadOk v s t c' where
  version := h.version
  distinct := h.distinct
  entry := by
    intro j hj
    rcases h.entry j hj with he | he
    · rw [ha] at he; cases he
    · exact .inr he
  tls := fun m ho hp _ => h.tls m ho hp (by rw [hg]; exact fun h => by cases h)
  map := by
    intro m ho hp _
    obtain ⟨hc, hs⟩ := h.map m ho hp (by rw [hg]; exact fun h => by cases h)
    exact ⟨hc, fun _ => hs (by rw [hf]; exact fun h => by cases h)⟩
  pending := hpend
  inner := fun m hm => h.inner m (hinner.subset hm)
  innerNodup := h.innerNodup.sublist hinner
  outside := hout
  inside := hin
  pc := hpc

theorem ThreadOk.gotoPc {v : Nat} {s : Mem} {t : Thread} {c : Ctl} {pc : Pc} (h : ThreadOk v s t c)
    (ha : c.pc.acquiring = none) (hf : c.pc.filling = none) (hg : c.pc.gone = none)
    (hb : c.inside = true → c.pc.bypasses c.inner → pc.bypasses c.inner) (hpc : PcOk v s t pc) :
    ThreadOk v s t { c with pc := pc } :=
  h.goto ha hf hg h.pending (List.Sublist.refl _) h.outside (fun hin => hb hin (h.inside hin)) hpc

/-- **A move that changes only what concerns one mutex** of the thread: its state, its slot, its entry. -/
structure OneMutex (v : Nat) (s s' : Mem) (t : Thread) (c c' : Ctl) (m : Addr) : Prop where
  count : (s'.tls t).count = (s.tls t).count
  version : (s'.tls t).cpVersion = (s.tls t).cpVersion
  names : ∀ j, ((s'.tls t).list j).mutex = ((s.tls t).list j).mutex
  list : ∀ j, ((s.tls t).list j).mutex ≠ m → (s'.tls t).list j = (s.tls t).list j
  mutexes : ∀ n, n ≠ m → s'.mutexes n = s.mutexes n
  map : ∀ n, n ≠ m → Claims v s t n → s'.map (mapIndex n) = s.map (mapIndex n)
  pcOld : ∀ n, n ≠ m → (∀ k, c.pc.acquiring ≠ some (n, k)) ∧ c.pc.filling ≠ some n ∧ c.pc.gone ≠ some n
  pending : c'.pending = c.pending
  inner : ∀ n ∈ c'.inner, n ≠ m → n ∈ c.inner

theorem OneMutex.live {v : Nat} {s s' : Mem} {t : Thread} {c c' : Ctl} {m : Addr} (h : OneMutex v s s' t c c' m)
    (n : Addr) : Live (s'.tls t) n ↔ Live (s.tls t) n := by
  unfold Live
  rw [h.count]
  simp only [h.names]

/-- The new state is in order once it is for that mutex. -/
theorem ThreadOk.oneMutex {v : Nat} {s s' : Mem} {t : Thread} {c c' : Ctl} {m : Addr} (h : ThreadOk v s t c)
    (hd : OneMutex v s s' t c c' m)
    (hentry : ∀ j, j < (s.tls t).count → ((s.tls t).list j).mutex = m →
      (s'.mutexes m).owner = some t ∧ SiteFor ((s'.tls t).list j).csite (s'.mutexes m).acq .tls)
    (htls : (s'.mutexes m).owner = some t → (s'.mutexes m).acq.place = .tls → c'.pc.gone ≠ some m → Live (s.tls t) m)
    (hmap : (s'.mutexes m).owner = some t → (s'.mutexes m).acq.place = .map → c'.pc.gone ≠ some m → Claims v s' t m ∧
      (c'.pc.filling ≠ some m → SiteFor (s'.map (mapIndex m)).csite (s'.mutexes m).acq .map))
    (hinner : m ∈ c'.inner →
      (s'.mutexes m).owner = some t ∧ (s'.mutexes m).acq.place = .nowhere ∧ ¬ Live (s.tls t) m)
    (hnodup : c'.inner.Nodup) (hout : c'.inside = false → c'.inner = [])
    (hin : c'.inside = true → c'.pc.bypasses c'.inner) (hpc : PcOk v s' t c'.pc) : ThreadOk v s' t c' where
  version := by rw [hd.count, hd.version]; exact h.version
  distinct := by rw [hd.count]; simp only [hd.names]; exact h.distinct
  entry := by
    rw [hd.count]
    intro j hj
    rw [hd.names]
    by_cases hm : ((s.tls t).list j).mutex = m
    · rw [hm]
      exact .inr (hentry j hj hm)
    · rw [hd.mutexes _ hm, hd.list j hm]
      rcases h.entry j hj with he | he
      · exact absurd he ((hd.pcOld _ hm).1 _)
      · exact .inr he
  tls := by
    intro n ho hp hg
    rw [hd.live]
    by_cases hn : n = m
    · subst hn; exact htls ho hp hg
    · rw [hd.mutexes n hn] at ho hp
      exact h.tls n ho hp (hd.pcOld n hn).2.2
  map := by
    intro n ho hp hg
    by_cases hn : n = m
    · subst hn; exact hmap ho hp hg
    · rw [hd.mutexes n hn] at ho hp ⊢
      obtain ⟨hc, hs⟩ := h.map n ho hp (hd.pcOld n hn).2.2
      rw [Claims, hd.map n hn hc]
      exact ⟨hc, fun _ => hs (hd.pcOld n hn).2.1⟩
  pending := by rw [hd.pending]; exact h.pending
  inner := by
    intro n hnm
    rw [hd.live]
    by_cases hn : n = m
    · subst hn; exact hinner hnm
    · rw [hd.mutexes n hn]
      exact h.inner n (hd.inner n hnm hn)
  innerNodup := hnodup
  outside := hout
  inside := hin
  pc := hpc

theorem threadOk_logUnlocked {v : Nat} {s : Mem} {t : Thread} {c : Ctl} {x : Unlocked} (h : ThreadOk v s t c) :
    ThreadOk v (s.logUnlocked x) t c := by
  refine { h with pc := ?_ }
  have hpc := h.pc
  cases hp : c.pc <;> rw [hp] at hpc
  case waiting m r k ns => cases k <;> exact hpc
  all_goals exact hpc

/-- What a run within one session assumes: mutexes with the addresses the packing is made for, no lock call for a
mutex the caller holds (the real lock would not return 0), real locks that return 0 and a clock that is not zero. -/
def InSession (s : State) : Label → Prop
  | .start          => False
  | .stop           => False
  | .lock t m       => ValidAddr m ∧ (s.mem.mutexes m).owner ≠ some t
  | .unlock _ m now => ValidAddr m ∧ now ≠ 0
  | .go t i         => i.nowNs ≠ 0 ∧ i.res = 0 ∧
      ((s.ctl t).pc = .idle → ∀ m ∈ (s.ctl t).pending.take 1, (s.mem.mutexes m).owner ≠ some t)
  | .endSubmit _    => True

instance (s : State) : (l : Label) → Decidable (InSession s l)
  | .start        => inferInstanceAs (Decidable False)
  | .stop         => inferInstanceAs (Decidable False)
  | .lock _ _     => inferInstanceAs (Decidable (_ ∧ _))
  | .unlock _ _ _ => inferInstanceAs (Decidable (_ ∧ _))
  | .go t _       =>
    -- not the search through all addresses
    have := List.decidableBAll (fun m => (s.mem.mutexes m).owner ≠ some t) ((s.ctl t).pending.take 1)
    inferInstanceAs (Decidable (_ ∧ _ ∧ (_ → _)))
  | .endSubmit _  => inferInstanceAs (Decidable True)

theorem owner_none_of_not_busy {s : Mem} {t : Thread} {m : Addr} (h : s.busy (fun _ => false) t m = false) :
    (s.mutexes m).owner = none := by
  unfold Mem.busy at h
  split at h
  · assumption
  · simp at h

theorem ThreadOk.live_owner {v : Nat} {s : Mem} {t : Thread} {c : Ctl} {m : Addr} (h : ThreadOk v s t c)
    (ha : c.pc.acquiring = none) (hl : Live (s.tls t) m) : (s.mutexes m).owner = some t := by
  obtain ⟨j, hj, rfl⟩ := hl
  rcases h.entry j hj with he | he
  · rw [ha] at he; cases he
  · exact he.1

theorem ThreadOk.not_inside {v : Nat} {s : Mem} {t : Thread} {c : Ctl} {pc : Pc} (h : ThreadOk v s t c)
    (hpc : c.pc = pc) (hb : ¬ pc.bypasses c.inner) : c.inside = false := by
  cases hc : c.inside with
  | false => rfl
  | true => exact absurd (hpc ▸ h.inside hc) hb

theorem ThreadOk.acquire {v : Nat} {s : Mem} {t : Thread} {c c' : Ctl} {m : Addr} {b : Bool} {r : U64}
    (h : ThreadOk v s t c) (hlive : ¬ Live (s.tls t) m) (ha : c.pc.acquiring = none) (hf : c.pc.filling = none)
    (hg : c.pc.gone = none) (hpend : c'.pending = c.pending)
    (hinner : ∀ n ∈ c'.inner, n ≠ m → n ∈ c.inner) (hnodup : c'.inner.Nodup)
    (hout : c'.inside = false → c'.inner = []) (hin : c'.inside = true → c'.pc.bypasses c'.inner)
    (hpc : PcOk v (s.acquire t m b r) t c'.pc) : ThreadOk v (s.acquire t m b r) t c' := by
  have hd : OneMutex v s (s.acquire t m b r) t c c' m :=
    { count := rfl, version := rfl, names := fun _ => rfl, list := fun _ _ => rfl
      mutexes := fun n hn => acquire_mutexes_of_ne hn
      map := fun _ _ _ => rfl
      pcOld := fun n _ => by rw [ha, hf, hg]; simp
      pending := hpend
      inner := hinner }
  refine h.oneMutex hd (fun j hj hm => absurd ⟨j, hj, hm⟩ hlive) ?_ ?_ ?_ hnodup hout hin hpc
  · intro _ hp _; simp [Mem.acquire_mutexes] at hp
  · intro _ hp _; simp [Mem.acquire_mutexes] at hp
  · intro _; exact ⟨by simp [Mem.acquire_owner], by simp [Mem.acquire_mutexes], hlive⟩

theorem ThreadOk.collected {v : Nat} {s : Mem} {t : Thread} {c : Ctl} {m : Addr} {ms : List Addr} {r ns : U64}
    (h : ThreadOk v s t c) (hpc : c.pc = .idle) (hin : c.inside = false) (hpd : c.pending = m :: ms)
    (hown : (s.mutexes m).owner ≠ some t) (hv : s.cpVersion = v) :
    ThreadOk v (s.setTls t (((s.tls t).refresh s.cpVersion).append m r).1) t
      { c with pc := .waiting m r (((s.tls t).refresh s.cpVersion).append m r).2 ns, pending := ms } := by
  have ha : c.pc.acquiring = none := by rw [hpc]; rfl
  have hlive : ¬ Live (s.tls t) m := fun hl => hown (h.live_owner ha hl)
  have hm : ValidAddr m := h.pending m (by rw [hpd]; exact List.mem_cons_self)
  have hcnt : ((s.tls t).refresh s.cpVersion).count = (s.tls t).count :=
    TLSPthreadContentionSites.refresh_count (fun hc => by rw [hv]; exact h.version hc)
  have hlst := TLSPthreadContentionSites.refresh_list (s.tls t) s.cpVersion
  have hver := TLSPthreadContentionSites.refresh_cpVersion (s.tls t) s.cpVersion
  have htls : ∀ f, (s.setTls t f).tls t = f := fun f => by rw [Mem.setTls_tls, if_pos rfl]
  generalize (s.tls t).refresh s.cpVersion = f at hcnt hlst hver
  have owned : ∀ j, j < (s.tls t).count → (s.mutexes ((s.tls t).list j).mutex).owner = some t ∧
      SiteFor ((s.tls t).list j).csite (s.mutexes ((s.tls t).list j).mutex).acq .tls := by
    intro j hj
    rcases h.entry j hj with he | he
    · rw [ha] at he; cases he
    · exact he
  have hsame : ∀ n, Live f n ↔ Live (s.tls t) n := fun n => by unfold Live; rw [hcnt, hlst]
  rcases f.append_cases m r with ⟨hk, hc, hcv, hlm, hlr, hlo⟩ | ⟨hk, hf, -⟩
  · -- a new entry at the end, the mutex's
    generalize (f.append m r).1 = g at hc hcv hlm hlr hlo
    rw [hcnt] at hk hc hlm hlr hlo
    rw [hk]
    have hold : ∀ j, j < (s.tls t).count → g.list j = (s.tls t).list j := fun j hj => by
      rw [hlo j (Nat.ne_of_lt hj), hlst]
    have hlt : ∀ {j}, j < g.count → j < (s.tls t).count ∨ j = (s.tls t).count := fun hj => by
      rw [hc] at hj; exact Nat.lt_succ_iff_lt_or_eq.1 hj
    have hlg : ∀ n, Live g n ↔ Live (s.tls t) n ∨ n = m := by
      intro n
      constructor
      · rintro ⟨j, hj, rfl⟩
        rcases hlt hj with hj | rfl
        · exact .inl ⟨j, hj, by rw [hold j hj]⟩
        · exact .inr hlm
      · rintro (⟨j, hj, rfl⟩ | rfl)
        · exact ⟨j, by omega, by rw [hold j hj]⟩
        · exact ⟨_, by omega, hlm⟩
    constructor
    case version => rw [htls]; exact fun _ => by rw [hcv, hver, hv]
    case distinct =>
      rw [htls]
      intro i j hi hj he
      rcases hlt hi with hi | rfl <;> rcases hlt hj with hj | rfl
      · rw [hold i hi, hold j hj] at he
        exact h.distinct i j hi hj he
      · rw [hold i hi, hlm] at he
        exact absurd ⟨i, hi, he⟩ hlive
      · rw [hold j hj, hlm] at he
        exact absurd ⟨j, hj, he.symm⟩ hlive
      · rfl
    case entry =>
      rw [htls]
      intro j hj
      rcases hlt hj with hj | rfl
      · rw [hold j hj]
        exact .inr (owned j hj)
      · exact .inl (by rw [hlm]; rfl)
    case tls =>
      rw [htls]
      exact fun n ho hp _ => (hlg n).2 (.inl (h.tls n ho hp (by rw [hpc]; exact nofun)))
    case map =>
      intro n ho hp _
      obtain ⟨hcl, hs⟩ := h.map n ho hp (by rw [hpc]; exact nofun)
      exact ⟨hcl, fun _ => hs (by rw [hpc]; exact nofun)⟩
    case pending => exact fun n hn => h.pending n (by rw [hpd]; exact List.mem_cons_of_mem _ hn)
    case inner =>
      intro n hn
      rw [show c.inner = [] from h.outside hin] at hn
      cases hn
    case innerNodup => exact h.innerNodup
    case outside => exact h.outside
    case inside => exact fun hi => by rw [hin] at hi; cases hi
    case pc =>
      refine ⟨hm, hown, ?_⟩
      rw [htls]
      exact ⟨by omega, hlm, hlr⟩
  · -- the list is full: it stays as it was
    rw [hk, hf]
    constructor
    case version => rw [htls]; exact fun _ => by rw [hver, hv]
    case distinct => rw [htls, hcnt, hlst]; exact h.distinct
    case entry => rw [htls, hcnt, hlst]; exact fun j hj => .inr (owned j hj)
    case tls =>
      rw [htls]
      exact fun n ho hp _ => (hsame n).2 (h.tls n ho hp (by rw [hpc]; exact nofun))
    case map =>
      intro n ho hp _
      obtain ⟨hcl, hs⟩ := h.map n ho hp (by rw [hpc]; exact nofun)
      exact ⟨hcl, fun _ => hs (by rw [hpc]; exact nofun)⟩
    case pending => exact fun n hn => h.pending n (by rw [hpd]; exact List.mem_cons_of_mem _ hn)
    case inner =>
      intro n hn
      rw [show c.inner = [] from h.outside hin] at hn
      cases hn
    case innerNodup => exact h.innerNodup
    case outside => exact h.outside
    case inside => exact fun hi => by rw [hin] at hi; cases hi
    case pc => exact ⟨hm, hown, by rw [htls]; exact fun hl => hlive ((hsame m).1 hl)⟩

/-- Taking an entry out of the list: what is left of the record is the saved site. -/
theorem ThreadOk.removed {v : Nat} {s : Mem} {t : Thread} {c : Ctl} {m : Addr} {k : Nat} {saved : Site} {ns : U64}
    (h : ThreadOk v s t c) (hpc : c.pc = .idle) (hin : c.inside = false) (hk : (s.tls t).find m = some k)
    (hm : ValidAddr m) (hslot : SlotOk v s (mapIndex m))
    (hsv : SiteFor ((s.tls t).list k).csite (s.mutexes m).acq .tls → Saved (s.mutexes m).acq saved ns) :
    ThreadOk v (s.setTls t ((s.tls t).remove k)) t { c with pc := .realUnlock m saved ns } := by
  have ha : c.pc.acquiring = none := by rw [hpc]; rfl
  obtain ⟨hkc, hkm⟩ := TLSPthreadContentionSites.find_some hk
  have htls : ∀ f, (s.setTls t f).tls t = f := fun f => by rw [Mem.setTls_tls, if_pos rfl]
  have owned : ∀ j, j < (s.tls t).count → (s.mutexes ((s.tls t).list j).mutex).owner = some t ∧
      SiteFor ((s.tls t).list j).csite (s.mutexes ((s.tls t).list j).mutex).acq .tls := by
    intro j hj
    rcases h.entry j hj with he | he
    · rw [ha] at he; cases he
    · exact he
  have hsite := (owned k hkc).2
  rw [hkm] at hsite
  have hcnt : ((s.tls t).remove k).count = (s.tls t).count - 1 := rfl
  have hlive : ∀ n, Live ((s.tls t).remove k) n ↔ Live (s.tls t) n ∧ n ≠ m := by
    intro n
    constructor
    · rintro ⟨j, hj, rfl⟩
      obtain ⟨i, hi, hik, he, -, -⟩ := TLSPthreadContentionSites.remove_list hkc hj
      rw [he]
      exact ⟨⟨i, hi, rfl⟩, fun hn => hik (h.distinct i k hi hkc (hn.trans hkm.symm))⟩
    · rintro ⟨⟨i, hi, rfl⟩, hn⟩
      have hik : i ≠ k := by rintro rfl; exact hn hkm
      by_cases hil : i = (s.tls t).count - 1
      · refine ⟨k, by rw [hcnt]; omega, ?_⟩
        simp [TLSPthreadContentionSites.remove, ← hil]
      · refine ⟨i, by rw [hcnt]; omega, ?_⟩
        simp [TLSPthreadContentionSites.remove, hik]
  constructor
  case version => rw [htls]; exact fun _ => h.version (Nat.zero_lt_of_lt hkc)
  case distinct =>
    rw [htls]
    intro i j hi hj he
    obtain ⟨i', hi', hik, hei, hi1, hi2⟩ := TLSPthreadContentionSites.remove_list hkc hi
    obtain ⟨j', hj', hjk, hej, hj1, hj2⟩ := TLSPthreadContentionSites.remove_list hkc hj
    rw [hei, hej] at he
    have hij := h.distinct i' j' hi' hj' he
    rw [hcnt] at hi hj
    by_cases h1 : i = k <;> by_cases h2 : j = k
    · rw [h1, h2]
    · have := hi1 h1; have := hj2 h2; omega
    · have := hi2 h1; have := hj1 h2; omega
    · have := hi2 h1; have := hj2 h2; omega
  case entry =>
    rw [htls]
    intro j hj
    obtain ⟨i, hi, -, he, -, -⟩ := TLSPthreadContentionSites.remove_list hkc hj
    rw [he]
    exact .inr (owned i hi)
  case tls =>
    rw [htls]
    intro n ho hp hg
    have hnm : n ≠ m := fun hn => hg (by rw [hn]; rfl)
    exact (hlive n).2 ⟨h.tls n ho hp (by rw [hpc]; intro h; cases h), hnm⟩
  case map =>
    intro n ho hp _
    obtain ⟨hcl, hs⟩ := h.map n ho hp (by rw [hpc]; intro h; cases h)
    exact ⟨hcl, fun _ => hs (by rw [hpc]; intro h; cases h)⟩
  case pending => exact h.pending
  case inner =>
    intro n hn
    rw [show c.inner = [] from h.outside hin] at hn
    cases hn
  case innerNodup => exact h.innerNodup
  case outside => exact h.outside
  case inside => exact fun hi => by rw [hin] at hi; cases hi
  case pc =>
    refine ⟨hm, ?_, ?_, hsv hsite⟩
    · rw [htls]; exact fun hl => ((hlive m).1 hl).2 rfl
    · -- the slot names only mutexes recorded in the map
      intro hw
      obtain ⟨n, hn, -, hwn, -, hrec, hpl⟩ :=
        hslot (by rw [Mem.setTls_map] at hw; rw [hw]; exact versioned_ne_zero v hm)
      rw [Mem.setTls_map] at hw
      have := versioned_inj hm hn (hw.symm.trans hwn)
      subst this
      have := (hsite.2 hrec.2.1).2.1
      rw [hpl] at this
      cases this

/-- The acquisition after `EBUSY`, with an entry in the list: the entry's site is the acquisition's, if `wait` was
stored for a sampled one or the site invalidated for another. -/
theorem ThreadOk.acquireEntry {v : Nat} {s s' : Mem} {t : Thread} {c : Ctl} {m : Addr} {k : Nat} {r ns : U64}
    (h : ThreadOk v s t c) (hpc : c.pc = .waiting m r (some k) ns)
    (hd : OneMutex v s s' t c { c with pc := .idle } m) (ho : (s'.mutexes m).owner = some t)
    (hs : SiteFor ((s'.tls t).list k).csite (s'.mutexes m).acq .tls) (hp : (s'.mutexes m).acq.place ≠ .map) :
    ThreadOk v s' t { c with pc := .idle } := by
  have hin : c.inside = false := h.not_inside hpc (fun hb => hb)
  have hw := h.pc
  rw [hpc] at hw
  obtain ⟨hm, -, hk, hkm, -⟩ := hw
  have hinner : c.inner = [] := h.outside hin
  refine h.oneMutex hd (fun j hj hjm => ?_) (fun _ _ _ => ⟨k, hk, hkm⟩) (fun _ hpm _ => absurd hpm hp)
    (fun hmi => ?_) h.innerNodup h.outside (fun hi => ?_) trivial
  · have := h.distinct j k hj hk (hjm.trans hkm.symm)
    subst this
    exact ⟨ho, hs⟩
  · rw [show ({ c with pc := Pc.idle } : Ctl).inner = c.inner from rfl, hinner] at hmi; cases hmi
  · rw [show ({ c with pc := Pc.idle } : Ctl).inside = c.inside from rfl, hin] at hi; cases hi

theorem ThreadOk.writeSlot {v : Nat} {s s' : Mem} {t : Thread} {c : Ctl} {pc : Pc} {m : Addr} (h : ThreadOk v s t c)
    (hin : c.inside = false) (hd : OneMutex v s s' t c { c with pc := pc } m) (hlive : ¬ Live (s.tls t) m)
    (hp : (s'.mutexes m).acq.place = .map) (hc : Claims v s' t m)
    (hs : pc.filling ≠ some m → SiteFor (s'.map (mapIndex m)).csite (s'.mutexes m).acq .map)
    (hpc : PcOk v s' t pc) : ThreadOk v s' t { c with pc := pc } := by
  have hinner : c.inner = [] := h.outside hin
  refine h.oneMutex hd (fun j hj hjm => absurd ⟨j, hj, hjm⟩ hlive) (fun _ hpt _ => ?_) (fun _ _ _ => ⟨hc, hs⟩)
    (fun hmi => ?_) h.innerNodup h.outside (fun hi => ?_) hpc
  · rw [hp] at hpt; cases hpt
  · rw [show ({ c with pc := pc } : Ctl).inner = c.inner from rfl, hinner] at hmi; cases hmi
  · rw [show ({ c with pc := pc } : Ctl).inside = c.inside from rfl, hin] at hi; cases hi

/-- A step that writes only the slot of its mutex, which is empty or its own. -/
theorem OneMutex.slot {v : Nat} {s s' : Mem} {t : Thread} {c : Ctl} {pc : Pc} {m : Addr} (htls : s'.tls = s.tls)
    (hmutex : ∀ n, n ≠ m → s'.mutexes n = s.mutexes n) (hmap : ∀ i, i ≠ mapIndex m → s'.map i = s.map i)
    (hw : (s.map (mapIndex m)).versionedMutex = 0 ∨ Claims v s t m) (ha : c.pc.acquiring = none)
    (hf : ∀ n, n ≠ m → c.pc.filling ≠ some n) (hg : c.pc.gone = none) :
    OneMutex v s s' t c { c with pc := pc } m where
  count := by rw [htls]
  version := by rw [htls]
  names := by rw [htls]; exact fun _ => rfl
  list := by rw [htls]; exact fun _ _ => rfl
  mutexes := hmutex
  map := by
    intro n hn hc
    by_cases hi : mapIndex n = mapIndex m
    · rcases hw with hw | hw
      · exact absurd (hc.2.1.symm.trans (by rw [hi]; exact hw)) (versioned_ne_zero v hc.1)
      · have he : versioned v n = versioned v m := by rw [← hc.2.1, hi, hw.2.1]
        exact absurd (versioned_inj hc.1 hw.1 he) hn
    · exact hmap _ hi
  pcOld := fun n hn => ⟨fun k => by rw [ha]; exact nofun, hf n hn, by rw [hg]; exact nofun⟩
  pending := rfl
  inner := fun _ hn _ => hn

theorem ThreadOk.release {v : Nat} {s : Mem} {t : Thread} {c : Ctl} {pc : Pc} {m : Addr} {saved : Site} {ns : U64}
    (h : ThreadOk v s t c) (hpc : c.pc = .realUnlock m saved ns) (hcount : CountOk s)
    (hout : c.inside = false → c.inner = []) (hin : c.inside = true → pc.bypasses c.inner)
    (hinner : c.inside = true → m ∉ c.inner) (hpc' : PcOk v (s.release m) t pc) :
    ThreadOk v (s.release m) t { c with pc := pc } := by
  have hp := h.pc
  rw [hpc] at hp
  have hfree : ((s.release m).mutexes m).owner = none := by
    rw [Mem.release_mutexes, if_pos rfl]
    have := hcount m
    simp only
    split
    · rfl
    · rename_i hc
      rw [this] at hc
      split at hc <;> simp_all
  have hno : ((s.release m).mutexes m).owner ≠ some t := by rw [hfree]; exact nofun
  have hd : OneMutex v s (s.release m) t c { c with pc := pc } m :=
    { count := rfl, version := rfl, names := fun _ => rfl, list := fun _ _ => rfl
      mutexes := fun n hn => release_mutexes_of_ne hn
      map := fun _ _ _ => rfl
      pcOld := fun n hn => by
        rw [hpc]
        exact ⟨nofun, nofun, fun h => (by cases h; exact hn rfl)⟩
      pending := rfl
      inner := fun _ hn _ => hn }
  refine h.oneMutex hd (fun j hj hm => absurd ⟨j, hj, hm⟩ hp.2.1) (fun ho => absurd ho hno)
    (fun ho => absurd ho hno) (fun hmi => ?_) h.innerNodup hout hin hpc'
  cases hc : c.inside with
  | false =>
    rw [show ({ c with pc := pc } : Ctl).inner = c.inner from rfl, hout hc] at hmi
    cases hmi
  | true => exact absurd hmi (hinner hc)

theorem InMap.of_acq {s s' : Mem} {t : Thread} {m : Addr} (h : InMap s t m) (htls : s'.tls = s.tls)
    (hc : (s'.mutexes m).acq.contended = (s.mutexes m).acq.contended)
    (hr : (s'.mutexes m).acq.range = (s.mutexes m).acq.range)
    (hp : (s'.mutexes m).acq.place = (s.mutexes m).acq.place) : InMap s' t m := by
  unfold InMap at *
  rw [htls, hc, hr, hp]
  exact h

/-- **The acting thread keeps its part of the invariant.** -/
theorem Step.thread_self {v : Nat} {s s' : State} {l : Label} {t : Thread} (h : Step (fun _ => false) s l s')
    (hi : SessionInv v s) (hok : InSession s l) (hl : l.thread = some t) : ThreadOk v s'.mem t (s'.ctl t) := by
  have ht := hi.thread t
  cases h with
  | start => cases hl
  | stop => cases hl
  | lockBypass hpc hb =>
    cases hl
    rw [State.setPc_ctl, if_pos rfl]
    exact ht.gotoPc (by rw [hpc]; rfl) (by rw [hpc]; rfl) (by rw [hpc]; rfl) (fun _ _ => trivial) hok.2
  | lockBusy hpc hcp hin hb =>
    cases hl
    rw [State.setCtl_ctl_self]
    refine ht.goto (by rw [hpc]; rfl) (by rw [hpc]; rfl) (by rw [hpc]; rfl) (fun n hn => ?_) (List.Sublist.refl _)
      ht.outside ht.inside ht.pc
    rcases List.mem_cons.1 hn with rfl | hn
    · exact hok.1
    · exact ht.pending n hn
  | lockFree hpc hcp hin hb =>
    cases hl
    rw [State.setPc_ctl, if_pos rfl]
    have ha : (s.ctl t).pc.acquiring = none := by rw [hpc]; rfl
    exact ht.acquire (fun hlv => hok.2 (ht.live_owner ha hlv)) ha (by rw [hpc]; rfl) (by rw [hpc]; rfl) rfl
      (fun _ hn _ => hn) ht.innerNodup ht.outside (fun _ => trivial) trivial
  | collected hpc hin hpd =>
    cases hl
    rw [State.setCtl_ctl_self]
    exact ht.collected hpc hin hpd (hok.2.2 hpc _ (by rw [hpd]; exact List.mem_cons_self)) hi.version
  | bypassFail hpc hres => exact absurd hok.2.1 hres
  | @bypassDone _ m _ hpc hres hb =>
    cases hl
    rw [State.setCtl_ctl_self]
    have ha : (s.ctl t).pc.acquiring = none := by rw [hpc]; rfl
    have hno : (s.mem.mutexes m).owner ≠ some t := hi.pcOk hpc
    have hni : m ∉ (s.ctl t).inner := fun hm => hno (ht.inner m hm).1
    refine ht.acquire (fun hlv => hno (ht.live_owner ha hlv)) ha (by rw [hpc]; rfl) (by rw [hpc]; rfl) rfl
      (fun n hn hne => ?_) ?_ (fun hout => ?_) (fun _ => trivial) trivial
    · simp only at hn
      split at hn
      · rcases List.mem_cons.1 hn with rfl | hn
        · exact absurd rfl hne
        · exact hn
      · exact hn
    · simp only
      split
      · exact List.nodup_cons.2 ⟨hni, ht.innerNodup⟩
      · exact ht.innerNodup
    · have hout : (s.ctl t).inside = false := hout
      simp only [hout, Bool.false_eq_true, if_false]
      exact ht.outside hout
  | waitFail hpc hres => exact absurd hok.2.1 hres
  | @waitUnsampled _ m k ns _ hpc hres hb =>
    cases hl
    rw [State.setPc_ctl, if_pos rfl]
    have hw := hi.pcOk hpc
    cases k with
    | none =>
      exact ht.acquire hw.2.2 (by rw [hpc]; rfl) (by rw [hpc]; rfl) (by rw [hpc]; rfl) rfl
        (fun _ hn _ => hn) ht.innerNodup ht.outside (fun _ => trivial) trivial
    | some k =>
      refine ht.acquireEntry hpc ?_ (by simp [Mem.acquire_owner]) ?_ (by simp [Mem.acquire_mutexes])
      · exact
          { count := rfl, version := rfl, names := fun _ => rfl, list := fun _ _ => rfl
            mutexes := fun n hn => acquire_mutexes_of_ne hn
            map := fun _ _ _ => rfl
            pcOld := fun n hn => by
              rw [hpc]
              refine ⟨fun k h => ?_, fun h => ?_, fun h => ?_⟩ <;> cases h
              exact hn rfl
            pending := rfl
            inner := fun _ hn _ => hn }
      · refine ⟨?_, fun hr => absurd ?_ hr⟩
        · simpa [Mem.acquire_mutexes] using hw.2.2.2.2 rfl
        · simp [Mem.acquire_mutexes]
  | @waitTls _ m r k ns i hpc hres hb hr =>
    cases hl
    rw [State.setPc_ctl, if_pos rfl]
    have hw := hi.pcOk hpc
    have hself : ((s.mem.acquire t m true r).fillTls t m k r (i.nowNs - ns)).tls t =
        (s.mem.tls t).setSite k ⟨i.nowNs - ns, r,
          some { ((s.mem.acquire t m true r).mutexes m).acq with wait := i.nowNs - ns, place := .tls }⟩ := by
      simp [Mem.fillTls, Mem.setTls_tls]
    refine ht.acquireEntry hpc ?_ (by simp [Mem.acquire_owner]) ?_ (by simp [Mem.fillTls, Mem.setAcq_mutexes])
    · refine
        { count := by simp [hself, TLSPthreadContentionSites.setSite]
          version := by simp [hself, TLSPthreadContentionSites.setSite]
          names := fun j => ?_
          list := fun j hj => ?_
          mutexes := fun n hn => (setAcq_mutexes_of_ne hn).trans (acquire_mutexes_of_ne hn)
          map := fun _ _ _ => rfl
          pcOld := fun n hn => by
            rw [hpc]
            refine ⟨fun k h => ?_, fun h => ?_, fun h => ?_⟩ <;> cases h
            exact hn rfl
          pending := rfl
          inner := fun _ hn _ => hn }
      · simp only [State.setPc_mem, hself, TLSPthreadContentionSites.setSite]
        by_cases hjk : j = k
        · subst hjk; simp
        · simp [hjk]
      · have hjk : j ≠ k := by rintro rfl; exact hj hw.2.2.2.1
        simp [hself, TLSPthreadContentionSites.setSite, hjk]
    · rw [State.setPc_mem, hself]
      simp [SiteFor, TLSPthreadContentionSites.setSite, Mem.fillTls, Mem.setAcq_mutexes, Mem.acquire_mutexes]
  | @waitMap _ m r ns _ hpc hres hb hr =>
    cases hl
    rw [State.setPc_ctl, if_pos rfl]
    have hw := hi.pcOk hpc
    have hin := ht.not_inside hpc (fun hb => hb)
    refine ht.acquire hw.2.2 (by rw [hpc]; rfl) (by rw [hpc]; rfl) (by rw [hpc]; rfl) rfl
      (fun _ hn _ => hn) ht.innerNodup ht.outside (fun hin' => ?_) ?_
    · exact absurd (hin.symm.trans hin') (by decide)
    · exact ⟨hw.1, hw.2.2, by simp [Mem.acquire_mutexes], by simp [Mem.acquire_mutexes], hr,
        by simp [Mem.acquire_mutexes]⟩
  | @addTake _ m r ns _ hpc htk =>
    cases hl
    rw [State.setPc_ctl, if_pos rfl]
    refine ht.gotoPc (by rw [hpc]; rfl) (by rw [hpc]; rfl) (by rw [hpc]; rfl)
      (fun _ hb => by rw [hpc] at hb; exact hb.elim) ⟨hi.pcOk hpc, ?_⟩
    -- an occupied slot is of this session, so only an empty one can be taken
    by_contra hne
    obtain ⟨n, hn, -, hw, -⟩ := hi.slot (mapIndex m) hne
    rw [takeable, hw, slotVersion_versioned v hn, hi.version] at htk
    simp only [bne_self_eq_false, Bool.or_false, beq_iff_eq] at htk
    exact versioned_ne_zero v hn htk
  | addSkip hpc htk =>
    cases hl
    rw [State.setPc_ctl, if_pos rfl]
    exact ht.gotoPc (by rw [hpc]; rfl) (by rw [hpc]; rfl) (by rw [hpc]; rfl) (fun _ _ => trivial) trivial
  | addDesired hpc =>
    cases hl
    rw [State.setPc_ctl, if_pos rfl]
    have hp := hi.pcOk hpc
    exact ht.gotoPc (by rw [hpc]; rfl) (by rw [hpc]; rfl) (by rw [hpc]; rfl)
      (fun _ hb => by rw [hpc] at hb; exact hb.elim) ⟨hp.1, hp.2, by rw [hi.version]⟩
  | @casOk _ m r ns e d _ hpc he =>
    cases hl
    rw [State.setPc_ctl, if_pos rfl]
    obtain ⟨⟨hm, hlv, hct, hrg, hr, hpl⟩, he0, hd⟩ := hi.pcOk hpc
    have hc : Claims v (s.mem.claim t m d) t m := ⟨hm, by simp [Mem.claim, Mem.setSlot_map, hd],
      by simp [Mem.claim, Mem.setSlot_map]⟩
    have hin : InMap (s.mem.claim t m d) t m := ⟨hm, hlv, by simpa [Mem.claim, Mem.setAcq_mutexes] using hct,
      by simpa [Mem.claim, Mem.setAcq_mutexes, hrg] using hr, by simp [Mem.claim, Mem.setAcq_mutexes]⟩
    refine ht.writeSlot (ht.not_inside hpc (fun hb => hb)) ?_ hlv hin.2.2.2.2 hc (fun hf => absurd rfl hf)
      ⟨hin, by simpa [Mem.claim, Mem.setAcq_mutexes] using hrg⟩
    exact .slot rfl (fun n hn => setAcq_mutexes_of_ne hn) (fun i hi => by simp [Mem.claim, Mem.setSlot_map, hi])
      (.inl (he.trans he0)) (by rw [hpc]; rfl) (fun n _ => by rw [hpc]; intro h; cases h) (by rw [hpc]; rfl)
  | casFail hpc he =>
    cases hl
    rw [State.setPc_ctl, if_pos rfl]
    exact ht.gotoPc (by rw [hpc]; rfl) (by rw [hpc]; rfl) (by rw [hpc]; rfl) (fun _ _ => trivial) trivial
  | @storeDuration _ m r ns i hpc =>
    cases hl
    rw [State.setPc_ctl, if_pos rfl]
    obtain ⟨hin, hrg⟩ := hi.pcOk hpc
    have hc := hi.claims hpc rfl hin (fun h => by cases h)
    have hin' : InMap (s.mem.fillDuration m (i.nowNs - ns)) t m := hin.of_acq rfl
      (by simp [Mem.fillDuration, Mem.setAcq_mutexes]) (by simp [Mem.fillDuration, Mem.setAcq_mutexes])
      (by simp [Mem.fillDuration, Mem.setAcq_mutexes])
    refine ht.writeSlot (ht.not_inside hpc (fun hb => hb)) ?_ hin.2.1 hin'.2.2.2.2
      ⟨hin.1, by simpa [Mem.fillDuration, Mem.setSlot_map] using hc.2.1,
        by simpa [Mem.fillDuration, Mem.setSlot_map] using hc.2.2⟩ (fun hf => absurd rfl hf)
      ⟨hin', by simpa [Mem.fillDuration, Mem.setAcq_mutexes] using hrg,
        by simp [Mem.fillDuration, Mem.setAcq_mutexes, Mem.setSlot_map]⟩
    exact .slot rfl (fun n hn => setAcq_mutexes_of_ne hn)
      (fun i hi => by simp [Mem.fillDuration, Mem.setSlot_map, hi]) (.inr hc) (by rw [hpc]; rfl)
      (fun n hn => by rw [hpc]; exact fun h => hn (by cases h; rfl)) (by rw [hpc]; rfl)
  | @storeRange _ m r i hpc =>
    cases hl
    rw [State.setPc_ctl, if_pos rfl]
    obtain ⟨hin, hrg, hdu⟩ := hi.pcOk hpc
    have hc := hi.claims hpc rfl hin (fun h => by cases h)
    refine ht.writeSlot (ht.not_inside hpc (fun hb => hb)) ?_ hin.2.1 hin.2.2.2.2
      ⟨hin.1, by simpa [Mem.fillRange, Mem.setSlot_map] using hc.2.1,
        by simpa [Mem.fillRange, Mem.setSlot_map] using hc.2.2⟩ (fun _ => ?_) trivial
    · exact .slot rfl (fun n hn => rfl) (fun i hi => by simp [Mem.fillRange, Mem.setSlot_map, hi]) (.inr hc)
        (by rw [hpc]; rfl) (fun n hn => by rw [hpc]; exact fun h => hn (by cases h; rfl)) (by rw [hpc]; rfl)
    · simp [SiteFor, Mem.fillRange, Mem.setSlot_map, hrg, hdu, hin.2.2.1, hin.2.2.2.2]
  | @unlockBypass _ m now hpc hinn hb =>
    cases hl
    rw [State.setCtl_ctl_self]
    have hin : (s.ctl t).inside = true := by
      rcases hb with hb | hb
      · rw [hi.on] at hb; cases hb
      · exact hb
    have hmi := hinn hin
    obtain ⟨-, hpl, hlv⟩ := ht.inner m hmi
    refine ht.goto (by rw [hpc]; rfl) (by rw [hpc]; rfl) (by rw [hpc]; rfl) ht.pending List.erase_sublist
      (fun hout => ?_) (fun _ => ⟨rfl, ht.innerNodup.not_mem_erase⟩) ⟨hok.1, hlv, ?_, ?_⟩
    · exact absurd (hin.symm.trans hout) (by decide)
    · intro hw
      obtain ⟨n, hn, -, hwn, -, -, hpn⟩ := hi.slot (mapIndex m) (by rw [hw]; exact versioned_ne_zero v hok.1)
      have := versioned_inj hok.1 hn (hw.symm.trans hwn)
      subst this
      rw [hpl] at hpn
      cases hpn
    · exact ⟨⟨fun h => absurd rfl h, fun h => absurd hpl h.2.2⟩, fun h => absurd rfl h⟩
  | @unlockValid _ m now k hpc hcp hin hk hv =>
    cases hl
    rw [State.setPc_ctl, if_pos rfl]
    refine ht.removed hpc hin hk hok.1 (hi.slot _) (fun hs => ?_)
    have hr : (s.mem.mutexes m).acq.range ≠ 0 := by
      rw [← hs.1]
      simpa [isContentionSiteValid] using hv
    obtain ⟨hct, hpl, hdu⟩ := hs.2 hr
    exact ⟨⟨fun _ => ⟨hct, hr, by rw [hpl]; decide⟩, fun _ => hok.2⟩, fun _ => ⟨hs.1, hdu⟩⟩
  | @unlockInvalid _ m now k hpc hcp hin hk hv =>
    cases hl
    rw [State.setPc_ctl, if_pos rfl]
    refine ht.removed hpc hin hk hok.1 (hi.slot _) (fun hs => ?_)
    have hr : (s.mem.mutexes m).acq.range = 0 := by
      rw [← hs.1]
      simpa [isContentionSiteValid] using hv
    exact ⟨⟨fun h => absurd rfl h, fun h => absurd hr h.2.1⟩, fun h => absurd rfl h⟩
  | unlockMiss hpc hcp hin hk =>
    cases hl
    rw [State.setPc_ctl, if_pos rfl]
    exact ht.gotoPc (by rw [hpc]; rfl) (by rw [hpc]; rfl) (by rw [hpc]; rfl)
      (fun h => absurd (hin.symm.trans h) (by decide)) ⟨hok.1, TLSPthreadContentionSites.find_none hk⟩
  | @rmHit _ m _ hpc hn =>
    cases hl
    rw [State.setPc_ctl, if_pos rfl]
    obtain ⟨hm, hlv⟩ := hi.pcOk hpc
    have how := hi.owner hpc rfl
    refine ht.gotoPc (by rw [hpc]; rfl) (by rw [hpc]; rfl) (by rw [hpc]; rfl)
      (fun _ hb => by rw [hpc] at hb; exact hb.elim) ?_
    obtain ⟨n, hn', -, hw, -, hrec, hpl⟩ := hi.slot (mapIndex m) (ne_zero_of_namesMutex hm hn)
    rw [hw] at hn
    have := namesMutex_unique hn (namesMutex_versioned v hn')
    subst this
    exact ⟨hm, hlv, hrec.1, hrec.2.1, hpl⟩
  | @rmMiss _ m _ hpc hn =>
    cases hl
    rw [State.setPc_ctl, if_pos rfl]
    obtain ⟨hm, hlv⟩ := hi.pcOk hpc
    have how := hi.owner hpc rfl
    have hw : (s.mem.map (mapIndex m)).versionedMutex ≠ versioned v m := by
      intro hw
      rw [hw, namesMutex_versioned v hm] at hn
      cases hn
    refine ht.gotoPc (by rw [hpc]; rfl) (by rw [hpc]; rfl) (by rw [hpc]; rfl)
      (fun _ hb => by rw [hpc] at hb; exact hb.elim) ⟨hm, hlv, hw, ⟨fun h => absurd rfl h, fun h => ?_⟩,
        fun h => absurd rfl h⟩
    -- neither store has a record, so there is none
    have hg : (s.ctl t).pc.gone ≠ some m := by rw [hpc]; intro h; cases h
    cases hp : (s.mem.mutexes m).acq.place with
    | nowhere => exact absurd hp h.2.2
    | tls => exact absurd (ht.tls m how hp hg) hlv
    | map => exact absurd (ht.map m how hp hg).1.2.1 hw
  | @copyDuration _ m _ hpc =>
    cases hl
    rw [State.setPc_ctl, if_pos rfl]
    have hin : InMap s.mem t m := hi.pcOk hpc
    have hs := (ht.map m (hi.owner hpc rfl) hin.2.2.2.2 (by rw [hpc]; intro h; cases h)).2
      (by rw [hpc]; intro h; cases h)
    exact ht.gotoPc (by rw [hpc]; rfl) (by rw [hpc]; rfl) (by rw [hpc]; rfl)
      (fun _ hb => by rw [hpc] at hb; exact hb.elim) ⟨hin, (hs.2 hin.2.2.2.1).2.2⟩
  | @copyRange _ m saved _ hpc =>
    cases hl
    rw [State.setPc_ctl, if_pos rfl]
    obtain ⟨hin, hdu⟩ := hi.pcOk hpc
    have hs := (ht.map m (hi.owner hpc rfl) hin.2.2.2.2 (by rw [hpc]; intro h; cases h)).2
      (by rw [hpc]; intro h; cases h)
    exact ht.gotoPc (by rw [hpc]; rfl) (by rw [hpc]; rfl) (by rw [hpc]; rfl)
      (fun _ hb => by rw [hpc] at hb; exact hb.elim) ⟨hin, hs.1, hdu⟩
  | @invalidate _ m saved i hpc =>
    cases hl
    rw [State.setPc_ctl, if_pos rfl]
    have hp := hi.pcOk hpc
    have hin := hp.1
    have hc := hi.claims hpc rfl hin (fun h => by cases h)
    refine ht.writeSlot (ht.not_inside hpc (fun hb => hb)) ?_ hin.2.1 hin.2.2.2.2
      ⟨hin.1, by simpa [Mem.invalidate, Mem.setSlot_map] using hc.2.1,
        by simpa [Mem.invalidate, Mem.setSlot_map] using hc.2.2⟩ (fun hf => absurd rfl hf) hp
    exact .slot rfl (fun n hn => rfl) (fun i hi => by simp [Mem.invalidate, Mem.setSlot_map, hi]) (.inr hc)
      (by rw [hpc]; rfl) (fun n _ => by rw [hpc]; intro h; cases h) (by rw [hpc]; rfl)
  | @clear _ m saved i hpc =>
    cases hl
    rw [State.setPc_ctl, if_pos rfl]
    obtain ⟨hin, hsr, hdu⟩ := hi.pcOk hpc
    have hc := hi.claims hpc rfl hin (fun h => by cases h)
    have hout := ht.not_inside hpc (fun hb => hb)
    have hd : OneMutex v s.mem (s.mem.clear m) t (s.ctl t) { s.ctl t with pc := .realUnlock m saved i.nowNs } m :=
      .slot rfl (fun n hn => rfl) (fun j hj => by simp [Mem.clear, Mem.setSlot_map, hj]) (.inr hc)
        (by rw [hpc]; rfl) (fun n hn => by rw [hpc]; exact fun h => hn (by cases h; rfl)) (by rw [hpc]; rfl)
    refine ht.oneMutex hd (fun j hj hjm => absurd ⟨j, hj, hjm⟩ hin.2.1) (fun _ _ hg => absurd rfl hg)
      (fun _ _ hg => absurd rfl hg) (fun hmi => ?_) ht.innerNodup ht.outside (fun hins => ?_) ?_
    · rw [show ({ s.ctl t with pc := .realUnlock m saved i.nowNs } : Ctl).inner = (s.ctl t).inner from rfl,
        ht.outside hout] at hmi
      cases hmi
    · exact absurd (hout.symm.trans hins) (by decide)
    · refine ⟨hin.1, hin.2.1, ?_, ⟨fun _ => ⟨hin.2.2.1, hin.2.2.2.1, ?_⟩, fun _ => hok.1⟩, fun _ => ⟨hsr, hdu⟩⟩
      · simpa [Mem.clear, Mem.setSlot_map] using (versioned_ne_zero v hin.1).symm
      · rw [State.setPc_mem, clear_mutexes, hin.2.2.2.2]; decide
  | @unlockDone _ m saved i hpc how =>
    cases hl
    rw [State.setPc_ctl, if_pos rfl]
    exact threadOk_logUnlocked (ht.release hpc hi.count ht.outside (fun _ => trivial)
      (fun hins => ((hpc ▸ ht.inside hins : (Pc.realUnlock m saved 0).bypasses (s.ctl t).inner)).2) trivial)
  | @unlockSubmit _ m saved ns i hpc hns how =>
    cases hl
    rw [State.setPc_ctl, if_pos rfl]
    have hout := ht.not_inside hpc (fun hb => hns hb.1)
    exact ht.release hpc hi.count ht.outside (fun hins => absurd (hout.symm.trans hins) (by decide))
      (fun hins => absurd (hout.symm.trans hins) (by decide)) ⟨hns, (hi.pcOk hpc).2.2.2⟩
  | foreignDone hpc how => cases hl; exact absurd (hi.owner hpc rfl) how
  | foreignSubmit hpc hns how => cases hl; exact absurd (hi.owner hpc rfl) how
  | @submit _ m a saved ns i hpc =>
    cases hl
    rw [State.setCtl_ctl_self]
    refine threadOk_logUnlocked (ht.goto (by rw [hpc]; rfl) (by rw [hpc]; rfl) (by rw [hpc]; rfl) ht.pending
      (List.Sublist.refl _) (fun h => ?_) (fun _ => trivial) trivial)
    cases h
  | endSubmit hpc hin hinn =>
    cases hl
    rw [State.setCtl_ctl_self]
    refine ht.goto (by rw [hpc]; rfl) (by rw [hpc]; rfl) (by rw [hpc]; rfl) ht.pending (List.Sublist.refl _)
      (fun _ => hinn) (fun h => ?_) ht.pc
    cases h

/-! ## Slots, counts and finished unlocks -/

theorem SlotOk.of_eq {v : Nat} {s s' : Mem} {i : U64} (h : SlotOk v s i) (hmap : s'.map i = s.map i)
    (hmut : ∀ m, mapIndex m = i → (s.map i).versionedMutex = versioned v m →
      (s.mutexes m).owner = some (s.map i).filler → s'.mutexes m = s.mutexes m) : SlotOk v s' i := by
  intro hw
  rw [hmap] at hw ⊢
  obtain ⟨m, hm, hmi, hwm, how, hrec, hpl⟩ := h hw
  refine ⟨m, hm, hmi, hwm, ?_⟩
  rw [hmut m hmi hwm how]
  exact ⟨how, hrec, hpl⟩

theorem SlotOk.acquire {v : Nat} {s : Mem} {i : U64} {t : Thread} {m : Addr} {b : Bool} {r : U64} (h : SlotOk v s i)
    (hb : s.busy (fun _ => false) t m = false) : SlotOk v (s.acquire t m b r) i := by
  refine h.of_eq rfl (fun n _ _ how => acquire_mutexes_of_ne ?_)
  rintro rfl
  rw [owner_none_of_not_busy hb] at how
  cases how

theorem SlotOk.release {v : Nat} {s : Mem} {i : U64} {m : Addr} (h : SlotOk v s i)
    (hw : (s.map (mapIndex m)).versionedMutex ≠ versioned v m) : SlotOk v (s.release m) i := by
  refine h.of_eq rfl (fun n hni hwn _ => release_mutexes_of_ne ?_)
  rintro rfl
  exact hw (hni ▸ hwn)

/-- Writing the slot of a recorded acquisition. -/
theorem SlotOk.write {v : Nat} {s s' : Mem} {i : U64} {t : Thread} {m : Addr} (h : SlotOk v s i)
    (hmap : ∀ j, j ≠ mapIndex m → s'.map j = s.map j) (hmut : ∀ n, n ≠ m → s'.mutexes n = s.mutexes n)
    (hc : Claims v s' t m) (how : (s'.mutexes m).owner = some t) (hin : InMap s' t m) : SlotOk v s' i := by
  by_cases hi : i = mapIndex m
  · subst hi
    exact fun _ => ⟨m, hc.1, rfl, hc.2.1, by rw [how, hc.2.2],
      ⟨hin.2.2.1, hin.2.2.2.1, by rw [hin.2.2.2.2]; decide⟩, hin.2.2.2.2⟩
  · exact h.of_eq (hmap i hi) (fun n hn _ _ => hmut n (fun hnm => hi (by rw [← hn, hnm])))

theorem Step.slot {v : Nat} {s s' : State} {l : Label} (h : Step (fun _ => false) s l s') (hi : SessionInv v s)
    (hown : OwnerUnlocks s l) (hok : InSession s l) (i : U64) : SlotOk v s'.mem i := by
  have keep := hi.slot i
  have self := fun {t} (hl : l.thread = some t) => h.thread_self hi hok hl
  have how := fun {t m} (hl : l.thread = some t) (hm : (s'.ctl t).pc.owns = some m) =>
    h.owns_self hown hi.own hl hm
  cases h with
  | lockFree hpc hcp hin hb => exact keep.acquire hb
  | bypassDone hpc hres hb => exact keep.acquire hb
  | waitUnsampled hpc hres hb => exact keep.acquire hb
  | waitTls hpc hres hb hr =>
    refine keep.of_eq rfl (fun n _ _ how => ?_)
    have hne : n ≠ _ := fun hnm => by rw [hnm, owner_none_of_not_busy hb] at how; cases how
    exact (setAcq_mutexes_of_ne hne).trans (acquire_mutexes_of_ne hne)
  | waitMap hpc hres hb hr => exact keep.acquire hb
  | @casOk t m r ns e d _ hpc he =>
    have hpc' := (self rfl).pc
    rw [State.setPc_pc_self] at hpc'
    have how := how (m := m) rfl (by rw [State.setPc_pc_self]; rfl)
    refine keep.write (fun j hj => ?_) (fun n hn => setAcq_mutexes_of_ne hn)
      ((self rfl).claims how hpc'.1 (by rw [State.setPc_pc_self]; intro h; cases h)) how hpc'.1
    simp [Mem.claim, Mem.setSlot_map, hj]
  | @storeDuration t m r ns _ hpc =>
    have hpc' := (self rfl).pc
    rw [State.setPc_pc_self] at hpc'
    have how := how (m := m) rfl (by rw [State.setPc_pc_self]; rfl)
    refine keep.write (fun j hj => ?_) (fun n hn => setAcq_mutexes_of_ne hn)
      ((self rfl).claims how hpc'.1 (by rw [State.setPc_pc_self]; intro h; cases h)) how hpc'.1
    simp [Mem.fillDuration, Mem.setSlot_map, hj]
  | @storeRange t m r _ hpc =>
    have hin : InMap (s.mem.fillRange m r) t m := (hi.pcOk hpc).1
    have how : ((s.mem.fillRange m r).mutexes m).owner = some t := hi.owner hpc rfl
    refine keep.write (fun j hj => ?_) (fun n hn => rfl)
      ((self rfl).claims how hin (by rw [State.setPc_pc_self]; intro h; cases h)) how hin
    simp [Mem.fillRange, Mem.setSlot_map, hj]
  | @invalidate t m saved _ hpc =>
    have hpc' := (self rfl).pc
    rw [State.setPc_pc_self] at hpc'
    have how := how (m := m) rfl (by rw [State.setPc_pc_self]; rfl)
    refine keep.write (fun j hj => ?_) (fun n hn => rfl)
      ((self rfl).claims how hpc'.1 (by rw [State.setPc_pc_self]; intro h; cases h)) how hpc'.1
    simp [Mem.invalidate, Mem.setSlot_map, hj]
  | @clear t m saved _ hpc =>
    by_cases him : i = mapIndex m
    · subst him
      intro hw
      exact absurd (by simp [Mem.clear, Mem.setSlot_map]) hw
    · exact keep.of_eq (by simp [Mem.clear, Mem.setSlot_map, him]) (fun _ _ _ _ => rfl)
  | @unlockDone t m saved _ hpc _ => exact keep.release (hi.pcOk hpc).2.2.1
  | @unlockSubmit t m saved ns _ hpc hns _ => exact keep.release (hi.pcOk hpc).2.2.1
  | _ => exact keep

theorem CountOk.acquire {s : Mem} {t : Thread} {m : Addr} {b : Bool} {r : U64} (h : CountOk s)
    (hb : s.busy (fun _ => false) t m = false) : CountOk (s.acquire t m b r) := by
  intro n
  have hn := h n
  rw [Mem.acquire_mutexes]
  split
  · rename_i hnm
    subst hnm
    rw [owner_none_of_not_busy hb] at hn
    simp [hn]
  · exact hn

theorem CountOk.release {s : Mem} {m : Addr} (h : CountOk s) : CountOk (s.release m) := by
  intro n
  have hn := h n
  rw [Mem.release_mutexes]
  split
  · rename_i hnm
    subst hnm
    cases ho : (s.mutexes n).owner <;> simp [ho] at hn <;> simp [hn]
  · exact hn

theorem CountOk.setAcq {s : Mem} {m : Addr} {a : Acq} (h : CountOk s) : CountOk (s.setAcq m a) := by
  intro n
  rw [Mem.setAcq_count, Mem.setAcq_owner]
  exact h n

theorem Step.count {s s' : State} {l : Label} (h : Step (fun _ => false) s l s') (hc : CountOk s.mem) :
    CountOk s'.mem := by
  cases h with
  | lockFree hpc hcp hin hb => exact hc.acquire hb
  | bypassDone hpc hres hb => exact hc.acquire hb
  | waitUnsampled hpc hres hb => exact hc.acquire hb
  | waitTls hpc hres hb hr => exact (hc.acquire hb).setAcq
  | waitMap hpc hres hb hr => exact hc.acquire hb
  | casOk hpc he => exact hc.setAcq
  | storeDuration hpc => exact hc.setAcq
  | unlockDone hpc => exact hc.release
  | unlockSubmit hpc hns how => exact hc.release
  | _ => exact hc

/-- A finished unlock submitted the site of a recorded acquisition, or nothing. -/
theorem Step.log {v : Nat} {s s' : State} {l : Label} (h : Step (fun _ => false) s l s') (hi : SessionInv v s)
    {x : Unlocked} (hx : x ∈ s'.mem.log) : UnlockedOk x := by
  cases h with
  | @unlockDone t m saved i hpc how =>
    rcases List.mem_cons.1 hx with rfl | hx
    · obtain ⟨-, -, -, hns, -⟩ := hi.pcOk hpc
      exact ⟨⟨nofun, fun hr => absurd rfl (hns.2 hr)⟩, nofun⟩
    · exact hi.log x hx
  | foreignDone hpc how => exact absurd (hi.owner hpc rfl) how
  | @submit t m a saved ns i hpc =>
    rcases List.mem_cons.1 hx with rfl | hx
    · obtain ⟨hns, hiff, hsaved⟩ := hi.pcOk hpc
      refine ⟨⟨fun _ => hiff.1 hns, fun _ => rfl⟩, fun cs hcs => ?_⟩
      cases hcs
      exact ⟨(hsaved hns).1, by rw [← (hsaved hns).2]⟩
    · exact hi.log x hx
  | _ => exact hi.log x hx

theorem Step.cp {v : Nat} {s s' : State} {l : Label} (h : Step recursive s l s') (hi : SessionInv v s)
    (hok : InSession s l) : s'.mem.cp = true ∧ s'.mem.cpVersion = v := by
  cases h with
  | start => exact hok.elim
  | stop => exact hok.elim
  | _ => exact ⟨hi.on, hi.version⟩

/-- **Every step of the session keeps the invariant.** -/
theorem sessionInv_step {v : Nat} {s s' : State} {l : Label} (hi : SessionInv v s) (hok : InSession s l)
    (hown : OwnerUnlocks s l) (h : Step (fun _ => false) s l s') : SessionInv v s' where
  on := (h.cp hi hok).1
  version := (h.cp hi hok).2
  own := ownOk_step hi.own h hown
  count := h.count hi.count
  thread := by
    intro t
    by_cases hl : l.thread = some t
    · exact h.thread_self hi hok hl
    · rw [h.ctl_other hl]
      exact (hi.thread t).frame (fun m hm => hi.own t m hm) (h.untouched hi hl)
  slot := h.slot hi hown hok
  log := fun _ hx => h.log hi hx

/-! ## The session -/

/-- The profiler is on and both stores are empty.  A mutex may be held already: its acquisition has no record. -/
structure SessionStart (v : Nat) (s : State) : Prop where
  on : s.mem.cp = true
  version : s.mem.cpVersion = v
  ctl : ∀ t, s.ctl t = Ctl.start
  tls : ∀ t, (s.mem.tls t).count = 0
  map : ∀ i, (s.mem.map i).versionedMutex = 0
  mutexes : ∀ m, (s.mem.mutexes m).acq.place = .nowhere
  count : CountOk s.mem
  log : s.mem.log = []

/-- One profiling session of version `v` over mutexes that are not recursive. -/
def sessionSystem (v : Nat) : System State Label where
  init := SessionStart v
  step := step (fun _ => false)

theorem SessionStart.inv {v : Nat} {s : State} (h : SessionStart v s) : SessionInv v s where
  on := h.on
  version := h.version
  own := fun t m hm => by rw [h.ctl t] at hm; cases hm
  count := h.count
  thread := by
    intro t
    have hnone : ∀ j, ¬ j < (s.mem.tls t).count := fun j hj => by rw [h.tls t] at hj; exact Nat.not_lt_zero j hj
    rw [h.ctl t]
    exact
      { version := fun hc => absurd hc (hnone 0)
        distinct := fun i j hi => absurd hi (hnone i)
        entry := fun j hj => absurd hj (hnone j)
        tls := fun m _ hp => by rw [h.mutexes m] at hp; cases hp
        map := fun m _ hp => by rw [h.mutexes m] at hp; cases hp
        pending := fun m hm => by cases hm
        inner := fun m hm => by cases hm
        innerNodup := List.nodup_nil
        outside := fun _ => rfl
        inside := fun hin => by cases hin
        pc := trivial }
  slot := fun i hw => absurd (h.map i) hw
  log := fun x hx => by rw [h.log] at hx; cases hx

theorem sessionInv_reachable {v : Nat} {s : State} (h : (sessionSystem v).ReachableVia InSession s) :
    SessionInv v s := by
  refine System.ReachableVia.invariant (I := SessionInv v) (fun s hs => ?_) (fun s l s' hi hok hst => ?_) h
  · exact SessionStart.inv hs
  · exact sessionInv_step hi hok (step_cases hst).2 (step_cases hst).1

/-- The thread is acquiring the mutex: it has met `EBUSY` and waits for the real lock. -/
def Acquiring (s : State) (t : Thread) (m : Addr) : Prop := ∃ r k ns, (s.ctl t).pc = .waiting m r k ns

theorem Pc.acquiring_some {pc : Pc} {m : Addr} {k : Nat} (h : pc.acquiring = some (m, k)) :
    ∃ r ns, pc = .waiting m r (some k) ns := by
  cases pc with
  | waiting n r j ns =>
    cases j with
    | none => cases h
    | some j => cases h; exact ⟨r, ns, rfl⟩
  | _ => cases h

/-- **Within one session the two stores follow the ownership of the mutexes, and an unlock submits the record of its
own acquisition.** -/
theorem session_records {v : Nat} {s : State} (h : (sessionSystem v).ReachableVia InSession s) :
    (∀ t i j, i < (s.mem.tls t).count → j < (s.mem.tls t).count →
      ((s.mem.tls t).list i).mutex = ((s.mem.tls t).list j).mutex → i = j) ∧
    (∀ t m, Live (s.mem.tls t) m → (s.mem.mutexes m).owner = some t ∨ Acquiring s t m) ∧
    (∀ i, (s.mem.map i).versionedMutex ≠ 0 → ∃ m, namesMutex (s.mem.map i).versionedMutex m = true ∧
      (s.mem.mutexes m).owner = some (s.mem.map i).filler) ∧
    (∀ t m, (s.mem.mutexes m).owner = some t → Live (s.mem.tls t) m →
      ∀ i, (s.mem.map i).versionedMutex ≠ 0 → namesMutex (s.mem.map i).versionedMutex m = false) ∧
    (∀ x ∈ s.mem.log, (x.submitted.isSome = true ↔ x.acq.contended = true ∧ x.acq.range ≠ 0 ∧ x.acq.place ≠ .nowhere) ∧
      ∀ cs, x.submitted = some cs →
        cs.samplingRange = x.acq.range ∧ cs.durationNs = x.acq.wait + (x.endNs - x.startNs)) := by
  have hi := sessionInv_reachable h
  refine ⟨fun t => (hi.thread t).distinct, fun t m hl => ?_, fun i hw => ?_, fun t m how hl i hw => ?_, hi.log⟩
  · obtain ⟨j, hj, rfl⟩ := hl
    rcases (hi.thread t).entry j hj with ha | ho
    · obtain ⟨r, ns, hpc⟩ := Pc.acquiring_some ha
      exact .inr ⟨r, some j, ns, hpc⟩
    · exact .inl ho.1
  · obtain ⟨m, hm, -, hwm, how, -⟩ := hi.slot i hw
    exact ⟨m, by rw [hwm]; exact namesMutex_versioned v hm, how⟩
  · -- a recorded acquisition has one place
    obtain ⟨n, hn, -, hwn, -, hrec, hpl⟩ := hi.slot i hw
    by_contra hnm
    rw [hwn, Bool.not_eq_false] at hnm
    have := namesMutex_unique hnm (namesMutex_versioned v hn)
    subst this
    obtain ⟨j, hj, hjm⟩ := hl
    rcases (hi.thread t).entry j hj with ha | ho
    · obtain ⟨r, ns, hpc⟩ := Pc.acquiring_some ha
      exact (hi.pcOk hpc).2.1 (hjm ▸ how)
    · rw [hjm] at ho
      have := (ho.2.2 hrec.2.1).2.1
      rw [hpl] at this
      cases this

/-- A session starts with every mutex free and the lists as an earlier session left them, emptied. -/
def sessionState (v : Nat) : State := ⟨{ initMem with cp := true, cpVersion := v }, fun _ => .start⟩

theorem sessionStart_sessionState (v : Nat) : SessionStart v (sessionState v) :=
  ⟨rfl, rfl, fun _ => rfl, fun _ => rfl, fun _ => rfl, fun _ => rfl, fun _ => rfl, rfl⟩

/-- Thread 1 locks four mutexes, the fourth is recorded in the map; it unlocks the fourth and the second. -/
def sessionRun : List Label :=
  contendedLock 1 101 0 ++ contendedLock 1 102 16 ++ contendedLock 1 103 0 ++ contendedLock 1 8 16 ++
    List.replicate 5 (Label.go 1 ⟨7, 0, 0⟩) ++
    .unlock 1 8 9 :: List.replicate 7 (Label.go 1 ⟨9, 0, 0⟩) ++ .endSubmit 1 :: .unlock 1 102 10 ::
    List.replicate 2 (Label.go 1 ⟨12, 0, 0⟩)

theorem session_records_sessionRun : ∃ s, (sessionSystem 3).ReachableVia InSession s ∧
    (∃ x ∈ s.mem.log, x.submitted.isSome = true ∧ x.acq.place = .map) ∧
    (∀ t m, Live (s.mem.tls t) m → (s.mem.mutexes m).owner = some t ∨ Acquiring s t m) ∧
    ∀ x ∈ s.mem.log, (x.submitted.isSome = true ↔ x.acq.contended = true ∧ x.acq.range ≠ 0 ∧ x.acq.place ≠ .nowhere) ∧
      ∀ cs, x.submitted = some cs →
        cs.samplingRange = x.acq.range ∧ cs.durationNs = x.acq.wait + (x.endNs - x.startNs) := by
  have hrun : ((sessionSystem 3).run (sessionState 3) sessionRun).map (fun s => s.mem.log.any (fun x =>
      x.submitted.isSome && x.acq.place == .map)) = some true := by decide
  have hok : System.RunOk (sessionSystem 3) InSession (sessionState 3) sessionRun := by decide
  obtain ⟨s, hs, hx⟩ := Option.map_eq_some_iff.1 hrun
  have hreach : (sessionSystem 3).ReachableVia InSession s :=
    System.ReachableVia.run (.init (sessionStart_sessionState 3)) sessionRun hok hs
  have h := session_records hreach
  exact ⟨s, hreach, by simpa using hx, h.2.1, h.2.2.2.2⟩

end Hook
end ContentionProf
