import ContentionProf.HookOwner
/-!
# HookRange — no submitted site has the sampling range 0

`remove_pthread_contention_site` checks the owner of a slot once and then copies, invalidates and clears it without
another look; `add_pthread_contention_site` may take a slot of an earlier session over at any moment in between.  So
two threads can be removing from one slot, and the second copies the range the first has just zeroed: the division by
zero of `submit_contention` (`range_zero_submitted`).  A thread that unlocks a mutex it does not own comes to the same
end by itself, when it copies the site before the owner has stored it (`range_zero_of_not_alone`).  As long as no
ownership check passes while another thread has the slot's site still to invalidate, or still to store beside the
range 0, every submitted range is positive (`submitted_range_ne_zero`).
-/
namespace ContentionProf
namespace Hook

variable {recursive : Addr → Bool}

/-- The mutex whose slot a thread is removing: past line 86, before line 92 is done. -/
def Pc.removing : Pc → Option Addr
  | .copyDuration m => some m
  | .copyRange m _  => some m
  | .invalidate m _ => some m
  | .clear m _      => some m
  | _               => none

/-- A thread is removing from slot `i`. -/
def Removing (s : State) (u : Thread) (i : U64) : Prop := ∃ m, (s.ctl u).pc.removing = some m ∧ mapIndex m = i

/-- The mutex whose slot a thread is storing into: past the CAS of line 76, before line 157 is done. -/
def Pc.storing : Pc → Option Addr
  | .storeDuration m _ _ => some m
  | .storeRange m _      => some m
  | _                    => none

/-- A thread is storing into slot `i`. -/
def Storing (s : State) (u : Thread) (i : U64) : Prop := ∃ m, (s.ctl u).pc.storing = some m ∧ mapIndex m = i

/-- Line 91 is behind the thread, line 92 ahead. -/
def Pc.cleared : Pc → Prop
  | .clear _ _ => True
  | _          => False

/-- **The ownership check of line 86 passes only when nobody else is at work on the slot**, or when whoever is has
invalidated the site already or is about to store it, and the slot has a range; and no null mutex is unlocked. -/
def AloneAtCheck (s : State) : Label → Prop
  | .unlock _ m _ => m ≠ 0
  | .go t _       => ∀ m, (s.ctl t).pc = .rmLoad m → namesMutex (s.mem.map (mapIndex m)).versionedMutex m = true →
      ∀ u, u ≠ t →
        (Removing s u (mapIndex m) → (s.ctl u).pc.cleared ∧ (s.mem.map (mapIndex m)).csite.samplingRange ≠ 0) ∧
        (Storing s u (mapIndex m) → (s.mem.map (mapIndex m)).csite.samplingRange ≠ 0)
  | _             => True

/-! ## The invariant -/

/-- The ranges a thread carries along are positive. -/
def Pc.rangeOk : Pc → Prop
  | .addLoad _ r _         => r ≠ 0
  | .addDesired _ r _ _    => r ≠ 0
  | .addCas _ r _ _ _      => r ≠ 0
  | .storeDuration _ r _   => r ≠ 0
  | .storeRange _ r        => r ≠ 0
  | .rmLoad m              => m ≠ 0
  | .invalidate _ saved    => saved.samplingRange ≠ 0
  | .clear _ saved         => saved.samplingRange ≠ 0
  | .realUnlock _ saved ns => ns ≠ 0 → saved.samplingRange ≠ 0
  | .submit _ _ saved _    => saved.samplingRange ≠ 0
  | _                      => True

/-- The thread will yet give slot `i` a range or an empty word, whatever they are now: it has taken the slot and not
stored the range, or it has invalidated the site and not cleared the word. -/
def Pc.pins (i : U64) : Pc → Prop
  | .storeDuration m _ _ => mapIndex m = i
  | .storeRange m _      => mapIndex m = i
  | .clear m _           => mapIndex m = i
  | _                    => False

/-- The thread has still to copy the range of the slot of `m`. -/
def Pc.copies (m : Addr) : Pc → Prop
  | .copyDuration n => n = m
  | .copyRange n _  => n = m
  | _               => False

structure RangeInv (s : State) : Prop where
  pc : ∀ t, (s.ctl t).pc.rangeOk
  slot : ∀ i, (s.mem.map i).versionedMutex ≠ 0 → (s.mem.map i).csite.samplingRange = 0 →
    ∃ u, (s.ctl u).pc.pins i
  copies : ∀ t m, (s.ctl t).pc.copies m → (s.mem.map (mapIndex m)).csite.samplingRange ≠ 0 ∧
    ∀ u, u ≠ t → Removing s u (mapIndex m) → (s.ctl u).pc.cleared
  log : ∀ x ∈ s.mem.log, ∀ cs, x.submitted = some cs → cs.samplingRange ≠ 0

theorem rangeInv_init : RangeInv initState where
  pc := fun _ => trivial
  slot := fun _ h => absurd rfl h
  copies := fun _ _ h => by cases h
  log := fun _ h => by cases h

/-! ## What each step keeps -/

theorem isContentionSiteValid_iff (cs : Site) : isContentionSiteValid cs = true ↔ cs.samplingRange ≠ 0 := by
  simp [isContentionSiteValid]

theorem Step.pc_rangeOk {s s' : State} {l : Label} (h : Step recursive s l s') (hok : AloneAtCheck s l)
    (hi : RangeInv s) : ∀ t, (s'.ctl t).pc.rangeOk := by
  intro t
  by_cases hl : l.thread = some t
  · have old : ∀ {pc : Pc}, (s.ctl t).pc = pc → pc.rangeOk := fun hpc => hpc ▸ hi.pc t
    cases h with
    | start => cases hl
    | stop => cases hl
    | lockBusy hpc => cases hl; rw [State.setCtl_ctl_self]; exact hi.pc t
    | waitMap hpc hres hb hr => cases hl; rw [State.setPc_pc_self]; exact hr
    | addTake hpc => cases hl; have hv := old hpc; rw [State.setPc_pc_self]; exact hv
    | addDesired hpc => cases hl; have hv := old hpc; rw [State.setPc_pc_self]; exact hv
    | casOk hpc => cases hl; have hv := old hpc; rw [State.setPc_pc_self]; exact hv
    | storeDuration hpc => cases hl; have hv := old hpc; rw [State.setPc_pc_self]; exact hv
    | unlockBypass => cases hl; rw [State.setCtl_ctl_self]; exact fun h => absurd rfl h
    | unlockValid hpc hcp hin hk hv =>
      cases hl
      rw [State.setPc_pc_self]
      exact fun _ => (isContentionSiteValid_iff _).1 hv
    | unlockInvalid => cases hl; rw [State.setPc_pc_self]; exact fun h => absurd rfl h
    | unlockMiss => cases hl; rw [State.setPc_pc_self]; exact hok
    | rmMiss => cases hl; rw [State.setPc_pc_self]; exact fun h => absurd rfl h
    | copyRange hpc =>
      cases hl
      rw [State.setPc_pc_self]
      exact (hi.copies t _ (by rw [hpc]; rfl)).1
    | invalidate hpc => cases hl; have hv := old hpc; rw [State.setPc_pc_self]; exact hv
    | clear hpc => cases hl; rw [State.setPc_pc_self]; exact fun _ => old hpc
    | unlockSubmit hpc hns => cases hl; rw [State.setPc_pc_self]; exact old hpc hns
    | foreignSubmit hpc hns => cases hl; rw [State.setPc_pc_self]; exact old hpc hns
    | endSubmit hpc => cases hl; rw [State.setCtl_ctl_self]; exact hi.pc t
    | _ =>
      cases hl
      first
        | (rw [State.setCtl_ctl_self]; trivial)
        | (rw [State.setPc_pc_self]; trivial)
  · rw [h.ctl_other hl]
    exact hi.pc t

/-- A slot the step does not write stays pinned, unless the acting thread pinned it. -/
theorem Step.pins_kept {s s' : State} {l : Label} {t : Thread} {pc : Pc} {i : U64} (h : Step recursive s l s')
    (hl : l.thread = some t) (hpc : (s.ctl t).pc = pc) (hmap : s'.mem.map i = s.mem.map i)
    (hno : ¬ pc.pins i) (hi : RangeInv s) (hw : (s'.mem.map i).versionedMutex ≠ 0)
    (hz : (s'.mem.map i).csite.samplingRange = 0) : ∃ u, (s'.ctl u).pc.pins i := by
  rw [hmap] at hw hz
  obtain ⟨u, hu⟩ := hi.slot i hw hz
  have hne : l.thread ≠ some u := by
    intro hlu
    rw [hl] at hlu
    cases hlu
    exact hno (hpc ▸ hu)
  exact ⟨u, by rw [h.ctl_other hne]; exact hu⟩

theorem Step.slot_pinned {s s' : State} {l : Label} (h : Step recursive s l s') (hi : RangeInv s) (i : U64)
    (hw : (s'.mem.map i).versionedMutex ≠ 0) (hz : (s'.mem.map i).csite.samplingRange = 0) :
    ∃ u, (s'.ctl u).pc.pins i := by
  have hst := h
  cases h with
  | start => exact hi.slot i hw hz
  | stop => exact hi.slot i hw hz
  | @casOk t m _ _ _ _ _ hpc _ =>
    by_cases him : i = mapIndex m
    · exact ⟨t, by rw [State.setPc_pc_self]; exact him.symm⟩
    · exact hst.pins_kept rfl hpc (by simp [Mem.claim, Mem.setSlot_map, him]) (fun h => h) hi hw hz
  | @storeDuration t m _ _ _ hpc =>
    by_cases him : i = mapIndex m
    · exact ⟨t, by rw [State.setPc_pc_self]; exact him.symm⟩
    · exact hst.pins_kept rfl hpc (by simp [Mem.fillDuration, Mem.setSlot_map, him]) (fun h => him h.symm) hi hw hz
  | @storeRange t m _ _ hpc =>
    by_cases him : i = mapIndex m
    · subst him
      have hr := hi.pc t
      rw [hpc] at hr
      exact absurd (by simpa [Mem.fillRange, Mem.setSlot_map] using hz) hr
    · exact hst.pins_kept rfl hpc (by simp [Mem.fillRange, Mem.setSlot_map, him]) (fun h => him h.symm) hi hw hz
  | @invalidate t m _ _ hpc =>
    by_cases him : i = mapIndex m
    · exact ⟨t, by rw [State.setPc_pc_self]; exact him.symm⟩
    · exact hst.pins_kept rfl hpc (by simp [Mem.invalidate, Mem.setSlot_map, him]) (fun h => h) hi hw hz
  | @clear t m _ _ hpc =>
    by_cases him : i = mapIndex m
    · subst him
      exact absurd (by simp [Mem.clear, Mem.setSlot_map]) hw
    · exact hst.pins_kept rfl hpc (by simp [Mem.clear, Mem.setSlot_map, him]) (fun h => him h.symm) hi hw hz
  | _ =>
    have hpc := ‹(s.ctl _).pc = _›
    exact hst.pins_kept rfl hpc rfl (fun h => h) hi hw hz

/-! ## The thread about to copy a range -/

theorem Pc.copies_removing {pc : Pc} {m : Addr} (h : pc.copies m) : pc.removing = some m := by
  cases pc <;> simp_all [Pc.copies, Pc.removing]

theorem Pc.copies_not_cleared {pc : Pc} {m : Addr} (h : pc.copies m) : ¬ pc.cleared := by
  cases pc <;> simp_all [Pc.copies, Pc.cleared]

theorem word_ne_zero_of_namesMutex {w : U64} {m : Addr} (hm : m ≠ 0) (h : namesMutex w m = true) : w ≠ 0 := by
  rintro rfl
  rw [namesMutex_iff] at h
  exact hm (BitVec.toNat_inj.1 (by simpa using h.symm))

/-- **A check that passes under `AloneAtCheck` meets a positive range**: were it zero, the slot would be pinned, by a
thread that is storing into the slot or by one that is removing from it. -/
theorem range_ne_zero_of_check {s : State} {t : Thread} {m : Addr} {inp : Input} (hi : RangeInv s)
    (hok : AloneAtCheck s (.go t inp)) (hpc : (s.ctl t).pc = .rmLoad m)
    (hn : namesMutex (s.mem.map (mapIndex m)).versionedMutex m = true) :
    (s.mem.map (mapIndex m)).csite.samplingRange ≠ 0 := by
  intro hz
  have hm : m ≠ 0 := by have h := hi.pc t; rw [hpc] at h; exact h
  obtain ⟨u, hu⟩ := hi.slot (mapIndex m) (word_ne_zero_of_namesMutex hm hn) hz
  have hut : u ≠ t := by rintro rfl; rw [hpc] at hu; exact hu
  obtain ⟨hrem, hfill⟩ := hok m hpc hn u hut
  cases hpu : (s.ctl u).pc with
  | storeDuration n r ns => rw [hpu] at hu; exact hfill ⟨n, by rw [hpu]; rfl, hu⟩ hz
  | storeRange n r => rw [hpu] at hu; exact hfill ⟨n, by rw [hpu]; rfl, hu⟩ hz
  | clear n saved => rw [hpu] at hu; exact (hrem ⟨n, by rw [hpu]; rfl, hu⟩).2 hz
  | _ => rw [hpu] at hu; exact hu

/-- Only the thread that acts begins a removal, by the check of line 86. -/
theorem Step.removing_of {s s' : State} {l : Label} {u : Thread} {i : U64} (h : Step recursive s l s')
    (hr : Removing s' u i) : Removing s u i ∨ ∃ inp m, l = .go u inp ∧ mapIndex m = i ∧ (s.ctl u).pc = .rmLoad m ∧
      namesMutex (s.mem.map (mapIndex m)).versionedMutex m = true := by
  obtain ⟨n, hn, hni⟩ := hr
  by_cases hl : l.thread = some u
  · have keep : ∀ {pc : Pc}, (s.ctl u).pc = pc → pc.removing = some n → Removing s u i :=
      fun hpc hp => ⟨n, by rw [hpc]; exact hp, hni⟩
    cases h with
    | start => cases hl
    | stop => cases hl
    | lockBusy => cases hl; rw [State.setCtl_ctl_self] at hn; exact .inl (keep rfl hn)
    | endSubmit => cases hl; rw [State.setCtl_ctl_self] at hn; exact .inl (keep rfl hn)
    | rmHit hpc hnm =>
      cases hl
      rw [State.setPc_pc_self] at hn
      cases hn
      exact .inr ⟨_, _, rfl, hni, hpc, hnm⟩
    | copyDuration hpc => cases hl; rw [State.setPc_pc_self] at hn; exact .inl (keep hpc hn)
    | copyRange hpc => cases hl; rw [State.setPc_pc_self] at hn; exact .inl (keep hpc hn)
    | invalidate hpc => cases hl; rw [State.setPc_pc_self] at hn; exact .inl (keep hpc hn)
    | _ =>
      cases hl
      first
        | (rw [State.setCtl_ctl_self] at hn; cases hn)
        | (rw [State.setPc_pc_self] at hn; cases hn)
  · rw [h.ctl_other hl] at hn
    exact .inl ⟨n, hn, hni⟩

/-- Only line 91 makes a range zero. -/
theorem Step.range_zero_of {s s' : State} {l : Label} {i : U64} (h : Step recursive s l s') (hi : RangeInv s)
    (hz : (s'.mem.map i).csite.samplingRange = 0) : (s.mem.map i).csite.samplingRange = 0 ∨
      ∃ t m saved, l.thread = some t ∧ (s.ctl t).pc = .invalidate m saved ∧ mapIndex m = i := by
  cases h with
  | @casOk t m =>
    simp only [State.setPc_mem, Mem.claim, Mem.setSlot_map] at hz
    split at hz
    · rename_i him; subst him; exact .inl hz
    · exact .inl hz
  | @storeDuration t m =>
    simp only [State.setPc_mem, Mem.fillDuration, Mem.setSlot_map] at hz
    split at hz
    · rename_i him; subst him; exact .inl hz
    · exact .inl hz
  | @storeRange t m _ _ hpc =>
    simp only [State.setPc_mem, Mem.fillRange, Mem.setSlot_map] at hz
    split at hz
    · have hr := hi.pc t
      rw [hpc] at hr
      exact absurd hz hr
    · exact .inl hz
  | @invalidate t m saved _ hpc =>
    simp only [State.setPc_mem, Mem.invalidate, Mem.setSlot_map] at hz
    split at hz
    · rename_i him; exact .inr ⟨t, m, saved, rfl, hpc, him.symm⟩
    · exact .inl hz
  | @clear t m =>
    simp only [State.setPc_mem, Mem.clear, Mem.setSlot_map] at hz
    split at hz
    · rename_i him; subst him; exact .inl hz
    · exact .inl hz
  | _ => exact .inl hz

/-- A thread that has only the word left to clear is done with the slot on its next step. -/
theorem Step.removing_cleared {s s' : State} {l : Label} {u : Thread} {i : U64} (h : Step recursive s l s')
    (hc : (s.ctl u).pc.cleared) (hr : Removing s' u i) : (s'.ctl u).pc.cleared := by
  by_cases hl : l.thread = some u
  · obtain ⟨n, hn, -⟩ := hr
    cases hpu : (s.ctl u).pc with
    | clear m saved =>
      cases h with
      | start => cases hl
      | stop => cases hl
      | clear => cases hl; rw [State.setPc_pc_self] at hn; cases hn
      | _ => cases hl; have hpc := ‹(s.ctl _).pc = _›; simp_all
    | _ => rw [hpu] at hc; exact hc.elim
  · rw [h.ctl_other hl]; exact hc

theorem Step.copies_kept {s s' : State} {l : Label} (h : Step recursive s l s') (hok : AloneAtCheck s l)
    (hi : RangeInv s) (t : Thread) (m : Addr) (hc : (s'.ctl t).pc.copies m) :
    (s'.mem.map (mapIndex m)).csite.samplingRange ≠ 0 ∧
      ∀ u, u ≠ t → Removing s' u (mapIndex m) → (s'.ctl u).pc.cleared := by
  by_cases hl : l.thread = some t
  · -- the thread itself: it has just passed the check, or goes on copying
    have others : (∀ u, u ≠ t → Removing s u (mapIndex m) → (s.ctl u).pc.cleared) →
        ∀ u, u ≠ t → Removing s' u (mapIndex m) → (s'.ctl u).pc.cleared := by
      intro ho u hu ⟨n, hn, hni⟩
      have hlu : l.thread ≠ some u := fun hlu => hu (by rw [hl] at hlu; cases hlu; rfl)
      rw [h.ctl_other hlu] at hn ⊢
      exact ho u hu ⟨n, hn, hni⟩
    cases h with
    | start => cases hl
    | stop => cases hl
    | lockBusy hpc => cases hl; rw [State.setCtl_ctl_self] at hc; simp only [hpc] at hc; exact hc.elim
    | endSubmit hpc => cases hl; rw [State.setCtl_ctl_self] at hc; simp only [hpc] at hc; exact hc.elim
    | rmHit hpc hn =>
      cases hl
      rw [State.setPc_pc_self] at hc
      cases hc
      have hr := range_ne_zero_of_check hi hok hpc hn
      exact ⟨hr, others (fun u hu hr => ((hok m hpc hn u hu).1 hr).1)⟩
    | copyDuration hpc =>
      cases hl
      rw [State.setPc_pc_self] at hc
      cases hc
      have old := hi.copies t m (by rw [hpc]; rfl)
      exact ⟨old.1, others old.2⟩
    | _ =>
      cases hl
      first
        | (rw [State.setCtl_ctl_self] at hc; exact hc.elim)
        | (rw [State.setPc_pc_self] at hc; exact hc.elim)
  · rw [h.ctl_other hl] at hc
    obtain ⟨hr, ho⟩ := hi.copies t m hc
    refine ⟨fun hz => ?_, fun u hu hru => ?_⟩
    · rcases h.range_zero_of hi hz with hz | ⟨v, n, saved, hlv, hpv, hnv⟩
      · exact hr hz
      · have hvt : v ≠ t := by rintro rfl; exact hl hlv
        have := ho v hvt ⟨n, by rw [hpv]; rfl, hnv⟩
        rw [hpv] at this
        exact this
    · rcases h.removing_of hru with hru' | ⟨inp, n, rfl, hni, hpn, hnn⟩
      · exact h.removing_cleared (ho u hu hru') hru
      · -- a check that passes beside this thread is what `AloneAtCheck` rules out
        have := ((hok n hpn hnn t hu.symm).1 ⟨m, Pc.copies_removing hc, hni.symm⟩).1
        exact absurd this (Pc.copies_not_cleared hc)

theorem Step.log_ranges {s s' : State} {l : Label} (h : Step recursive s l s') (hi : RangeInv s) :
    ∀ x ∈ s'.mem.log, ∀ cs, x.submitted = some cs → cs.samplingRange ≠ 0 := by
  cases h with
  | unlockDone =>
    intro x hx cs hcs
    rcases List.mem_cons.1 hx with rfl | hx
    · cases hcs
    · exact hi.log x hx cs hcs
  | foreignDone =>
    intro x hx cs hcs
    rcases List.mem_cons.1 hx with rfl | hx
    · cases hcs
    · exact hi.log x hx cs hcs
  | @submit t _ _ _ _ _ hpc =>
    intro x hx cs hcs
    rcases List.mem_cons.1 hx with rfl | hx
    · cases hcs
      have hr := hi.pc t
      rw [hpc] at hr
      exact hr
    · exact hi.log x hx cs hcs
  | _ => exact hi.log

theorem rangeInv_step {s s' : State} {l : Label} (h : Step recursive s l s') (hok : AloneAtCheck s l)
    (hi : RangeInv s) : RangeInv s' where
  pc := h.pc_rangeOk hok hi
  slot := h.slot_pinned hi
  copies := h.copies_kept hok hi
  log := h.log_ranges hi

theorem rangeInv_reachable {s : State} (h : (hookSystem recursive).ReachableVia AloneAtCheck s) : RangeInv s := by
  refine System.ReachableVia.invariant (I := RangeInv) (fun s hs => ?_) (fun s l s' hi hok hst => ?_) h
  · cases hs
    exact rangeInv_init
  · exact rangeInv_step (hookStep_cases hst) hok hi

/-- **Every submitted site has a positive sampling range**, so `submit_contention` never divides by zero, in every run
whose ownership checks all meet `AloneAtCheck`. -/
theorem submitted_range_ne_zero {s : State} (h : (hookSystem recursive).ReachableVia AloneAtCheck s) :
    ∀ x ∈ s.mem.log, ∀ cs, x.submitted = some cs → cs.samplingRange ≠ 0 ∧ (submitContention cs).isSome = true := by
  intro x hx cs hcs
  have hr := (rangeInv_reachable h).log x hx cs hcs
  exact ⟨hr, by rw [submitContention, if_neg hr]; rfl⟩

/-! ## The condition leaves out nothing else -/

/-- A thread whose check passes on a slot with the range 0 submits the range 0, running alone. -/
theorem zero_submitted_of_zero {s : State} {t : Thread} {m : Addr} (hs : (hookSystem recursive).Reachable s)
    (hpc : (s.ctl t).pc = .rmLoad m) (hn : namesMutex (s.mem.map (mapIndex m)).versionedMutex m = true)
    (hz : (s.mem.map (mapIndex m)).csite.samplingRange = 0) : ∃ s', (hookSystem recursive).Reachable s' ∧
      ∃ x ∈ s'.mem.log, ∃ cs, x.submitted = some cs ∧ cs.samplingRange = 0 := by
  have hrun : ∃ s' x cs, (hookSystem recursive).run s (List.replicate 7 (.go t ⟨1, 0, 0⟩)) = some s' ∧
      s'.mem.log = x :: s.mem.log ∧ x.submitted = some cs ∧ cs.samplingRange = 0 := by
    simp [System.run_cons, hookSystem, hookStep, advance, hpc, hn, hz, List.replicate, Mem.clear, Mem.invalidate]
  obtain ⟨s', x, cs, hr, hl, hx, hcs⟩ := hrun
  exact ⟨s', hs.run _ hr, x, by rw [hl]; exact List.mem_cons_self, cs, hx, hcs⟩

/-- A thread that has not invalidated the site yet can do so at once. -/
theorem removing_zeroes {s : State} {t u : Thread} {m : Addr} (hs : (hookSystem recursive).Reachable s) (hut : u ≠ t)
    (hr : Removing s u (mapIndex m)) (hc : ¬ (s.ctl u).pc.cleared) : ∃ s', (hookSystem recursive).Reachable s' ∧
      s'.ctl t = s.ctl t ∧ (s'.mem.map (mapIndex m)).versionedMutex = (s.mem.map (mapIndex m)).versionedMutex ∧
      (s'.mem.map (mapIndex m)).csite.samplingRange = 0 := by
  have htu : t ≠ u := hut.symm
  obtain ⟨n, hn, hnm⟩ := hr
  -- one run of the thread alone, as many steps as it has left up to line 91
  suffices hrun : ∃ k s', (hookSystem recursive).run s (List.replicate k (.go u ⟨0, 0, 0⟩)) = some s' ∧
      s'.ctl t = s.ctl t ∧ (s'.mem.map (mapIndex m)).versionedMutex = (s.mem.map (mapIndex m)).versionedMutex ∧
      (s'.mem.map (mapIndex m)).csite.samplingRange = 0 by
    obtain ⟨k, s', hrun, h⟩ := hrun
    exact ⟨s', hs.run _ hrun, h⟩
  cases hpu : (s.ctl u).pc <;> rw [hpu] at hn hc <;> cases hn
  case clear => exact absurd trivial hc
  case' copyDuration => refine ⟨3, ?_⟩
  case' copyRange => refine ⟨2, ?_⟩
  case' invalidate => refine ⟨1, ?_⟩
  all_goals
    simp [System.run_cons, hookSystem, hookStep, advance, hpu, List.replicate, Mem.invalidate, Mem.setSlot_map, hnm,
      htu, State.setPc_ctl, makeContentionSiteInvalid]

/-- **A check that passes against `AloneAtCheck` can be continued to a division by zero.** -/
theorem range_zero_of_not_alone {s : State} {t : Thread} {inp : Input} (hs : (hookSystem recursive).Reachable s)
    (h : ¬ AloneAtCheck s (.go t inp)) : ∃ s', (hookSystem recursive).Reachable s' ∧
      ∃ x ∈ s'.mem.log, ∃ cs, x.submitted = some cs ∧ cs.samplingRange = 0 := by
  simp only [AloneAtCheck, not_forall, not_and_or] at h
  obtain ⟨m, hpc, hn, u, hut, ⟨hr, h⟩ | ⟨-, hz⟩⟩ := h
  · by_cases hz : (s.mem.map (mapIndex m)).csite.samplingRange = 0
    · exact zero_submitted_of_zero hs hpc hn hz
    · have hc : ¬ (s.ctl u).pc.cleared := h.resolve_right (not_not.2 hz)
      obtain ⟨s', hs', ht, hw, hz'⟩ := removing_zeroes hs hut hr hc
      exact zero_submitted_of_zero hs' (by rw [ht]; exact hpc) (by rw [hw]; exact hn) hz'
  · -- the slot is being stored into and has no range yet: the check copies the 0 at once
    exact zero_submitted_of_zero hs hpc hn (not_not.1 hz)

/-! ## The run that divides by zero -/

/-- Mutexes 8 and 24 share a slot.  Thread 1 unlocks mutex 8 up to the ownership check; a new session begins; thread 2
locks mutex 24 and takes the slot over; thread 1 copies and invalidates the site; thread 2 unlocks. -/
def takeoverRun : List Label :=
  .start :: mapLock 1 101 102 103 8 ++ [Label.unlock 1 8 1, Label.go 1 ⟨1, 0, 0⟩, Label.stop, Label.start] ++
    mapLock 2 201 202 203 24 ++ List.replicate 3 (Label.go 1 ⟨1, 0, 0⟩) ++
    .unlock 2 24 1 :: List.replicate 7 (Label.go 2 ⟨9, 0, 0⟩)

/-- **A sample is submitted with the sampling range 0**: `submit_contention` divides by zero. -/
theorem range_zero_submitted : ∃ s, (hookSystem (fun _ => false)).Reachable s ∧
    ∃ x ∈ s.mem.log, ∃ cs, x.submitted = some cs ∧ cs.samplingRange = 0 ∧ submitContention cs = none := by
  have hrun : ((hookSystem (fun _ => false)).run initState takeoverRun).map (fun s => s.mem.log.any (fun x =>
      x.submitted.any (fun cs => cs.samplingRange == 0 && (submitContention cs).isNone))) = some true := by
    decide
  obtain ⟨s, hs, hx⟩ := Option.map_eq_some_iff.1 hrun
  refine ⟨s, System.Reachable.run (.init rfl) takeoverRun hs, ?_⟩
  obtain ⟨x, hx, hcs⟩ := List.any_eq_true.1 hx
  obtain ⟨cs, hcs, hr⟩ := (Option.any_eq_true _ _).1 hcs
  simp only [Bool.and_eq_true, beq_iff_eq, Option.isNone_iff_eq_none] at hr
  exact ⟨x, hx, cs, hcs, hr.1, hr.2⟩

/-- No ownership check passes on this move: a part of `AloneAtCheck` that can be evaluated. -/
def MissesCheck (s : State) : Label → Bool
  | .unlock _ m _ => decide (m ≠ 0)
  | .go t _       =>
    match (s.ctl t).pc with
    | .rmLoad m => !namesMutex (s.mem.map (mapIndex m)).versionedMutex m
    | _         => true
  | _             => true

theorem aloneAtCheck_of_misses {s : State} {l : Label} (h : MissesCheck s l = true) : AloneAtCheck s l := by
  cases l with
  | unlock t m now => exact of_decide_eq_true (p := m ≠ 0) h
  | go t i =>
    intro m hpc hn
    simp only [MissesCheck, hpc, hn] at h
    cases h
  | _ => trivial

/-- A contended lock of one session, recorded in the thread's list and submitted at the unlock. -/
def listRun : List Label :=
  .start :: contendedLock 1 8 16 ++ [Label.unlock 1 8 2, Label.go 1 ⟨3, 0, 0⟩, Label.go 1 ⟨4, 0, 0⟩, Label.endSubmit 1]

theorem submitted_range_listRun : ∃ s, (hookSystem (fun _ => false)).ReachableVia AloneAtCheck s ∧
    (∃ x ∈ s.mem.log, x.submitted.isSome = true) ∧
    ∀ x ∈ s.mem.log, ∀ cs, x.submitted = some cs → cs.samplingRange ≠ 0 ∧ (submitContention cs).isSome = true := by
  have hrun : ((hookSystem (fun _ => false)).run initState listRun).map (fun s => s.mem.log.any (fun x =>
      x.submitted.isSome)) = some true := by decide
  have hok : System.RunOk (hookSystem (fun _ => false)) (fun s l => MissesCheck s l = true) initState listRun := by
    decide
  obtain ⟨s, hs, hx⟩ := Option.map_eq_some_iff.1 hrun
  have hreach : (hookSystem (fun _ => false)).ReachableVia AloneAtCheck s :=
    (System.ReachableVia.run (.init rfl) listRun hok hs).mono (fun _ _ h => aloneAtCheck_of_misses h)
  exact ⟨s, hreach, by simpa using hx, submitted_range_ne_zero hreach⟩

end Hook
end ContentionProf
