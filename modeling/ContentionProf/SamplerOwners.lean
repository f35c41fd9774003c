import ContentionProf.SamplerCollector
/-!
# SamplerOwners — who may touch a sampler (`common/sampler.h`, `common/reducer.h`)

A sampler belongs to the reducer that made it until `destroy` has returned, and `used_` is false from then on.  The
sampling thread reads `used_` and takes the sample under the sampler's mutex, so it finds the reducer alive.
-/
namespace ContentionProf
namespace SamplerCollector

structure Owned (s : State) : Prop where
  busy : ∀ {t r x}, (s.pc t).call = some (r, x) → s.busy r = some t
  call : ∀ {t r x}, (s.pc t).call = some (r, x) → s.samplerOf r = some x
  own : ∀ {r x}, s.samplerOf r = some x → s.owner x = r ∧ x < s.created ∧ s.alive r = true ∧ x ∉ s.destroyed
  kept : ∀ x < s.created, x ∉ s.destroyed → s.samplerOf (s.owner x) = some x
  used : ∀ x < s.created, s.used x = false → x ∈ s.destroyed ∨ ∃ t r, s.pc t = .unlock r x
  unused : ∀ x ∈ s.destroyed, s.used x = false ∧ x < s.created
  cleared : ∀ {t r x}, s.pc t = .unlock r x → s.used x = false
  storing : ∀ {t x}, (s.pc t).locked = some x → s.mtx x = some (.user t)
  holding : ∀ {x}, s.run.locked = some x → s.mtx x = some .sampling
  sampling : ∀ {x p}, s.run = .sample x p → s.used x = true
  gone : ∀ {x}, s.run.gone = some x → x ∈ s.destroyed
  current : ∀ {x}, s.run.current = some x → x < s.created

variable {s s' : State} {t : Thread} {r : Var} {x : Nat} {p : Node}

theorem Pc.call_of_locked {pc : Pc} (h : pc.locked = some x) : ∃ r, pc.call = some (r, x) := by
  cases pc with
  | store r y => cases h; exact ⟨r, rfl⟩
  | unlock r y => cases h; exact ⟨r, rfl⟩
  | _ => cases h

theorem Pc.call_of_held {pc : Pc} (h : pc.held = some x) : ∃ r, pc.call = some (r, x) := by
  cases pc with
  | agent r y => cases h; exact ⟨r, rfl⟩
  | append r y => cases h; exact ⟨r, rfl⟩
  | modify r y => cases h; exact ⟨r, rfl⟩
  | _ => cases h

theorem RunPc.current_of_locked {q : RunPc} (h : q.locked = some x) : q.current = some x := by
  cases q with
  | check | sample | sampled | unlock => exact h
  | _ => cases h

theorem Owned.of_call (h : Owned s) (hc : (s.pc t).call = some (r, x)) :
    s.owner x = r ∧ x < s.created ∧ s.alive r = true ∧ x ∉ s.destroyed := h.own (h.call hc)

/-- **Two threads are not about the same sampler.** -/
theorem Owned.thread_unique (h : Owned s) {u : Thread} {r' : Var} (ht : (s.pc t).call = some (r, x))
    (hu : (s.pc u).call = some (r', x)) : t = u := by
  have hr : r = r' := (h.of_call ht).1.symm.trans (h.of_call hu).1
  have hbusy := (h.busy ht).symm.trans (hr ▸ h.busy hu)
  exact Option.some.inj hbusy

/-- **The sampling thread takes a sample of a sampler that is not destroyed, and whose reducer is alive.** -/
theorem Owned.sample (h : Owned s) (hr : s.run = .sample x p) : x ∉ s.destroyed ∧ s.alive (s.owner x) = true := by
  have hx : x < s.created := h.current (by rw [hr]; rfl)
  have hd : x ∉ s.destroyed := by
    intro hd
    have := (h.unused x hd).1
    rw [h.sampling hr] at this
    cases this
  exact ⟨hd, (h.own (h.kept x hx hd)).2.2.1⟩

/-! ## Steps that leave the samplers alone -/

/-- The fields that say who owns what. -/
structure SameOwners (s s' : State) : Prop where
  samplerOf : s'.samplerOf = s.samplerOf
  owner : s'.owner = s.owner
  alive : s'.alive = s.alive
  created : s'.created = s.created
  used : s'.used = s.used
  destroyed : s'.destroyed = s.destroyed

/-- **A thread moves on**, to be about the same sampler or about none, and owns no mutex before or after. -/
theorem Owned.move {q : Pc} (h : Owned s) (hs : SameOwners s s') (hpc : s'.pc = Function.update s.pc t q)
    (hmtx : s'.mtx = s.mtx) (hrun : s'.run = s.run) (hold : (s.pc t).locked = none) (hnew : q.locked = none)
    (hcall : ∀ c, q.call = some c → (s.pc t).call = some c)
    (hbusy : ∀ {u r y}, (s'.pc u).call = some (r, y) → s'.busy r = s.busy r) : Owned s' := by
  have hother : ∀ u, u ≠ t → s'.pc u = s.pc u := fun u hu => by rw [hpc, Function.update_of_ne hu]
  have hself : s'.pc t = q := by rw [hpc, Function.update_self]
  have hcalls : ∀ {u c}, (s'.pc u).call = some c → (s.pc u).call = some c := by
    intro u c hc
    by_cases hu : u = t
    · subst hu
      rw [hself] at hc
      exact hcall c hc
    · rwa [hother u hu] at hc
  have hunlock : ∀ {u r y}, s.pc u = .unlock r y ↔ s'.pc u = .unlock r y := by
    intro u r y
    by_cases hu : u = t
    · subst hu
      rw [hself]
      refine iff_of_false (fun he => ?_) (fun he => ?_)
      · rw [he] at hold
        cases hold
      · rw [he] at hnew
        cases hnew
    · rw [hother u hu]
  constructor
  · intro u r y hc
    rw [hbusy hc]
    exact h.busy (hcalls hc)
  · intro u r y hc
    rw [hs.samplerOf]
    exact h.call (hcalls hc)
  · rw [hs.samplerOf, hs.owner, hs.created, hs.alive, hs.destroyed]
    exact h.own
  · rw [hs.samplerOf, hs.owner, hs.created, hs.destroyed]
    exact h.kept
  · rw [hs.created, hs.used, hs.destroyed]
    intro y hy hu
    refine (h.used y hy hu).imp_right (fun ⟨u, r, hpc⟩ => ⟨u, r, hunlock.1 hpc⟩)
  · rw [hs.created, hs.used, hs.destroyed]
    exact h.unused
  · intro u r y hpc
    rw [hs.used]
    exact h.cleared (hunlock.2 hpc)
  · intro u y hl
    rw [hmtx]
    by_cases hu : u = t
    · subst hu
      rw [hself, hnew] at hl
      cases hl
    · rw [hother u hu] at hl
      exact h.storing hl
  · rw [hrun, hmtx]
    exact h.holding
  · rw [hrun, hs.used]
    exact h.sampling
  · rw [hrun, hs.destroyed]
    exact h.gone
  · rw [hrun, hs.created]
    exact h.current

theorem Owned.go {q : Pc} (h : Owned s) (hs : SameOwners s s') (hpc : s'.pc = Function.update s.pc t q)
    (hmtx : s'.mtx = s.mtx) (hrun : s'.run = s.run) (hbusy : s'.busy = s.busy) (hold : (s.pc t).locked = none)
    (hnew : q.locked = none) (hcall : ∀ c, q.call = some c → (s.pc t).call = some c) : Owned s' :=
  h.move hs hpc hmtx hrun hold hnew hcall (fun _ => by rw [hbusy])

theorem Owned.finish (h : Owned s) (hs : SameOwners s s') (hpc : s'.pc = Function.update s.pc t .idle)
    (hmtx : s'.mtx = s.mtx) (hrun : s'.run = s.run) (hbusy : s'.busy = Function.update s.busy r none)
    (hc : (s.pc t).call = some (r, x)) (hold : (s.pc t).locked = none) : Owned s' := by
  refine h.move hs hpc hmtx hrun hold rfl (fun c hcall => by cases hcall) (fun {u r' y} hu => ?_)
  rw [hbusy]
  refine Function.update_of_ne ?_ ..
  rintro rfl
  by_cases hut : u = t
  · subst hut
    rw [hpc, Function.update_self] at hu
    cases hu
  · rw [hpc, Function.update_of_ne hut] at hu
    exact hut (Option.some.inj ((h.busy hu).symm.trans (h.busy hc)))

/-- **The sampling thread moves on** and owns no mutex after it that it did not own. -/
theorem Owned.goRun {q : RunPc} (h : Owned s) (hs : SameOwners s s') (hpc : s'.pc = s.pc) (hbusy : s'.busy = s.busy)
    (hmtx : s'.mtx = s.mtx) (hrun : s'.run = q) (hlocked : ∀ {x}, q.locked = some x → s.run.locked = some x)
    (hsample : ∀ {x p}, q = .sample x p → s.used x = true) (hgone : ∀ {x}, q.gone = some x → x ∈ s.destroyed)
    (hcurrent : ∀ {x}, q.current = some x → x < s.created) : Owned s' := by
  constructor
  · rw [hpc, hbusy]
    exact h.busy
  · rw [hpc, hs.samplerOf]
    exact h.call
  · rw [hs.samplerOf, hs.owner, hs.created, hs.alive, hs.destroyed]
    exact h.own
  · rw [hs.samplerOf, hs.owner, hs.created, hs.destroyed]
    exact h.kept
  · rw [hs.created, hs.used, hs.destroyed, hpc]
    exact h.used
  · rw [hs.created, hs.used, hs.destroyed]
    exact h.unused
  · rw [hpc, hs.used]
    exact h.cleared
  · rw [hpc, hmtx]
    exact h.storing
  · rw [hrun, hmtx]
    exact fun hl => h.holding (hlocked hl)
  · rw [hrun, hs.used]
    exact hsample
  · rw [hrun, hs.destroyed]
    exact hgone
  · rw [hrun, hs.created]
    exact hcurrent

/-! ## A sampler is made -/

/-- `get_sampler` makes a sampler. -/
theorem Owned.newSampler (h : Owned s) (hidle : s.pc t = .idle) (halive : s.alive r = true) (hbusy : s.busy r = none)
    (hnone : s.samplerOf r = none) :
    Owned (((s.newSampler r).setBusy r (some t)).setPc t (.agent r s.created)) := by
  have hother : ∀ {u}, u ≠ t → (((s.newSampler r).setBusy r (some t)).setPc t (.agent r s.created)).pc u = s.pc u :=
    fun hu => Function.update_of_ne hu ..
  have hself : (((s.newSampler r).setBusy r (some t)).setPc t (.agent r s.created)).pc t = .agent r s.created :=
    Function.update_self ..
  have hpcs : ∀ {u} {pc : Pc}, pc ≠ .agent r s.created → pc ≠ .idle →
      ((((s.newSampler r).setBusy r (some t)).setPc t (.agent r s.created)).pc u = pc ↔ s.pc u = pc) := by
    intro u pc h₁ h₂
    by_cases hu : u = t
    · subst hu
      rw [hself, hidle]
      exact iff_of_false (fun he => h₁ he.symm) (fun he => h₂ he.symm)
    · rw [hother hu]
  have hcall : ∀ {u r' y}, u ≠ t → (s.pc u).call = some (r', y) → r' ≠ r := by
    rintro u r' y hu hc rfl
    rw [h.busy hc] at hbusy
    cases hbusy
  have hlt : ∀ {y}, y < s.created → y ≠ s.created := fun hy => Nat.ne_of_lt hy
  have hlocked : ∀ {u y}, (s.pc u).locked = some y → y < s.created := by
    intro u y hl
    obtain ⟨r', hc⟩ := Pc.call_of_locked hl
    exact (h.of_call hc).2.1
  constructor
  · intro u r' y hc
    by_cases hu : u = t
    · subst hu
      rw [hself] at hc
      cases hc
      exact Function.update_self ..
    · rw [hother hu] at hc
      exact (Function.update_of_ne (hcall hu hc) ..).trans (h.busy hc)
  · intro u r' y hc
    by_cases hu : u = t
    · subst hu
      rw [hself] at hc
      cases hc
      exact Function.update_self ..
    · rw [hother hu] at hc
      exact (Function.update_of_ne (hcall hu hc) ..).trans (h.call hc)
  · intro r' y hy
    have hy : Function.update s.samplerOf r (some s.created) r' = some y := hy
    by_cases hr : r' = r
    · subst hr
      rw [Function.update_self] at hy
      cases hy
      refine ⟨Function.update_self .., Nat.lt_succ_self _, halive, fun hd => ?_⟩
      exact Nat.lt_irrefl _ (h.unused _ hd).2
    · rw [Function.update_of_ne hr] at hy
      obtain ⟨howner, hlty, hal, hd⟩ := h.own hy
      exact ⟨(Function.update_of_ne (hlt hlty) ..).trans howner, Nat.lt_succ_of_lt hlty, hal, hd⟩
  · intro y hy hd
    show Function.update s.samplerOf r _ (Function.update s.owner s.created r y) = some y
    rcases Nat.lt_succ_iff_lt_or_eq.1 hy with hy | rfl
    · have hk := h.kept y hy hd
      rw [Function.update_of_ne (hlt hy)]
      refine (Function.update_of_ne (fun hr => ?_) ..).trans hk
      rw [hr, hnone] at hk
      cases hk
    · rw [Function.update_self, Function.update_self]
  · intro y hy hu
    have hu : Function.update s.used s.created true y = false := hu
    rcases Nat.lt_succ_iff_lt_or_eq.1 hy with hy | rfl
    · rw [Function.update_of_ne (hlt hy)] at hu
      refine (h.used y hy hu).imp_right (fun ⟨u, r', hpc⟩ => ⟨u, r', ?_⟩)
      exact (hpcs (by simp) (by simp)).2 hpc
    · rw [Function.update_self] at hu
      cases hu
  · intro y hd
    obtain ⟨hu, hy⟩ := h.unused y hd
    exact ⟨(Function.update_of_ne (hlt hy) ..).trans hu, Nat.lt_succ_of_lt hy⟩
  · intro u r' y hpc
    have hpc := (hpcs (by simp) (by simp)).1 hpc
    have hy := (h.of_call (t := u) (by rw [hpc]; rfl)).2.1
    exact (Function.update_of_ne (hlt hy) ..).trans (h.cleared hpc)
  · intro u y hl
    by_cases hu : u = t
    · subst hu
      rw [hself] at hl
      cases hl
    · rw [hother hu] at hl
      exact (Function.update_of_ne (hlt (hlocked hl)) ..).trans (h.storing hl)
  · intro y hl
    exact (Function.update_of_ne (hlt (h.current (RunPc.current_of_locked hl))) ..).trans (h.holding hl)
  · intro y p hs
    have hy : y < s.created := h.current (x := y) (by rw [show s.run = .sample y p from hs]; rfl)
    exact (Function.update_of_ne (hlt hy) ..).trans (h.sampling hs)
  · exact h.gone
  · exact fun hc => Nat.lt_succ_of_lt (h.current hc)

/-! ## A sampler is destroyed -/

/-- `~Reducer` finds no sampler. -/
theorem Owned.dropVar (h : Owned s) (hnone : s.samplerOf r = none) : Owned (s.dropVar r) := by
  have hne : ∀ {r' y}, s.samplerOf r' = some y → r' ≠ r := by
    rintro r' y hy rfl
    rw [hnone] at hy
    cases hy
  have hsame : (s.dropVar r).samplerOf = s.samplerOf := by
    funext r'
    by_cases hr : r' = r
    · rw [hr, hnone]
      exact Function.update_self ..
    · exact Function.update_of_ne hr ..
  refine ⟨h.busy, ?_, ?_, ?_, h.used, h.unused, h.cleared, h.storing, h.holding, h.sampling, h.gone, h.current⟩
  · rw [hsame]
    exact h.call
  · intro r' y hy
    rw [hsame] at hy
    obtain ⟨howner, hlt, hal, hd⟩ := h.own hy
    exact ⟨howner, hlt, (Function.update_of_ne (hne hy) ..).trans hal, hd⟩
  · rw [hsame]
    exact h.kept

/-- `~Reducer` finds one. -/
theorem Owned.beginDestroy (h : Owned s) (hidle : s.pc t = .idle) (hbusy : s.busy r = none)
    (hx : s.samplerOf r = some x) : Owned ((s.setBusy r (some t)).setPc t (.lock r x)) := by
  have hother : ∀ {u}, u ≠ t → ((s.setBusy r (some t)).setPc t (.lock r x)).pc u = s.pc u :=
    fun hu => Function.update_of_ne hu ..
  have hself : ((s.setBusy r (some t)).setPc t (.lock r x)).pc t = .lock r x := Function.update_self ..
  have hpcs : ∀ {u r' y}, ((s.setBusy r (some t)).setPc t (.lock r x)).pc u = .unlock r' y ↔ s.pc u = .unlock r' y := by
    intro u r' y
    by_cases hu : u = t
    · subst hu
      rw [hself, hidle]
      exact iff_of_false (fun he => by cases he) (fun he => by cases he)
    · rw [hother hu]
  refine ⟨?_, ?_, h.own, h.kept, ?_, h.unused, ?_, ?_, h.holding, h.sampling, h.gone, h.current⟩
  · intro u r' y hc
    by_cases hu : u = t
    · subst hu
      rw [hself] at hc
      cases hc
      exact Function.update_self ..
    · rw [hother hu] at hc
      refine (Function.update_of_ne ?_ ..).trans (h.busy hc)
      rintro rfl
      rw [h.busy hc] at hbusy
      cases hbusy
  · intro u r' y hc
    by_cases hu : u = t
    · subst hu
      rw [hself] at hc
      cases hc
      exact hx
    · rw [hother hu] at hc
      exact h.call hc
  · intro y hy hu
    exact (h.used y hy hu).imp_right (fun ⟨u, r', hpc⟩ => ⟨u, r', hpcs.2 hpc⟩)
  · exact fun hpc => h.cleared (hpcs.1 hpc)
  · intro u y hl
    by_cases hu : u = t
    · subst hu
      rw [hself] at hl
      cases hl
    · rw [hother hu] at hl
      exact h.storing hl

/-- A mutex that nobody owned changes hands. -/
theorem Owned.mtx_ne (h : Owned s) (hfree : s.mtx x = none) :
    (∀ {u y}, (s.pc u).locked = some y → y ≠ x) ∧ ∀ {y}, s.run.locked = some y → y ≠ x := by
  constructor
  · rintro u y hl rfl
    rw [h.storing hl] at hfree
    cases hfree
  · rintro y hl rfl
    rw [h.holding hl] at hfree
    cases hfree

/-- `destroy`, the lock. -/
theorem Owned.lock (h : Owned s) (hpc : s.pc t = .lock r x) (hfree : s.mtx x = none) :
    Owned ((s.setMtx x (some (.user t))).setPc t (.store r x)) := by
  have hother : ∀ {u}, u ≠ t → ((s.setMtx x (some (.user t))).setPc t (.store r x)).pc u = s.pc u :=
    fun hu => Function.update_of_ne hu ..
  have hself : ((s.setMtx x (some (.user t))).setPc t (.store r x)).pc t = .store r x := Function.update_self ..
  have hcalls : ∀ {u c}, (((s.setMtx x (some (.user t))).setPc t (.store r x)).pc u).call = some c →
      (s.pc u).call = some c := by
    intro u c hc
    by_cases hu : u = t
    · subst hu
      rw [hself] at hc
      rw [hpc]
      exact hc
    · rwa [hother hu] at hc
  have hpcs : ∀ {u r' y}, ((s.setMtx x (some (.user t))).setPc t (.store r x)).pc u = .unlock r' y ↔
      s.pc u = .unlock r' y := by
    intro u r' y
    by_cases hu : u = t
    · subst hu
      rw [hself, hpc]
      exact iff_of_false (fun he => by cases he) (fun he => by cases he)
    · rw [hother hu]
  refine ⟨fun hc => h.busy (hcalls hc), fun hc => h.call (hcalls hc), h.own, h.kept, ?_, h.unused,
    fun hp => h.cleared (hpcs.1 hp), ?_, ?_, h.sampling, h.gone, h.current⟩
  · intro y hy hu
    exact (h.used y hy hu).imp_right (fun ⟨u, r', hp⟩ => ⟨u, r', hpcs.2 hp⟩)
  · intro u y hl
    by_cases hu : u = t
    · subst hu
      rw [hself] at hl
      cases hl
      exact Function.update_self ..
    · rw [hother hu] at hl
      exact (Function.update_of_ne ((h.mtx_ne hfree).1 hl) ..).trans (h.storing hl)
  · intro y hl
    exact (Function.update_of_ne ((h.mtx_ne hfree).2 hl) ..).trans (h.holding hl)

/-- `used_ = false`. -/
theorem Owned.store (h : Owned s) (hpc : s.pc t = .store r x) :
    Owned ({ s with used := Function.update s.used x false }.setPc t (.unlock r x)) := by
  have hother : ∀ {u}, u ≠ t → ({ s with used := Function.update s.used x false }.setPc t (.unlock r x)).pc u =
      s.pc u :=
    fun hu => Function.update_of_ne hu ..
  have hself : ({ s with used := Function.update s.used x false }.setPc t (.unlock r x)).pc t = .unlock r x :=
    Function.update_self ..
  have hcalls : ∀ {u c}, (({ s with used := Function.update s.used x false }.setPc t (.unlock r x)).pc u).call =
      some c →
      (s.pc u).call = some c := by
    intro u c hc
    by_cases hu : u = t
    · subst hu
      rw [hself] at hc
      rw [hpc]
      exact hc
    · rwa [hother hu] at hc
  have hmtx : s.mtx x = some (.user t) := h.storing (by rw [hpc]; rfl)
  have hfalse : ∀ {y}, s.used y = false → Function.update s.used x false y = false := by
    intro y hy
    rw [Function.update_apply]
    split
    · rfl
    · exact hy
  refine ⟨fun hc => h.busy (hcalls hc), fun hc => h.call (hcalls hc), h.own, h.kept, ?_,
    fun y hd => ⟨hfalse (h.unused y hd).1, (h.unused y hd).2⟩, ?_, ?_, h.holding, ?_, h.gone, h.current⟩
  · intro y hy hu
    by_cases hyx : y = x
    · exact .inr ⟨t, r, hyx ▸ hself⟩
    · refine (h.used y hy ((Function.update_of_ne hyx ..).symm.trans hu)).imp_right (fun ⟨u, r', hp⟩ => ⟨u, r', ?_⟩)
      refine (hother ?_).trans hp
      rintro rfl
      rw [hpc] at hp
      cases hp
  · intro u r' y hp
    by_cases hu : u = t
    · subst hu
      rw [hself] at hp
      cases hp
      exact Function.update_self ..
    · rw [hother hu] at hp
      exact hfalse (h.cleared hp)
  · intro u y hl
    by_cases hu : u = t
    · subst hu
      rw [hself] at hl
      cases hl
      exact hmtx
    · rw [hother hu] at hl
      exact h.storing hl
  · intro y p hr
    have hy : y ≠ x := by
      rintro rfl
      have hlock := h.holding (x := y) (by rw [show s.run = .sample y p from hr]; rfl)
      rw [hmtx] at hlock
      cases hlock
    exact (Function.update_of_ne hy ..).trans (h.sampling hr)

/-- **`destroy` returns, and the reducer is gone.** -/
theorem Owned.unlock (h : Owned s) (hpc : s.pc t = .unlock r x) :
    Owned (({ (s.setMtx x none).dropVar r with destroyed := s.destroyed ++ [x] }.setBusy r none).setPc t .idle) := by
  generalize hs' : (({ (s.setMtx x none).dropVar r with destroyed := s.destroyed ++ [x] }.setBusy r none).setPc t .idle)
    = s'
  have hpc' : s'.pc = Function.update s.pc t .idle := by rw [← hs']; rfl
  have hmtx' : s'.mtx = Function.update s.mtx x none := by rw [← hs']; rfl
  have hbusy' : s'.busy = Function.update s.busy r none := by rw [← hs']; rfl
  have hsam' : s'.samplerOf = Function.update s.samplerOf r none := by rw [← hs']; rfl
  have halive' : s'.alive = Function.update s.alive r false := by rw [← hs']; rfl
  have hdes' : s'.destroyed = s.destroyed ++ [x] := by rw [← hs']; rfl
  have hrest : s'.owner = s.owner ∧ s'.created = s.created ∧ s'.used = s.used ∧ s'.run = s.run := by
    rw [← hs']
    exact ⟨rfl, rfl, rfl, rfl⟩
  obtain ⟨howner', hcreated', hused', hrun'⟩ := hrest
  have hc : (s.pc t).call = some (r, x) := by rw [hpc]; rfl
  obtain ⟨hox, hltx, -, -⟩ := h.of_call hc
  have hmtx : s.mtx x = some (.user t) := h.storing (by rw [hpc]; rfl)
  -- the other threads are about other reducers
  have hother : ∀ {u c}, (s'.pc u).call = some c → u ≠ t ∧ (s.pc u).call = some c ∧ c.1 ≠ r := by
    intro u c hu
    rw [hpc'] at hu
    by_cases hut : u = t
    · subst hut
      rw [Function.update_self] at hu
      cases hu
    · rw [Function.update_of_ne hut] at hu
      refine ⟨hut, hu, fun hr => hut ?_⟩
      exact Option.some.inj ((h.busy (x := c.2) hu).symm.trans (hr ▸ h.busy hc))
  have hmem : ∀ {y}, y ∈ s'.destroyed ↔ y ∈ s.destroyed ∨ y = x := by
    intro y
    rw [hdes', List.mem_append, List.mem_singleton]
  have hlocked : ∀ {y}, s.run.locked = some y → y ≠ x := by
    rintro y hl rfl
    rw [h.holding hl] at hmtx
    cases hmtx
  constructor
  · intro u r' y hu
    obtain ⟨-, hu, hr⟩ := hother hu
    rw [hbusy', Function.update_of_ne hr]
    exact h.busy hu
  · intro u r' y hu
    obtain ⟨-, hu, hr⟩ := hother hu
    rw [hsam', Function.update_of_ne hr]
    exact h.call hu
  · intro r' y hy
    rw [hsam'] at hy
    have hr : r' ≠ r := by
      rintro rfl
      rw [Function.update_self] at hy
      cases hy
    rw [Function.update_of_ne hr] at hy
    obtain ⟨ho, hlt, hal, hd⟩ := h.own hy
    rw [howner', hcreated', halive', Function.update_of_ne hr]
    refine ⟨ho, hlt, hal, fun hd' => ?_⟩
    rcases hmem.1 hd' with hd' | rfl
    · exact hd hd'
    · exact hr (ho.symm.trans hox)
  · intro y hy hd
    rw [hcreated'] at hy
    have hk := h.kept y hy (fun hd' => hd (hmem.2 (.inl hd')))
    have hr : s.owner y ≠ r := by
      intro hr
      rw [hr, h.call hc] at hk
      exact hd (hmem.2 (.inr (Option.some.inj hk).symm))
    rw [howner', hsam', Function.update_of_ne hr]
    exact hk
  · intro y hy hu
    rw [hcreated'] at hy
    rw [hused'] at hu
    rcases h.used y hy hu with hd | ⟨u, r', hp⟩
    · exact .inl (hmem.2 (.inl hd))
    · by_cases hut : u = t
      · subst hut
        rw [hpc] at hp
        cases hp
        exact .inl (hmem.2 (.inr rfl))
      · refine .inr ⟨u, r', ?_⟩
        rw [hpc', Function.update_of_ne hut]
        exact hp
  · intro y hd
    rw [hused', hcreated']
    rcases hmem.1 hd with hd | rfl
    · exact h.unused y hd
    · exact ⟨h.cleared hpc, hltx⟩
  · intro u r' y hp
    rw [hused']
    refine h.cleared (t := u) (r := r') ?_
    rw [hpc'] at hp
    by_cases hut : u = t
    · subst hut
      rw [Function.update_self] at hp
      cases hp
    · rwa [Function.update_of_ne hut] at hp
  · intro u y hl
    obtain ⟨r', hu⟩ := Pc.call_of_locked hl
    obtain ⟨hut, hu, hr⟩ := hother hu
    rw [hpc', Function.update_of_ne hut] at hl
    have hy : y ≠ x := by
      rintro rfl
      exact hr ((h.of_call hu).1.symm.trans hox)
    rw [hmtx', Function.update_of_ne hy]
    exact h.storing hl
  · intro y hl
    rw [hrun'] at hl
    rw [hmtx', Function.update_of_ne (hlocked hl)]
    exact h.holding hl
  · rw [hrun', hused']
    exact h.sampling
  · rw [hrun']
    exact fun hg => hmem.2 (.inl (h.gone hg))
  · rw [hrun', hcreated']
    exact h.current

/-! ## The pass -/

theorem Owned.runLock (h : Owned s) (hfree : s.mtx x = none) (hx : x < s.created) :
    Owned { s.setMtx x (some .sampling) with run := .check x p } where
  busy := h.busy
  call := h.call
  own := h.own
  kept := h.kept
  used := h.used
  unused := h.unused
  cleared := h.cleared
  storing := fun hl => (Function.update_of_ne ((h.mtx_ne hfree).1 hl) ..).trans (h.storing hl)
  holding := by
    rintro y hl
    cases hl
    exact Function.update_self ..
  sampling := fun hr => by cases hr
  gone := fun hg => by cases hg
  current := by
    rintro y hc
    cases hc
    exact hx

/-- **What is found unused has been destroyed**: the thread that cleared `used_` has left the mutex. -/
theorem Owned.runCheck (h : Owned s) (hr : s.run = .check x p) :
    Owned { s with run := if s.used x then .sample x p else .unlock x p } := by
  have hx : x < s.created := h.current (by rw [hr]; rfl)
  have hlock : s.mtx x = some .sampling := h.holding (by rw [hr]; rfl)
  by_cases hu : s.used x = true
  · rw [if_pos hu]
    refine h.goRun ⟨rfl, rfl, rfl, rfl, rfl, rfl⟩ rfl rfl rfl rfl ?_ ?_ ?_ ?_
    · rintro y hl
      rw [hr]
      exact hl
    · rintro y q he
      cases he
      exact hu
    · rintro y hg
      cases hg
    · rintro y hc
      cases hc
      exact hx
  · rw [if_neg hu]
    refine h.goRun ⟨rfl, rfl, rfl, rfl, rfl, rfl⟩ rfl rfl rfl rfl ?_ ?_ ?_ ?_
    · rintro y hl
      rw [hr]
      exact hl
    · rintro y q he
      cases he
    · rintro y hg
      cases hg
      refine (h.used x hx (by simpa using hu)).resolve_right ?_
      rintro ⟨u, r', hp⟩
      rw [h.storing (t := u) (x := x) (by rw [hp]; rfl)] at hlock
      cases hlock
    · rintro y hc
      cases hc
      exact hx

theorem Owned.runUnlock {q : RunPc} (h : Owned s) (hl : s.run.locked = some x) (hq : q.locked = none)
    (hsample : ∀ {y p}, q ≠ .sample y p) (hgone : ∀ {y}, q.gone = some y → s.run.gone = some y)
    (hcurrent : ∀ {y}, q.current = some y → s.run.current = some y) :
    Owned { s.setMtx x none with run := q } where
  busy := h.busy
  call := h.call
  own := h.own
  kept := h.kept
  used := h.used
  unused := h.unused
  cleared := h.cleared
  storing := by
    intro u y hy
    refine (Function.update_of_ne ?_ ..).trans (h.storing hy)
    rintro rfl
    have := (h.holding hl).symm.trans (h.storing hy)
    cases this
  holding := by
    intro y hy
    rw [show RunPc.locked q = some y from hy] at hq
    cases hq
  sampling := fun hr => absurd hr hsample
  gone := fun hg => h.gone (hgone hg)
  current := fun hc => h.current (hcurrent hc)

end SamplerCollector
end ContentionProf
