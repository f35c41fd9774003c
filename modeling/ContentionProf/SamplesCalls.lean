import ContentionProf.SamplesThreads
/-!
# SamplesCalls — an object from the dump thread's hand back to the pool

`dump_and_destroy` gives the object to the profiler that `g_cp` names, or destroys it.  A profiler destroys it at once,
or keeps it in its set until `flush_to_disk` walks this.  Only the thread in a profiler's method touches its set.
-/
namespace ContentionProf
namespace Samples

variable {c : Config} {s s' : State} {m : Place → List Obj} {t u : Thread} {x : Obj} {p : Sessions.Prof}
  {f f' : Sessions.State Obj}

/-! ## The sessions -/

/-- What a step of one thread in the sessions means for the object it dumps. -/
structure Stepped (f f' : Sessions.State Obj) (t : Thread) : Prop where
  others : ∀ u, u ≠ t → f'.pc u = f.pc u
  dumps : dumps (f'.pc t) = true → dumps (f.pc t) = true
  undecided : (∀ x got, f.pc t ≠ .destroy x got) → undecided (f'.pc t) .none = undecided (f.pc t) .returned
  installed : f.installed ⊆ f'.installed

theorem Stepped.of_update {q q' : Sessions.Pc Obj} (hpc : f'.pc = Function.update f.pc t q')
    (hi : f.installed ⊆ f'.installed) (hq : f.pc t = q) (hd : Samples.dumps q' = true → Samples.dumps q = true)
    (hu : (∀ x got, q ≠ .destroy x got) → Samples.undecided q' .none = Samples.undecided q .returned) :
    Stepped f f' t := by
  refine ⟨fun u hut => by rw [hpc, Function.update_of_ne hut], ?_, ?_, hi⟩
  · rw [hpc, Function.update_self, hq]; exact hd
  · rw [hpc, Function.update_self, hq]; exact hu

theorem stepped_advance (hs : Sessions.advance f t = some f') : Stepped f f' t := by
  have lock : ∀ {q q'}, f.pc t = q → f.lock t q' = some f' → (Samples.dumps q' = true → Samples.dumps q = true) →
      ((∀ x got, q ≠ .destroy x got) → Samples.undecided q' .none = Samples.undecided q .returned) →
      Stepped f f' t := by
    intro q q' hq hl hd hu
    unfold Sessions.State.lock at hl
    split at hl
    · cases hl; exact .of_update rfl (List.Subset.refl _) hq hd hu
    · cases hl
  cases hp : f.pc t <;> simp only [Sessions.advance, hp] at hs
  case idle => cases hs
  case startLock p => exact lock hp hs (fun hd => hd) (fun _ => rfl)
  case stopLock => exact lock hp hs (fun hd => hd) (fun _ => rfl)
  case dumpLock x => exact lock hp hs (fun hd => hd) (fun _ => rfl)
  case start => cases hs; split <;> exact .of_update rfl (List.Subset.refl _) hp (fun hd => hd) (fun _ => rfl)
  case startCheck => cases hs; split <;> exact .of_update rfl (List.Subset.refl _) hp (fun hd => hd) (fun _ => rfl)
  case stop => cases hs; split <;> exact .of_update rfl (List.Subset.refl _) hp (fun hd => hd) (fun _ => rfl)
  case stopCheck => cases hs; split <;> exact .of_update rfl (List.Subset.refl _) hp (fun hd => hd) (fun _ => rfl)
  case dump => cases hs; split <;> exact .of_update rfl (List.Subset.refl _) hp (fun hd => hd) (fun _ => rfl)
  case dumpCheck => cases hs; split <;> exact .of_update rfl (List.Subset.refl _) hp (fun hd => hd) (fun _ => rfl)
  case startSet p =>
    cases hs
    exact .of_update rfl (List.subset_cons_self _ _) hp (fun hd => hd) (fun _ => rfl)
  case stopTake =>
    obtain ⟨q, -, rfl⟩ := Option.map_eq_some_iff.1 hs
    exact .of_update rfl (List.Subset.refl _) hp (fun hd => hd) (fun _ => rfl)
  case dumpCall x =>
    obtain ⟨q, -, rfl⟩ := Option.map_eq_some_iff.1 hs
    exact .of_update rfl (List.Subset.refl _) hp (fun hd => hd) (fun _ => rfl)
  case dumpUnlock x got =>
    cases hs
    exact .of_update (show _ = Function.update f.pc t .idle from Function.update_idem ..) (List.Subset.refl _) hp
      (fun _ => rfl) (fun _ => rfl)
  case destroy x got =>
    cases hs
    exact .of_update rfl (List.Subset.refl _) hp (fun _ => rfl) (fun h => absurd rfl (h x got))
  all_goals cases hs; exact .of_update rfl (List.Subset.refl _) hp (fun hd => hd) (fun _ => rfl)

theorem stepped_enter {q : Sessions.Pc Obj} (hi : (f.pc t).isIdle = true) (hd : Samples.dumps q = false)
    (hu : Samples.undecided q .none = []) : Stepped f (f.setPc t q) t := by
  refine .of_update rfl (List.Subset.refl _) (Sessions.isIdle_iff.1 hi) (fun h => ?_) (fun _ => hu)
  rw [hd] at h
  cases h

theorem undecided_of_method {q : Sessions.Pc Obj} (hq : Samples.method q = none) (r r' : ProfPc) :
    undecided q r = undecided q r' := by
  cases q <;> first | rfl | cases hq

theorem Calls.prof_none (h : Calls c f s.prof s.sets s.dump) (hm : Samples.method (f.pc t) = none) :
    s.prof t = .none := by
  by_contra hp
  obtain ⟨p, hp⟩ := h.method t hp
  rw [hm] at hp
  cases hp

theorem Calls.stepped {prof : Thread → ProfPc} {sets : Sessions.Prof → HashSet} {d : DumpPc} (h : Calls c f prof sets d)
    (hs : Stepped f f' t) (hf : prof t ≠ .flush) : Calls c f' (Function.update prof t .none) sets d where
  others u hu := by
    by_cases hut : u = t
    · rw [← Bool.not_eq_true]
      intro hd
      rw [hut] at hd
      have := h.others u hu
      rw [hut, hs.dumps hd] at this
      cases this
    · rw [hs.others u hut]; exact h.others u hu
  calling hd := by
    by_cases hut : c.dumpThread = t
    · rw [hut] at hd
      exact h.calling (hut ▸ hs.dumps hd)
    · rw [hs.others _ hut] at hd
      exact h.calling hd
  method u hu := by
    by_cases hut : u = t
    · rw [hut, Function.update_self] at hu
      exact absurd rfl hu
    · rw [Function.update_of_ne hut] at hu
      rw [hs.others u hut]
      exact h.method u hu
  walk p l hw := by
    obtain ⟨u, hu, hm⟩ := h.walk p l hw
    have hut : u ≠ t := fun he => hf (he ▸ hu)
    exact ⟨u, by rw [Function.update_of_ne hut]; exact hu, by rw [hs.others u hut]; exact hm⟩
  fresh p hp := h.fresh p (fun hm => hp (hs.installed hm))

/-- **A step of the sessions that leaves the object where it is**; a profiler's method has returned. -/
theorem Inv.stepped (h : Inv c s m) (hi : Sessions.Inv f) (hs : Stepped s.sessions f t)
    (hd : ∀ x got, s.sessions.pc t ≠ .destroy x got)
    (hu : undecided (s.sessions.pc t) (s.prof t) = undecided (s.sessions.pc t) .returned) (hf : s.prof t ≠ .flush) :
    Inv c { s.setProf t .none with sessions := f } m := by
  refine h.calm rfl rfl rfl (fun _ hu => hu) (h.place.of_eq rfl rfl (fun k => ?_)) hi
    (h.reducer.of_eq rfl rfl rfl rfl rfl (fun hg => hg)) h.loops (h.calls.stepped hs hf)
  cases k with
  | hand =>
    show Holder.flat (s.dump.held ++ undecided (f.pc c.dumpThread) (Function.update s.prof t .none c.dumpThread)) =
      Holder.flat (s.dump.held ++ undecided (s.sessions.pc c.dumpThread) (s.prof c.dumpThread))
    by_cases hut : c.dumpThread = t
    · rw [hut, Function.update_self, hs.undecided hd, hu]
    · rw [Function.update_of_ne hut, hs.others _ hut]
  | _ => rfl

theorem Inv.steppedOutside (h : Inv c s m) (hi : Sessions.Inv f) (hs : Stepped s.sessions f t)
    (hd : ∀ x got, s.sessions.pc t ≠ .destroy x got) (hm : Samples.method (s.sessions.pc t) = none) :
    Inv c { s with sessions := f } m := by
  have hp := h.calls.prof_none hm
  have he : s.setProf t .none = s := by
    unfold State.setProf
    rw [← hp, Function.update_eq_self]
  have := h.stepped hi hs hd (undecided_of_method hm _ _) (by rw [hp]; simp)
  rwa [he] at this

/-- `contention_profiler_start` or `contention_profiler_stop` is called. -/
theorem Inv.enter {a : Sessions.Label Obj} {q : Sessions.Pc Obj} (h : Inv c s m)
    (ha : Sessions.step s.sessions a = if (s.sessions.pc t).isIdle then some (s.sessions.setPc t q) else none)
    (hd : Samples.dumps q = false) (hu : Samples.undecided q .none = [])
    (hs : (Sessions.step s.sessions a).map (fun f => { s with sessions := f }) = some s') : Inv c s' m := by
  obtain ⟨f, hf, rfl⟩ := Option.map_eq_some_iff.1 hs
  have hinv := Sessions.inv_step h.sessions hf
  rw [ha] at hf
  split at hf
  · rename_i hi
    cases hf
    have hp := Sessions.isIdle_iff.1 hi
    refine h.steppedOutside hinv (stepped_enter hi hd hu) (fun x got he => ?_) (by rw [hp]; rfl)
    rw [hp] at he
    cases he
  · cases hf

/-- The sessions go on after the object was given back, or before. -/
theorem destroy_bind {malloc : Bool} (hs : (destroy c s t x malloc).bind (fun s' =>
      (Sessions.step s'.sessions (.go t)).map (fun f => { s' with sessions := f })) = some s') :
    ∃ f, Sessions.step s.sessions (.go t) = some f ∧ destroy c { s with sessions := f } t x malloc = some s' := by
  obtain ⟨s₁, h₁, hs⟩ := Option.bind_eq_some_iff.1 hs
  obtain ⟨f, hf, rfl⟩ := Option.map_eq_some_iff.1 hs
  unfold Samples.destroy at h₁ ⊢
  split at h₁
  · rename_i hx
    obtain ⟨q, hq, rfl⟩ := Option.map_eq_some_iff.1 h₁
    exact ⟨f, hf, by rw [if_pos hx, hq]; rfl⟩
  · rename_i hx
    cases h₁
    exact ⟨f, hf, by rw [if_neg hx]⟩

/-- Who dumps is the dump thread, and it holds nothing else. -/
theorem Inv.dumping_thread (h : Inv c s m) (hd : dumps (s.sessions.pc t) = true) :
    t = c.dumpThread ∧ s.dump.held = [] := by
  have ht : t = c.dumpThread := by
    by_contra ht
    rw [h.calls.others t ht] at hd
    cases hd
  obtain ⟨y, p, hy⟩ := h.calls.calling (ht ▸ hd)
  exact ⟨ht, by rw [hy]; rfl⟩

theorem holder_hand {l : List Obj} (ht : t = c.dumpThread) (hd : s.dump.held = [])
    (hu : undecided (s.sessions.pc t) (s.prof t) = l) : holder c s .hand = .flat l := by
  subst ht
  show Holder.flat (_ ++ _) = _
  rw [hd, hu, List.nil_append]

/-- **`dump_and_destroy` destroys the object.** -/
theorem Inv.destroyed {got : List Sessions.Outcome} {malloc : Bool} (h : Inv c s m)
    (hp : s.sessions.pc t = .destroy x got) (hf : Sessions.step s.sessions (.go t) = some f)
    (hs : destroy c { s with sessions := f } t x malloc = some s') : ∃ m', Inv c s' m' := by
  obtain ⟨ht, hheld⟩ := h.dumping_thread (t := t) (by rw [hp]; rfl)
  have hk : holder c s .hand = .flat [x] := holder_hand ht hheld (by rw [hp]; rfl)
  have hprof := h.calls.prof_none (by rw [hp]; rfl)
  have hpc : f.pc t = .idle := by
    have hf : Sessions.advance s.sessions t = some f := hf
    simp only [Sessions.advance, hp] at hf
    cases hf
    exact Function.update_self ..
  have hother : ∀ k, k ≠ .hand → holder c { s with sessions := f } k = holder c s k := fun k hk => by
    cases k <;> first | rfl | contradiction
  have hcalls := h.calls.stepped (stepped_advance hf) (by rw [hprof]; simp)
  rw [← hprof, Function.update_eq_self] at hcalls
  exact ⟨_, h.give (h.given hk hs rfl) hk (holder_hand ht hheld (by rw [hpc]; rfl)) hother rfl rfl rfl (fun _ hu => hu)
    (h.sessions.advance hf) (h.reducer.of_eq rfl rfl rfl rfl rfl (fun hg => hg))
    ⟨h.loops.sorted, h.loops.empty, h.loops.sort, h.loops.dump⟩ hcalls⟩

/-- **The next step of a start, a stop or a `dump_and_destroy`.** -/
theorem Inv.session {malloc : Bool} (h : Inv c s m) (hs : Samples.session c s t malloc = some s') :
    ∃ m', Inv c s' m' := by
  -- outside a profiler's method
  have outside : (∀ x got, s.sessions.pc t ≠ .destroy x got) → Samples.method (s.sessions.pc t) = none →
      (Sessions.step s.sessions (.go t)).map (fun f => { s with sessions := f }) = some s' → ∃ m', Inv c s' m' := by
    intro hd hm hs
    obtain ⟨f, hf, rfl⟩ := Option.map_eq_some_iff.1 hs
    exact ⟨m, h.steppedOutside (h.sessions.advance hf) (stepped_advance hf) hd hm⟩
  have returned : (∀ x got, s.sessions.pc t ≠ .destroy x got) → s.prof t = .returned →
      (Sessions.step s.sessions (.go t)).map (fun f => { s.setProf t .none with sessions := f }) = some s' →
      ∃ m', Inv c s' m' := by
    intro hd hr hs
    obtain ⟨f, hf, rfl⟩ := Option.map_eq_some_iff.1 hs
    exact ⟨m, h.stepped (h.sessions.advance hf) (stepped_advance hf) hd (by rw [hr]) (by rw [hr]; simp)⟩
  unfold Samples.session at hs
  cases hp : s.sessions.pc t <;> simp only [hp] at hs
  case dumping x p =>
    split at hs
    · rename_i hr
      exact returned (by rw [hp]; simp) hr hs
    · cases hs
  case stopDelete p =>
    split at hs
    · rename_i hr
      exact returned (by rw [hp]; simp) hr hs
    · cases hs
  case destroy x got =>
    obtain ⟨f, hf, hs⟩ := destroy_bind hs
    exact h.destroyed hp hf hs
  all_goals exact outside (by rw [hp]; simp) (by rw [hp]; rfl) hs

/-- Line 304: the dump thread calls `dump_and_destroy`. -/
theorem Inv.call {q : Node} (h : Inv c s m) (hd : s.dump = .call x q)
    (hf : Sessions.step s.sessions (.dump c.dumpThread x) = some f) :
    Inv c { s with sessions := f, dump := .calling x q } m := by
  have hinv := Sessions.inv_step h.sessions hf
  simp only [Sessions.step] at hf
  split at hf
  · rename_i hi
    cases hf
    have hp := Sessions.isIdle_iff.1 hi
    have hprof := h.calls.prof_none (t := c.dumpThread) (by rw [hp]; rfl)
    have hpc : (s.sessions.setPc c.dumpThread (.dump x)).pc c.dumpThread = .dump x := Function.update_self ..
    have hother : ∀ u, u ≠ c.dumpThread → (s.sessions.setPc c.dumpThread (.dump x)).pc u = s.sessions.pc u :=
      fun u hu => Function.update_of_ne hu ..
    -- nobody is in a method of a profiler but the threads that were
    have hne : ∀ u p, Samples.method (s.sessions.pc u) = some p → u ≠ c.dumpThread := by
      rintro u p hm rfl
      rw [hp] at hm
      cases hm
    refine h.calm rfl rfl rfl (fun _ hu => hu) (h.place.of_eq rfl rfl (fun k => ?_)) hinv
      (h.reducer.of_eq rfl rfl rfl rfl rfl (fun hg => hg)) (h.loops.dumpStep rfl (fun v hv => ?_))
      ⟨fun u hu => by rw [hother u hu]; exact h.calls.others u hu, fun _ => ⟨x, q, rfl⟩, fun u hu => ?_,
        fun p l hw => ?_,
        h.calls.fresh⟩
    · rw [holder_dump hd]
      cases k with
      | hand =>
        show Holder.flat ([] ++ undecided ((s.sessions.setPc c.dumpThread (.dump x)).pc c.dumpThread) _) =
          Holder.flat ([x] ++ undecided (s.sessions.pc c.dumpThread) _)
        rw [hpc, hp]
        rfl
      | _ => rfl
    · exact h.loops.dump v (by rw [hd]; exact hv)
    · obtain ⟨p, hm⟩ := h.calls.method u hu
      exact ⟨p, by rw [hother u (hne u p hm)]; exact hm⟩
    · obtain ⟨u, hu, hm⟩ := h.calls.walk p l hw
      exact ⟨u, hu, by rw [hother u (hne u p hm)]; exact hm⟩
  · cases hf

/-- Line 305: `dump_and_destroy` has returned. -/
theorem Inv.dumped {q : Node} {n : Int} (h : Inv c s m) (hd : s.dump = .calling x q)
    (hi : (s.sessions.pc c.dumpThread).isIdle = true) : Inv c { s with dumpCount := n, dump := .loop q } m := by
  have hno : dumps (s.sessions.pc c.dumpThread) = false := by rw [Sessions.isIdle_iff.1 hi]; rfl
  refine h.calm rfl rfl rfl (fun _ hu => hu) (h.place.of_eq rfl rfl (fun k => ?_)) h.sessions
    (h.reducer.of_eq rfl rfl rfl rfl rfl (fun hg => hg))
    (h.loops.dumpStep rfl (fun v hv => h.loops.dump v (by rw [hd]; exact hv))) (h.calls.of_no_dumps hno)
  rw [holder_dump hd]
  cases k <;> rfl

/-- The list of the dump thread is empty. -/
theorem Inv.passDone (h : Inv c s m) (hd : s.dump = .loop (.root .dumpLocal)) : Inv c { s with dump := .wait } m := by
  refine h.calm rfl rfl rfl (fun _ hu => hu) (h.place.of_eq rfl rfl (fun k => ?_)) h.sessions
    (h.reducer.of_eq rfl rfl rfl rfl rfl (fun hg => hg)) (h.loops.dumpStep rfl (fun v hv => (by cases hv)))
    (h.calls.of_no_dumps (h.no_dumps (by simp [hd])))
  rw [holder_dump hd]
  cases k <;> rfl

/-- **The next step of the dump thread.** -/
theorem Inv.dump (h : Inv c s m) (hs : Samples.dumpStep c s = some s') : ∃ m', Inv c s' m' := by
  unfold Samples.dumpStep at hs
  cases hd : s.dump <;> rw [hd] at hs <;> dsimp only at hs
  case wait =>
    split at hs
    · cases hs
    · rename_i a hn
      cases hs
      exact h.wait hd hn
  case take a => cases hs; exact h.take hd
  case loop v =>
    cases v with
    | obj x => cases hs; exact h.unlink hd
    | root r =>
      dsimp only at hs
      split at hs
      · rename_i hr
        cases hs
        exact ⟨m, h.passDone (hr ▸ hd)⟩
      · cases hs
  case call x q =>
    obtain ⟨f, hf, rfl⟩ := Option.map_eq_some_iff.1 hs
    exact ⟨m, h.call hd hf⟩
  case calling x q =>
    split at hs
    · rename_i hi
      cases hs
      exact ⟨m, h.dumped hd hi⟩
    · cases hs

/-! ## The profilers -/

/-- **One thread at a time is in the methods of a profiler.** -/
theorem method_unique (h : Sessions.Inv f) (ht : Samples.method (f.pc t) = some p)
    (hu : Samples.method (f.pc u) = some p) : t = u := by
  -- the thread owns the mutex and `g_cp` names the profiler, or the thread has taken it
  have key : ∀ {t}, Samples.method (f.pc t) = some p →
      f.owner = some t ∧ f.cp = some p ∨ p ∈ (f.pc t).taken := by
    intro t ht
    have hok := h.pc t
    have ho := h.owner t
    cases hp : f.pc t <;> rw [hp] at ht hok ho <;> cases ht
    case dumping x => exact .inl ⟨ho.2 rfl, hok⟩
    case stopDelete => exact .inr List.mem_cons_self
  have named : ∀ {t}, f.cp = some p → p ∈ (f.pc t).taken → False := by
    intro t hc ht
    have := h.places.unique .named (.taken t) p (by simp [Sessions.content, hc]) ht
    cases this
  rcases key ht with ⟨ho, hc⟩ | ht <;> rcases key hu with ⟨ho', hc'⟩ | hu
  · exact Option.some.inj (ho.symm.trans ho')
  · exact (named hc hu).elim
  · exact (named hc' ht).elim
  · have := h.places.unique (.taken t) (.taken u) p ht hu
    cases this
    rfl

theorem method_installed (h : Sessions.Inv f) (ht : Samples.method (f.pc t) = some p) : p ∈ f.installed := by
  have hok := h.pc t
  have htaken := h.taken t p
  cases hp : f.pc t <;> rw [hp] at ht hok htaken <;> cases ht
  case dumping x => exact h.named p hok
  case stopDelete => exact htaken List.mem_cons_self

/-- No set is walked but the one of the thread in the profiler's method. -/
theorem Inv.walk_none (h : Inv c s m) (hm : Samples.method (s.sessions.pc t) = some p) (hf : s.prof t ≠ .flush) :
    (s.sets p).walk = none := by
  cases hw : (s.sets p).walk with
  | none => rfl
  | some l =>
    obtain ⟨u, hu, hmu⟩ := h.calls.walk p l hw
    rw [method_unique h.sessions hm hmu] at hf
    exact absurd hu hf

theorem holder_setProf_of_ne {r : ProfPc} {k : Place} (hk : k ≠ .hand) : holder c (s.setProf t r) k = holder c s k := by
  cases k <;> first | rfl | contradiction

theorem holder_hand_setProf {r : ProfPc} {l : List Obj} (ht : t = c.dumpThread) (hd : s.dump.held = [])
    (hu : undecided (s.sessions.pc t) r = l) : holder c (s.setProf t r) .hand = .flat l := by
  refine holder_hand ht hd ?_
  show undecided (s.sessions.pc t) (Function.update s.prof t r t) = l
  rw [Function.update_self]
  exact hu

theorem holder_setProf {r : ProfPc} (hu : undecided (s.sessions.pc t) r = undecided (s.sessions.pc t) (s.prof t))
    (k : Place) : holder c (s.setProf t r) k = holder c s k := by
  cases k with
  | hand =>
    show Holder.flat (s.dump.held ++ undecided (s.sessions.pc c.dumpThread) (Function.update s.prof t r c.dumpThread)) =
      Holder.flat (s.dump.held ++ undecided (s.sessions.pc c.dumpThread) (s.prof c.dumpThread))
    by_cases hut : c.dumpThread = t
    · rw [hut, Function.update_self, hu]
    · rw [Function.update_of_ne hut]
  | _ => rfl

theorem holder_setSet_of_ne {e : HashSet} {k : Place} (hk : k ≠ .hashSet p) :
    holder c (s.setSet p e) k = holder c s k := by
  cases k with
  | hashSet q =>
    have hq : q ≠ p := fun he => hk (by rw [he])
    show Holder.flat (Function.update s.sets p e q).owned = _
    rw [Function.update_of_ne hq]
    rfl
  | _ => rfl

theorem holder_hashSet {e : HashSet} (he : s.sets p = e) : holder c s (.hashSet p) = .flat e.owned := by
  rw [← he]; rfl

theorem Calls.profiler {prof : Thread → ProfPc} {sets : Sessions.Prof → HashSet} {d : DumpPc} {r : ProfPc} {e : HashSet}
    (h : Calls c f prof sets d) (hi : Sessions.Inv f) (hm : Samples.method (f.pc t) = some p)
    (he : ∀ l, e.walk = some l → r = .flush) :
    Calls c f (Function.update prof t r) (Function.update sets p e) d where
  others := h.others
  calling := h.calling
  method u hu := by
    by_cases hut : u = t
    · rw [hut]; exact ⟨p, hm⟩
    · rw [Function.update_of_ne hut] at hu
      exact h.method u hu
  walk q l hw := by
    by_cases hq : q = p
    · rw [hq, Function.update_self] at hw
      exact ⟨t, by rw [Function.update_self]; exact he l hw, by rw [hq]; exact hm⟩
    · rw [Function.update_of_ne hq] at hw
      obtain ⟨u, hu, hmu⟩ := h.walk q l hw
      have hut : u ≠ t := by
        rintro rfl
        exact hq (Option.some.inj (hmu.symm.trans hm))
      exact ⟨u, by rw [Function.update_of_ne hut]; exact hu, hmu⟩
  fresh q hq := by
    have hqp : q ≠ p := fun he => hq (he ▸ method_installed hi hm)
    rw [Function.update_of_ne hqp]
    exact h.fresh q hq

theorem Inv.calls_setProf {r : ProfPc} (h : Inv c s m) (hm : Samples.method (s.sessions.pc t) = some p)
    (hf : s.prof t ≠ .flush) : Calls c s.sessions (s.setProf t r).prof s.sets s.dump := by
  have hc := h.calls.profiler (r := r) (e := s.sets p) h.sessions hm
    (fun l hl => by rw [h.walk_none hm hf] at hl; cases hl)
  rwa [Function.update_eq_self] at hc

/-- Line 49: a sample that is in the set already is destroyed. -/
theorem Inv.merged {malloc : Bool} (h : Inv c s m) (hp : s.sessions.pc t = .dumping x p) (hr : s.prof t = .none)
    (hs : destroy c (s.setProf t .merged) t x malloc = some s') : ∃ m', Inv c s' m' := by
  obtain ⟨ht, hheld⟩ := h.dumping_thread (t := t) (by rw [hp]; rfl)
  have hk : holder c s .hand = .flat [x] := holder_hand ht hheld (by rw [hp, hr]; rfl)
  have hk' : holder c (s.setProf t .merged) .hand = .flat [] := holder_hand_setProf ht hheld (by rw [hp]; rfl)
  exact ⟨_, h.give (h.given hk hs rfl) hk hk' (fun k hk => holder_setProf_of_ne hk) rfl rfl rfl (fun _ hu => hu)
    h.sessions (h.reducer.of_eq rfl rfl rfl rfl rfl (fun hg => hg))
    ⟨h.loops.sorted, h.loops.empty, h.loops.sort, h.loops.dump⟩
    (h.calls_setProf (p := p) (by rw [hp]; rfl) (by rw [hr]; simp))⟩

/-- **Line 51: a sample goes into the set.** -/
theorem Inv.insert (h : Inv c s m) (hp : s.sessions.pc t = .dumping x p) (hr : s.prof t = .none) : ∃ m', Inv c
    ((s.setSet p ⟨(s.sets p).members ++ [x], (s.sets p).walk⟩).setProf t .merged) m' := by
  have hm : Samples.method (s.sessions.pc t) = some p := by rw [hp]; rfl
  have hw := h.walk_none hm (by rw [hr]; simp)
  obtain ⟨ht, hheld⟩ := h.dumping_thread (t := t) (by rw [hp]; rfl)
  have hk : holder c s .hand = .flat [x] := holder_hand ht hheld (by rw [hp, hr]; rfl)
  have hset : holder c s (.hashSet p) = .flat (s.sets p).members := by
    show Holder.flat ((s.sets p).walk.getD _) = _
    rw [hw]; rfl
  have hmem := h.place.flat hset
  refine ⟨_, h.calm rfl rfl rfl (fun _ hu => hu) (h.place.move₂ .hand (.hashSet p) [] ((s.sets p).members ++ [x]) rfl
    (by simp) ?_ (fun k hk hk' => ?_) (fun _ _ _ _ => ⟨rfl, rfl⟩) ?_ ?_) h.sessions
    (h.reducer.of_eq rfl rfl rfl rfl rfl (fun hg => hg)) ⟨h.loops.sorted, h.loops.empty, h.loops.sort, h.loops.dump⟩
    (h.calls.profiler h.sessions hm (fun l hl => ?_))⟩
  · rw [h.place.flat hk, hmem]
    exact (List.perm_append_comm : ((s.sets p).members ++ [x]).Perm ([x] ++ (s.sets p).members))
  · rw [holder_setProf_of_ne hk, holder_setSet_of_ne hk']
  · rw [holder_hand_setProf (s := s.setSet p _) (l := []) ht hheld (hp ▸ rfl)]
    exact ⟨rfl, by simp⟩
  · rw [holder_setProf_of_ne (by simp), holder_hashSet (Function.update_self ..), hw]
    refine ⟨rfl, fun y hy => ?_⟩
    rcases List.mem_append.1 hy with hy | hy
    · exact h.place.selfLinked hset hy
    · exact h.place.selfLinked hk hy
  · have hl : (s.sets p).walk = some l := hl
    rw [hw] at hl
    cases hl

theorem Inv.methodDone (h : Inv c s m) (hm : Samples.method (s.sessions.pc t) = some p) (hf : s.prof t ≠ .flush)
    (hu : undecided (s.sessions.pc t) .returned = undecided (s.sessions.pc t) (s.prof t)) :
    Inv c (s.setProf t .returned) m :=
  h.calm rfl rfl rfl (fun _ hu => hu) (h.place.of_eq rfl rfl (holder_setProf hu)) h.sessions
    (h.reducer.of_eq rfl rfl rfl rfl rfl (fun hg => hg)) h.loops (h.calls_setProf hm hf)

/-- **`flush_to_disk` is called.** -/
theorem Inv.beginFlush {order : List Obj} (h : Inv c s m) (hm : Samples.method (s.sessions.pc t) = some p)
    (hf : s.prof t ≠ .flush) (hu : undecided (s.sessions.pc t) .flush = undecided (s.sessions.pc t) (s.prof t))
    (hs : Samples.beginFlush s t p order = some s') : ∃ m', Inv c s' m' := by
  have hw := h.walk_none hm hf
  have hset : holder c s (.hashSet p) = .flat (s.sets p).members := by
    show Holder.flat ((s.sets p).walk.getD _) = _
    rw [hw]; rfl
  unfold Samples.beginFlush at hs
  split at hs
  · rename_i hperm
    cases hs
    refine ⟨_, h.calm rfl rfl rfl (fun _ hu => hu) (h.place.hold (.hashSet p) order rfl rfl ?_ (fun k hk => ?_) ?_)
      h.sessions (h.reducer.of_eq rfl rfl rfl rfl rfl (fun hg => hg))
      ⟨h.loops.sorted, h.loops.empty, h.loops.sort, h.loops.dump⟩ (h.calls.profiler h.sessions hm (fun _ _ => rfl))⟩
    · rw [h.place.flat hset]; exact hperm
    · rw [holder_setProf (s := s.setSet p _) hu, holder_setSet_of_ne hk]
    · rw [holder_setProf_of_ne (by simp), holder_hashSet (Function.update_self ..)]
      exact ⟨rfl, fun y hy => h.place.selfLinked hset (hperm.subset hy)⟩
  · cases hs

/-- **The next step of `flush_to_disk`.** -/
theorem Inv.flush {malloc : Bool} (h : Inv c s m) (hm : Samples.method (s.sessions.pc t) = some p)
    (hf : s.prof t = .flush) (hu : undecided (s.sessions.pc t) .returned = undecided (s.sessions.pc t) .flush)
    (hs : Samples.flush c s t p malloc = some s') : ∃ m', Inv c s' m' := by
  unfold Samples.flush at hs
  split at hs
  · rename_i x rest hw
    have hk : holder c s (.hashSet p) = .flat (x :: rest) := by
      show Holder.flat ((s.sets p).walk.getD _) = _
      rw [hw]; rfl
    have hcalls := h.calls.profiler (r := .flush) (e := ⟨(s.sets p).members, some rest⟩) h.sessions hm (fun _ _ => rfl)
    rw [← hf, Function.update_eq_self] at hcalls
    exact ⟨_, h.give (h.given hk hs rfl) hk (holder_hashSet (e := ⟨(s.sets p).members, some rest⟩)
      (Function.update_self ..))
      (fun k hk => holder_setSet_of_ne hk) rfl rfl rfl (fun _ hu => hu) h.sessions
      (h.reducer.of_eq rfl rfl rfl rfl rfl (fun hg => hg))
      ⟨h.loops.sorted, h.loops.empty, h.loops.sort, h.loops.dump⟩ hcalls⟩
  · rename_i hw
    cases hs
    refine ⟨m, h.calm rfl rfl rfl (fun _ hu => hu) (h.place.of_eq rfl rfl (fun k => ?_)) h.sessions
      (h.reducer.of_eq rfl rfl rfl rfl rfl (fun hg => hg)) h.loops
      (h.calls.profiler h.sessions hm (fun l hl => (by cases hl)))⟩
    rw [holder_setProf (s := s.setSet p _) (hf ▸ hu)]
    by_cases hk : k = .hashSet p
    · rw [hk, holder_hashSet (Function.update_self ..)]
      show _ = Holder.flat ((s.sets p).walk.getD _)
      rw [hw]; rfl
    · rw [holder_setSet_of_ne hk]
  · cases hs

/-- **The next step of a profiler's `dump_and_destroy` or destructor.** -/
theorem Inv.profiler {order : List Obj} {malloc : Bool} (h : Inv c s m)
    (hs : Samples.profiler c s t order malloc = some s') : ∃ m', Inv c s' m' := by
  unfold Samples.profiler at hs
  split at hs
  · rename_i x p hp hr
    split at hs
    · exact h.merged hp hr hs
    · cases hs; exact h.insert hp hr
  · rename_i x p hp hr
    have hm : Samples.method (s.sessions.pc t) = some p := by rw [hp]; rfl
    split at hs
    · exact h.beginFlush hm (by rw [hr]; simp) (by rw [hp, hr]; rfl) hs
    · cases hs; exact ⟨m, h.methodDone hm (by rw [hr]; simp) (by rw [hp, hr]; rfl)⟩
  · rename_i p hp hr
    exact h.beginFlush (by rw [hp]; rfl) (by rw [hr]; simp) (by rw [hp]; rfl) hs
  · rename_i x p hp hr
    exact h.flush (by rw [hp]; rfl) hr (by rw [hp]; rfl) hs
  · rename_i p hp hr
    exact h.flush (by rw [hp]; rfl) hr (by rw [hp]; rfl) hs
  · cases hs

end Samples
end ContentionProf
