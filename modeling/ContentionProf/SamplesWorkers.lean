import ContentionProf.SamplesPlaces
/-!
# SamplesWorkers — an object from its submitter to the combiner's list

What `Collected::submit`, the `operator<<` of the combiner and the exit of a thread do with the places: an object that
is not late goes behind the list of the thread's agent, and this list behind the global one.
-/
namespace ContentionProf
namespace Samples

variable {c : Config} {s s' : State} {m : Place → List Obj} {t : Thread} {x : Obj}

theorem holder_agent {v : Option Obj} (ha : t ∈ s.agents) (hv : s.element t = v) : holder c s (.agent t) = .list v := by
  simp only [holder, if_pos ha, hv]

theorem Inv.holds_agent (h : Inv c s m) (ha : t ∈ s.agents) :
    Holds s.links (.list (s.element t)) (m (.agent t)) := by
  have := h.place.holds (.agent t)
  rwa [holder_agent ha rfl] at this

theorem holder_setElement_of_ne {v : Option Obj} {k : Place} (hk : k ≠ .agent t) :
    holder c (s.setElement t v) k = holder c s k := by
  cases k with
  | agent u =>
    have hut : u ≠ t := fun he => hk (by rw [he])
    show Holder.list (if u ∈ s.agents then Function.update s.element t v u else none) = _
    rw [Function.update_of_ne hut]
    rfl
  | _ => rfl

/-- What is behind the list of a thread without an agent is in no place. -/
theorem holder_setElement_of_not_mem {v : Option Obj} (ha : t ∉ s.agents) (k : Place) :
    holder c (s.setElement t v) k = holder c s k := by
  by_cases hk : k = .agent t
  · rw [hk]
    show Holder.list (if t ∈ s.agents then _ else none) = Holder.list (if t ∈ s.agents then _ else none)
    rw [if_neg ha, if_neg ha]
  · exact holder_setElement_of_ne hk

/-- A late sample. -/
theorem Inv.submitLate {malloc : Bool} (h : Inv c s m) (hp : s.pc t = .submit x)
    (hs : destroy c (s.setPc t .idle) t x malloc = some s') : ∃ m', Inv c s' m' := by
  have hk : holder c s (.submitter t) = .flat [x] := holder_submitter hp
  refine ⟨_, h.give (h.given hk hs rfl) hk (holder_submitter setPc_pc_self) (fun j hj => holder_setPc_of_ne hj) rfl rfl
    rfl (setPc_get hp (by simp)) h.sessions ?_ ⟨h.loops.sorted, h.loops.empty, h.loops.sort, h.loops.dump⟩ h.calls⟩
  refine h.reducer.move (h.reducer.ne_grab (by rw [hp]; rfl)) rfl rfl rfl rfl rfl rfl trivial (by simp [Pc.hasMtx])
    (fun y hy => ?_)
  rw [hp] at hy
  cases hy

/-- The thread goes on with what it holds, and changes nothing but its agent, which it has none of. -/
theorem Inv.toModify (h : Inv c s m) (hp : s.pc t = .submit x) (hc : s.combiner t = true) :
    Inv c (s.setPc t (.modify x)) m := by
  refine h.calm rfl rfl rfl (setPc_get hp (by simp)) (h.place.of_eq rfl rfl (holder_setPc (by rw [hp]; rfl))) h.sessions
    (h.reducer.move (h.reducer.ne_grab (by rw [hp]; rfl)) rfl rfl rfl rfl rfl rfl ?_ (by simp [Pc.hasMtx])
      (fun y hy => ?_)) h.loops h.calls
  · refine (h.reducer.combiner t hc).resolve_right ?_
    rintro ⟨y, hy⟩
    rw [hp] at hy
    cases hy
  · rw [hp] at hy
    cases hy

theorem Inv.toAppend (h : Inv c s m) (hp : s.pc t = .submit x) (hc : s.combiner t ≠ true) :
    Inv c ((s.agentReset t).setPc t (.append x)) m := by
  have ha : t ∉ s.agents := fun ha => hc (h.reducer.agents t ha)
  refine h.calm rfl rfl rfl (setPc_get (s := s.agentReset t) hp (by simp)) (h.place.of_eq rfl rfl (fun k => ?_))
    h.sessions (h.reducer.step (h.reducer.ne_grab (by rw [hp]; rfl)) rfl (fun u hu => Function.update_of_ne hu ..)
      (fun _ _ => .rfl) h.reducer.nodup (fun u hu => Function.update_of_ne hu ..) rfl (fun _ _ hu => hu)
      ⟨ha, Function.update_self .., Function.update_self ..⟩ (fun _ => .inr ⟨x, rfl⟩) (fun hm => absurd hm ha)
      (by simp [Pc.hasMtx])) h.loops
    h.calls
  rw [holder_setPc (s := s.agentReset t) (by rw [show (s.agentReset t).pc t = _ from hp]; rfl)]
  refine Eq.trans ?_ (holder_setElement_of_not_mem (v := none) ha k)
  cases k <;> rfl

/-- **`Collected::submit`, as far as the first lock.** -/
theorem Inv.submit {late malloc : Bool} (h : Inv c s m) (hs : Samples.submit c s t late malloc = some s') :
    ∃ m', Inv c s' m' := by
  unfold Samples.submit at hs
  cases hp : s.pc t <;> rw [hp] at hs <;> dsimp only at hs
  case submit x =>
    split at hs
    · exact h.submitLate hp hs
    split at hs
    · rename_i hc
      cases hs
      exact ⟨m, h.toModify hp hc⟩
    · rename_i hc
      cases hs
      exact ⟨m, h.toAppend hp hc⟩
  all_goals cases hs

/-! ## The combiner -/

theorem Inv.append (h : Inv c s m) (hp : s.pc t = .append x) :
    Inv c ({ s with agents := s.agents ++ [t] }.setPc t (.modify x)) m := by
  obtain ⟨ha, he, hc⟩ : PcOk s t (.append x) := hp ▸ h.reducer.pc t
  have hmem : t ∈ s.agents ++ [t] := List.mem_append_right _ List.mem_cons_self
  have hother : ∀ u, u ≠ t → (u ∈ s.agents ++ [t] ↔ u ∈ s.agents) := fun u hu => by simp [hu]
  refine h.calm rfl rfl rfl (setPc_get hp (by simp)) (h.place.of_eq rfl rfl (fun k => ?_)) h.sessions
    (h.reducer.step (h.reducer.ne_grab (by rw [hp]; rfl)) rfl (fun _ _ => rfl) hother ?_ (fun _ _ => rfl) rfl
      (fun _ _ hu => hu) hmem (fun _ => .inl hmem) (fun _ => hc) (by simp [Pc.hasMtx])) h.loops h.calls
  · rw [holder_setPc (by rw [show ({ s with agents := s.agents ++ [t] } : State).pc t = _ from hp]; rfl)]
    cases k with
    | agent u =>
      show Holder.list (if u ∈ s.agents ++ [t] then s.element u else none) =
        Holder.list (if u ∈ s.agents then s.element u else none)
      by_cases hut : u = t
      · rw [hut, he, ite_self, ite_self]
      · rw [if_congr (hother u hut) rfl rfl]
    | _ => rfl
  · exact List.nodup_append'.2 ⟨h.reducer.nodup, List.nodup_singleton t, by simpa using ha⟩

/-- **The object goes behind the list of the agent.** -/
theorem Inv.modify (h : Inv c s m) (hp : s.pc t = .modify x) : ∃ m', Inv c
    (({ s with links := (combine s.links (s.element t) (some x)).1 }.setElement t
      (combine s.links (s.element t) (some x)).2).setPc t .idle) m' := by
  have ha : t ∈ s.agents := by
    have := h.reducer.pc t
    rw [hp] at this
    exact this
  have hk : holder c s (.submitter t) = .flat [x] := holder_submitter hp
  have hm := h.place.flat hk
  have hne : Place.submitter t ≠ Place.agent t := by simp
  obtain ⟨hholds, hsame⟩ := combine_spec (h.holds_agent ha) (holds_single (h.place.selfLinked hk List.mem_cons_self))
    (hm ▸ h.place.disjoint hne.symm)
  refine ⟨_, h.calm rfl rfl rfl (setPc_get hp (by simp)) (h.place.move₂ (.submitter t) (.agent t) []
    (m (.agent t) ++ [x]) rfl hne ?_ (fun k hk hk' => ?_) (fun n _ h₁ h₂ => hsame n
      (fun y hy => ?_)) ?_ ?_) h.sessions ?_
    ⟨h.loops.sorted, h.loops.empty, h.loops.sort, h.loops.dump⟩ h.calls⟩
  · rw [hm]; exact (List.perm_append_comm : (m (.agent t) ++ [x]).Perm ([x] ++ m (.agent t)))
  · rw [holder_setPc_of_ne hk, holder_setElement_of_ne hk']
    cases k <;> rfl
  · rcases List.mem_append.1 hy with hy | hy
    · exact h₂ y hy
    · exact h₁ y (by rw [hm]; exact hy)
  · rw [holder_submitter setPc_pc_self]; exact ⟨rfl, by simp [Pc.held]⟩
  · rw [holder_agent]
    · exact hholds
    · exact ha
    · exact Function.update_self ..
  · exact h.reducer.step (h.reducer.ne_grab (by rw [hp]; rfl)) rfl (fun u hu => Function.update_of_ne hu ..)
      (fun _ _ => .rfl) h.reducer.nodup (fun _ _ => rfl) rfl (fun _ _ hu => hu) trivial
      (fun _ => .inl ha) (h.reducer.agents t) (by simp [Pc.hasMtx])

theorem Inv.mem_agents (h : Inv c s m) (hp : s.pc t = .commit ∨ s.pc t = .load) : t ∈ s.agents := by
  have := h.reducer.pc t
  rcases hp with hp | hp <;> rw [hp] at this <;> exact this

/-- Line 174: the combiner is locked. -/
theorem Inv.commit (h : Inv c s m) (hp : s.pc t = .commit) (hm : s.mtx = none) :
    Inv c ({ s with mtx := some t }.setPc t .load) m := by
  refine h.calm rfl rfl rfl (setPc_get hp (by simp)) (h.place.of_eq rfl rfl (fun k => ?_)) h.sessions
    (h.reducer.step (h.reducer.ne_grab (by rw [hp]; rfl)) rfl (fun _ _ => rfl) (fun _ _ => .rfl) h.reducer.nodup
      (fun _ _ => rfl) rfl (fun u _ hu => ?_) (h.mem_agents (.inl hp)) (fun _ => .inl (h.mem_agents (.inl hp)))
      (h.reducer.agents t) (fun _ => rfl)) h.loops h.calls
  · rw [holder_setPc (by rw [show ({ s with mtx := some t } : State).pc t = _ from hp]; rfl)]
    cases k <;> rfl
  · rw [hm] at hu
    cases hu

/-- Line 175: the value of the agent is read. -/
theorem Inv.load (h : Inv c s m) (hp : s.pc t = .load) : Inv c (s.setPc t (.erase (s.element t))) m := by
  refine h.calm rfl rfl rfl (setPc_get hp (by simp)) (h.place.of_eq rfl rfl (holder_setPc (by rw [hp]; rfl))) h.sessions
    (h.reducer.move (h.reducer.ne_grab (by rw [hp]; rfl)) rfl rfl rfl rfl rfl rfl ⟨h.mem_agents (.inr hp), rfl⟩
      (fun _ => h.reducer.mtx t (by rw [hp]; rfl)) (fun y hy => ?_)) h.loops h.calls
  rw [hp] at hy
  cases hy

/-- **Lines 176–177: the list of the agent goes behind the global one**, and the agent is erased. -/
theorem Inv.erase {val : Option Obj} (h : Inv c s m) (hp : s.pc t = .erase val) : ∃ m', Inv c ({ s with
      links := (combine s.links s.globalResult val).1
      globalResult := (combine s.links s.globalResult val).2
      mtx := none
      agents := s.agents.erase t
      combiner := Function.update s.combiner t false }.setPc t .idle) m' := by
  obtain ⟨ha, rfl⟩ : PcOk s t (.erase val) := hp ▸ h.reducer.pc t
  have hm := h.reducer.mtx t (by rw [hp]; rfl)
  have hne : Place.agent t ≠ Place.globalResult := by simp
  have hmem : ∀ u, u ∈ s.agents.erase t ↔ u ≠ t ∧ u ∈ s.agents := fun u => h.reducer.nodup.mem_erase_iff
  obtain ⟨hholds, hsame⟩ := combine_spec (h.place.holds .globalResult) (h.holds_agent ha) (h.place.disjoint hne.symm)
  refine ⟨_, h.calm rfl rfl rfl (setPc_get hp (by simp)) (h.place.move₂ (.agent t) .globalResult []
    (m .globalResult ++ m (.agent t)) rfl hne ?_ (fun k hk hk' => ?_)
    (fun n _ h₁ h₂ => hsame n (fun y hy => ?_)) ?_ hholds) h.sessions
    (h.reducer.step (h.reducer.ne_grab (by rw [hp]; rfl)) rfl (fun _ _ => rfl) (fun u hu => ?_)
      (h.reducer.nodup.erase t) (fun u hu => Function.update_of_ne hu ..) rfl (fun u hu hu' => ?_) trivial
      (fun hc => ?_) (fun hc => ?_) (by simp [Pc.hasMtx]))
    ⟨h.loops.sorted, h.loops.empty, h.loops.sort, h.loops.dump⟩ h.calls⟩
  · exact (List.perm_append_comm : (m .globalResult ++ m (.agent t)).Perm (m (.agent t) ++ m .globalResult))
  · rw [holder_setPc (by rw [show State.pc _ t = _ from hp]; rfl)]
    cases k with
    | agent u =>
      have hut : u ≠ t := fun he => hk (by rw [he])
      show Holder.list (if u ∈ s.agents.erase t then s.element u else none) =
        Holder.list (if u ∈ s.agents then s.element u else none)
      rw [if_congr ((hmem u).trans (and_iff_right hut)) rfl rfl]
    | globalResult => exact absurd rfl hk'
    | _ => rfl
  · exact (List.mem_append.1 hy).elim (h₂ y) (h₁ y)
  · show Holds _ (.list (if t ∈ s.agents.erase t then _ else none)) _
    rw [if_neg (fun hc => ((hmem t).1 hc).1 rfl)]
    rfl
  · exact (hmem u).trans (and_iff_right hu)
  · rw [hm] at hu'
    exact absurd (Option.some.inj hu').symm hu
  · have hc : Function.update s.combiner t false t = true := hc
    rw [Function.update_self] at hc
    cases hc
  · exact absurd rfl ((hmem t).1 hc).1

/-- **The next step of a worker in the reducer.** -/
theorem Inv.worker (h : Inv c s m) (hs : Samples.worker s t = some s') : ∃ m', Inv c s' m' := by
  unfold Samples.worker at hs
  cases hp : s.pc t <;> rw [hp] at hs <;> dsimp only at hs
  case append x =>
    split at hs
    · cases hs; exact ⟨m, h.append hp⟩
    · cases hs
  case modify x => cases hs; exact h.modify hp
  case commit =>
    split at hs
    · rename_i hm
      cases hs
      exact ⟨m, h.commit hp hm⟩
    · cases hs
  case load => cases hs; exact ⟨m, h.load hp⟩
  case erase val => cases hs; exact h.erase hp
  all_goals cases hs

/-- `~Agent`. -/
theorem Inv.exit (h : Inv c s m) (hf : s.free c t = true) (hc : s.combiner t = true) : Inv c (s.setPc t .commit) m := by
  simp only [State.free, Bool.and_eq_true, bne_iff_ne] at hf
  have hp : s.pc t = .idle := isIdle_iff.1 hf.1.1.1.1
  have hnot : ∀ x, s.pc t ≠ .append x := fun x hx => by rw [hp] at hx; cases hx
  refine h.calm rfl rfl rfl (setPc_get hp (by simp)) (h.place.of_eq rfl rfl (holder_setPc (by rw [hp]; rfl))) h.sessions
    (h.reducer.move hf.1.2 rfl rfl rfl rfl rfl rfl ?_ (by simp [Pc.hasMtx]) (fun x hx => absurd hx (hnot x))) h.loops
    h.calls
  refine (h.reducer.combiner t hc).resolve_right ?_
  rintro ⟨x, hx⟩
  exact hnot x hx

end Samples
end ContentionProf
