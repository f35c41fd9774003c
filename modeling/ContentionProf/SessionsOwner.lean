import ContentionProf.Sessions
/-!
# SessionsOwner — one owner for every profiler

A profiler is made by one start, named by `g_cp`, taken by one stop and deleted by it, in this order.  Only a dump that
owns `g_cp_mutex` uses a profiler that is not its own.
-/
namespace ContentionProf
namespace Sessions

variable {σ : Type} {s s' : State σ} {t u : Thread}

/-! ## Steps that leave the profilers where they are -/

theorem PcOk.of_eq {p : Pc σ} (h : PcOk s p) (hc : p.holds = true → s'.cp = s.cp) : PcOk s' p := by
  cases p <;> first | exact h | (have hc := hc rfl; simp only [PcOk] at h ⊢; rw [hc]; exact h)

theorem content_frame (hpc : ∀ u, u ≠ t → s'.pc u = s.pc u) (k : Place)
    (hk : k ∉ [Place.named, .deleted, .made t, .taken t]) : content s' k = content s k := by
  simp only [List.mem_cons, List.not_mem_nil, or_false, not_or] at hk
  cases k with
  | named => exact absurd rfl hk.1
  | deleted => exact absurd rfl hk.2.1
  | made u => exact congrArg Pc.made (hpc u (fun h => hk.2.2.1 (by rw [h])))
  | taken u => exact congrArg Pc.taken (hpc u (fun h => hk.2.2.2 (by rw [h])))

/-- All profilers of the shared places and of one thread, in one list. -/
def around (s : State σ) (p : Pc σ) : List Prof :=
  s.cp.toList ++ s.deleted.map Deletion.profiler ++ p.made ++ p.taken

theorem flatMap_around (s : State σ) (t : Thread) :
    [Place.named, .deleted, .made t, .taken t].flatMap (content s) = around s (s.pc t) := by
  simp [content, around]

theorem behind_congr (hpc : ∀ u, u ≠ t → s'.pc u = s.pc u)
    (ho : ∀ u, u ≠ t → (s'.owner = some u ↔ s.owner = some u)) (hp : (s.pc t).behind = 0) (hp' : (s'.pc t).behind = 0) :
    behind s' = behind s := by
  have zero : ∀ {s : State σ}, (s.pc t).behind = 0 → (∀ u, u ≠ t → s.owner ≠ some u) → behind s = 0 := by
    intro s hp hno
    unfold behind
    split
    · rename_i u hu
      by_cases hut : u = t
      · rw [hut, hp]
      · exact absurd hu (hno u hut)
    · rfl
  by_cases hex : ∃ u, u ≠ t ∧ s.owner = some u
  · obtain ⟨u, hut, hu⟩ := hex
    have hu' := (ho u hut).2 hu
    unfold behind
    rw [hu, hu']
    exact congrArg Pc.behind (hpc u hut)
  · have hno : ∀ u, u ≠ t → s.owner ≠ some u := fun u hut hu => hex ⟨u, hut, hu⟩
    rw [zero hp hno, zero hp' (fun u hut hu => hno u hut ((ho u hut).1 hu))]

theorem Inv.version_of_quiet (h : Inv s) (hpc : ∀ u, u ≠ t → s'.pc u = s.pc u)
    (ho : ∀ u, u ≠ t → (s'.owner = some u ↔ s.owner = some u)) (hp : (s.pc t).behind = 0) (hp' : (s'.pc t).behind = 0)
    (hver : s'.cpVersion = s.cpVersion) (hinst : s'.installed = s.installed) :
    s'.cpVersion + behind s' = s'.installed.length := by
  rw [hver, hinst, behind_congr hpc ho hp hp']
  exact h.version

/-- The facts about other threads are kept by a step that changes `g_cp` only under the mutex. -/
theorem Inv.others (h : Inv s) (hpc : ∀ u, u ≠ t → s'.pc u = s.pc u)
    (ho : ∀ u, u ≠ t → (s'.owner = some u ↔ s.owner = some u)) (hself : s'.owner = some t ↔ (s'.pc t).holds = true)
    (hcp : s'.cp = s.cp ∨ s.owner = some t) (hok : PcOk s' (s'.pc t)) :
    (∀ u, s'.owner = some u ↔ (s'.pc u).holds = true) ∧ ∀ u, PcOk s' (s'.pc u) := by
  constructor
  · intro u
    by_cases hut : u = t
    · rw [hut]; exact hself
    · rw [ho u hut, hpc u hut]; exact h.owner u
  · intro u
    by_cases hut : u = t
    · rw [hut]; exact hok
    · rw [hpc u hut]
      refine (h.pc u).of_eq (fun hh => ?_)
      rcases hcp with hcp | hcp
      · exact hcp
      · have hu := (h.owner u).2 hh
        rw [hcp] at hu
        exact absurd (Option.some.inj hu).symm hut

/-- A step that leaves every profiler where it is. -/
theorem Inv.quiet (h : Inv s) (hpc : ∀ u, u ≠ t → s'.pc u = s.pc u)
    (ho : ∀ u, u ≠ t → (s'.owner = some u ↔ s.owner = some u)) (hself : s'.owner = some t ↔ (s'.pc t).holds = true)
    (hcp : s'.cp = s.cp) (hall : s'.allocated = s.allocated) (hinst : s'.installed = s.installed)
    (hdel : s'.deleted = s.deleted) (hver : s'.cpVersion = s.cpVersion) (hmade : (s'.pc t).made = (s.pc t).made)
    (htaken : (s'.pc t).taken = (s.pc t).taken) (hb : (s.pc t).behind = 0) (hb' : (s'.pc t).behind = 0)
    (hok : PcOk s' (s'.pc t)) (hdumped : ∀ e ∈ s'.dumped, e.2.length = 1) : Inv s' := by
  obtain ⟨howner, hpcok⟩ := h.others hpc ho hself (.inl hcp) hok
  have hcontent : content s' = content s := by
    funext k
    cases k with
    | named => simp only [content, hcp]
    | deleted => simp only [content, hdel]
    | made u =>
      by_cases hut : u = t
      · simp only [content, hut, hmade]
      · simp only [content, hpc u hut]
    | taken u =>
      by_cases hut : u = t
      · simp only [content, hut, htaken]
      · simp only [content, hpc u hut]
  refine ⟨howner, hcontent ▸ h.places, fun p => by rw [hall, hcontent]; exact h.allocated p,
    fun p hp => by rw [hall]; exact h.installedLt p (hinst ▸ hp), hinst ▸ h.installedNodup,
    fun p hp => by rw [hinst]; exact h.named p (hcp ▸ hp), fun u p hp => ?_, fun u p hp => ?_,
    fun d hd => by rw [hinst]; exact h.deleted d (hdel ▸ hd), ?_, hpcok, hdumped⟩
  · have hp : p ∈ content s' (.taken u) := hp
    rw [hcontent] at hp
    rw [hinst]
    exact h.taken u p hp
  · have hp : p ∈ content s' (.made u) := hp
    rw [hcontent] at hp
    rw [hinst]
    exact h.made u p hp
  · exact h.version_of_quiet hpc ho hb hb' hver hinst

@[simp] theorem setPc_pc_self (s : State σ) (t : Thread) (p : Pc σ) : (s.setPc t p).pc t = p := Function.update_self ..

theorem setPc_pc_of_ne {p : Pc σ} (hu : u ≠ t) : (s.setPc t p).pc u = s.pc u := Function.update_of_ne hu ..

/-- A quiet step that moves the thread, with the mutex as it was. -/
theorem Inv.move {p p' : Pc σ} (h : Inv s) (hp : s.pc t = p) (hholds : p'.holds = p.holds) (hmade : p'.made = p.made)
    (htaken : p'.taken = p.taken) (hb : p.behind = 0) (hb' : p'.behind = 0) (hok : PcOk s p') : Inv (s.setPc t p') := by
  subst hp
  refine h.quiet (t := t) (fun u hu => setPc_pc_of_ne hu) (fun _ _ => .rfl) ?_ rfl rfl rfl rfl rfl
    ?_ ?_ hb ?_ ?_ h.dumped
  · rw [setPc_pc_self, hholds]; exact h.owner t
  · rw [setPc_pc_self, hmade]
  · rw [setPc_pc_self, htaken]
  · rw [setPc_pc_self]; exact hb'
  · rw [setPc_pc_self]; exact hok.of_eq (fun _ => rfl)

/-- A quiet step that locks `g_cp_mutex`. -/
theorem Inv.lock {p p' : Pc σ} (h : Inv s) (hp : s.pc t = p) (hs : s.lock t p' = some s') (hholds : p'.holds = true)
    (hmade : p'.made = p.made) (htaken : p'.taken = p.taken) (hb : p.behind = 0) (hb' : p'.behind = 0)
    (hok : PcOk s p') : Inv s' := by
  subst hp
  unfold State.lock at hs
  split at hs
  · rename_i hfree
    cases hs
    refine h.quiet (t := t) (fun u hu => setPc_pc_of_ne hu) (fun u hu => ?_) ?_ rfl rfl rfl rfl rfl
      ?_ ?_ hb ?_ ?_ h.dumped
    · rw [hfree]
      exact iff_of_false (fun he => hu (Option.some.inj he).symm) nofun
    · rw [setPc_pc_self, hholds]; exact iff_of_true rfl rfl
    · rw [setPc_pc_self, hmade]
    · rw [setPc_pc_self, htaken]
    · rw [setPc_pc_self]; exact hb'
    · rw [setPc_pc_self]; exact hok.of_eq (fun _ => rfl)
  · cases hs

theorem Inv.unlock {p p' : Pc σ} (h : Inv s) (hp : s.pc t = p) (hheld : p.holds = true) (hholds : p'.holds = false)
    (hmade : p'.made = p.made) (htaken : p'.taken = p.taken) (hb : p.behind = 0) (hb' : p'.behind = 0)
    (hok : PcOk s p') : Inv (s.unlock t p') := by
  subst hp
  have hown := (h.owner t).2 hheld
  refine h.quiet (t := t) (fun u hu => setPc_pc_of_ne hu) (fun u hu => ?_) ?_ rfl rfl rfl rfl rfl
    ?_ ?_ hb ?_ ?_ h.dumped
  · rw [hown]
    exact iff_of_false nofun (fun he => hu (Option.some.inj he).symm)
  · rw [State.unlock, setPc_pc_self, hholds]; exact iff_of_false nofun nofun
  · rw [State.unlock, setPc_pc_self, hmade]
  · rw [State.unlock, setPc_pc_self, htaken]
  · rw [State.unlock, setPc_pc_self]; exact hb'
  · rw [State.unlock, setPc_pc_self]; exact hok.of_eq (fun _ => rfl)

/-! ## Steps that move a profiler -/

/-- A profiler goes from one place of the thread to another, or to or from a shared one. -/
theorem Inv.moveProfiler (h : Inv s) (hpc : ∀ u, u ≠ t → s'.pc u = s.pc u)
    (howner : s'.owner = s.owner) (hself : s'.owner = some t ↔ (s'.pc t).holds = true)
    (hcp : s'.cp = s.cp ∨ s.owner = some t) (hall : s'.allocated = s.allocated)
    (hperm : (around s' (s'.pc t)).Perm (around s (s.pc t)))
    (hinstLt : ∀ p ∈ s'.installed, p < s.allocated) (hinstNodup : s'.installed.Nodup)
    (hinst : ∀ p ∈ s'.installed, p ∈ s.installed ∨ p ∈ (s.pc t).made)
    (hsub : ∀ p ∈ s.installed, p ∈ s'.installed) (hnamed : ∀ p, s'.cp = some p → p ∈ s'.installed)
    (htaken : ∀ p ∈ (s'.pc t).taken, p ∈ s'.installed) (hmade : ∀ p ∈ (s'.pc t).made, p ∉ s'.installed)
    (hdel : ∀ d ∈ s'.deleted, d.stop = true ↔ d.profiler ∈ s'.installed)
    (hver : s'.cpVersion + behind s' = s'.installed.length) (hok : PcOk s' (s'.pc t))
    (hdumped : s'.dumped = s.dumped) : Inv s' := by
  obtain ⟨hown, hpcok⟩ := h.others hpc (fun u _ => by rw [howner]) hself hcp hok
  have hperm : ([Place.named, .deleted, .made t, .taken t].flatMap (content s')).Perm
      ([Place.named, .deleted, .made t, .taken t].flatMap (content s)) := by
    rw [flatMap_around, flatMap_around]
    exact hperm
  have hout := content_frame hpc
  refine ⟨hown, h.places.rearrange (by simp) hperm hout, fun p => ?_, hall ▸ hinstLt, hinstNodup, hnamed,
    fun u p hp => ?_, fun u p hp hi => ?_, hdel, hver, hpcok, hdumped ▸ h.dumped⟩
  · rw [hall, placed_rearrange hperm hout]
    exact h.allocated p
  · by_cases hut : u = t
    · subst hut; exact htaken p hp
    · rw [hpc u hut] at hp
      exact hsub p (h.taken u p hp)
  · by_cases hut : u = t
    · subst hut; exact hmade p hp hi
    · rw [hpc u hut] at hp
      rcases hinst p hi with hi | hi
      · exact h.made u p hp hi
      -- two threads cannot have made the same profiler
      · have := h.places.unique (.made u) (.made t) p hp hi
        cases this
        exact hut rfl

/-- Line 82: a new profiler. -/
theorem Inv.startNew (h : Inv s) (hp : s.pc t = .startNew) :
    Inv ({ s with allocated := s.allocated + 1 }.setPc t (.startLock s.allocated)) := by
  have hfresh : ¬ Placed (content s) s.allocated := by rw [← h.allocated]; exact Nat.lt_irrefl _
  have hpc : ∀ u, u ≠ t →
      ({ s with allocated := s.allocated + 1 }.setPc t (.startLock s.allocated)).pc u = s.pc u := fun u hu =>
    setPc_pc_of_ne hu
  obtain ⟨hown, hpcok⟩ := h.others hpc
    (fun _ _ => .rfl) (by
      rw [setPc_pc_self]
      exact (h.owner t).trans (by rw [hp]; exact iff_of_false nofun nofun)) (.inl rfl) (by rw [setPc_pc_self]; trivial)
  have hins : (content ({ s with allocated := s.allocated + 1 }.setPc t (.startLock s.allocated)) (.made t)).Perm
      (s.allocated :: content s (.made t)) := by
    show ((Function.update s.pc t (.startLock s.allocated)) t).made.Perm (s.allocated :: (s.pc t).made)
    rw [Function.update_self, hp]
    exact .rfl
  have hout : ∀ k, k ≠ Place.made t →
      content ({ s with allocated := s.allocated + 1 }.setPc t (.startLock s.allocated)) k = content s k := by
    intro k hk
    cases k with
    | named => rfl
    | deleted => rfl
    | made u => exact congrArg Pc.made (hpc u (fun hut => hk (by rw [hut])))
    | taken u =>
      by_cases hut : u = t
      · subst hut
        show ((Function.update s.pc u (.startLock s.allocated)) u).taken = (s.pc u).taken
        rw [Function.update_self, hp]
        rfl
      · exact congrArg Pc.taken (hpc u hut)
  refine ⟨hown, h.places.insert hfresh hins hout, fun p => ?_, fun p hp => Nat.lt_succ_of_lt (h.installedLt p hp),
    h.installedNodup, h.named, fun u p hpt => ?_, fun u p hpt hi => ?_, h.deleted, ?_, hpcok, h.dumped⟩
  · rw [placed_insert hins hout, ← h.allocated]
    exact Nat.lt_succ_iff_lt_or_eq.trans or_comm
  · by_cases hut : u = t
    · rw [hut, setPc_pc_self] at hpt; cases hpt
    · rw [hpc u hut] at hpt; exact h.taken u p hpt
  · by_cases hut : u = t
    · rw [hut, setPc_pc_self] at hpt
      rw [List.mem_singleton.1 hpt] at hi
      exact Nat.lt_irrefl _ (h.installedLt _ hi)
    · rw [hpc u hut] at hpt; exact h.made u p hpt hi
  · rw [behind_congr (s := s) hpc (fun _ _ => .rfl) (by rw [hp]; rfl) (by rw [setPc_pc_self]; rfl)]
    exact h.version

theorem behind_of_owner (h : s.owner = some t) : behind s = (s.pc t).behind := by unfold behind; rw [h]

/-- **Every step keeps every profiler with one owner.** -/
theorem Inv.advance (h : Inv s) (hs : advance s t = some s') : Inv s' := by
  have hi := h.pc t
  have ho := h.owner t
  cases hp : s.pc t <;> rw [hp] at hi ho <;> simp only [Sessions.advance, hp] at hs
  case idle => cases hs
  case start => cases hs; split <;> exact h.move hp rfl rfl rfl rfl rfl trivial
  case startNew => cases hs; exact h.startNew hp
  case startLock p => exact h.lock hp hs rfl rfl rfl rfl rfl trivial
  case startCheck p =>
    cases hs
    split
    · exact h.move hp rfl rfl rfl rfl rfl trivial
    · rename_i hc
      exact h.move hp rfl rfl rfl rfl rfl (show s.cp = none by simpa using hc)
  case startUnlockBusy p => cases hs; exact h.unlock hp rfl rfl rfl rfl rfl rfl trivial
  case startFree p =>
    cases hs
    have hpm : p ∉ s.installed := h.made t p (by rw [hp]; exact List.mem_cons_self)
    refine h.moveProfiler (t := t) (fun u hu => setPc_pc_of_ne hu) rfl ?_ (.inl rfl) rfl ?_ h.installedLt
      h.installedNodup (fun q hq => .inl hq) (fun q hq => hq) h.named ?_ ?_ (fun d hd => ?_) ?_ ?_ rfl
    · rw [setPc_pc_self]; exact ho.trans (iff_of_false nofun nofun)
    · rw [setPc_pc_self, hp, List.perm_iff_count]
      intro q
      simp [around, State.setPc, State.delete, Pc.made, Pc.taken, List.count_cons]
    · rw [setPc_pc_self]; exact nofun
    · rw [setPc_pc_self]; exact nofun
    · rcases List.mem_cons.1 hd with rfl | hd
      · exact iff_of_false nofun hpm
      · exact h.deleted d hd
    · exact h.version_of_quiet (t := t) (fun u hu => setPc_pc_of_ne hu) (fun _ _ => .rfl) (by rw [hp]; rfl)
        (by rw [setPc_pc_self]; rfl) rfl rfl
    · rw [setPc_pc_self]; trivial
  case startSet p =>
    cases hs
    have hown : s.owner = some t := ho.2 rfl
    have hc : s.cp = none := hi
    have hpm : p ∈ (s.pc t).made := by rw [hp]; exact List.mem_cons_self
    have hnew : p ∉ s.installed := h.made t p hpm
    refine h.moveProfiler (t := t) (fun u hu => setPc_pc_of_ne hu) rfl ?_ (.inr hown) rfl ?_ (fun q hq => ?_)
      (List.nodup_cons.2 ⟨hnew, h.installedNodup⟩) (fun q hq => ?_) (fun q hq => List.mem_cons_of_mem _ hq)
      (fun q hq => ?_) ?_ ?_ (fun d hd => ?_) ?_ ?_ rfl
    · rw [setPc_pc_self]; exact ho
    · rw [setPc_pc_self, hp, List.perm_iff_count]
      intro q
      simp [around, State.setPc, hc, Pc.made, Pc.taken, List.count_cons]
    · rcases List.mem_cons.1 hq with rfl | hq
      · exact (h.allocated q).2 ⟨.made t, hpm⟩
      · exact h.installedLt q hq
    · rcases List.mem_cons.1 hq with rfl | hq
      · exact .inr hpm
      · exact .inl hq
    · cases hq; exact List.mem_cons_self
    · rw [setPc_pc_self]; exact nofun
    · rw [setPc_pc_self]; exact nofun
    · rw [h.deleted d hd]
      refine ⟨fun hq => List.mem_cons_of_mem _ hq, fun hq => ?_⟩
      rcases List.mem_cons.1 hq with hq | hq
      · have hd' : d.profiler ∈ content s .deleted := List.mem_map_of_mem hd
        rw [hq] at hd'
        exact nomatch h.places.unique _ (.made t) p hd' hpm
      · exact hq
    · have hver := h.version
      rw [behind_of_owner hown, hp] at hver
      have hown' : ({ s with cp := some p, installed := p :: s.installed }.setPc t .startBump).owner = some t := hown
      rw [behind_of_owner hown', setPc_pc_self]
      exact congrArg (· + 1) hver
    · rw [setPc_pc_self]; exact nofun
  case startBump =>
    cases hs
    have hown : s.owner = some t := ho.2 rfl
    refine h.moveProfiler (t := t) (fun u hu => setPc_pc_of_ne hu) rfl ?_ (.inl rfl) rfl ?_ h.installedLt
      h.installedNodup (fun q hq => .inl hq) (fun q hq => hq) h.named ?_ ?_ h.deleted ?_ ?_ rfl
    · rw [setPc_pc_self]; exact ho
    · rw [setPc_pc_self, hp]; exact .rfl
    · rw [setPc_pc_self]; exact nofun
    · rw [setPc_pc_self]; exact nofun
    · have hver := h.version
      rw [behind_of_owner hown, hp] at hver
      have hown' : ({ s with cpVersion := s.cpVersion + 1 }.setPc t .startUnlock).owner = some t := hown
      rw [behind_of_owner hown', setPc_pc_self]
      exact hver
    · rw [setPc_pc_self]; trivial
  case startUnlock => cases hs; exact h.unlock hp rfl rfl rfl rfl rfl rfl trivial
  case stop => cases hs; split <;> exact h.move hp rfl rfl rfl rfl rfl trivial
  case stopLock => exact h.lock hp hs rfl rfl rfl rfl rfl trivial
  case stopCheck =>
    cases hs
    split
    · rename_i hc
      exact h.move hp rfl rfl rfl rfl rfl (Option.isSome_iff_ne_none.1 hc)
    · exact h.move hp rfl rfl rfl rfl rfl trivial
  case stopTake =>
    obtain ⟨p, hc, rfl⟩ := Option.map_eq_some_iff.1 hs
    exact h.move hp rfl rfl rfl rfl rfl hc
  case stopClear p =>
    cases hs
    have hown : s.owner = some t := ho.2 rfl
    have hc : s.cp = some p := hi
    refine h.moveProfiler (t := t) (fun u hu => setPc_pc_of_ne hu) rfl ?_ (.inr hown) rfl ?_ h.installedLt
      h.installedNodup (fun q hq => .inl hq) (fun q hq => hq) nofun ?_ ?_ h.deleted ?_ ?_ rfl
    · rw [setPc_pc_self]; exact ho
    · rw [setPc_pc_self, hp, List.perm_iff_count]
      intro q
      simp [around, State.setPc, hc, Pc.made, Pc.taken, List.count_cons]
    · rw [setPc_pc_self]
      intro q hq
      rw [List.mem_singleton.1 hq]
      exact h.named p hc
    · rw [setPc_pc_self]; exact nofun
    · exact h.version_of_quiet (t := t) (fun u hu => setPc_pc_of_ne hu) (fun _ _ => .rfl) (by rw [hp]; rfl)
        (by rw [setPc_pc_self]; rfl) rfl rfl
    · rw [setPc_pc_self]; trivial
  case stopUnlock p => cases hs; exact h.unlock hp rfl rfl rfl rfl rfl rfl trivial
  case stopInit p => cases hs; exact h.move hp rfl rfl rfl rfl rfl trivial
  case stopDelete p =>
    cases hs
    have hpi : p ∈ s.installed := h.taken t p (by rw [hp]; exact List.mem_cons_self)
    refine h.moveProfiler (t := t) (fun u hu => setPc_pc_of_ne hu) rfl ?_ (.inl rfl) rfl ?_ h.installedLt
      h.installedNodup (fun q hq => .inl hq) (fun q hq => hq) h.named ?_ ?_ (fun d hd => ?_) ?_ ?_ rfl
    · rw [setPc_pc_self]; exact ho.trans (iff_of_false nofun nofun)
    · rw [setPc_pc_self, hp, List.perm_iff_count]
      intro q
      simp [around, State.setPc, State.delete, Pc.made, Pc.taken, List.count_cons]
    · rw [setPc_pc_self]; exact nofun
    · rw [setPc_pc_self]; exact nofun
    · rcases List.mem_cons.1 hd with rfl | hd
      · exact iff_of_true rfl hpi
      · exact h.deleted d hd
    · exact h.version_of_quiet (t := t) (fun u hu => setPc_pc_of_ne hu) (fun _ _ => .rfl) (by rw [hp]; rfl)
        (by rw [setPc_pc_self]; rfl) rfl rfl
    · rw [setPc_pc_self]; trivial
  case stopUnlockFree => cases hs; exact h.unlock hp rfl rfl rfl rfl rfl rfl trivial
  case dump x =>
    cases hs
    split
    · exact h.move hp rfl rfl rfl rfl rfl trivial
    · exact h.move hp rfl rfl rfl rfl rfl rfl
  case dumpLock x => exact h.lock hp hs rfl rfl rfl rfl rfl trivial
  case dumpCheck x =>
    cases hs
    split
    · rename_i hc
      exact h.move hp rfl rfl rfl rfl rfl (Option.isSome_iff_ne_none.1 hc)
    · exact h.move hp rfl rfl rfl rfl rfl trivial
  case dumpCall x =>
    obtain ⟨p, hc, rfl⟩ := Option.map_eq_some_iff.1 hs
    exact h.move hp rfl rfl rfl rfl rfl hc
  case dumping x p => cases hs; exact h.move hp rfl rfl rfl rfl rfl ⟨p, rfl⟩
  case dumpUnlock x got =>
    cases hs
    obtain ⟨p, rfl⟩ := hi
    have hown : s.owner = some t := ho.2 rfl
    refine h.quiet (t := t) (fun u hu => ?_) (fun u hu => ?_) ?_ rfl rfl rfl rfl rfl ?_ ?_ ?_ ?_ ?_ (fun e he => ?_)
    · rw [State.finishDump, setPc_pc_of_ne hu, State.unlock]; exact setPc_pc_of_ne hu
    · rw [hown]; exact iff_of_false nofun (fun he => hu (Option.some.inj he).symm)
    · rw [State.finishDump, setPc_pc_self]; exact iff_of_false nofun nofun
    · rw [State.finishDump, setPc_pc_self, hp]; rfl
    · rw [State.finishDump, setPc_pc_self, hp]; rfl
    · rw [hp]; rfl
    · rw [State.finishDump, setPc_pc_self]; rfl
    · rw [State.finishDump, setPc_pc_self]; trivial
    · rcases List.mem_cons.1 he with rfl | he
      · rfl
      · exact h.dumped e he
  case dumpUnlockFree x => cases hs; exact h.unlock hp rfl rfl rfl rfl rfl rfl rfl
  case destroy x got =>
    cases hs
    obtain rfl : got = [] := hi
    refine h.quiet (t := t) (fun u hu => setPc_pc_of_ne hu) (fun _ _ => .rfl) ?_ rfl rfl rfl rfl rfl ?_ ?_ ?_ ?_ ?_
      (fun e he => ?_)
    · rw [State.finishDump, setPc_pc_self]; exact ho.trans (iff_of_false nofun nofun)
    · rw [State.finishDump, setPc_pc_self, hp]; rfl
    · rw [State.finishDump, setPc_pc_self, hp]; rfl
    · rw [hp]; rfl
    · rw [State.finishDump, setPc_pc_self]; rfl
    · rw [State.finishDump, setPc_pc_self]; trivial
    · rcases List.mem_cons.1 he with rfl | he
      · rfl
      · exact h.dumped e he

theorem inv_init : Inv (initState σ) where
  owner _ := iff_of_false nofun nofun
  places := ⟨fun k => by cases k <;> exact List.nodup_nil, fun k l p hk _ => by cases k <;> cases hk⟩
  allocated p := iff_of_false (Nat.not_lt_zero p) (fun ⟨k, hk⟩ => by cases k <;> cases hk)
  installedLt _ hp := nomatch hp
  installedNodup := List.nodup_nil
  named _ hp := nomatch hp
  taken _ _ hp := nomatch hp
  made _ _ hp := nomatch hp
  deleted _ hd := nomatch hd
  version := rfl
  pc _ := trivial
  dumped _ he := nomatch he

theorem isIdle_iff {p : Pc σ} : p.isIdle = true ↔ p = .idle := by cases p <;> simp [Pc.isIdle]

theorem inv_step {a : Label σ} (h : Inv s) (hs : step s a = some s') : Inv s' := by
  have enter : ∀ {t : Thread} {p : Pc σ}, p.holds = false → p.made = [] → p.taken = [] → p.behind = 0 → PcOk s p →
      (if (s.pc t).isIdle then some (s.setPc t p) else none) = some s' → Inv s' := by
    intro t p hholds hmade htaken hbehind hok hs
    split at hs
    · rename_i hidle
      cases hs
      exact h.move (isIdle_iff.1 hidle) hholds hmade htaken rfl hbehind hok
    · cases hs
  cases a with
  | start t => exact enter (p := .start) rfl rfl rfl rfl trivial hs
  | stop t => exact enter (p := .stop) rfl rfl rfl rfl trivial hs
  | dump t x => exact enter (p := .dump x) rfl rfl rfl rfl trivial hs
  | go t => exact h.advance hs

theorem Reachable.inv (h : (system σ).Reachable s) : Inv s :=
  h.invariant (I := Inv) (fun s h0 => by cases h0; exact inv_init) (fun _ _ _ h _ hs => inv_step h hs)

/-! ## Who may use a profiler, and who deletes it -/

/-- The places of a profiler that a start installed: named by `g_cp`, taken by a stop, deleted by a stop. -/
inductive Installed (s : State σ) (p : Prof) : Place → Prop
  | named (h : s.cp = some p) : Installed s p .named
  | taken (t : Thread) (h : p ∈ (s.pc t).taken) : Installed s p (.taken t)
  | deleted (h : ⟨p, true⟩ ∈ s.deleted) : Installed s p .deleted

theorem Installed.mem {k : Place} (h : Installed s t k) : t ∈ content s k := by
  cases h with
  | named h => exact Option.mem_toList.2 h
  | taken t h => exact h
  | deleted h => exact List.mem_map_of_mem (f := Deletion.profiler) h

/-- **An installed profiler has one owner**: `g_cp`, one stop, or the one that deleted it. -/
theorem Inv.installed_place (h : Inv s) {p : Prof} (hp : p ∈ s.installed) :
    ∃ k, Installed s p k ∧ ∀ l, Installed s p l → l = k := by
  obtain ⟨k, hk⟩ := (h.allocated p).1 (h.installedLt p hp)
  have hin : Installed s p k := by
    cases k with
    | named => exact .named (Option.mem_toList.1 hk)
    | deleted =>
      obtain ⟨d, hd, rfl⟩ := List.mem_map.1 hk
      have hstop := (h.deleted d hd).2 hp
      obtain ⟨q, b⟩ := d
      cases hstop
      exact .deleted hd
    | made u => exact absurd hp (h.made u p hk)
    | taken u => exact .taken u hk
  exact ⟨k, hin, fun l hl => h.places.unique l k p hl.mem hk⟩

/-- The profiler whose method a thread is in is not deleted, and is the thread's own or held through the mutex. -/
theorem Inv.calls (h : Inv s) {p : Prof} (hc : (s.pc t).calls = some p) :
    p ∉ s.deleted.map Deletion.profiler ∧
      (s.owner = some t ∧ s.cp = some p ∨ p ∈ (s.pc t).taken ∨ p ∈ (s.pc t).made) := by
  have hi := h.pc t
  have ho := h.owner t
  have hwhere : s.owner = some t ∧ s.cp = some p ∨ p ∈ (s.pc t).taken ∨ p ∈ (s.pc t).made := by
    cases hp : s.pc t <;> rw [hp] at hc hi ho <;> simp only [Pc.calls, reduceCtorEq, Option.some.injEq] at hc
    case startFree q => exact .inr (.inr (by rw [← hc]; exact List.mem_cons_self))
    case stopInit q => exact .inr (.inl (by rw [← hc]; exact List.mem_cons_self))
    case stopDelete q => exact .inr (.inl (by rw [← hc]; exact List.mem_cons_self))
    case dumping x q => exact .inl ⟨ho.2 rfl, by rw [← hc]; exact hi⟩
  refine ⟨fun hd => ?_, hwhere⟩
  rcases hwhere with ⟨-, hcp⟩ | ht | hm
  · exact nomatch h.places.unique .named .deleted p (Option.mem_toList.2 hcp) hd
  · exact nomatch h.places.unique (.taken t) .deleted p ht hd
  · exact nomatch h.places.unique (.made t) .deleted p hm hd

/-- **One profiler at a time, one owner each**: whatever starts, stops and dumps do, a profiler that was installed is
named by `g_cp`, taken by one stop or deleted by one stop; who is in one of its methods holds the mutex while `g_cp`
names it, or is the thread that took it (or made it and could not install it), and it is not deleted; every start that
installs one adds one to `g_cp_version`; every dump ends with one use of its sample. -/
theorem profiler_owned (h : (system σ).Reachable s) :
    (∀ p ∈ s.installed, ∃ k, Installed s p k ∧ ∀ l, Installed s p l → l = k) ∧
    (s.deleted.map Deletion.profiler).Nodup ∧
    (∀ d ∈ s.deleted, d.stop = true ↔ d.profiler ∈ s.installed) ∧
    (∀ t p, (s.pc t).calls = some p → p ∉ s.deleted.map Deletion.profiler ∧
      (s.owner = some t ∧ s.cp = some p ∨ p ∈ (s.pc t).taken ∨ p ∈ (s.pc t).made ∧ p ∉ s.installed)) ∧
    (∀ t, (s.pc t).needsProfiler = true → s.cp ≠ none) ∧
    s.installed.Nodup ∧ s.cpVersion + behind s = s.installed.length ∧
    ∀ e ∈ s.dumped, ∃ o, e.2 = [o] := by
  have hi := Reachable.inv h
  refine ⟨fun p hp => hi.installed_place hp, hi.places.nodup .deleted, hi.deleted, fun t p hc => ?_, fun t ht => ?_,
    hi.installedNodup, hi.version, fun e he => List.length_eq_one_iff.1 (hi.dumped e he)⟩
  · obtain ⟨hnd, hw⟩ := hi.calls hc
    refine ⟨hnd, ?_⟩
    rcases hw with hw | hw | hw
    · exact .inl hw
    · exact .inr (.inl hw)
    · exact .inr (.inr ⟨hw, hi.made t p hw⟩)
  · have hpc := hi.pc t
    cases hp : s.pc t <;> rw [hp] at ht hpc <;> first | exact hpc | cases ht

/-- A start, a dump that finds the profiler, a stop that takes it, and a dump that comes too late. -/
def sessionWalk : List (Label Nat) :=
  [Label.start 0] ++ List.replicate 7 (Label.go 0) ++
    [Label.dump 1 10, Label.go 1, Label.go 1, Label.stop 2, Label.go 2, Label.go 1, Label.go 1, Label.dump 3 11,
      Label.go 3, Label.go 1, Label.go 1] ++
    List.replicate 5 (Label.go 2) ++ [Label.go 3, Label.go 3, Label.go 3, Label.go 3, Label.go 2, Label.go 2]

theorem sessionWalk_ends : ((system Nat).run (initState Nat) sessionWalk).map (fun s => (s.deleted, s.dumped)) =
    some ([⟨0, true⟩], [(11, [.destroyed]), (10, [.profiler 0])]) := by decide

theorem profiler_owned_sessionWalk : ∃ s, (system Nat).run (initState Nat) sessionWalk = some s ∧
    s.deleted = [⟨0, true⟩] ∧ s.dumped = [(11, [.destroyed]), (10, [.profiler 0])] ∧ 0 ∈ s.installed := by
  obtain ⟨s, hr, he⟩ := Option.map_eq_some_iff.1 sessionWalk_ends
  have hreach : (system Nat).Reachable s := System.Reachable.run (.init rfl) _ hr
  have hdel : s.deleted = [⟨0, true⟩] := congrArg Prod.fst he
  obtain ⟨-, -, hstop, -⟩ := profiler_owned hreach
  exact ⟨s, hr, hdel, congrArg Prod.snd he, (hstop ⟨0, true⟩ (by rw [hdel]; exact List.mem_cons_self)).1 rfl⟩

end Sessions
end ContentionProf
