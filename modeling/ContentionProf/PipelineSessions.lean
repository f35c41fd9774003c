import ContentionProf.Pipeline
/-!
# PipelineSessions — the samples of one session in the profile of the next

A sample does not say when it was submitted, and nobody between `submit` and the profiler asks.  The sessions are apart
as long as the collector is empty whenever a profiler is installed.
-/
namespace ContentionProf
namespace Pipeline

variable {c : Config} {s s' : State} {t u : Thread} {x : Sample} {r r' : Combiner.State Sample} {n m : Nat}

/-! ## The reducer moves samples -/

theorem InReducer.of_parts (hpc : ∀ u, u ≠ t → r'.pc u = r.pc u)
    (hpending : ∀ x ∈ (r'.pc t).pending, InReducer r n x) (htmp : ∀ x ∈ (r'.pc t).tmp, InReducer r n x)
    (helement : ∀ u ∈ r'.agents, ∀ x ∈ r'.element u, InReducer r n x)
    (hglobal : ∀ x ∈ r'.globalResult, InReducer r n x)
    (hresult : ∀ b ∈ r'.results.drop m, ∀ x ∈ b, InReducer r n x) (h : InReducer r' m x) : InReducer r n x := by
  cases h with
  | pending u h =>
    by_cases hu : u = t
    · rw [hu] at h; exact hpending x h
    · rw [hpc u hu] at h; exact .pending u h
  | element u hu h => exact helement u hu x h
  | globalResult h => exact hglobal x h
  | tmp u h =>
    by_cases hu : u = t
    · rw [hu] at h; exact htmp x h
    · rw [hpc u hu] at h; exact .tmp u h
  | result b hb h => exact hresult b hb x h

/-- **A step inside a call brings no sample in.** -/
theorem InReducer.of_advance (hi : Combiner.Inv Sample.thread r) (hs : Combiner.advance r t = some r')
    (h : InReducer r' n x) : InReducer r n x := by
  have hok := hi.pc t
  have hpc : ∀ u, u ≠ t → r'.pc u = r.pc u := by
    intro u hu
    unfold Combiner.advance at hs
    cases hp : r.pc t <;> rw [hp] at hs <;> dsimp only at hs <;> (try split at hs) <;> cases hs <;>
      exact Function.update_of_ne hu ..
  have pend : ∀ x ∈ (r.pc t).pending, InReducer r n x := fun x hx => .pending t hx
  have tmp : ∀ x ∈ (r.pc t).tmp, InReducer r n x := fun x hx => .tmp t hx
  have elem : ∀ u ∈ r.agents, ∀ x ∈ r.element u, InReducer r n x := fun u hu x hx => .element u hu hx
  have glob : ∀ x ∈ r.globalResult, InReducer r n x := fun x hx => .globalResult hx
  have res : ∀ b ∈ r.results.drop n, ∀ x ∈ b, InReducer r n x := fun b hb x hx => .result b hb hx
  unfold Combiner.advance at hs
  cases hp : r.pc t with rw [hp] at hs hok pend tmp
  | idle => cases hs
  | append v =>
    dsimp only at hs
    split at hs
    · cases hs
      refine h.of_parts hpc ?_ ?_ (fun u hu x hx => ?_) glob res
      · rw [Combiner.setPc_pc_self]; exact pend
      · rw [Combiner.setPc_pc_self]; exact nofun
      · rcases List.mem_append.1 hu with hu | hu
        · exact elem u hu x hx
        -- the new agent is empty
        · rw [List.mem_singleton.1 hu] at hx
          have hx : x ∈ r.element t := hx
          rw [hok.2.2.1] at hx
          cases hx
    · cases hs
  | modify v =>
    cases hs
    refine h.of_parts hpc ?_ ?_ (fun u hu x hx => ?_) glob res
    · rw [Combiner.setPc_pc_self]; exact nofun
    · rw [Combiner.setPc_pc_self]; exact nofun
    · have hx : x ∈ Function.update r.element t (r.element t ++ [v]) u := hx
      by_cases hut : u = t
      · rw [hut, Function.update_self] at hx
        rcases List.mem_append.1 hx with hx | hx
        · exact elem t (hut ▸ hu) x hx
        · exact pend x hx
      · rw [Function.update_of_ne hut] at hx
        exact elem u hu x hx
  | reset =>
    dsimp only at hs
    split at hs
    · cases hs
      refine h.of_parts hpc ?_ ?_ elem nofun res
      · rw [Combiner.setPc_pc_self]; exact nofun
      · rw [Combiner.setPc_pc_self]; exact glob
    · cases hs
  | exchange node l =>
    dsimp only at hs
    split at hs
    · rename_i v hv
      cases hs
      refine h.of_parts hpc ?_ ?_ (fun u hu x hx => ?_) glob res
      · rw [Combiner.setPc_pc_self]; exact nofun
      · rw [Combiner.setPc_pc_self]
        intro x hx
        rcases List.mem_append.1 hx with hx | hx
        · exact tmp x hx
        · exact elem v (List.mem_of_getElem? hv) x hx
      · have hx : x ∈ Function.update r.element v [] u := hx
        by_cases huv : u = v
        · rw [huv, Function.update_self] at hx; cases hx
        · rw [Function.update_of_ne huv] at hx
          exact elem u hu x hx
    · cases hs
      refine h.of_parts hpc ?_ ?_ elem glob (fun b hb x hx => ?_)
      · rw [Combiner.setPc_pc_self]; exact nofun
      · rw [Combiner.setPc_pc_self]; exact nofun
      · rcases List.mem_append.1 (List.drop_append (i := n) ▸ hb) with hb | hb
        · exact res b hb x hx
        · rw [List.mem_singleton.1 (List.mem_of_mem_drop hb)] at hx
          exact tmp x hx
  | commit =>
    dsimp only at hs
    split at hs
    · cases hs
      refine h.of_parts hpc ?_ ?_ elem glob res <;> rw [Combiner.setPc_pc_self] <;> exact nofun
    · cases hs
  | load =>
    cases hs
    refine h.of_parts hpc ?_ ?_ elem glob res <;> rw [Combiner.setPc_pc_self] <;> exact nofun
  | erase val =>
    cases hs
    obtain ⟨hmem, -, -, hval⟩ := hok
    refine h.of_parts hpc ?_ ?_ (fun u hu x hx => elem u (List.mem_of_mem_erase hu) x hx) (fun x hx => ?_) res
    · rw [Combiner.setPc_pc_self]; exact nofun
    · rw [Combiner.setPc_pc_self]; exact nofun
    · rcases List.mem_append.1 hx with hx | hx
      · exact glob x hx
      · exact elem t hmem x (hval ▸ hx)

/-- `operator<<` brings its own sample in. -/
theorem InReducer.of_submit {v : Sample} (h : InReducer (Combiner.submit r t v) n x) : x = v ∨ InReducer r n x := by
  have hpc : ∀ u, u ≠ t → (Combiner.submit r t v).pc u = r.pc u := by
    intro u hu
    unfold Combiner.submit
    dsimp only
    split <;> exact Function.update_of_ne hu ..
  have hself : ((Combiner.submit r t v).pc t).pending = [v] ∧ ((Combiner.submit r t v).pc t).tmp = [] := by
    unfold Combiner.submit
    dsimp only
    split <;> rw [Combiner.setPc_pc_self] <;> exact ⟨rfl, rfl⟩
  have helement : ∀ u, ∀ y ∈ (Combiner.submit r t v).element u, y ∈ r.element u := by
    intro u y hy
    unfold Combiner.submit at hy
    dsimp only at hy
    split at hy
    · exact hy
    · have hy : y ∈ Function.update r.element t [] u := hy
      by_cases hu : u = t
      · rw [hu, Function.update_self] at hy; cases hy
      · rw [Function.update_of_ne hu] at hy; exact hy
  have hrest : (Combiner.submit r t v).agents = r.agents ∧ (Combiner.submit r t v).globalResult = r.globalResult ∧
      (Combiner.submit r t v).results = r.results := by
    unfold Combiner.submit
    dsimp only
    split <;> exact ⟨rfl, rfl, rfl⟩
  obtain ⟨hagents, hglobal, hresults⟩ := hrest
  cases h with
  | pending u h =>
    by_cases hu : u = t
    · rw [hu, hself.1] at h; exact .inl (List.mem_singleton.1 h)
    · rw [hpc u hu] at h; exact .inr (.pending u h)
  | element u hu h => exact .inr (.element u (hagents ▸ hu) (helement u x h))
  | globalResult h => exact .inr (.globalResult (hglobal ▸ h))
  | tmp u h =>
    by_cases hu : u = t
    · rw [hu, hself.2] at h; cases h
    · rw [hpc u hu] at h; exact .inr (.tmp u h)
  | result b hb h => exact .inr (.result b (hresults ▸ hb) h)

theorem InReducer.of_step {a : Combiner.Label Sample} (hi : Combiner.Inv Sample.thread r)
    (hs : Combiner.step r a = some r') (ha : ∀ t v, a ≠ .submit t v) (h : InReducer r' n x) : InReducer r n x := by
  have enter : ∀ {t : Thread} {p : Combiner.Pc Sample}, p.pending = [] → p.tmp = [] →
      InReducer (r.setPc t p) n x → InReducer r n x := by
    intro t p hpending htmp h
    refine h.of_parts (t := t) (fun u hu => Combiner.setPc_pc_of_ne hu) ?_ ?_ (fun u hu x hx => .element u hu hx)
      (fun x hx => .globalResult hx) (fun b hb x hx => .result b hb hx)
    · rw [Combiner.setPc_pc_self, hpending]; exact nofun
    · rw [Combiner.setPc_pc_self, htmp]; exact nofun
  cases a with
  | submit t v => exact absurd rfl (ha t v)
  | reset t =>
    simp only [Combiner.step, Option.ite_none_right_eq_some, Option.some.injEq] at hs
    obtain ⟨-, rfl⟩ := hs
    exact enter rfl rfl h
  | exit t =>
    simp only [Combiner.step, Option.ite_none_right_eq_some, Option.some.injEq] at hs
    obtain ⟨-, rfl⟩ := hs
    exact enter rfl rfl h
  | go t => exact h.of_advance hi hs

/-! ## The grab thread and the dump thread -/

theorem find_clearVectors (m : Collector.PreprocessorMap Sample) (k : Collector.Prep) :
    OrderedMap.find [] (Collector.clearVectors m) k = [] := by
  induction m with
  | nil => rfl
  | cons e m ih =>
    unfold Collector.clearVectors at ih ⊢
    rw [List.map_cons]
    unfold OrderedMap.find
    rw [ih]
    split
    · rfl
    · split <;> rfl

/-- The vectors get the samples of the batch. -/
theorem mem_group {cc : Collector.Config Sample} {k : Collector.Prep} : ∀ {batch : List Sample}
    {m : Collector.PreprocessorMap Sample}, x ∈ OrderedMap.find [] (cc.group m batch) k →
    x ∈ OrderedMap.find [] m k ∨ x ∈ batch
  | [], m, h => .inl h
  | y :: batch, m, h => by
    have h : x ∈ OrderedMap.find [] (cc.group (OrderedMap.alter [] (· ++ [y]) m (cc.preprocessor y)) batch) k := h
    rcases mem_group h with h | h
    · by_cases hk : k = cc.preprocessor y
      · rw [hk, OrderedMap.find_alter_self] at h
        rcases List.mem_append.1 h with h | h
        · exact .inl (hk ▸ h)
        · rw [List.mem_singleton.1 h]
          exact .inr List.mem_cons_self
      · rw [OrderedMap.find_alter_of_ne hk] at h
        exact .inl h
    · exact .inr (List.mem_cons_of_mem y h)

/-- A vector written back as it was. -/
theorem find_alter_same (m : Collector.PreprocessorMap Sample) (k l : Collector.Prep) :
    OrderedMap.find [] (OrderedMap.alter [] (fun _ => OrderedMap.find [] m k) m k) l = OrderedMap.find [] m l := by
  by_cases hl : l = k
  · rw [hl, OrderedMap.find_alter_self]
  · exact OrderedMap.find_alter_of_ne hl m

/-- **What a step of the grab thread does with its samples**, when `process` leaves the vectors as they are. -/
theorem grabStep_moves {cc : Collector.Config Sample} {f f' : Collector.State Sample} {batch : List Sample}
    {us tod : U64}
    (hs : Collector.grabStep cc f ⟨batch, id, us, tod⟩ = some f') :
    f'.dump = f.dump ∧
    (∀ x ∈ grabbed f'.prepMap f'.grab, x ∈ grabbed f.prepMap f.grab ∨ atReset f.grab = true ∧ x ∈ batch) ∧
    (∀ x ∈ f'.root, x ∈ f.root ∨ x ∈ grabbed f.prepMap f.grab) ∧ ∀ x ∈ f'.dumpRoot, x ∈ f.dumpRoot ∨ x ∈ f.root := by
  unfold Collector.grabStep at hs
  cases hp : f.grab with rw [hp] at hs
  | reset =>
    dsimp only at hs
    split at hs <;> cases hs
    · exact ⟨rfl, nofun, fun x hx => .inl hx, fun x hx => .inl hx⟩
    · refine ⟨rfl, fun x hx => .inr ⟨rfl, ?_⟩, fun x hx => .inl hx, fun x hx => .inl hx⟩
      obtain ⟨k, -, hx⟩ := List.mem_flatMap.1 hx
      rcases mem_group hx with hx | hx
      · rw [find_clearVectors] at hx; cases hx
      · exact hx
  | preps it =>
    cases it with
    | nil => cases hs; exact ⟨rfl, nofun, fun x hx => .inl hx, fun x hx => .inl hx⟩
    | cons k it =>
      dsimp only [id] at hs
      rw [ite_self] at hs
      split at hs <;> cases hs
      · exact ⟨rfl, fun x hx => .inl (List.mem_append_right _ hx), fun x hx => .inl hx, fun x hx => .inl hx⟩
      · refine ⟨rfl, fun x hx => .inl ?_, fun x hx => .inl hx, fun x hx => .inl hx⟩
        rcases List.mem_append.1 hx with hx | hx
        · exact List.mem_append_left _ hx
        · obtain ⟨l, hl, hx⟩ := List.mem_flatMap.1 hx
          rw [find_alter_same] at hx
          exact List.mem_append_right _ (List.mem_flatMap.2 ⟨l, hl, hx⟩)
  | samples l it =>
    cases l <;> cases hs <;> exact ⟨rfl, fun x hx => .inl hx, fun x hx => .inl hx, fun x hx => .inl hx⟩
  | count p l it => cases hs; exact ⟨rfl, fun x hx => .inl hx, fun x hx => .inl hx, fun x hx => .inl hx⟩
  | compare p l it =>
    dsimp only at hs
    cases hs
    refine ⟨rfl, fun x hx => .inl ?_, fun x hx => .inl hx, fun x hx => .inl hx⟩
    dsimp only at hx
    split at hx <;> exact hx
  | drop p l it =>
    cases hs
    exact ⟨rfl, fun x hx => .inl (List.mem_cons_of_mem p hx), fun x hx => .inl hx, fun x hx => .inl hx⟩
  | insert p l it =>
    cases hs
    refine ⟨rfl, fun x hx => .inl (List.mem_cons_of_mem p hx), fun x hx => ?_, fun x hx => .inl hx⟩
    rcases List.mem_append.1 hx with hx | hx
    · exact .inl hx
    · rw [List.mem_singleton.1 hx]
      exact .inr List.mem_cons_self
  | push =>
    cases hs
    refine ⟨rfl, nofun, nofun, fun x hx => ?_⟩
    exact List.mem_append.1 hx
  | limits it us =>
    cases it with
    | nil => cases hs; exact ⟨rfl, nofun, fun x hx => .inl hx, fun x hx => .inl hx⟩
    | cons l it =>
      obtain ⟨r, -, rfl⟩ := Option.map_eq_some_iff.1 hs
      exact ⟨rfl, nofun, fun x hx => .inl hx, fun x hx => .inl hx⟩
  | _ => cases hs; exact ⟨rfl, nofun, fun x hx => .inl hx, fun x hx => .inl hx⟩

/-! ## The sessions -/

/-- **All that a step of a start, a stop or a dump does with `g_cp` and with samples.** -/
structure SessionEffect (f f' : Sessions.State Sample) (t : Thread) : Prop where
  others : ∀ u, u ≠ t → f'.pc u = f.pc u
  cp : f'.cp = f.cp ∨ f'.cp = none ∨ ∃ ctx, f.pc t = .startSet ctx
  undecided : ∀ x, undecided (f'.pc t) = some x → Pipeline.undecided (f.pc t) = some x
  dumping : ∀ x p, f'.pc t = .dumping x p → Pipeline.undecided (f.pc t) = some x ∧ f.cp = some p
  unlock : ∀ x got, f'.pc t = .dumpUnlock x got → ∃ p, f.pc t = .dumping x p ∧ got = [.profiler p]
  dumped : ∀ x got, (x, got) ∈ f'.dumped → (x, got) ∈ f.dumped ∨ f.pc t = .dumpUnlock x got ∨ got = [.destroyed]

section Effect

variable {f f' g : Sessions.State Sample} {p q : Sessions.Pc Sample}

/-- A step outside `dump_and_destroy`. -/
theorem SessionEffect.outside (hpc : g.pc = f.pc) (hd : g.dumped = f.dumped)
    (hcp : g.cp = f.cp ∨ g.cp = none ∨ ∃ ctx, f.pc t = .startSet ctx) (hund : Pipeline.undecided q = none)
    (hdumping : ∀ x p, q ≠ .dumping x p := by rintro _ _ ⟨⟩)
    (hunlock : ∀ x got, q ≠ .dumpUnlock x got := by rintro _ _ ⟨⟩) : SessionEffect f (g.setPc t q) t where
  others u hu := by rw [Sessions.setPc_pc_of_ne hu, hpc]
  cp := hcp
  undecided x h := by rw [Sessions.setPc_pc_self, hund] at h; cases h
  dumping x p h := by rw [Sessions.setPc_pc_self] at h; exact absurd h (hdumping x p)
  unlock x got h := by rw [Sessions.setPc_pc_self] at h; exact absurd h (hunlock x got)
  dumped x got h := .inl (hd ▸ h)

/-- A step of `dump_and_destroy` before line 85. -/
theorem SessionEffect.ahead (hpc : g.pc = f.pc) (hd : g.dumped = f.dumped) (hcp : g.cp = f.cp) (hp : f.pc t = p)
    (hund : ∀ x, Pipeline.undecided q = some x → Pipeline.undecided p = some x)
    (hdumping : ∀ x p, q ≠ .dumping x p := by rintro _ _ ⟨⟩)
    (hunlock : ∀ x got, q ≠ .dumpUnlock x got := by rintro _ _ ⟨⟩) : SessionEffect f (g.setPc t q) t where
  others u hu := by rw [Sessions.setPc_pc_of_ne hu, hpc]
  cp := .inl hcp
  undecided x h := by rw [Sessions.setPc_pc_self] at h; rw [hp]; exact hund x h
  dumping x p h := by rw [Sessions.setPc_pc_self] at h; exact absurd h (hdumping x p)
  unlock x got h := by rw [Sessions.setPc_pc_self] at h; exact absurd h (hunlock x got)
  dumped x got h := .inl (hd ▸ h)

theorem lock_eq (hs : f.lock t q = some f') : f' = { f with owner := some t }.setPc t q := by
  unfold Sessions.State.lock at hs
  split at hs <;> cases hs
  rfl

theorem sessionEffect (hi : Sessions.Inv f) (hs : Sessions.advance f t = some f') : SessionEffect f f' t := by
  have hok := hi.pc t
  cases hp : f.pc t <;> rw [hp] at hok <;> simp only [Sessions.advance, hp] at hs
  case idle => cases hs
  case start => cases hs; split <;> exact .outside rfl rfl (.inl rfl) rfl
  case startNew => cases hs; exact .outside rfl rfl (.inl rfl) rfl
  case startLock ctx => rw [lock_eq hs]; exact .outside rfl rfl (.inl rfl) rfl
  case startCheck ctx => cases hs; split <;> exact .outside rfl rfl (.inl rfl) rfl
  case startUnlockBusy ctx => cases hs; exact .outside rfl rfl (.inl rfl) rfl
  case startFree ctx => cases hs; exact .outside rfl rfl (.inl rfl) rfl
  case startSet ctx => cases hs; exact .outside rfl rfl (.inr (.inr ⟨ctx, hp⟩)) rfl
  case startBump => cases hs; exact .outside rfl rfl (.inl rfl) rfl
  case startUnlock => cases hs; exact .outside rfl rfl (.inl rfl) rfl
  case stop => cases hs; split <;> exact .outside rfl rfl (.inl rfl) rfl
  case stopLock => rw [lock_eq hs]; exact .outside rfl rfl (.inl rfl) rfl
  case stopCheck => cases hs; split <;> exact .outside rfl rfl (.inl rfl) rfl
  case stopTake =>
    obtain ⟨p, -, rfl⟩ := Option.map_eq_some_iff.1 hs
    exact .outside rfl rfl (.inl rfl) rfl
  case stopClear ctx => cases hs; exact .outside rfl rfl (.inr (.inl rfl)) rfl
  case stopUnlock ctx => cases hs; exact .outside rfl rfl (.inl rfl) rfl
  case stopInit ctx => cases hs; exact .outside rfl rfl (.inl rfl) rfl
  case stopDelete ctx => cases hs; exact .outside rfl rfl (.inl rfl) rfl
  case stopUnlockFree => cases hs; exact .outside rfl rfl (.inl rfl) rfl
  case dump x =>
    cases hs
    split
    · exact .ahead rfl rfl rfl hp (fun _ h => h)
    · exact .outside rfl rfl (.inl rfl) rfl
  case dumpLock x => rw [lock_eq hs]; exact .ahead rfl rfl rfl hp (fun _ h => h)
  case dumpCheck x =>
    cases hs
    split
    · exact .ahead rfl rfl rfl hp (fun _ h => h)
    · exact .outside rfl rfl (.inl rfl) rfl
  case dumpCall x =>
    obtain ⟨p, hcp, rfl⟩ := Option.map_eq_some_iff.1 hs
    refine ⟨fun u hu => Sessions.setPc_pc_of_ne hu, .inl rfl, fun y h => ?_, fun y q h => ?_, fun y got h => ?_,
      fun y got h => .inl h⟩ <;> rw [Sessions.setPc_pc_self] at h <;> cases h
    exact ⟨by rw [hp]; rfl, hcp⟩
  case dumping x p =>
    cases hs
    refine ⟨fun u hu => Sessions.setPc_pc_of_ne hu, .inl rfl, fun y h => ?_, fun y q h => ?_, fun y got h => ?_,
      fun y got h => .inl h⟩ <;> rw [Sessions.setPc_pc_self] at h <;> cases h
    exact ⟨p, hp, rfl⟩
  case dumpUnlock x got =>
    cases hs
    refine ⟨fun u hu => ?_, .inl rfl, fun y h => ?_, fun y q h => ?_, fun y got h => ?_, fun y got' h => ?_⟩
    · rw [Sessions.State.finishDump, Sessions.setPc_pc_of_ne hu, Sessions.State.unlock]
      exact Sessions.setPc_pc_of_ne hu
    · rw [Sessions.State.finishDump, Sessions.setPc_pc_self] at h; cases h
    · rw [Sessions.State.finishDump, Sessions.setPc_pc_self] at h; cases h
    · rw [Sessions.State.finishDump, Sessions.setPc_pc_self] at h; cases h
    · rcases List.mem_cons.1 h with h | h
      · cases h; exact .inr (.inl hp)
      · exact .inl h
  case dumpUnlockFree x => cases hs; exact .outside rfl rfl (.inl rfl) rfl
  case destroy x got =>
    cases hs
    obtain rfl : got = [] := hok
    refine ⟨fun u hu => Sessions.setPc_pc_of_ne hu, .inl rfl, fun y h => ?_, fun y q h => ?_, fun y got h => ?_,
      fun y got' h => ?_⟩
    · rw [Sessions.State.finishDump, Sessions.setPc_pc_self] at h; cases h
    · rw [Sessions.State.finishDump, Sessions.setPc_pc_self] at h; cases h
    · rw [Sessions.State.finishDump, Sessions.setPc_pc_self] at h; cases h
    · rcases List.mem_cons.1 h with h | h
      · cases h; exact .inr (.inr rfl)
      · exact .inl h

end Effect

/-! ## The invariant -/

structure Inv (c : Config) (s : State) : Prop where
  sessions : Sessions.Inv s.sessions
  reducer : Combiner.Inv Sample.thread s.reducer
  /-- Only the dump thread dumps, and the sample it is at. -/
  calls : ∀ t x, undecided (s.sessions.pc t) = some x → t = c.dumpThread ∧ ∃ l, s.collector.dump = .dump x l
  current : ∀ p, s.sessions.cp = some p → ∀ x, InCollector c s x → x.session = some p
  apart : SessionsApart s

/-- A sample on its way to line 85 is still in the collector. -/
theorem Inv.inCollector (h : Inv c s) (hx : undecided (s.sessions.pc t) = some x) : InCollector c s x := by
  obtain ⟨rfl, l, hl⟩ := h.calls t x hx
  refine .dumping ?_
  unfold dumping
  rw [hl, hx]
  simp

/-- A step of a start, a stop or a dump. -/
theorem Inv.session {f : Sessions.State Sample} (h : Inv c s) (he : SessionEffect s.sessions f t)
    (hf : Sessions.Inv f) (hnone : (∃ ctx, s.sessions.pc t = .startSet ctx) → ∀ x, ¬ InCollector c s x) :
    Inv c { s with sessions := f } := by
  have hund : ∀ u x, undecided (f.pc u) = some x → undecided (s.sessions.pc u) = some x := by
    intro u x hx
    by_cases hu : u = t
    · rw [hu] at hx ⊢
      exact he.undecided x hx
    · rw [he.others u hu] at hx
      exact hx
  have hin : ∀ x, InCollector c { s with sessions := f } x → InCollector c s x := by
    intro x hx
    cases hx with
    | reducer hx => exact .reducer hx
    | grabbed hx => exact .grabbed hx
    | root hx => exact .root hx
    | dumpRoot hx => exact .dumpRoot hx
    | dumping hx =>
      refine .dumping ?_
      unfold dumping at hx ⊢
      cases hd : s.collector.dump with rw [hd] at hx
      | dump y l =>
        dsimp only at hx ⊢
        cases hu : undecided (s.sessions.pc c.dumpThread) with
        | some z => split at hx <;> simp_all
        | none =>
          have hu' : undecided (f.pc c.dumpThread) = none := by
            rw [Option.eq_none_iff_forall_ne_some]
            intro z hz
            rw [hund _ z hz] at hu
            cases hu
          rw [hu'] at hx
          exact hx
      | _ => exact hx
  refine ⟨hf, h.reducer, fun u x hx => h.calls u x (hund u x hx), fun p hp x hx => ?_, fun x p hx => ?_⟩
  · rcases he.cp with hcp | hcp | hset
    · exact h.current p (hcp ▸ hp) x (hin x hx)
    · rw [show f.cp = none from hcp] at hp; cases hp
    · exact absurd (hin x hx) (hnone hset x)
  · cases hx with
    | call u hx =>
      have hx : f.pc u = .dumping x p := hx
      by_cases hu : u = t
      · rw [hu] at hx
        obtain ⟨hund, hcp⟩ := he.dumping x p hx
        exact h.current p hcp x (h.inCollector hund)
      · rw [he.others u hu] at hx
        exact h.apart x p (.call u hx)
    | unlock u got hx hp =>
      have hx : f.pc u = .dumpUnlock x got := hx
      by_cases hu : u = t
      · rw [hu] at hx
        obtain ⟨q, hq, rfl⟩ := he.unlock x got hx
        rw [List.mem_singleton] at hp
        cases hp
        exact h.apart x p (.call t hq)
      · rw [he.others u hu] at hx
        exact h.apart x p (.unlock u got hx hp)
    | done got hx hp =>
      rcases he.dumped x got hx with hx | hx | hx
      · exact h.apart x p (.done got hx hp)
      · exact h.apart x p (.unlock t got hx hp)
      · rw [hx, List.mem_singleton] at hp
        cases hp

/-- A step of the reducer or the collector: it brings in only samples of the present session. -/
theorem Inv.moves (h : Inv c s) (hsessions : s'.sessions = s.sessions)
    (hreducer : Combiner.Inv Sample.thread s'.reducer)
    (hcalls : ∀ x l, s.collector.dump = .dump x l → undecided (s.sessions.pc c.dumpThread) = some x →
      ∃ l, s'.collector.dump = .dump x l)
    (hin : ∀ x, InCollector c s' x → InCollector c s x ∨ x.session = s.sessions.cp) : Inv c s' := by
  refine ⟨hsessions ▸ h.sessions, hreducer, fun t x hx => ?_, fun p hp x hx => ?_, fun x p hx => ?_⟩
  · rw [hsessions] at hx
    obtain ⟨rfl, l, hl⟩ := h.calls t x hx
    exact ⟨rfl, hcalls x l hl hx⟩
  · rw [hsessions] at hp
    rcases hin x hx with hx | hx
    · exact h.current p hp x hx
    · exact hx.trans hp
  · refine h.apart x p ?_
    cases hx with
    | call t hx => exact .call t (hsessions ▸ hx)
    | unlock t got hx hp => exact .unlock t got (hsessions ▸ hx) hp
    | done got hx hp => exact .done got (hsessions ▸ hx) hp

/-- What the dump thread has does not change when it is not its turn. -/
theorem dumping_congr (hd : s'.collector.dump = s.collector.dump) (hc : s'.called = s.called)
    (hsessions : s'.sessions = s.sessions) : dumping c s' = dumping c s := by
  unfold dumping
  rw [hd, hc, hsessions]

theorem Inv.reducer_step {a : Combiner.Label Sample} (h : Inv c s) (hs : Combiner.step s.reducer a = some r)
    (ha : ∀ t v, a ≠ .submit t v) : Inv c { s with reducer := r } := by
  have howned : Combiner.Owned Sample.thread s.reducer a := by
    cases a with
    | submit t v => exact absurd rfl (ha t v)
    | _ => trivial
  refine h.moves rfl (Combiner.inv_step h.reducer howned hs) (fun x l hl _ => ⟨l, hl⟩) (fun x hx => .inl ?_)
  cases hx with
  | reducer hx => exact .reducer (hx.of_step h.reducer hs ha)
  | grabbed hx => exact .grabbed hx
  | root hx => exact .root hx
  | dumpRoot hx => exact .dumpRoot hx
  | dumping hx => exact .dumping hx

theorem Inv.submit {us : U64} (h : Inv c s) (hs : submit s t us = some s') : Inv c s' := by
  unfold Pipeline.submit at hs
  dsimp only at hs
  split at hs
  · obtain ⟨r, hr, rfl⟩ := Option.map_eq_some_iff.1 hs
    have howned : Combiner.Owned Sample.thread s.reducer (.submit t ⟨s.nsamples, t, s.sessions.cp⟩) := rfl
    refine h.moves rfl (Combiner.inv_step h.reducer howned hr) (fun x l hl _ => ⟨l, hl⟩) (fun x hx => ?_)
    simp only [Combiner.step, Option.ite_none_right_eq_some, Option.some.injEq] at hr
    obtain ⟨-, rfl⟩ := hr
    cases hx with
    | reducer hx =>
      rcases hx.of_submit with hx | hx
      · exact .inr (by rw [hx])
      · exact .inl (.reducer hx)
    | grabbed hx => exact .inl (.grabbed hx)
    | root hx => exact .inl (.root hx)
    | dumpRoot hx => exact .inl (.dumpRoot hx)
    | dumping hx => exact .inl (.dumping hx)
  · cases hs
    refine h.moves rfl h.reducer (fun x l hl _ => ⟨l, hl⟩) (fun x hx => .inl ?_)
    cases hx with
    | reducer hx => exact .reducer hx
    | grabbed hx => exact .grabbed hx
    | root hx => exact .root hx
    | dumpRoot hx => exact .dumpRoot hx
    | dumping hx => exact .dumping hx

theorem Inv.grab_step {f : Collector.State Sample} {batch : List Sample} {us tod : U64} (h : Inv c s)
    (hs : Collector.grabStep c.collector s.collector ⟨batch, id, us, tod⟩ = some f) (hn : s.fetched ≤ n)
    (hbatch : atReset s.collector.grab = true → batch ∈ s.reducer.results.drop s.fetched) :
    Inv c { s with collector := f, fetched := n } := by
  obtain ⟨hdump, hgrabbed, hroot, hdumpRoot⟩ := grabStep_moves hs
  have hsame : dumping c { s with collector := f, fetched := n } = dumping c s := dumping_congr hdump rfl rfl
  refine h.moves rfl h.reducer (fun x l hl _ => ⟨l, hdump.trans hl⟩) (fun x hx => .inl ?_)
  cases hx with
  | reducer hx =>
    refine .reducer ?_
    cases hx with
    | pending t hx => exact .pending t hx
    | element t ht hx => exact .element t ht hx
    | globalResult hx => exact .globalResult hx
    | tmp t hx => exact .tmp t hx
    | result b hb hx =>
      refine .result b ?_ hx
      obtain ⟨k, rfl⟩ := Nat.exists_eq_add_of_le hn
      have hb : b ∈ s.reducer.results.drop (s.fetched + k) := hb
      rw [← List.drop_drop] at hb
      exact List.mem_of_mem_drop hb
  | grabbed hx =>
    rcases hgrabbed x hx with hx | ⟨hat, hx⟩
    · exact .grabbed hx
    · exact .reducer (.result batch (hbatch hat) hx)
  | root hx => exact (hroot x hx).elim .root .grabbed
  | dumpRoot hx => exact (hdumpRoot x hx).elim .dumpRoot .root
  | dumping hx => exact .dumping (hsame ▸ hx)

theorem Inv.grab {us tod : U64} (h : Inv c s) (hs : grab c s us tod = some s') : Inv c s' := by
  unfold Pipeline.grab at hs
  split at hs
  · obtain ⟨batch, hb, hs⟩ := Option.bind_eq_some_iff.1 hs
    obtain ⟨f, hf, rfl⟩ := Option.map_eq_some_iff.1 hs
    refine h.grab_step hf (Nat.le_succ _) (fun _ => ?_)
    refine List.mem_of_getElem? (i := 0) ?_
    rw [List.getElem?_drop]
    exact hb
  · rename_i hat
    obtain ⟨f, hf, rfl⟩ := Option.map_eq_some_iff.1 hs
    refine h.grab_step hf le_rfl (fun hr => ?_)
    cases hp : s.collector.grab <;> rw [hp] at hr hat <;> first | exact absurd rfl hat | cases hr

/-- Line 304 begins. -/
theorem Inv.dumpCall (h : Inv c s) (hs : dumpCall c s = some s') : Inv c s' := by
  unfold Pipeline.dumpCall at hs
  split at hs
  · rename_i x l hl
    split at hs
    · cases hs
    · rename_i hcalled
      obtain ⟨f, hf, rfl⟩ := Option.map_eq_some_iff.1 hs
      have hfi := Sessions.inv_step h.sessions hf
      simp only [Sessions.step, Option.ite_none_right_eq_some, Option.some.injEq] at hf
      obtain ⟨hidle, rfl⟩ := hf
      have hpc : ∀ u, u ≠ c.dumpThread → (s.sessions.setPc c.dumpThread (.dump x)).pc u = s.sessions.pc u :=
        fun u hu => Sessions.setPc_pc_of_ne hu
      refine ⟨hfi, h.reducer, fun t y hy => ?_, fun p hp y hy => h.current p hp y ?_, fun y p hy => h.apart y p ?_⟩
      · by_cases ht : t = c.dumpThread
        · have hy : undecided ((s.sessions.setPc c.dumpThread (.dump x)).pc t) = some y := hy
          rw [ht, Sessions.setPc_pc_self] at hy
          cases hy
          exact ⟨ht, l, hl⟩
        · have hy : undecided ((s.sessions.setPc c.dumpThread (.dump x)).pc t) = some y := hy
          rw [hpc t ht] at hy
          exact h.calls t y hy
      · cases hy with
        | reducer hy => exact .reducer hy
        | grabbed hy => exact .grabbed hy
        | root hy => exact .root hy
        | dumpRoot hy => exact .dumpRoot hy
        | dumping hy =>
          refine .dumping ?_
          unfold dumping at hy ⊢
          rw [hl] at hy ⊢
          dsimp only at hy ⊢
          rw [Sessions.setPc_pc_self, if_neg (by simp [undecided])] at hy
          rw [if_neg (by simp [hcalled])]
          exact hy
      · cases hy with
        | call t hy =>
          have hy : (s.sessions.setPc c.dumpThread (.dump x)).pc t = .dumping y p := hy
          by_cases ht : t = c.dumpThread
          · rw [ht, Sessions.setPc_pc_self] at hy; cases hy
          · exact .call t (hpc t ht ▸ hy)
        | unlock t got hy hp =>
          have hy : (s.sessions.setPc c.dumpThread (.dump x)).pc t = .dumpUnlock y got := hy
          by_cases ht : t = c.dumpThread
          · rw [ht, Sessions.setPc_pc_self] at hy; cases hy
          · exact .unlock t got (hpc t ht ▸ hy) hp
        | done got hy hp => exact .done got hy hp
  · cases hs

theorem Inv.dump_step {f : Collector.State Sample} {b : Bool} (h : Inv c s)
    (hs : Collector.dumpStep s.collector = some f) (hidle : ∀ x, undecided (s.sessions.pc c.dumpThread) ≠ some x) :
    Inv c { s with collector := f, called := b } := by
  have hmoves : f.prepMap = s.collector.prepMap ∧ f.grab = s.collector.grab ∧ f.root = s.collector.root ∧
      (∀ x ∈ f.dumpRoot, x ∈ s.collector.dumpRoot) ∧
      ∀ x ∈ dumping c { s with collector := f, called := b }, x ∈ dumping c s ∨ x ∈ s.collector.dumpRoot := by
    unfold Collector.dumpStep at hs
    unfold dumping
    cases hp : s.collector.dump with rw [hp] at hs
    | wait =>
      dsimp only at hs
      split at hs <;> cases hs
      exact ⟨rfl, rfl, rfl, nofun, fun x hx => .inr hx⟩
    | ring l =>
      cases l with
      | nil => cases hs; exact ⟨rfl, rfl, rfl, fun x hx => hx, nofun⟩
      | cons y l =>
        cases hs
        refine ⟨rfl, rfl, rfl, fun x hx => hx, fun x hx => .inl ?_⟩
        dsimp only at hx ⊢
        split at hx
        · exact List.mem_cons_of_mem y hx
        · exact hx
    | dump y l =>
      cases hs
      refine ⟨rfl, rfl, rfl, fun x hx => hx, fun x hx => .inl ?_⟩
      dsimp only at hx ⊢
      split
      · exact hx
      · exact List.mem_cons_of_mem y hx
    | count l => cases hs; exact ⟨rfl, rfl, rfl, fun x hx => hx, fun x hx => .inl hx⟩
  obtain ⟨hprep, hgrab, hroot, hdumpRoot, hdumping⟩ := hmoves
  refine h.moves rfl h.reducer (fun x l _ hx => absurd hx (hidle x)) (fun x hx => .inl ?_)
  cases hx with
  | reducer hx => exact .reducer hx
  | grabbed hx =>
    refine .grabbed ?_
    rw [← hprep, ← hgrab]
    exact hx
  | root hx => exact .root (hroot ▸ hx)
  | dumpRoot hx => exact .dumpRoot (hdumpRoot x hx)
  | dumping hx => exact (hdumping x hx).elim .dumping .dumpRoot

theorem undecided_of_idle {p : Sessions.Pc Sample} (h : p.isIdle = true) (x : Sample) : undecided p ≠ some x := by
  rw [Sessions.isIdle_iff.1 h]
  exact nofun

theorem Inv.dump (h : Inv c s) (hs : dump c s = some s') : Inv c s' := by
  unfold Pipeline.dump at hs
  split at hs
  · rename_i x l hl
    simp only [Option.ite_none_right_eq_some, Bool.and_eq_true] at hs
    obtain ⟨⟨hcalled, hidle⟩, hs⟩ := hs
    obtain ⟨f, hf, rfl⟩ := Option.map_eq_some_iff.1 hs
    exact h.dump_step hf (undecided_of_idle hidle)
  · rename_i hnot
    obtain ⟨f, hf, rfl⟩ := Option.map_eq_some_iff.1 hs
    refine h.dump_step hf (fun x hx => ?_)
    obtain ⟨-, l, hl⟩ := h.calls _ x hx
    exact hnot x l hl

theorem inv_init (h : (system c).init s) : Inv c s := by
  obtain ⟨hred, ⟨us, hcol⟩, hses, -, -, -⟩ := h
  refine ⟨hses ▸ Sessions.inv_init, Combiner.inv_init hred, fun t x hx => ?_, fun p hp => ?_, fun x p hx => ?_⟩
  · rw [hses] at hx; cases hx
  · rw [hses] at hp; cases hp
  · cases hx with
    | call t hx => rw [hses] at hx; cases hx
    | unlock t got hx hp => rw [hses] at hx; cases hx
    | done got hx hp => rw [hses] at hx; cases hx

theorem Inv.enter {p : Sessions.Pc Sample} (h : Inv c s) (hidle : (s.sessions.pc t).isIdle = true)
    (hf : Sessions.Inv (s.sessions.setPc t p)) (hund : undecided p = none) (hdumping : ∀ x q, p ≠ .dumping x q)
    (hunlock : ∀ x got, p ≠ .dumpUnlock x got) : Inv c { s with sessions := s.sessions.setPc t p } := by
  refine h.session (.outside rfl rfl (.inl rfl) hund hdumping hunlock) hf ?_
  rintro ⟨ctx, hp⟩
  rw [hp] at hidle
  cases hidle

theorem inv_step {a : Label} (h : Inv c s) (hok : NoneLeft c s a) (hs : step c s a = some s') : Inv c s' := by
  cases a with
  | start t =>
    obtain ⟨f, hf, rfl⟩ := Option.map_eq_some_iff.1 hs
    have hfi := Sessions.inv_step h.sessions hf
    simp only [Sessions.step, Option.ite_none_right_eq_some, Option.some.injEq] at hf
    obtain ⟨hidle, rfl⟩ := hf
    exact h.enter hidle hfi rfl nofun nofun
  | stop t =>
    obtain ⟨f, hf, rfl⟩ := Option.map_eq_some_iff.1 hs
    have hfi := Sessions.inv_step h.sessions hf
    simp only [Sessions.step, Option.ite_none_right_eq_some, Option.some.injEq] at hf
    obtain ⟨hidle, rfl⟩ := hf
    exact h.enter hidle hfi rfl nofun nofun
  | session t =>
    obtain ⟨f, hf, rfl⟩ := Option.map_eq_some_iff.1 hs
    exact h.session (sessionEffect h.sessions hf) (Sessions.inv_step h.sessions hf) hok
  | submit t us =>
    rw [step] at hs
    exact h.submit hs
  | reducer t =>
    obtain ⟨r, hr, rfl⟩ := Option.map_eq_some_iff.1 hs
    exact h.reducer_step hr nofun
  | exit t =>
    obtain ⟨r, hr, rfl⟩ := Option.map_eq_some_iff.1 hs
    exact h.reducer_step hr nofun
  | collectable us =>
    simp only [step, Collector.step, Option.map_some, Option.some.injEq] at hs
    subst hs
    refine h.moves rfl h.reducer (fun x l hl _ => ⟨l, hl⟩) (fun x hx => .inl ?_)
    cases hx with
    | reducer hx => exact .reducer hx
    | grabbed hx => exact .grabbed hx
    | root hx => exact .root hx
    | dumpRoot hx => exact .dumpRoot hx
    | dumping hx => exact .dumping hx
  | reset =>
    simp only [step, Option.ite_none_right_eq_some] at hs
    obtain ⟨-, hs⟩ := hs
    obtain ⟨r, hr, rfl⟩ := Option.map_eq_some_iff.1 hs
    exact h.reducer_step hr nofun
  | grab us tod => exact h.grab hs
  | dumpCall => exact h.dumpCall hs
  | dump => exact h.dump hs

/-- **The sessions are apart in every run that installs a profiler only into an empty collector.** -/
theorem sessions_apart (h : (system c).ReachableVia (NoneLeft c) s) : SessionsApart s :=
  (h.invariant (I := Inv c) (fun _ h0 => inv_init h0) (fun _ _ _ hi hok hs => inv_step hi hok hs)).apart

/-! ## A sample that comes late -/

def threads : Config := ⟨1000, 1000, 7, 8⟩

def startState : State where
  reducer := ⟨none, [], [], fun _ => [], fun _ => false, fun _ => .idle, [], []⟩
  collector := Collector.initState Sample 100
  sessions := Sessions.initState Sample
  fetched := 0
  called := false
  nsamples := 0

theorem startState_init : (system threads).init startState :=
  ⟨⟨rfl, rfl, rfl, rfl, rfl, rfl, rfl⟩, ⟨100, rfl⟩, rfl, rfl, rfl, rfl⟩

/-- Thread 0 starts the profiler. -/
def startRun : List Label := [Label.start 0] ++ List.replicate 7 (Label.session 0)

/-- Thread 0 stops it. -/
def stopRun : List Label := [Label.stop 0] ++ List.replicate 8 (Label.session 0)

/-- Thread 1 submits a sample. -/
def submitRun : List Label := [.submit 1 50, .reducer 1, .reducer 1]

/-- The grab thread takes what is there and passes it on, and the dump thread dumps it. -/
def roundRun : List Label :=
  [Label.reset] ++ List.replicate 3 (Label.reducer 7) ++ List.replicate 12 (Label.grab 200 200) ++
    [Label.dump, Label.dump, Label.dumpCall] ++ List.replicate 6 (Label.session 8) ++ [Label.dump]

/-- The sessions' outcome: the profilers installed, and for each sample dumped its session and what became of it. -/
def outcome (s : State) : List Sessions.Prof × List (Option Sessions.Prof × List Sessions.Outcome) :=
  (s.sessions.installed, s.sessions.dumped.map (fun e => (e.1.session, e.2)))

/-- **A sample of the first session ends in the profile of the second**: a stop and another start come before the sample
is grabbed. -/
theorem late_sample_leaks : ∃ s, (system threads).Reachable s ∧ ¬ SessionsApart s := by
  have hrun : ((system threads).run startState (startRun ++ submitRun ++ stopRun ++ startRun ++ roundRun)).map outcome =
      some ([1, 0], [(some 0, [.profiler 1])]) := by decide
  obtain ⟨s, hs, hx⟩ := Option.map_eq_some_iff.1 hrun
  obtain ⟨-, hdumped⟩ := Prod.mk.inj hx
  refine ⟨s, System.Reachable.run (.init startState_init) _ hs, fun hapart => ?_⟩
  obtain ⟨e, l, he, h1, -⟩ := List.map_eq_cons_iff.1 hdumped
  obtain ⟨hsession, hgot⟩ := Prod.mk.inj h1
  have hmem : (e.1, e.2) ∈ s.sessions.dumped := by rw [he]; exact List.mem_cons_self
  have := hapart e.1 1 (.done e.2 hmem (by rw [hgot]; exact List.mem_cons_self))
  rw [hsession] at this
  cases this

/-! A sample that is dumped before the profiler is stopped. -/

theorem not_inCollector_start (hr : s.reducer = startState.reducer) (hc : s.collector = startState.collector) :
    ¬ InCollector c s x := by
  intro h
  cases h with
  | reducer h =>
    rw [hr] at h
    cases h with
    | pending t h => cases h
    | element t ht h => cases ht
    | globalResult h => cases h
    | tmp t h => cases h
    | result b hb h =>
      rw [show startState.reducer.results = [] from rfl, List.drop_nil] at hb
      cases hb
  | grabbed h => rw [hc] at h; cases h
  | root h => rw [hc] at h; cases h
  | dumpRoot h => rw [hc] at h; cases h
  | dumping h =>
    unfold dumping at h
    rw [hc] at h
    cases h

theorem runOk_sessions : ∀ (k : Nat) {s : State}, s.reducer = startState.reducer → s.collector = startState.collector →
    (system threads).RunOk (NoneLeft threads) s (List.replicate k (.session 0))
  | 0, _, _, _ => trivial
  | k + 1, s, hr, hc => by
    refine ⟨fun _ _ => not_inCollector_start hr hc, fun s' hs => ?_⟩
    obtain ⟨f, -, rfl⟩ := Option.map_eq_some_iff.1 hs
    exact runOk_sessions k hr hc

/-- The move is not line 89 of a start. -/
def notInstalling (s : State) : Label → Bool
  | .session t => match s.sessions.pc t with
    | .startSet _ => false
    | _           => true
  | _          => true

theorem noneLeft_of_notInstalling {a : Label} (h : notInstalling s a = true) : NoneLeft c s a := by
  cases a with
  | session t =>
    rintro ⟨ctx, hp⟩
    simp [notInstalling, hp] at h
  | _ => trivial

/-- The state after the start. -/
def started : State := ((system threads).run startState startRun).getD startState

theorem started_reachable : (system threads).ReachableVia (NoneLeft threads) started := by
  have hrun : (system threads).run startState startRun = some started := by
    have hsome : ((system threads).run startState startRun).isSome = true := by decide
    obtain ⟨s, hs⟩ := Option.isSome_iff_exists.1 hsome
    unfold started
    rw [hs]
    rfl
  refine System.ReachableVia.run (.init startState_init) startRun ⟨trivial, fun s hs => ?_⟩ hrun
  have hs : step threads startState (.start 0) = some s := hs
  simp only [step, Option.map_eq_some_iff] at hs
  obtain ⟨f, -, rfl⟩ := hs
  exact runOk_sessions 7 rfl rfl

theorem sessions_apart_promptRun : ∃ s, (system threads).run started (submitRun ++ roundRun ++ stopRun) = some s ∧
    outcome s = ([0], [(some 0, [.profiler 0])]) ∧ SessionsApart s := by
  have hrun : ((system threads).run started (submitRun ++ roundRun ++ stopRun)).map outcome =
      some ([0], [(some 0, [.profiler 0])]) := by decide
  have hok : (system threads).RunOk (fun s a => notInstalling s a = true) started
      (submitRun ++ roundRun ++ stopRun) := by
    decide
  obtain ⟨s, hs, hx⟩ := Option.map_eq_some_iff.1 hrun
  have hok := hok.mono (fun _ _ h => noneLeft_of_notInstalling (c := threads) h)
  exact ⟨s, hs, hx, sessions_apart (System.ReachableVia.run started_reachable _ hok hs)⟩

end Pipeline
end ContentionProf
