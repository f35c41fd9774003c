import ContentionProf.SamplesRings
/-!
# SamplesPlaces — every object in one place, and linked to nothing outside the lists

`Inv` says of a state and of what each place holds in it that the objects handed out by the pool are placed
(`Placement`), and what the loops and the locks of the threads rely on.  Every step rearranges at most two places,
splices at most two rings, takes an object from the pool or gives one back.
-/
namespace ContentionProf
namespace Samples

open Links (Same)

/-! ## The invariant -/

def PcOk (s : State) (t : Thread) : Pc → Prop
  | .append _  => t ∉ s.agents ∧ s.element t = none ∧ s.combiner t = true
  | .modify _  => t ∈ s.agents
  | .commit    => t ∈ s.agents
  | .load      => t ∈ s.agents
  | .erase val => t ∈ s.agents ∧ val = s.element t
  | _          => True

def Pc.hasMtx : Pc → Bool
  | .load    => true
  | .erase _ => true
  | _        => false

def GrabPc.hasMtx : GrabPc → Bool
  | .exchange _ _  => true
  | .combine _ _ _ => true
  | _              => false

/-- The vectors were cleared, and nothing was put into them since. -/
def GrabPc.collecting : GrabPc → Bool
  | .reset         => true
  | .exchange _ _  => true
  | .combine _ _ _ => true
  | .head _        => true
  | _              => false

/-- The loop variable of the dump thread. -/
def DumpPc.var : DumpPc → Option Node
  | .loop p      => some p
  | .call _ p    => some p
  | .calling _ p => some p
  | _            => none

/-- In `SampledContention::dump_and_destroy`. -/
def dumps : Sessions.Pc Obj → Bool
  | .dump _         => true
  | .dumpLock _     => true
  | .dumpCheck _    => true
  | .dumpCall _     => true
  | .dumping _ _    => true
  | .dumpUnlock _ _ => true
  | .dumpUnlockFree _ => true
  | .destroy _ _    => true
  | _               => false

/-- The profiler whose set the thread may walk. -/
def method : Sessions.Pc Obj → Option Sessions.Prof
  | .dumping _ p  => some p
  | .stopDelete p => some p
  | _             => none

structure Reducer (c : Config) (s : State) : Prop where
  nodup : s.agents.Nodup
  pc : ∀ t, PcOk s t (s.pc t)
  combiner : ∀ t, s.combiner t = true → t ∈ s.agents ∨ ∃ x, s.pc t = .append x
  agents : ∀ t ∈ s.agents, s.combiner t = true
  mtx : ∀ t, (s.pc t).hasMtx = true → s.mtx = some t
  grab : s.grab.hasMtx = true → s.mtx = some c.grabThread
  roles : (s.pc c.grabThread).isIdle = true

/-- The loops of the grab thread and the dump thread. -/
structure Loops (prepMap : Collector.PreprocessorMap Obj) (grab : GrabPc) (dump : DumpPc) (m : Place → List Obj) :
    Prop where
  sorted : OrderedMap.Sorted prepMap
  empty : grab.collecting = true → prepMap.flatMap Prod.snd = []
  sort : ∀ p, grab = .sort p → p = first (m .tmpRoot) .tmpRoot
  dump : ∀ p, dump.var = some p → p = first (m .dumpLocal) .dumpLocal

/-- Only the dump thread dumps, a set is walked by the thread in its profiler's method, and a profiler that `g_cp` never
named has collected nothing: there is nothing to flush where a start destroys it. -/
structure Calls (c : Config) (f : Sessions.State Obj) (prof : Thread → ProfPc) (sets : Sessions.Prof → HashSet)
    (dump : DumpPc) : Prop where
  others : ∀ t, t ≠ c.dumpThread → dumps (f.pc t) = false
  calling : dumps (f.pc c.dumpThread) = true → ∃ x p, dump = .calling x p
  method : ∀ t, prof t ≠ .none → ∃ p, method (f.pc t) = some p
  walk : ∀ p l, (sets p).walk = some l → ∃ t, prof t = .flush ∧ Samples.method (f.pc t) = some p
  fresh : ∀ p, p ∉ f.installed → sets p = ⟨[], none⟩

/-- What was handed out is built, and was given back as often as it was handed out, unless it still is. -/
structure Tally (p : Pool.State) (gets returns : List Obj) : Prop where
  counts : ∀ x, gets.count x = returns.count x + p.live.count x
  built : ∀ x ∈ gets, Pool.Built p x

structure Inv (c : Config) (s : State) (m : Place → List Obj) : Prop where
  place : Placement c s m
  pool : Pool.Inv c.pool s.pool
  unnested : ∀ t, (s.pool.thr t).pc.unnested
  gets : ∀ t, (s.pool.thr t).pc.gets = true → s.pc t = .get
  sessions : Sessions.Inv s.sessions
  reducer : Reducer c s
  loops : Loops s.prepMap s.grab s.dump m
  calls : Calls c s.sessions s.prof s.sets s.dump
  tally : Tally s.pool s.gets s.returns

variable {c : Config} {s s' s₁ : State} {m m' : Place → List Obj} {t : Thread} {x : Obj} {l : List Obj}

/-- A step that leaves the pool alone. -/
theorem Inv.calm (h : Inv c s m) (hpool : s'.pool = s.pool) (hgets : s'.gets = s.gets)
    (hreturns : s'.returns = s.returns) (hpc : ∀ t, s.pc t = .get → s'.pc t = .get) (hplace : Placement c s' m')
    (hsessions : Sessions.Inv s'.sessions) (hreducer : Reducer c s') (hloops : Loops s'.prepMap s'.grab s'.dump m')
    (hcalls : Calls c s'.sessions s'.prof s'.sets s'.dump) : Inv c s' m' where
  place := hplace
  pool := by rw [hpool]; exact h.pool
  unnested := by rw [hpool]; exact h.unnested
  gets u hu := hpc u (h.gets u (by rw [← hpool]; exact hu))
  sessions := hsessions
  reducer := hreducer
  loops := hloops
  calls := hcalls
  tally := by rw [hpool, hgets, hreturns]; exact h.tally

theorem PcOk.of_eq {p : Pc} (h : PcOk s t p) (hag : t ∈ s'.agents ↔ t ∈ s.agents) (hel : s'.element t = s.element t)
    (hco : s'.combiner t = s.combiner t) : PcOk s' t p := by
  cases p <;> simp only [PcOk, hag, hel, hco] at h ⊢ <;> exact h

theorem Reducer.of_eq (h : Reducer c s) (hpc : s'.pc = s.pc) (hel : s'.element = s.element)
    (hag : s'.agents = s.agents) (hco : s'.combiner = s.combiner) (hmtx : s'.mtx = s.mtx)
    (hgrab : s'.grab.hasMtx = true → s.grab.hasMtx = true) : Reducer c s' where
  nodup := by rw [hag]; exact h.nodup
  pc u := by rw [hpc]; exact (h.pc u).of_eq (by rw [hag]) (congrFun hel u) (congrFun hco u)
  combiner := by rw [hco, hag, hpc]; exact h.combiner
  agents := by rw [hco, hag]; exact h.agents
  mtx := by rw [hpc, hmtx]; exact h.mtx
  grab hg := by rw [hmtx]; exact h.grab (hgrab hg)
  roles := by rw [hpc]; exact h.roles

/-! ## Giving an object back -/

theorem Inv.nodup_live (h : Inv c s m) : s.pool.live.Nodup := h.pool.places.nodup .live

/-- Nothing but the place of one object changes when it is given back. -/
structure Given (c : Config) (s s₁ s' : State) (x : Obj) : Prop where
  mem : x ∈ s.pool.live
  eq : s' = { s₁ with pool := s'.pool, returns := x :: s₁.returns }
  pool : Pool.Inv c.pool s'.pool
  unnested : ∀ u, (s'.pool.thr u).pc.unnested
  gets : ∀ u, (s'.pool.thr u).pc.gets = true → (s.pool.thr u).pc.gets = true
  live : s'.pool.live = s.pool.live.erase x
  built : ∀ y, Pool.Built s'.pool y ↔ Pool.Built s.pool y

/-- **`destroy` gives the object back.** -/
theorem Inv.given {k : Place} {malloc : Bool} (h : Inv c s m) (hk : holder c s k = .flat (x :: l))
    (hs : destroy c s₁ t x malloc = some s') (hpool : s₁.pool = s.pool) : Given c s s₁ s' x := by
  have hmem : x ∈ s.pool.live := (h.place.live x).2 ⟨k, by rw [h.place.flat hk]; exact List.mem_cons_self⟩
  unfold Samples.destroy at hs
  rw [hpool, if_pos hmem] at hs
  obtain ⟨p, hp, rfl⟩ := Option.map_eq_some_iff.1 hs
  have hret : Pool.returnObject c.pool s.pool t x malloc = some p := hp
  obtain ⟨hmoves, hgets, hlive, hbuilt⟩ := Pool.returnObject_spec h.unnested hret
  refine ⟨hmem, rfl, h.pool.returnObject hret, hmoves.unnested, fun u hu => ?_, hlive, hbuilt⟩
  have hu : (p.thr u).pc.gets = true := hu
  by_cases hut : u = t
  · rw [hut, hgets] at hu
    cases hu
  · rwa [hmoves.others u hut] at hu

theorem Given.tally (g : Given c s s₁ s' x) (h : Tally s.pool s.gets s.returns) (hgets : s₁.gets = s.gets)
    (hreturns : s₁.returns = s.returns) : Tally s'.pool s'.gets s'.returns := by
  rw [show s'.gets = s.gets from (congrArg State.gets g.eq).trans hgets,
    show s'.returns = x :: s.returns from (congrArg State.returns g.eq).trans (congrArg (x :: ·) hreturns)]
  refine ⟨fun y => ?_, fun y hy => (g.built y).2 (h.built y hy)⟩
  have hc := h.counts y
  have he := Pool.count_erase_of_mem g.mem y
  rw [g.live, List.count_cons]
  by_cases hxy : x = y
  · rw [if_pos hxy] at he
    rw [if_pos (beq_iff_eq.2 hxy)]
    omega
  · rw [if_neg hxy] at he
    rw [if_neg (fun hb => hxy (beq_iff_eq.1 hb))]
    omega

/-- **The place of the object gives it up**, whatever else the step does to the threads. -/
theorem Inv.give {k : Place} (h : Inv c s m) (g : Given c s s₁ s' x) (hk : holder c s k = .flat (x :: l))
    (hk' : holder c s₁ k = .flat l) (hholder : ∀ j, j ≠ k → holder c s₁ j = holder c s j)
    (hlinks : s₁.links = s.links) (hgets : s₁.gets = s.gets) (hreturns : s₁.returns = s.returns)
    (hpc : ∀ t, s.pc t = .get → s₁.pc t = .get) (hsessions : Sessions.Inv s₁.sessions) (hreducer : Reducer c s₁)
    (hloops : Loops s₁.prepMap s₁.grab s₁.dump (Function.update m k l))
    (hcalls : Calls c s₁.sessions s₁.prof s₁.sets s₁.dump) : Inv c s' (Function.update m k l) := by
  have htally := g.tally h.tally hgets hreturns
  have heq : ∀ j, holder c s' j = holder c s₁ j := fun j => by rw [g.eq]; cases j <;> rfl
  refine ⟨?_, g.pool, g.unnested, fun u hu => ?_, ?_, ?_, ?_, ?_, htally⟩
  · refine h.place.give h.nodup_live g.live g.built ?_ hk ((heq k).trans hk')
      (fun j hj => (heq j).trans (hholder j hj))
    exact (congrArg State.links g.eq).trans hlinks
  · exact (congrArg (State.pc · u) g.eq).trans (hpc u (h.gets u (g.gets u hu)))
  · rw [g.eq]; exact hsessions
  · rw [g.eq]
    exact hreducer.of_eq rfl rfl rfl rfl rfl (fun hg => hg)
  · rw [g.eq]; exact hloops
  · rw [g.eq]; exact hcalls

/-! ## A worker moves on -/

theorem Reducer.ne_grab (h : Reducer c s) (hp : (s.pc t).isIdle = false) : t ≠ c.grabThread := by
  rintro rfl
  rw [h.roles] at hp
  cases hp

/-- One thread moves on, and changes nothing that another one relies on. -/
theorem Reducer.step {p : Pc} (h : Reducer c s) (ht : t ≠ c.grabThread) (hpc : s'.pc = Function.update s.pc t p)
    (hel : ∀ u, u ≠ t → s'.element u = s.element u) (hag : ∀ u, u ≠ t → (u ∈ s'.agents ↔ u ∈ s.agents))
    (hnd : s'.agents.Nodup) (hco : ∀ u, u ≠ t → s'.combiner u = s.combiner u) (hgrab : s'.grab = s.grab)
    (hmtx : ∀ u, u ≠ t → s.mtx = some u → s'.mtx = some u) (hok : PcOk s' t p)
    (hself : s'.combiner t = true → t ∈ s'.agents ∨ ∃ x, p = .append x) (hself' : t ∈ s'.agents → s'.combiner t = true)
    (hm : p.hasMtx = true → s'.mtx = some t) : Reducer c s' where
  nodup := hnd
  pc u := by
    by_cases hut : u = t
    · rw [hut, hpc, Function.update_self]; exact hok
    · rw [hpc, Function.update_of_ne hut]
      exact (h.pc u).of_eq (hag u hut) (hel u hut) (hco u hut)
  combiner u hu := by
    by_cases hut : u = t
    · rw [hut] at hu ⊢
      rw [hpc, Function.update_self]
      exact hself hu
    · rw [hag u hut, hpc, Function.update_of_ne hut]
      exact h.combiner u (hco u hut ▸ hu)
  agents u hu := by
    by_cases hut : u = t
    · rw [hut] at hu ⊢; exact hself' hu
    · rw [hco u hut]; exact h.agents u ((hag u hut).1 hu)
  mtx u hu := by
    by_cases hut : u = t
    · rw [hut] at hu ⊢
      rw [hpc, Function.update_self] at hu
      exact hm hu
    · rw [hpc, Function.update_of_ne hut] at hu
      exact hmtx u hut (h.mtx u hu)
  grab hg := hmtx _ (Ne.symm ht) (h.grab (hgrab ▸ hg))
  roles := by rw [hpc, Function.update_of_ne (Ne.symm ht)]; exact h.roles

/-- One thread moves on, and leaves what is shared alone. -/
theorem Reducer.move {p : Pc} (h : Reducer c s) (ht : t ≠ c.grabThread) (hpc : s'.pc = Function.update s.pc t p)
    (hel : s'.element = s.element) (hag : s'.agents = s.agents) (hco : s'.combiner = s.combiner)
    (hmtx : s'.mtx = s.mtx) (hgrab : s'.grab = s.grab) (hok : PcOk s t p) (hm : p.hasMtx = true → s.mtx = some t)
    (happ : ∀ x, s.pc t = .append x → p = .append x) : Reducer c s' := by
  refine h.step ht hpc (fun u _ => congrFun hel u) (fun u _ => by rw [hag]) (hag ▸ h.nodup)
    (fun u _ => congrFun hco u) hgrab (fun u _ hu => hmtx.trans hu) (hok.of_eq (by rw [hag]) (congrFun hel t)
      (congrFun hco t))
    (fun hc => ?_)
    (fun ha => ?_) (fun hp => hmtx.trans (hm hp))
  · rw [hco] at hc
    rw [hag]
    refine (h.combiner t hc).imp_right ?_
    rintro ⟨x, hx⟩
    exact ⟨x, happ x hx⟩
  · rw [hco]; exact h.agents t (hag ▸ ha)

theorem holder_setPc {p : Pc} (hp : p.held = (s.pc t).held) (k : Place) : holder c (s.setPc t p) k = holder c s k := by
  cases k with
  | submitter u =>
    by_cases hut : u = t
    · rw [hut]
      show Holder.flat ((Function.update s.pc t p) t).held = _
      rw [Function.update_self, hp]
      rfl
    · show Holder.flat ((Function.update s.pc t p) u).held = _
      rw [Function.update_of_ne hut]
      rfl
  | _ => rfl

theorem holder_setPc_of_ne {p : Pc} {k : Place} (hk : k ≠ .submitter t) : holder c (s.setPc t p) k = holder c s k := by
  cases k with
  | submitter u =>
    show Holder.flat ((Function.update s.pc t p) u).held = _
    rw [Function.update_of_ne (fun hut => hk (by rw [hut]))]
    rfl
  | _ => rfl

theorem holder_submitter {p : Pc} (hp : s.pc t = p) : holder c s (.submitter t) = .flat p.held := by rw [← hp]; rfl

theorem isIdle_iff {p : Pc} : p.isIdle = true ↔ p = .idle := by cases p <;> simp [Pc.isIdle]

theorem setPc_pc_self {p : Pc} : (s.setPc t p).pc t = p := Function.update_self ..

/-- No thread leaves `get_object`. -/
theorem setPc_get {p q : Pc} (hp : s.pc t = q) (hq : q ≠ .get) (u : Thread) (hu : s.pc u = .get) :
    (s.setPc t p).pc u = .get := by
  have hut : u ≠ t := by
    rintro rfl
    exact hq (hp.symm.trans hu)
  show Function.update s.pc t p u = .get
  rw [Function.update_of_ne hut]
  exact hu

/-! ## Steps of the pool -/

theorem Inv.enterGet (h : Inv c s m) (hp : (s.pc t).isIdle = true) (ht : t ≠ c.grabThread) :
    Inv c (s.setPc t .get) m := by
  have hp : s.pc t = .idle := isIdle_iff.1 hp
  refine h.calm rfl rfl rfl (setPc_get hp (by simp)) (h.place.of_eq rfl rfl (holder_setPc (by rw [hp]; rfl))) h.sessions
    ?_ h.loops h.calls
  refine h.reducer.move ht rfl rfl rfl rfl rfl rfl trivial (by simp [Pc.hasMtx]) (fun x hx => ?_)
  rw [hp] at hx
  cases hx

/-- A step of the pool that hands nothing out and takes nothing back. -/
theorem Inv.polled {p : Pool.State} (h : Inv c s m) (hinv : Pool.Inv c.pool p) (hmoves : Pool.Moves s.pool p t)
    (hgets : (p.thr t).pc.gets = true → s.pc t = .get) (hlive : p.live = s.pool.live)
    (hbuilt : ∀ y, Pool.Built p y ↔ Pool.Built s.pool y) : Inv c { s with pool := p } m where
  place := h.place.inside hlive hbuilt rfl (fun k => by cases k <;> rfl)
  pool := hinv
  unnested := hmoves.unnested
  gets u hu := by
    by_cases hut : u = t
    · rw [hut] at hu ⊢; exact hgets hu
    · exact h.gets u (by rw [← hmoves.others u hut]; exact hu)
  sessions := h.sessions
  reducer := h.reducer.of_eq rfl rfl rfl rfl rfl (fun hg => hg)
  loops := h.loops
  calls := h.calls
  tally := ⟨fun x => by rw [hlive]; exact h.tally.counts x, fun x hx => (hbuilt x).2 (h.tally.built x hx)⟩

/-- An object is handed out: linked to nothing already, or constructed. -/
theorem Inv.handed {p : Pool.State} {links : Links Node} (h : Inv c s m) (hpc : s.pc t = .get)
    (hinv : Pool.Inv c.pool p) (hmoves : Pool.Moves s.pool p t) (hidle : (p.thr t).pc = .idle)
    (hlive : p.live = x :: s.pool.live) (hbuilt : ∀ y, Pool.Built p y ↔ y = x ∨ Pool.Built s.pool y)
    (hself : links.SelfLinked (.obj x)) (hlinks : ∀ n, n ≠ .obj x → Same s.links links n) :
    Inv c ({ s with pool := p, links := links, gets := x :: s.gets }.setPc t (.submit x))
      (Function.update m (.submitter t) [x]) where
  place := by
    refine h.place.hand hlive ?_ (fun y => (hbuilt y).1) hself hlinks (holder_submitter hpc)
      (holder_submitter setPc_pc_self) (fun k hk => (holder_setPc_of_ne hk).trans (by cases k <;> rfl))
    have := hinv.places.nodup .live
    exact (List.nodup_cons.1 (hlive ▸ this)).1
  pool := hinv
  unnested := hmoves.unnested
  gets u hu := by
    by_cases hut : u = t
    · rw [hut] at hu
      have hu : (p.thr t).pc.gets = true := hu
      rw [hidle] at hu
      cases hu
    · show Function.update s.pc t _ u = _
      rw [Function.update_of_ne hut]
      exact h.gets u (by rw [← hmoves.others u hut]; exact hu)
  sessions := h.sessions
  reducer := by
    refine h.reducer.move (h.reducer.ne_grab (by rw [hpc]; rfl)) rfl rfl rfl rfl rfl rfl trivial
      (by simp [Pc.hasMtx]) (fun x hx => ?_)
    rw [hpc] at hx
    cases hx
  loops := ⟨h.loops.sorted, h.loops.empty, h.loops.sort, h.loops.dump⟩
  calls := h.calls
  tally := by
    refine ⟨fun y => ?_, fun y hy => ?_⟩
    · have := h.tally.counts y
      show (x :: s.gets).count y = s.returns.count y + p.live.count y
      rw [hlive, List.count_cons, List.count_cons]
      omega
    · rcases List.mem_cons.1 hy with rfl | hy
      · exact (hbuilt y).2 (.inl rfl)
      · exact (hbuilt y).2 (.inr (h.tally.built y hy))

/-- A step of the pool: inside `get_object` for a worker there, or in a call that gives something back. -/
def Polls (c : Config) (s : State) (t : Thread) (p : Pool.State) : Prop :=
  Pool.Inv c.pool p ∧ (s.pc t = .get ∧ Pool.Ok s.pool p t ∨ Pool.Internal s.pool p t)

theorem obtained_of_live {p p' : Pool.State} (h : p'.live = p.live) : obtained p p' = none := by
  unfold obtained
  rw [h, if_neg (Nat.lt_irrefl _)]

theorem obtained_of_cons {p p' : Pool.State} (h : p'.live = x :: p.live) : obtained p p' = some x := by
  unfold obtained
  rw [h, List.length_cons, if_pos (Nat.lt_succ_self _), List.head?_cons]

theorem Inv.poolStep {a : Pool.Label} (h : Inv c s m)
    (ha : ∀ p, Pool.step c.pool s.pool a = some p → Polls c s t p) (hs : poolStep c s t a = some s') :
    ∃ m', Inv c s' m' := by
  unfold Samples.poolStep at hs
  obtain ⟨p, hp, hs⟩ := Option.bind_eq_some_iff.1 hs
  obtain ⟨hinv, hcase⟩ := ha p hp
  have hmoves : Pool.Moves s.pool p t := hcase.elim (fun h => h.2.1) (fun h => h.moves)
  have hgets : (p.thr t).pc.gets = true → s.pc t = .get := fun hg =>
    hcase.elim (fun h => h.1) (fun h => by rw [h.gets] at hg; cases hg)
  have quiet : p.live = s.pool.live → (∀ y, Pool.Built p y ↔ Pool.Built s.pool y) → ∃ m', Inv c s' m' := by
    intro hlive hbuilt
    rw [obtained_of_live hlive] at hs
    dsimp only at hs
    split at hs
    · cases hs
    · cases hs
      exact ⟨m, h.polled hinv hmoves hgets hlive hbuilt⟩
  rcases hcase with ⟨hpc, -, heff⟩ | hint
  · cases heff with
    | inside hlive hbuilt => exact quiet hlive hbuilt
    | reused x hidle hlive hbuilt =>
      have hbx : Pool.Built s.pool x :=
        (hbuilt x).1 ((hinv.built x).2 ⟨.live, by show x ∈ p.live; rw [hlive]; exact List.mem_cons_self⟩)
      have hnew : x ∉ s.pool.live := (List.nodup_cons.1 (hlive ▸ hinv.places.nodup .live)).1
      rw [obtained_of_cons hlive] at hs
      dsimp only at hs
      rw [if_pos (show x.index < _ from hbx)] at hs
      cases hs
      exact ⟨_, h.handed hpc hinv hmoves hidle hlive
        (fun y => (hbuilt y).trans ⟨.inr, fun hy => hy.elim (fun he => he ▸ hbx) id⟩)
        (h.place.pooled x hbx hnew) (fun _ _ => ⟨rfl, rfl⟩)⟩
    | constructed x hidle hlive hnew hbuilt =>
      rw [obtained_of_cons hlive] at hs
      dsimp only at hs
      rw [if_neg (show ¬ x.index < _ from hnew)] at hs
      cases hs
      exact ⟨_, h.handed hpc hinv hmoves hidle hlive hbuilt (Links.construct_selfLinked _ _)
        (fun n hn => Links.construct_same hn)⟩
  · exact quiet hint.live hint.built

/-- **`submit_contention` calls `get_object`.** -/
theorem Inv.contend (h : Inv c s m) (hf : s.free c t = true)
    (hs : Samples.poolStep c (s.setPc t .get) t (.get t) = some s') :
    ∃ m', Inv c s' m' := by
  simp only [State.free, Bool.and_eq_true, bne_iff_ne] at hf
  have hget : (s.setPc t .get).pc t = .get := setPc_pc_self
  refine (h.enterGet hf.1.1.1.1 hf.1.2).poolStep (fun p hp => ?_) hs
  refine ⟨h.pool.get hp, .inl ⟨hget, ?_⟩⟩
  have hp : Pool.get s.pool t = some p := hp
  unfold Pool.get at hp
  split at hp
  · cases hp; exact .getObject h.unnested
  · cases hp

theorem Inv.poolGo {i : Pool.Input} (h : Inv c s m) (hi : i.hook = false)
    (hs : Samples.poolStep c s t (.go t i) = some s') : ∃ m', Inv c s' m' := by
  refine h.poolStep (fun p hp => ?_) hs
  have hp : Pool.advance c.pool s.pool t i = some p := hp
  refine ⟨h.pool.advance (Pool.noReentry_of_quiet (l := .go t i) hi) hp, ?_⟩
  cases hg : (s.pool.thr t).pc.gets with
  | true => exact .inl ⟨h.gets t hg, .advance h.unnested hg hp⟩
  | false => exact .inr (.advance h.unnested hg hi hp)

theorem Inv.poolExit {p : Pool.State} {malloc : Bool} (h : Inv c s m)
    (hp : Pool.step c.pool s.pool (.exit t malloc) = some p) : Inv c { s with pool := p } m := by
  have hi : Pool.Internal s.pool p t := .threadExit h.unnested hp
  refine h.polled (h.pool.threadExit hp) hi.moves (fun hg => ?_) hi.live hi.built
  rw [hi.gets] at hg
  cases hg

end Samples
end ContentionProf
