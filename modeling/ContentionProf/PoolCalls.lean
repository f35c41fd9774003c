import ContentionProf.PoolPlaces
/-!
# PoolCalls — the pool as its callers see it

What a step does to the objects handed out, when the unlock of `free_chunks_mutex_` runs nothing else: it hands one out,
a new one or one that was given back, it takes one back, or it moves objects inside the pool.
-/
namespace ContentionProf
namespace Pool

variable {g : Config} {s s' : State} {t : Thread} {c : Local}

/-- No `get_object` is called from inside a push. -/
def Pc.unnested : Pc → Prop
  | .popTest n  => n = none
  | .pop n      => n = none
  | .build n    => n = none
  | .submit _ _ => False
  | _           => True

/-- Inside `get_object`. -/
def Pc.gets : Pc → Bool
  | .popTest _ => true
  | .pop _     => true
  | .build _   => true
  | _          => false

/-- **What a step other than `return_object` does for the callers.** -/
inductive Effect (s s' : State) (t : Thread) : Prop
  | inside (live : s'.live = s.live) (built : ∀ y, Built s' y ↔ Built s y)
  | reused (x : Obj) (idle : (s'.thr t).pc = .idle) (live : s'.live = x :: s.live) (built : ∀ y, Built s' y ↔ Built s y)
  | constructed (x : Obj) (idle : (s'.thr t).pc = .idle) (live : s'.live = x :: s.live) (new : ¬ Built s x)
      (built : ∀ y, Built s' y ↔ y = x ∨ Built s y)

/-- Only one thread moves, and it stays unnested. -/
structure Moves (s s' : State) (t : Thread) : Prop where
  unnested : ∀ u, (s'.thr u).pc.unnested
  others : ∀ u, u ≠ t → s'.thr u = s.thr u

theorem Moves.of_update (hu : ∀ u, (s.thr u).pc.unnested) (hthr : s'.thr = Function.update s.thr t c)
    (hc : c.pc.unnested) : Moves s s' t := by
  refine ⟨fun u => ?_, fun u hut => by rw [hthr, Function.update_of_ne hut]⟩
  by_cases hut : u = t
  · rw [hut, hthr, Function.update_self]; exact hc
  · rw [hthr, Function.update_of_ne hut]; exact hu u

/-- A step of a thread that is one of the effects. -/
def Ok (s s' : State) (t : Thread) : Prop := Moves s s' t ∧ Effect s s' t

theorem Ok.inside (c : Local) (hu : ∀ u, (s.thr u).pc.unnested) (hthr : s'.thr = Function.update s.thr t c)
    (hc : c.pc.unnested) (hitem : c.itemCount = (s.thr t).itemCount) (hlive : s'.live = s.live) : Ok s s' t :=
  ⟨.of_update hu hthr hc, .inside hlive (built_congr hthr hitem)⟩

theorem Ok.reused {x : Obj} (hu : ∀ u, (s.thr u).pc.unnested) (hthr : s'.thr = Function.update s.thr t c)
    (hc : c.pc = .idle) (hitem : c.itemCount = (s.thr t).itemCount) (hlive : s'.live = x :: s.live) : Ok s s' t := by
  refine ⟨.of_update hu hthr (by rw [hc]; trivial), .reused x ?_ hlive (built_congr hthr hitem)⟩
  rw [hthr, Function.update_self, hc]

theorem getOrNew_itemCount (c : Local) : c.getOrNewLocalPool.1.itemCount = c.itemCount := by
  unfold Local.getOrNewLocalPool
  split <;> rfl

theorem getOrNew_pc (c : Local) : c.getOrNewLocalPool.1.pc = c.pc := by
  unfold Local.getOrNewLocalPool
  split <;> rfl

theorem Ok.getObject (hu : ∀ u, (s.thr u).pc.unnested) : Ok s (s.getObject t none) t := by
  have hitem := getOrNew_itemCount (s.thr t)
  unfold State.getObject
  dsimp only
  split
  · rename_i x xs hx
    exact .reused (c := { (s.thr t).getOrNewLocalPool.1.setFree (s.thr t).getOrNewLocalPool.2 xs with pc := .idle })
      hu rfl rfl hitem rfl
  · exact .inside { (s.thr t).getOrNewLocalPool.1 with pc := .popTest none } hu rfl rfl hitem rfl

theorem finish_thr (a : After) : ∃ c', (s.finish t c a).thr = Function.update s.thr t c' ∧ c'.pc = .idle ∧
    c'.itemCount = c.itemCount := by
  cases a with
  | ret x p => exact ⟨_, rfl, rfl, rfl⟩
  | delete p => exact ⟨_, rfl, rfl, rfl⟩

theorem finish_live (a : After) : (s.finish t c a).live = s.live := by
  cases a <;> rfl

/-- A step outside `get_object` that hands nothing out and takes nothing back. -/
structure Internal (s s' : State) (t : Thread) : Prop where
  moves : Moves s s' t
  gets : (s'.thr t).pc.gets = false
  live : s'.live = s.live
  built : ∀ y, Built s' y ↔ Built s y

theorem Internal.of_update (hu : ∀ u, (s.thr u).pc.unnested) (hthr : s'.thr = Function.update s.thr t c)
    (hc : c.pc.unnested) (hg : c.pc.gets = false) (hitem : c.itemCount = (s.thr t).itemCount)
    (hlive : s'.live = s.live) : Internal s s' t :=
  ⟨.of_update hu hthr hc, by rw [hthr, Function.update_self, hg], hlive, built_congr hthr hitem⟩

theorem Internal.deleteLocalPool {p : Nat} {malloc : Bool} (hu : ∀ u, (s.thr u).pc.unnested)
    (hitem : c.itemCount = (s.thr t).itemCount) : Internal s (s.deleteLocalPool t c p malloc) t := by
  obtain ⟨d, hthr, hd, hdi⟩ := finish_thr (s := s) (t := t) (c := c) (.delete p)
  have hdu : d.pc.unnested := by rw [hd]; trivial
  have hdg : d.pc.gets = false := by rw [hd]; rfl
  have hlive : (s.finish t c (.delete p)).live = s.live := finish_live _
  unfold State.deleteLocalPool
  split
  · exact .of_update hu hthr hdu hdg (hdi.trans hitem) hlive
  · split
    · exact .of_update (c := { c with pc := .push (.delete p) }) hu rfl trivial rfl hitem rfl
    · exact .of_update hu hthr hdu hdg (hdi.trans hitem) hlive

theorem Internal.threadExit {malloc : Bool} (hu : ∀ u, (s.thr u).pc.unnested)
    (hs : threadExit s t malloc = some s') : Internal s s' t := by
  unfold Pool.threadExit at hs
  dsimp only at hs
  split at hs
  · cases hs
  split at hs
  · cases hs
  · cases hs; exact .deleteLocalPool hu rfl

/-- The next step of a `return_object` or of `~LocalPool`. -/
theorem Internal.advance {i : Input} (hu : ∀ u, (s.thr u).pc.unnested) (hg : (s.thr t).pc.gets = false)
    (hq : i.hook = false) (hs : advance g s t i = some s') : Internal s s' t := by
  have hn := hu t
  cases hpc : (s.thr t).pc with
  | idle => simp only [Pool.advance, hpc] at hs; cases hs
  | push a =>
    simp only [Pool.advance, hpc, pushFreeChunk, hq] at hs
    cases hs
    obtain ⟨d, hthr, hd, hdi⟩ :=
      finish_thr (s := { s with freeChunks := ((s.thr t).pools a.pool).curFree :: s.freeChunks })
      (t := t) (c := s.thr t) a
    exact .of_update hu hthr (by rw [hd]; trivial) (by rw [hd]; rfl) hdi (finish_live a)
  | submit a x => rw [hpc] at hn; exact hn.elim
  | _ => rw [hpc] at hg; cases hg

theorem Ok.construct {b : Nat} {valid : Bool} (hu : ∀ u, (s.thr u).pc.unnested)
    (hs : construct s t c b none valid = some s') (hitem : c.itemCount = (s.thr t).itemCount) : Ok s s' t := by
  unfold Pool.construct at hs
  split at hs
  · cases hs
    rw [hitem]
    refine ⟨.of_update
      (c := { c with itemCount := Function.update (s.thr t).itemCount b ((s.thr t).itemCount b + 1), pc := .idle })
      hu rfl trivial, .constructed _ ?_ rfl (Nat.lt_irrefl _) (built_succ (t := t) rfl rfl)⟩
    show (Function.update s.thr t _ t).pc = .idle
    rw [Function.update_self]
  · cases hs
    exact .inside { c with pc := .idle } hu rfl trivial hitem rfl

/-- **The next step of a `get_object`.** -/
theorem Ok.advance {i : Input} (hu : ∀ u, (s.thr u).pc.unnested) (hg : (s.thr t).pc.gets = true)
    (hs : advance g s t i = some s') : Ok s s' t := by
  have hn := hu t
  cases hpc : (s.thr t).pc with
  | popTest n =>
    rw [hpc] at hn
    obtain rfl : n = none := hn
    simp only [Pool.advance, hpc] at hs
    cases hs
    refine .inside _ hu rfl ?_ rfl rfl
    dsimp only
    split <;> rfl
  | pop n =>
    rw [hpc] at hn
    obtain rfl : n = none := hn
    simp only [Pool.advance, hpc] at hs
    split at hs
    · cases hs
    · cases hs
      exact .inside _ hu rfl rfl rfl rfl
    · cases hs
      exact ⟨⟨hu, fun _ _ => rfl⟩, .inside rfl (fun _ => Iff.rfl)⟩
    · rename_i p x xs rest _ _
      cases hs
      exact .reused (c := { (s.thr t).setFree p xs with pc := .idle }) hu rfl rfl rfl rfl
  | build n =>
    rw [hpc] at hn
    obtain rfl : n = none := hn
    simp only [Pool.advance, hpc] at hs
    have null : ∀ {c : Local}, s.gotNull t c none = some s' → c.itemCount = (s.thr t).itemCount → Ok s s' t := by
      intro c hnull hc
      cases hnull
      exact .inside { c with pc := .idle } hu rfl trivial hc rfl
    split at hs
    · cases hs
    split at hs
    · split at hs
      · exact .construct hu hs rfl
      split at hs
      · exact .construct hu hs rfl
      · exact null hs rfl
    · split at hs
      · exact .construct hu hs rfl
      · exact null hs rfl
  | _ => rw [hpc] at hg; cases hg

/-- **`return_object` takes one object back.** -/
theorem returnObject_spec {x : Obj} {malloc : Bool} (hu : ∀ u, (s.thr u).pc.unnested)
    (hs : returnObject g s t x malloc = some s') : Moves s s' t ∧ (s'.thr t).pc.gets = false ∧
      s'.live = s.live.erase x ∧ ∀ y, Built s' y ↔ Built s y := by
  have hitem := getOrNew_itemCount (s.thr t)
  have hpc := getOrNew_pc (s.thr t)
  unfold Pool.returnObject at hs
  split at hs
  · cases hs
  rename_i hg
  simp only [not_or, not_not] at hg
  dsimp only at hs
  have ok : ∀ c : Local, s'.thr = Function.update s.thr t c → c.pc.unnested → c.itemCount = (s.thr t).itemCount →
      c.pc.gets = false → s'.live = s.live.erase x → Moves s s' t ∧ (s'.thr t).pc.gets = false ∧
      s'.live = s.live.erase x ∧ ∀ y, Built s' y ↔ Built s y := fun c hthr hc hi hgets hl =>
    ⟨.of_update hu hthr hc, by rw [hthr, Function.update_self, hgets], hl, built_congr hthr hi⟩
  have hidle : (s.thr t).getOrNewLocalPool.1.pc.unnested := by rw [hpc, hg.1]; trivial
  have hgets : (s.thr t).getOrNewLocalPool.1.pc.gets = false := by rw [hpc, hg.1]; rfl
  split at hs
  · cases hs
    exact ok _ rfl hidle hitem hgets rfl
  · split at hs
    · cases hs
      exact ok { (s.thr t).getOrNewLocalPool.1 with pc := .push (.ret x (s.thr t).getOrNewLocalPool.2) } rfl trivial
        hitem rfl rfl
    · cases hs
      exact ok _ rfl hidle hitem hgets rfl

end Pool
end ContentionProf
