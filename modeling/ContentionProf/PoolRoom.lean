import ContentionProf.Pool
/-!
# PoolRoom — no block is overfilled (`common/object_pool_inl.h`)

`get` makes an object in the current block or in a new one, and only where there is room, in every run of the pool: also
in those in which the hook calls `get_object` from inside a push.
-/
namespace ContentionProf
namespace Pool

variable {g : Config} {s s' : State} {t : Thread} {c d : Local}

/-! ## What keeps the blocks -/

/-- No block is made or filled; a local pool may lose its block. -/
structure SameBlocks (c d : Local) : Prop where
  nblocks : d.nblocks = c.nblocks
  itemCount : d.itemCount = c.itemCount
  curBlock : ∀ {p b}, (d.pools p).curBlock = some b → (c.pools p).curBlock = some b

theorem SameBlocks.setPool {p : Nat} {f : LocalPool} (h : SameBlocks c d)
    (hf : ∀ {b}, f.curBlock = some b → (d.pools p).curBlock = some b) : SameBlocks c (d.setPool p f) := by
  refine ⟨h.nblocks, h.itemCount, fun {q b} hb => h.curBlock ?_⟩
  have hb : (Function.update d.pools p f q).curBlock = some b := hb
  by_cases hq : q = p
  · subst hq
    rw [Function.update_self] at hb
    exact hf hb
  · rwa [Function.update_of_ne hq] at hb

theorem SameBlocks.setFree (p : Nat) (l : List Obj) (h : SameBlocks c d) : SameBlocks c (d.setFree p l) := h.setPool id

theorem SameBlocks.setPc (pc : Pc) (h : SameBlocks c d) : SameBlocks c { d with pc := pc } :=
  ⟨h.nblocks, h.itemCount, h.curBlock⟩

theorem SameBlocks.refl (c : Local) : SameBlocks c c := ⟨rfl, rfl, id⟩

theorem SameBlocks.trans {e : Local} (h : SameBlocks c d) (h' : SameBlocks d e) : SameBlocks c e :=
  ⟨h'.nblocks.trans h.nblocks, h'.itemCount.trans h.itemCount, fun hb => h.curBlock (h'.curBlock hb)⟩

theorem SameBlocks.getOrNew (c : Local) : SameBlocks c c.getOrNewLocalPool.1 := by
  unfold Local.getOrNewLocalPool
  split
  · exact .refl c
  · have h := (SameBlocks.refl c).setPool (p := c.npools) (f := ⟨none, []⟩) (fun hb => by cases hb)
    exact ⟨h.nblocks, h.itemCount, h.curBlock⟩

/-- A thread moves and its blocks stay as they are. -/
def Keeps (s s' : State) (t : Thread) : Prop := ∃ d, s'.thr = Function.update s.thr t d ∧ SameBlocks (s.thr t) d

theorem keeps_finish (a : After) (h : SameBlocks (s.thr t) c) : Keeps s (s.finish t c a) t := by
  cases a with
  | ret x p => exact ⟨_, rfl, (h.setFree p [x]).setPc .idle⟩
  | delete p =>
    have hd := h.setPool (p := p) (f := ⟨none, []⟩) (fun hb => by cases hb)
    exact ⟨_, rfl, hd.nblocks, hd.itemCount, hd.curBlock⟩

theorem keeps_got (x : Obj) (nest : Option After) (h : SameBlocks (s.thr t) c) : Keeps s (s.got t c x nest) t := by
  cases nest with
  | none => exact ⟨_, rfl, h.setPc .idle⟩
  | some after => exact ⟨_, rfl, h.setPc (.submit after x)⟩

theorem keeps_getObject (nest : Option After) : Keeps s (s.getObject t nest) t := by
  unfold State.getObject
  dsimp only
  have hnew := SameBlocks.getOrNew (s.thr t)
  split
  · exact keeps_got _ nest (hnew.setFree _ _)
  · exact ⟨_, rfl, hnew.setPc (.popTest nest)⟩

theorem keeps_deleteLocalPool (p : Nat) (malloc : Bool) (h : SameBlocks (s.thr t) c) :
    Keeps s (s.deleteLocalPool t c p malloc) t := by
  have hfinish := keeps_finish (.delete p) h
  unfold State.deleteLocalPool
  split
  · exact hfinish
  · split
    · exact ⟨_, rfl, h.setPc (.push (.delete p))⟩
    · exact hfinish

theorem keeps_pushFreeChunk (a : After) (hook : Bool) : Keeps s (pushFreeChunk s t a hook) t := by
  unfold pushFreeChunk
  dsimp only
  split
  · exact keeps_finish (s := { s with freeChunks := ((s.thr t).pools a.pool).curFree :: s.freeChunks }) a (.refl _)
  · split
    · exact keeps_getObject (s := { s with freeChunks := ((s.thr t).pools a.pool).curFree :: s.freeChunks }) (some a)
    · obtain ⟨d, hthr, hd⟩ := keeps_getObject (t := t)
        (s := State.setThr { s with freeChunks := ((s.thr t).pools a.pool).curFree :: s.freeChunks } t
          ((s.thr t).setFree a.pool [])) (some a)
      refine ⟨d, ?_, ?_⟩
      · rw [hthr]
        exact Function.update_idem ..
      · have hself : (State.setThr { s with freeChunks := ((s.thr t).pools a.pool).curFree :: s.freeChunks } t
            ((s.thr t).setFree a.pool [])).thr t = (s.thr t).setFree a.pool [] := Function.update_self ..
        rw [hself] at hd
        exact ((SameBlocks.refl _).setFree a.pool []).trans hd

/-! ## The invariant -/

/-- **The blocks of a thread**: those that it has not made are empty, and none has more objects than it has room for. -/
structure Roomy (g : Config) (c : Local) : Prop where
  made : ∀ {p b}, (c.pools p).curBlock = some b → b < c.nblocks
  empty : ∀ {b}, c.nblocks ≤ b → c.itemCount b = 0
  room : ∀ b, c.itemCount b ≤ g.blockItemCount

theorem Roomy.of_same (h : Roomy g c) (hd : SameBlocks c d) : Roomy g d where
  made hb := by
    rw [hd.nblocks]
    exact h.made (hd.curBlock hb)
  empty hb := by
    rw [hd.itemCount]
    exact h.empty (hd.nblocks ▸ hb)
  room b := by
    rw [hd.itemCount]
    exact h.room b

/-- No thread has overfilled a block. -/
def Filled (g : Config) (s : State) : Prop := ∀ t, Roomy g (s.thr t)

theorem Filled.update (h : Filled g s) (hthr : s'.thr = Function.update s.thr t d) (hd : Roomy g d) : Filled g s' := by
  intro u
  by_cases hu : u = t
  · rw [hthr, hu, Function.update_self]
    exact hd
  · rw [hthr, Function.update_of_ne hu]
    exact h u

theorem Filled.keeps (h : Filled g s) (hk : Keeps s s' t) : Filled g s' := by
  obtain ⟨d, hthr, hd⟩ := hk
  exact h.update hthr ((h t).of_same hd)

theorem Roomy.setPc (pc : Pc) (h : Roomy g c) : Roomy g { c with pc := pc } := h.of_same ((SameBlocks.refl c).setPc pc)

theorem Roomy.newBlock (p : Nat) (h : Roomy g c) :
    Roomy g { c.setPool p { c.pools p with curBlock := some c.nblocks } with nblocks := c.nblocks + 1 } where
  made {q b} hb := by
    have hb : (Function.update c.pools p { c.pools p with curBlock := some c.nblocks } q).curBlock = some b := hb
    by_cases hq : q = p
    · subst hq
      rw [Function.update_self] at hb
      cases hb
      exact Nat.lt_succ_self _
    · rw [Function.update_of_ne hq] at hb
      exact Nat.lt_succ_of_lt (h.made hb)
  empty hb := h.empty (Nat.le_of_succ_le hb)
  room := h.room

/-- A place of a block with room is filled. -/
theorem Roomy.construct {b : Nat} (h : Roomy g c) (hb : b < c.nblocks) (hroom : c.itemCount b < g.blockItemCount) :
    Roomy g { c with itemCount := Function.update c.itemCount b (c.itemCount b + 1) } where
  made := h.made
  empty {b'} hb' := (Function.update_of_ne (Nat.ne_of_gt (Nat.lt_of_lt_of_le hb hb')) ..).trans (h.empty hb')
  room b' := by
    show Function.update c.itemCount b (c.itemCount b + 1) b' ≤ g.blockItemCount
    by_cases hb' : b' = b
    · rw [hb', Function.update_self]
      exact hroom
    · rw [Function.update_of_ne hb']
      exact h.room b'

theorem Filled.gotNull {nest : Option After} (h : Filled g s) (hc : Roomy g c) (hs : s.gotNull t c nest = some s') :
    Filled g s' := by
  cases nest with
  | none =>
    cases hs
    exact h.update rfl (hc.setPc .idle)
  | some after => cases hs

theorem Filled.construct {b : Nat} {nest : Option After} {valid : Bool} (h : Filled g s) (hc : Roomy g c)
    (hb : b < c.nblocks) (hroom : c.itemCount b < g.blockItemCount)
    (hs : Pool.construct s t c b nest valid = some s') : Filled g s' := by
  unfold Pool.construct at hs
  split at hs
  · cases hs
    have hd := hc.construct hb hroom
    cases nest with
    | none => exact h.update rfl (hd.setPc .idle)
    | some after => exact h.update rfl (hd.setPc (.submit after _))
  · exact h.gotNull hc hs

/-- Lines 147–163. -/
theorem Filled.build {nest : Option After} {i : Input} (h : Filled g s) (hpc : (s.thr t).pc = .build nest)
    (hs : advance g s t i = some s') : Filled g s' := by
  have hc := h t
  have hnew : ∀ p, i.addBlock = true → Pool.construct s t
      { (s.thr t).setPool p { (s.thr t).pools p with curBlock := some (s.thr t).nblocks } with
        nblocks := (s.thr t).nblocks + 1 } (s.thr t).nblocks nest i.valid = some s' → Filled g s' := by
    intro p _ hs
    refine h.construct (hc.newBlock p) (Nat.lt_succ_self _) ?_ hs
    show (s.thr t).itemCount (s.thr t).nblocks < g.blockItemCount
    rw [hc.empty (Nat.le_refl _)]
    exact g.blockItemCount_pos
  have hnull : ∀ p, s.gotNull t ((s.thr t).setPool p { (s.thr t).pools p with curBlock := none }) nest = some s' →
      Filled g s' :=
    fun p hs => h.gotNull (hc.of_same ((SameBlocks.refl _).setPool (fun hb => by cases hb))) hs
  simp only [Pool.advance, hpc] at hs
  split at hs
  · cases hs
  · split at hs
    · rename_i p hp b hb
      split at hs
      · exact h.construct hc (hc.made hb) ‹_› hs
      · split at hs
        · exact hnew _ ‹_› hs
        · exact hnull _ hs
    · split at hs
      · exact hnew _ ‹_› hs
      · exact hnull _ hs

theorem Filled.advance {i : Input} (h : Filled g s) (hs : advance g s t i = some s') : Filled g s' := by
  cases hpc : (s.thr t).pc with
  | idle => simp only [Pool.advance, hpc] at hs; cases hs
  | build nest => exact h.build hpc hs
  | popTest nest =>
    simp only [Pool.advance, hpc] at hs
    cases hs
    exact h.keeps ⟨_, rfl, (SameBlocks.refl _).setPc _⟩
  | pop nest =>
    simp only [Pool.advance, hpc] at hs
    split at hs
    · cases hs
    · cases hs
      exact h.keeps ⟨_, rfl, (SameBlocks.refl _).setPc _⟩
    · cases hs
      exact h
    · rename_i p x xs rest _ _
      cases hs
      exact h.keeps (keeps_got (s := { s with freeChunks := rest }) x nest ((SameBlocks.refl _).setFree p xs))
  | push after =>
    simp only [Pool.advance, hpc] at hs
    cases hs
    exact h.keeps (keeps_pushFreeChunk after i.hook)
  | submit after x =>
    simp only [Pool.advance, hpc] at hs
    split at hs
    · split at hs
      · cases hs
      · rename_i q _
        split at hs
        · cases hs
          have hput : Filled g (s.putBack t (s.thr t) q x) :=
            h.keeps (t := t) ⟨_, rfl, (SameBlocks.refl _).setFree q _⟩
          exact hput.keeps (keeps_finish after (.refl _))
        · cases hs
    · cases hs
      exact (h.keeps (keeps_finish after (.refl _)) :)

theorem filled_step {l : Label} (h : Filled g s) (hs : step g s l = some s') : Filled g s' := by
  cases l with
  | get t =>
    simp only [step, get] at hs
    split at hs
    · cases hs
      exact h.keeps (keeps_getObject none)
    · cases hs
  | ret t x malloc =>
    simp only [step, returnObject] at hs
    have hnew := SameBlocks.getOrNew (s.thr t)
    split at hs
    · cases hs
    · split at hs
      · cases hs
        exact h.keeps (t := t) ⟨_, rfl, hnew.setFree _ _⟩
      · split at hs
        · cases hs
          exact h.keeps (t := t) ⟨_, rfl, hnew.setPc _⟩
        · cases hs
          exact h.keeps (t := t) ⟨_, rfl, hnew⟩
  | clear t malloc =>
    simp only [step, clearObjects] at hs
    split at hs
    · cases hs
    · split at hs
      · cases hs
        exact h
      · cases hs
        exact h.keeps (keeps_deleteLocalPool _ malloc ⟨rfl, rfl, id⟩)
  | exit t malloc =>
    simp only [step, threadExit] at hs
    split at hs
    · cases hs
    · split at hs
      · cases hs
      · cases hs
        exact h.keeps (keeps_deleteLocalPool _ malloc ⟨rfl, rfl, id⟩)
  | go t i => exact h.advance hs

/-- **`get` never puts more into a block than it has room for**, also when the hook calls `get_object` again. -/
theorem itemCount_le (h : (system g).Reachable s) (t : Thread) (b : Nat) :
    (s.thr t).itemCount b ≤ g.blockItemCount := by
  have hfilled : Filled g s := by
    refine System.ReachableVia.invariant (I := Filled g) (fun s₀ h₀ => ?_) (fun _ _ _ hI _ hs => filled_step hI hs) h
    cases h₀
    exact fun _ => ⟨fun hb => (by cases hb), fun _ => rfl, fun _ => Nat.zero_le _⟩
  exact (hfilled t).room b

end Pool
end ContentionProf
