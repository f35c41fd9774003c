import ContentionProf.Pool
/-!
# PoolPlaces — every object in one place

The places of an object: handed out, in the hands of a call, in the list of a local pool, in a chunk, or lost.  Every
step of the pool moves objects between the places of one thread and the shared ones, or constructs a new object, as long
as the hook does not fire while `local_pool_` is the pool being pushed (`NoReentry`).
-/
namespace ContentionProf
namespace Pool

/-! ## Places -/

inductive Place
  | live
  | lost
  | chunks
  | held (t : Thread)
  | free (t : Thread) (p : Nat)
deriving DecidableEq

/-- The object `return_object` was called with. -/
def After.held : After → List Obj
  | .ret x _  => [x]
  | .delete _ => []

def nestHeld : Option After → List Obj
  | none   => []
  | some a => a.held

/-- What a thread has in its hands inside a call. -/
def Pc.held : Pc → List Obj
  | .idle       => []
  | .popTest n  => nestHeld n
  | .pop n      => nestHeld n
  | .build n    => nestHeld n
  | .push a     => a.held
  | .submit a x => x :: a.held

@[simp] theorem held_idle : Pc.idle.held = [] := rfl
@[simp] theorem held_popTest (n : Option After) : (Pc.popTest n).held = nestHeld n := rfl
@[simp] theorem held_pop (n : Option After) : (Pc.pop n).held = nestHeld n := rfl
@[simp] theorem held_build (n : Option After) : (Pc.build n).held = nestHeld n := rfl
@[simp] theorem held_push (a : After) : (Pc.push a).held = a.held := rfl
@[simp] theorem held_submit (a : After) (x : Obj) : (Pc.submit a x).held = x :: a.held := rfl
@[simp] theorem held_ret (x : Obj) (p : Nat) : (After.ret x p).held = [x] := rfl
@[simp] theorem held_delete (p : Nat) : (After.delete p).held = [] := rfl
@[simp] theorem nestHeld_none : nestHeld none = [] := rfl
@[simp] theorem nestHeld_some (a : After) : nestHeld (some a) = a.held := rfl

def content (s : State) : Place → List Obj
  | .live     => s.live
  | .lost     => s.lost
  | .chunks   => s.freeChunks.flatten
  | .held t   => (s.thr t).pc.held
  | .free t p => ((s.thr t).pools p).curFree

/-- The object's constructor has run. -/
def Built (s : State) (x : Obj) : Prop := x.index < (s.thr x.thread).itemCount x.block

/-- Handed out and not yet given back: also while `return_object` or `submit_contention` has it. -/
def Live (s : State) (x : Obj) : Prop := x ∈ s.live ∨ ∃ t, x ∈ (s.thr t).pc.held

/-! ## The invariant -/

/-- What holds of a thread wherever it stands. -/
structure LocalBase (g : Config) (c : Local) : Prop where
  length : ∀ p, (c.pools p).curFree.length ≤ g.freeChunkItemCount
  fresh : ∀ p, c.npools ≤ p → (c.pools p).curFree = []
  localPool : ∀ p, c.localPool = some p → p < c.npools
  atexit : ∀ p ∈ c.atexit, p < c.npools

/-- The pool being pushed is not the one in use, and its list is given up. -/
structure NestOk (c : Local) (a : After) : Prop where
  made : a.pool < c.npools
  empty : (c.pools a.pool).curFree = []
  other : c.localPool ≠ some a.pool

/-- Inside `get`: the list was found empty. -/
def GetOk (c : Local) (nest : Option After) : Prop :=
  (∃ p, c.localPool = some p ∧ (c.pools p).curFree = []) ∧ ∀ a, nest = some a → NestOk c a

theorem GetOk.setPc {c : Local} {nest : Option After} (h : GetOk c nest) (pc : Pc) : GetOk { c with pc := pc } nest :=
  ⟨h.1, fun a ha => ⟨(h.2 a ha).made, (h.2 a ha).empty, (h.2 a ha).other⟩⟩

def PcOk (g : Config) (c : Local) : Pc → Prop
  | .idle       => True
  | .popTest n  => GetOk c n
  | .pop n      => GetOk c n
  | .build n    => GetOk c n
  | .push a     => (c.pools a.pool).curFree ≠ [] ∧ a.pool < c.npools
  | .submit a _ => (∃ q, c.localPool = some q ∧ (c.pools q).curFree.length < g.freeChunkItemCount) ∧ NestOk c a

structure Base (g : Config) (s : State) : Prop where
  places : Partition (content s)
  built : ∀ x, Built s x ↔ Placed (content s) x
  chunks : ∀ l ∈ s.freeChunks, l ≠ [] ∧ l.length ≤ g.freeChunkItemCount
  failed : s.failed = false → s.lost = []
  underflow : s.underflow = false
  thr : ∀ t, LocalBase g (s.thr t)

structure Inv (g : Config) (s : State) : Prop extends Base g s where
  pc : ∀ t, PcOk g (s.thr t) (s.thr t).pc

variable {g : Config} {s s' : State} {t : Thread} {c c' : Local} {p : Nat}

/-- The shared places and those of one thread and one of its pools, in one list. -/
def around (s : State) (c : Local) (p : Nat) : List Obj :=
  s.live ++ s.lost ++ s.freeChunks.flatten ++ c.pc.held ++ (c.pools p).curFree

theorem flatMap_around (s : State) (t : Thread) (p : Nat) :
    [Place.live, .lost, .chunks, .held t, .free t p].flatMap (content s) = around s (s.thr t) p := by
  simp [content, around]

theorem nodup_around (t : Thread) (p : Nat) : [Place.live, .lost, .chunks, .held t, .free t p].Nodup := by simp

theorem content_frame (hthr : s'.thr = Function.update s.thr t c')
    (hpools : ∀ q, q ≠ p → (c'.pools q).curFree = ((s.thr t).pools q).curFree) (k : Place)
    (hk : k ∉ [Place.live, .lost, .chunks, .held t, .free t p]) : content s' k = content s k := by
  simp only [List.mem_cons, List.not_mem_nil, or_false, not_or] at hk
  cases k with
  | live => exact absurd rfl hk.1
  | lost => exact absurd rfl hk.2.1
  | chunks => exact absurd rfl hk.2.2.1
  | held u =>
    have hu : u ≠ t := fun h => hk.2.2.2.1 (by rw [h])
    simp [content, hthr, hu]
  | free u q =>
    by_cases hu : u = t
    · subst hu
      have hq : q ≠ p := fun h => hk.2.2.2.2 (by rw [h])
      simp [content, hthr, hpools q hq]
    · simp [content, hthr, hu]

theorem built_congr (hthr : s'.thr = Function.update s.thr t c) (hitem : c.itemCount = (s.thr t).itemCount) (y : Obj) :
    Built s' y ↔ Built s y := by
  unfold Built
  by_cases hy : y.thread = t
  · rw [hthr, hy, Function.update_self, hitem]
  · rw [hthr, Function.update_of_ne hy]

theorem built_succ {b : Nat} (hthr : s'.thr = Function.update s.thr t c)
    (hitem : c.itemCount = Function.update (s.thr t).itemCount b ((s.thr t).itemCount b + 1)) (y : Obj) :
    Built s' y ↔ y = ⟨t, b, (s.thr t).itemCount b⟩ ∨ Built s y := by
  obtain ⟨u, d, j⟩ := y
  by_cases hu : u = t
  · subst hu
    unfold Built
    simp only [hthr, Function.update_self, hitem, Obj.mk.injEq, true_and]
    by_cases hd : d = b
    · subst hd
      simp only [Function.update_self, true_and]
      omega
    · rw [Function.update_of_ne hd]
      simp [hd]
  · have hne : (⟨u, d, j⟩ : Obj) ≠ ⟨t, b, (s.thr t).itemCount b⟩ := fun he => hu (Obj.mk.inj he).1
    unfold Built
    simp only [hthr, Function.update_of_ne hu, hne, false_or]

/-- **Moving objects between the shared places and those of one pool of a thread.** -/
theorem Base.move (d : Local) (h : Base g s) (hthr : s'.thr = Function.update s.thr t d) (hc : s.thr t = c)
    (hitem : d.itemCount = c.itemCount) (hpools : ∀ q, q ≠ p → (d.pools q).curFree = (c.pools q).curFree)
    (hperm : (around s' d p).Perm (around s c p))
    (hchunks : ∀ l ∈ s'.freeChunks, l ≠ [] ∧ l.length ≤ g.freeChunkItemCount)
    (hfailed : s'.failed = false → s'.lost = []) (hunder : s'.underflow = false) (hbase : LocalBase g d) :
    Base g s' := by
  subst hc
  have hself : s'.thr t = d := by rw [hthr, Function.update_self]
  have hperm : ([Place.live, .lost, .chunks, .held t, .free t p].flatMap (content s')).Perm
      ([Place.live, .lost, .chunks, .held t, .free t p].flatMap (content s)) := by
    rw [flatMap_around, flatMap_around, hself]
    exact hperm
  have hout := content_frame (p := p) hthr hpools
  refine ⟨h.places.rearrange (nodup_around t p) hperm hout, fun x => ?_, hchunks, hfailed, hunder, fun u => ?_⟩
  · rw [placed_rearrange hperm hout, ← h.built, built_congr hthr hitem]
  · by_cases hu : u = t
    · rw [hu, hself]; exact hbase
    · rw [hthr, Function.update_of_ne hu]; exact h.thr u

/-- **Constructing an object.** -/
theorem Base.construct {b : Nat} {x : Obj} (h : Base g s) (hc : s.thr t = c) (hx : x = ⟨t, b, c.itemCount b⟩)
    (hthr : s'.thr = Function.update s.thr t c')
    (hitem : c'.itemCount = Function.update c.itemCount b (c.itemCount b + 1))
    (hpools : ∀ q, (c'.pools q).curFree = (c.pools q).curFree) (hperm : (around s' c' p).Perm (x :: around s c p))
    (hchunks : s'.freeChunks = s.freeChunks) (hlost : s'.lost = s.lost) (hfailed : s'.failed = s.failed)
    (hunder : s'.underflow = s.underflow) (hbase : LocalBase g c') : Base g s' := by
  subst hc
  have hself : s'.thr t = c' := by rw [hthr, Function.update_self]
  have hnew : ¬ Placed (content s) x := by
    rw [← h.built, hx]
    exact Nat.lt_irrefl _
  -- first the object appears, then it goes where it belongs
  have hins : ((Function.update (content s) .live (x :: s.live)) .live).Perm (x :: content s .live) := by
    rw [Function.update_self]; rfl
  have hins' : ∀ k, k ≠ Place.live → Function.update (content s) .live (x :: s.live) k = content s k :=
    fun k hk => Function.update_of_ne hk _ _
  have hperm : ([Place.live, .lost, .chunks, .held t, .free t p].flatMap (content s')).Perm
      ([Place.live, .lost, .chunks, .held t, .free t p].flatMap
        (Function.update (content s) .live (x :: s.live))) := by
    rw [flatMap_around, hself]
    refine hperm.trans (List.Perm.of_eq ?_)
    simp [around, content]
  have hout : ∀ k, k ∉ [Place.live, .lost, .chunks, .held t, .free t p] →
      content s' k = Function.update (content s) .live (x :: s.live) k := by
    intro k hk
    have hl : k ≠ Place.live := by
      rintro rfl
      exact hk List.mem_cons_self
    rw [hins' k hl]
    exact content_frame (p := p) hthr (fun q _ => hpools q) k hk
  have hbuilt : ∀ y, Built s' y ↔ y = x ∨ Built s y := by
    rw [hx]
    exact built_succ hthr hitem
  refine ⟨(h.places.insert hnew hins hins').rearrange (nodup_around t p) hperm hout, fun y => ?_, ?_, ?_, ?_,
    fun u => ?_⟩
  · rw [hbuilt, placed_rearrange hperm hout, placed_insert hins hins', h.built]
  · rw [hchunks]; exact h.chunks
  · rw [hfailed, hlost]; exact h.failed
  · rw [hunder]; exact h.underflow
  · by_cases hu : u = t
    · rw [hu, hself]; exact hbase
    · rw [hthr, Function.update_of_ne hu]; exact h.thr u

/-! ## The pieces of the calls -/

section Pieces

@[simp] theorem setFree_curFree (c : Local) (p q : Nat) (l : List Obj) :
    ((c.setFree p l).pools q).curFree = if q = p then l else (c.pools q).curFree := by
  unfold Local.setFree Local.setPool
  by_cases h : q = p
  · subst h; simp
  · simp [h]

@[simp] theorem setFree_localPool (c : Local) (p : Nat) (l : List Obj) : (c.setFree p l).localPool = c.localPool := rfl
@[simp] theorem setFree_npools (c : Local) (p : Nat) (l : List Obj) : (c.setFree p l).npools = c.npools := rfl
@[simp] theorem setFree_atexit (c : Local) (p : Nat) (l : List Obj) : (c.setFree p l).atexit = c.atexit := rfl
@[simp] theorem setFree_itemCount (c : Local) (p : Nat) (l : List Obj) : (c.setFree p l).itemCount = c.itemCount := rfl
@[simp] theorem setFree_pc (c : Local) (p : Nat) (l : List Obj) : (c.setFree p l).pc = c.pc := rfl

theorem LocalBase.setFree {l : List Obj} (h : LocalBase g c) (hp : p < c.npools)
    (hl : l.length ≤ g.freeChunkItemCount) : LocalBase g (c.setFree p l) where
  length := by
    intro q
    rw [setFree_curFree]
    split
    · exact hl
    · exact h.length q
  fresh := by
    intro q hq
    have hq : c.npools ≤ q := hq
    rw [setFree_curFree, if_neg (by omega)]
    exact h.fresh q hq
  localPool := h.localPool
  atexit := h.atexit

theorem LocalBase.setPc {pc : Pc} (h : LocalBase g c) : LocalBase g { c with pc := pc } :=
  ⟨h.length, h.fresh, h.localPool, h.atexit⟩

/-- A pool and `local_pool_` are gone. -/
theorem LocalBase.deleted (h : LocalBase g c) (hp : p < c.npools) :
    LocalBase g { c.setPool p ⟨none, []⟩ with pc := .idle, localPool := none } := by
  have hl := h.setFree (l := []) hp (Nat.zero_le _)
  have hpools : ∀ q, ((c.setPool p ⟨none, []⟩).pools q).curFree = ((c.setFree p []).pools q).curFree := by
    intro q
    by_cases hq : q = p
    · subst hq; simp [Local.setPool]
    · simp [Local.setPool, hq]
  exact ⟨fun q => (hpools q).symm ▸ hl.length q, fun q hq => (hpools q).trans (hl.fresh q hq), nofun, h.atexit⟩

/-- `get_or_new_local_pool` adds an empty pool at most. -/
theorem getOrNew_spec (h : LocalBase g c) : LocalBase g c.getOrNewLocalPool.1 ∧
    c.getOrNewLocalPool.1.localPool = some c.getOrNewLocalPool.2 ∧
    (∀ q, (c.getOrNewLocalPool.1.pools q).curFree = (c.pools q).curFree) ∧
    c.getOrNewLocalPool.1.itemCount = c.itemCount ∧ c.getOrNewLocalPool.1.pc = c.pc ∧
    c.npools ≤ c.getOrNewLocalPool.1.npools ∧
    (∀ q, q < c.npools → c.localPool ≠ some q → c.getOrNewLocalPool.2 ≠ q) := by
  unfold Local.getOrNewLocalPool
  cases hp : c.localPool with
  | some p => exact ⟨h, hp, fun _ => rfl, rfl, rfl, Nat.le_refl _, fun q _ hq hpq => hq (by rw [← hpq])⟩
  | none =>
    have hpools : ∀ q, (Function.update c.pools c.npools ⟨none, []⟩ q).curFree = (c.pools q).curFree := by
      intro q
      by_cases hq : q = c.npools
      · subst hq
        rw [Function.update_self, h.fresh _ (Nat.le_refl _)]
      · rw [Function.update_of_ne hq]
    refine ⟨⟨fun q => ?_, fun q hq => ?_, fun q hq => ?_, fun q hq => ?_⟩, rfl, hpools, rfl, rfl, Nat.le_succ _,
      fun q hq _ => Nat.ne_of_gt hq⟩
    · exact (hpools q).symm ▸ h.length q
    · exact (hpools q).trans (h.fresh q (Nat.le_of_succ_le hq))
    · cases hq; exact Nat.lt_succ_self _
    · rcases List.mem_cons.1 hq with rfl | hq
      · exact Nat.lt_succ_self _
      · exact Nat.lt_succ_of_lt (h.atexit q hq)

end Pieces

/-- `get` hands an object of the list over. -/
theorem Base.got {x : Obj} {xs : List Obj} {nest : Option After} (h : Base g s) (hc : s.thr t = c)
    (hfree : (c.pools p).curFree = x :: xs) (hp : p < c.npools) (hheld : c.pc.held = nestHeld nest) :
    Base g (s.got t (c.setFree p xs) x nest) := by
  have hlen : xs.length ≤ g.freeChunkItemCount := by
    have := (h.thr t).length p
    rw [hc, hfree, List.length_cons] at this
    omega
  have hbase : LocalBase g (c.setFree p xs) := (hc ▸ h.thr t).setFree hp hlen
  have hpools : ∀ q, q ≠ p → ((c.setFree p xs).pools q).curFree = (c.pools q).curFree := by
    intro q hq
    rw [setFree_curFree, if_neg hq]
  cases nest with
  | none =>
    refine h.move { c.setFree p xs with pc := .idle } (p := p) rfl hc rfl hpools ?_ h.chunks h.failed
      h.underflow hbase.setPc
    rw [List.perm_iff_count]
    intro y
    simp [around, State.got, State.setThr, hfree, hheld, List.count_cons]
    omega
  | some a =>
    refine h.move { c.setFree p xs with pc := .submit a x } (p := p) rfl hc rfl hpools ?_ h.chunks h.failed
      h.underflow hbase.setPc
    rw [List.perm_iff_count]
    intro y
    simp [around, State.got, State.setThr, hfree, hheld, List.count_cons]
    omega

theorem setThr_setThr (s : State) (t : Thread) (c c' : Local) : (s.setThr t c).setThr t c' = s.setThr t c' := by
  simp [State.setThr]

@[simp] theorem setThr_thr_self (s : State) (t : Thread) (c : Local) :
    (s.setThr t c).thr t = c := Function.update_self ..

theorem got_setThr (s : State) (t : Thread) (c c' : Local) (x : Obj) (nest : Option After) :
    (s.setThr t c).got t c' x nest = s.got t c' x nest := by
  cases nest with
  | none => simp [State.got, State.setThr]
  | some a => exact setThr_setThr s t c _

/-- The thread's bookkeeping changes, no object moves. -/
theorem Base.setThr (h : Base g s) (hc : s.thr t = c) (hpools : ∀ q, (c'.pools q).curFree = (c.pools q).curFree)
    (hitem : c'.itemCount = c.itemCount) (hheld : c'.pc.held = c.pc.held) (hbase : LocalBase g c') :
    Base g (s.setThr t c') := by
  refine h.move _ (p := 0) rfl hc hitem (fun q _ => hpools q) (List.Perm.of_eq ?_) h.chunks h.failed h.underflow hbase
  simp [around, State.setThr, hpools, hheld]

/-- What `get_object` leaves behind up to its first look at `free_chunks_`. -/
theorem Base.getObject (nest : Option After) (h : Base g s) (hc : s.thr t = c) (hheld : c.pc.held = nestHeld nest)
    (hnest : ∀ a, nest = some a → NestOk c a) : Base g (s.getObject t nest) ∧
      PcOk g ((s.getObject t nest).thr t) ((s.getObject t nest).thr t).pc := by
  subst hc
  obtain ⟨hb, hl, hpools, hitem, hpc, hn, hne⟩ := getOrNew_spec (h.thr t)
  have h1 : Base g (s.setThr t (s.thr t).getOrNewLocalPool.1) := h.setThr rfl hpools hitem (by rw [hpc]) hb
  unfold State.getObject
  generalize (s.thr t).getOrNewLocalPool = cp at *
  obtain ⟨c, p⟩ := cp
  dsimp only at *
  have hp := hb.localPool p hl
  have nestOk : ∀ {l a}, nest = some a → NestOk (c.setFree p l) a := fun {l a} ha => by
    obtain ⟨hm, he, ho⟩ := hnest a ha
    have hpa : p ≠ a.pool := hne _ hm ho
    refine ⟨Nat.lt_of_lt_of_le hm hn, ?_, ?_⟩
    · rw [setFree_curFree, if_neg hpa.symm, hpools, he]
    · rw [setFree_localPool, hl]
      exact fun hpp => hpa (Option.some.inj hpp)
  cases hf : (c.pools p).curFree with
  | nil =>
    refine ⟨?_, ?_⟩
    · rw [← setThr_setThr s t c]
      refine h1.setThr (setThr_thr_self ..) (fun _ => rfl) rfl ?_ hb.setPc
      rw [hpc, hheld]
      rfl
    · rw [setThr_thr_self]
      refine ⟨⟨p, hl, hf⟩, fun a ha => ?_⟩
      obtain ⟨hm, he, ho⟩ := hnest a ha
      refine ⟨Nat.lt_of_lt_of_le hm hn, (hpools _).trans he, fun hpp => ?_⟩
      exact hne _ hm ho (Option.some.inj (hl.symm.trans hpp))
  | cons x xs =>
    have hlen : xs.length < g.freeChunkItemCount := by
      have := hb.length p
      rw [hf, List.length_cons] at this
      exact this
    refine ⟨?_, ?_⟩
    · dsimp only
      rw [← got_setThr s t c]
      exact h1.got (setThr_thr_self ..) hf hp (by rw [hpc, hheld])
    · cases nest with
      | none =>
        have : ((s.got t (c.setFree p xs) x none).thr t).pc = .idle := by simp [State.got, State.setThr]
        rw [this]
        trivial
      | some a =>
        have : (s.got t (c.setFree p xs) x (some a)).thr t = { c.setFree p xs with pc := .submit a x } :=
          setThr_thr_self ..
        rw [this]
        have hok := nestOk (l := xs) (a := a) rfl
        refine ⟨⟨p, hl, ?_⟩, hok.made, hok.empty, hok.other⟩
        simpa using hlen

/-- The chunk has been pushed and the list given up. -/
def pushed (s : State) (t : Thread) (a : After) : State :=
  { s with freeChunks := ((s.thr t).pools a.pool).curFree :: s.freeChunks }.setThr t ((s.thr t).setFree a.pool [])

theorem Base.pushed {a : After} (h : Base g s) (hne : ((s.thr t).pools a.pool).curFree ≠ [])
    (hp : a.pool < (s.thr t).npools) : Base g (pushed s t a) := by
  refine h.move _ (p := a.pool) rfl rfl rfl (fun q hq => by rw [setFree_curFree, if_neg hq]) ?_ ?_ h.failed h.underflow
    ((h.thr t).setFree hp (Nat.zero_le _))
  · rw [List.perm_iff_count]
    intro y
    simp [around, Pool.pushed, State.setThr]
    omega
  · intro l hl
    rcases List.mem_cons.1 hl with rfl | hl
    · exact ⟨hne, (h.thr t).length _⟩
    · exact h.chunks l hl

/-- The rest of `return_object` or `~LocalPool`, for a pool whose list is empty. -/
theorem Base.finish {a : After} (h : Base g s) (hc : s.thr t = c) (hheld : c.pc.held = a.held)
    (hempty : (c.pools a.pool).curFree = []) (hp : a.pool < c.npools) : Base g (s.finish t c a) := by
  subst hc
  cases a with
  | ret x p =>
    refine h.move { (s.thr t).setFree p [x] with pc := .idle } (p := p) rfl rfl rfl
      (fun q hq => by simp [hq]) ?_ h.chunks h.failed h.underflow
      ((h.thr t).setFree hp (l := [x]) g.freeChunkItemCount_pos).setPc
    have hempty : ((s.thr t).pools p).curFree = [] := hempty
    simp [around, State.finish, State.setThr, hheld, hempty]
  | delete p =>
    have hempty : ((s.thr t).pools p).curFree = [] := hempty
    refine h.setThr rfl (fun q => ?_) rfl (by rw [hheld]; rfl) ((h.thr t).deleted hp)
    by_cases hq : q = p
    · subst hq; simp [Local.setPool, hempty]
    · simp [Local.setPool, hq]

/-! ## Steps -/

/-- **The hook does not fire while `local_pool_` is the pool being pushed.** -/
def NoReentry (s : State) : Label → Prop
  | .go t i => match (s.thr t).pc with
    | .push a => i.hook = true → (s.thr t).localPool ≠ some a.pool
    | _       => True
  | _       => True

theorem Inv.of_base (h : Inv g s) (hb : Base g s') (hthr : ∀ u, u ≠ t → s'.thr u = s.thr u)
    (hpc : PcOk g (s'.thr t) (s'.thr t).pc) : Inv g s' where
  toBase := hb
  pc := by
    intro u
    by_cases hu : u = t
    · rw [hu]; exact hpc
    · rw [hthr u hu]; exact h.pc u

theorem setThr_thr_of_ne {u : Thread} (hu : u ≠ t) : (s.setThr t c).thr u = s.thr u := Function.update_of_ne hu _ _

theorem got_thr_of_ne {u : Thread} {x : Obj} {nest : Option After} (hu : u ≠ t) :
    (s.got t c x nest).thr u = s.thr u := by
  cases nest with
  | none => exact setThr_thr_of_ne (c := { c with pc := .idle }) hu
  | some a => exact setThr_thr_of_ne hu

theorem getObject_thr_of_ne {u : Thread} {nest : Option After} (hu : u ≠ t) :
    (s.getObject t nest).thr u = s.thr u := by
  unfold State.getObject
  dsimp only
  split
  · exact got_thr_of_ne hu
  · exact setThr_thr_of_ne hu

theorem finish_thr_of_ne {u : Thread} {a : After} (hu : u ≠ t) : (s.finish t c a).thr u = s.thr u := by
  cases a <;> exact setThr_thr_of_ne hu

theorem finish_pc {a : After} : ((s.finish t c a).thr t).pc = .idle := by
  cases a <;> simp [State.finish]

theorem Inv.get (h : Inv g s) (hs : get s t = some s') : Inv g s' := by
  unfold Pool.get at hs
  split at hs
  · rename_i hpc
    cases hs
    obtain ⟨hb, hp⟩ := h.toBase.getObject none (t := t) rfl (by rw [hpc]; rfl) nofun
    exact h.of_base hb (fun u hu => getObject_thr_of_ne hu) hp
  · cases hs

theorem count_erase_of_mem {l : List Obj} {x : Obj} (hx : x ∈ l) (y : Obj) :
    l.count y = (l.erase x).count y + if x = y then 1 else 0 := by
  rw [(List.perm_cons_erase hx).count_eq y, List.count_cons]
  simp

theorem Inv.returnObject {x : Obj} {malloc : Bool} (h : Inv g s) (hs : returnObject g s t x malloc = some s') :
    Inv g s' := by
  unfold Pool.returnObject at hs
  split at hs
  · cases hs
  rename_i hg
  simp only [not_or, not_not] at hg
  obtain ⟨hpc, hx⟩ := hg
  have hcount := count_erase_of_mem hx
  obtain ⟨hb, hl, hpools, hitem, hpc', hn, hne⟩ := getOrNew_spec (h.thr t)
  dsimp only at hs
  generalize (s.thr t).getOrNewLocalPool = cp at *
  obtain ⟨c, p⟩ := cp
  dsimp only at *
  have hp := hb.localPool p hl
  split at hs
  · rename_i hlt
    cases hs
    have hlen : (x :: (c.pools p).curFree).length ≤ g.freeChunkItemCount := hlt
    refine h.of_base ?_ (fun u hu => setThr_thr_of_ne hu) ?_
    · refine h.toBase.move (c.setFree p (x :: (c.pools p).curFree)) (p := p) rfl rfl hitem
        (fun q hq => by simp [hq, hpools]) ?_ h.chunks h.failed h.underflow (hb.setFree hp hlen)
      rw [List.perm_iff_count]
      intro y
      simp [around, State.putBack, State.setThr, hpc', hpools, hcount, List.count_cons]
      omega
    · simp [State.putBack, hpc', hpc, PcOk]
  rename_i hfull
  split at hs
  · cases hs
    refine h.of_base ?_ (fun u hu => setThr_thr_of_ne hu) ?_
    · refine h.toBase.move { c with pc := .push (.ret x p) } (p := p) rfl rfl hitem
        (fun q _ => hpools q) ?_ h.chunks h.failed h.underflow hb.setPc
      rw [List.perm_iff_count]
      intro y
      simp [around, State.setThr, hpc, hpools, hcount, List.count_cons]
      omega
    · rw [setThr_thr_self]
      refine ⟨fun he => hfull ?_, hp⟩
      have he : (c.pools p).curFree = [] := he
      rw [he]
      exact g.freeChunkItemCount_pos
  · cases hs
    refine h.of_base ?_ (fun u hu => setThr_thr_of_ne (c := c) hu) ?_
    · refine h.toBase.move c (p := p) rfl rfl hitem (fun q _ => hpools q) ?_ h.chunks nofun h.underflow hb
      rw [List.perm_iff_count]
      intro y
      simp [around, State.setThr, hpc', hpools, hcount, List.count_cons]
      omega
    · have : ({ ({ s with live := s.live.erase x } : State).setThr t c with
          lost := x :: s.lost, failed := true } : State).thr t = c := Function.update_self ..
      rw [this, hpc', hpc]
      trivial

/-- `~LocalPool`, up to the lock. -/
theorem Inv.deleteLocalPool {malloc : Bool} (h : Inv g s) (hpools : c.pools = (s.thr t).pools)
    (hitem : c.itemCount = (s.thr t).itemCount) (hpc : c.pc = .idle) (hpc' : (s.thr t).pc = .idle)
    (hb : LocalBase g c) (hp : p < c.npools) : Inv g (s.deleteLocalPool t c p malloc) := by
  have h1 : Base g (s.setThr t c) :=
    h.toBase.setThr rfl (fun q => by rw [hpools]) hitem (by rw [hpc, hpc']) hb
  have fin : ∀ a, (s.setThr t c).finish t c a = s.finish t c a := fun a => by cases a <;> exact setThr_setThr ..
  unfold State.deleteLocalPool
  split
  · rename_i he
    refine h.of_base ?_ (fun u hu => finish_thr_of_ne hu) (by rw [finish_pc]; trivial)
    rw [← fin]
    exact h1.finish (setThr_thr_self ..) (by rw [hpc]; rfl) he hp
  · rename_i hne
    split
    · refine h.of_base ?_ (fun u hu => setThr_thr_of_ne hu) ?_
      · rw [← setThr_setThr s t c]
        exact h1.setThr (setThr_thr_self ..) (fun _ => rfl) rfl (by rw [hpc]; rfl) hb.setPc
      · rw [setThr_thr_self]
        exact ⟨hne, hp⟩
    · refine h.of_base ?_ (fun u hu => finish_thr_of_ne (a := .delete p) hu) ?_
      · refine h1.move { c.setPool p ⟨none, []⟩ with pc := .idle, localPool := none } (p := p) ?_
          (setThr_thr_self ..) rfl (fun q hq => ?_) ?_ h.chunks nofun h.underflow (hb.deleted hp)
        · simp [State.finish, State.setThr]
        · simp [Local.setPool, hq]
        · rw [List.perm_iff_count]
          intro y
          simp [around, State.finish, State.setThr, Local.setPool, hpc]
          omega
      · have : ({ s.finish t c (.delete p) with
            lost := (c.pools p).curFree ++ s.lost, failed := true } : State).thr t =
            (s.finish t c (.delete p)).thr t := rfl
        rw [this, finish_pc]
        trivial

theorem Inv.clearObjects {malloc : Bool} (h : Inv g s) (hs : clearObjects s t malloc = some s') : Inv g s' := by
  unfold Pool.clearObjects at hs
  dsimp only at hs
  split at hs
  · cases hs
  rename_i hpc
  have hpc : (s.thr t).pc = .idle := not_not.1 hpc
  have hb := h.thr t
  split at hs
  · cases hs; exact h
  · rename_i p hp
    cases hs
    exact h.deleteLocalPool rfl rfl hpc hpc
      ⟨hb.length, hb.fresh, nofun, fun q hq => hb.atexit q (List.mem_of_mem_erase hq)⟩ (hb.localPool p hp)

theorem Inv.threadExit {malloc : Bool} (h : Inv g s) (hs : threadExit s t malloc = some s') : Inv g s' := by
  unfold Pool.threadExit at hs
  dsimp only at hs
  split at hs
  · cases hs
  rename_i hpc
  have hpc : (s.thr t).pc = .idle := not_not.1 hpc
  have hb := h.thr t
  split at hs
  · cases hs
  · rename_i p ps hp
    cases hs
    have hmem : ∀ q ∈ p :: ps, q < (s.thr t).npools := by rw [← hp]; exact hb.atexit
    exact h.deleteLocalPool rfl rfl hpc hpc
      ⟨hb.length, hb.fresh, hb.localPool, fun q hq => hmem q (List.mem_cons_of_mem _ hq)⟩ (hmem p List.mem_cons_self)

theorem pushed_pc (s : State) (t : Thread) (a : After) : ((pushed s t a).thr t).pc = (s.thr t).pc := by
  rw [pushed, setThr_thr_self, setFree_pc]

theorem setFree_setFree (c : Local) (p : Nat) (l l' : List Obj) : (c.setFree p l).setFree p l' = c.setFree p l' := by
  simp [Local.setFree, Local.setPool]

theorem finish_pushed (s : State) (t : Thread) (a : After) : (pushed s t a).finish t ((pushed s t a).thr t) a =
    { s with freeChunks := ((s.thr t).pools a.pool).curFree :: s.freeChunks }.finish t (s.thr t) a := by
  rw [pushed, setThr_thr_self]
  cases a with
  | ret x p => simp [State.finish, State.setThr, setFree_setFree, After.pool]
  | delete p => simp [State.finish, State.setThr, Local.setFree, Local.setPool, After.pool]

theorem Inv.push {a : After} {hook : Bool} (h : Inv g s) (hpc : (s.thr t).pc = .push a)
    (hok : hook = true → (s.thr t).localPool ≠ some a.pool) : Inv g (pushFreeChunk s t a hook) := by
  have hp := h.pc t
  rw [hpc] at hp
  have h1 : Base g (pushed s t a) := h.toBase.pushed hp.1 hp.2
  have hempty : (((pushed s t a).thr t).pools a.pool).curFree = [] := by
    rw [pushed, setThr_thr_self, setFree_curFree, if_pos rfl]
  have hheld : ((pushed s t a).thr t).pc.held = a.held := by rw [pushed_pc, hpc]; rfl
  have hn : a.pool < ((pushed s t a).thr t).npools := by rw [pushed, setThr_thr_self]; exact hp.2
  have hthr : ∀ u, u ≠ t → (pushed s t a).thr u = s.thr u := fun u hu => setThr_thr_of_ne hu
  unfold pushFreeChunk
  dsimp only
  cases hook with
  | false =>
    rw [if_pos (by decide), ← finish_pushed]
    refine h.of_base (h1.finish rfl hheld hempty hn) (fun u hu => ?_) (by rw [finish_pc]; trivial)
    exact (finish_thr_of_ne hu).trans (hthr u hu)
  | true =>
    have hne := hok rfl
    rw [if_neg (by decide), if_neg hne]
    have hlp : ((pushed s t a).thr t).localPool ≠ some a.pool := by rw [pushed, setThr_thr_self]; exact hne
    obtain ⟨hb, hpo⟩ := h1.getObject (some a) (t := t) rfl hheld (fun b hb => by cases hb; exact ⟨hn, hempty, hlp⟩)
    exact h.of_base hb (fun u hu => (getObject_thr_of_ne hu).trans (hthr u hu)) hpo

/-- A chunk is taken: its last object is handed over, the others become the list. -/
theorem Inv.popChunk {nest : Option After} {x : Obj} {xs : List Obj} {rest : List (List Obj)} (h : Inv g s)
    (hpc : (s.thr t).pc = .pop nest) (hp : (s.thr t).localPool = some p) (hf : s.freeChunks = (x :: xs) :: rest) :
    Inv g ({ s with freeChunks := rest }.got t ((s.thr t).setFree p xs) x nest) := by
  have hget := h.pc t
  rw [hpc] at hget
  obtain ⟨⟨p', hp', hempty⟩, hnest⟩ := hget
  rw [hp] at hp'
  cases hp'
  have hpn := (h.thr t).localPool p hp
  have hsize := (h.chunks (x :: xs) (by rw [hf]; exact List.mem_cons_self)).2
  have hlen : xs.length ≤ g.freeChunkItemCount := Nat.le_of_succ_le hsize
  have hchunks : ∀ l ∈ rest, l ≠ [] ∧ l.length ≤ g.freeChunkItemCount := fun l hl =>
    h.chunks l (by rw [hf]; exact List.mem_cons_of_mem _ hl)
  have hbase := (h.thr t).setFree (l := xs) hpn hlen
  refine h.of_base ?_ (fun u hu => got_thr_of_ne hu) ?_
  · cases nest with
    | none =>
      refine h.toBase.move { (s.thr t).setFree p xs with pc := .idle } (p := p) rfl rfl rfl
        (fun q hq => by simp [hq]) ?_ hchunks h.failed h.underflow hbase.setPc
      rw [List.perm_iff_count]
      intro y
      simp [around, State.got, State.setThr, hpc, hf, hempty, List.count_cons]
      omega
    | some a =>
      refine h.toBase.move { (s.thr t).setFree p xs with pc := .submit a x } (p := p) rfl rfl rfl
        (fun q hq => by simp [hq]) ?_ hchunks h.failed h.underflow hbase.setPc
      rw [List.perm_iff_count]
      intro y
      simp [around, State.got, State.setThr, hpc, hf, hempty, List.count_cons]
      omega
  · cases nest with
    | none => simp [State.got, State.setThr, PcOk]
    | some a =>
      obtain ⟨hm, he, ho⟩ := hnest a rfl
      have hpa : a.pool ≠ p := fun hpa => ho (by rw [hp, hpa])
      have : ({ s with freeChunks := rest }.got t ((s.thr t).setFree p xs) x (some a)).thr t =
          { (s.thr t).setFree p xs with pc := .submit a x } := setThr_thr_self ..
      rw [this]
      refine ⟨⟨p, hp, ?_⟩, hm, ?_, ho⟩
      · simpa using Nat.lt_of_succ_le hsize
      · simpa [hpa] using he

/-- A local state that differs from a thread's in its blocks only. -/
structure SameLists (c c' : Local) : Prop where
  pc : c'.pc = c.pc
  pools : ∀ q, (c'.pools q).curFree = (c.pools q).curFree
  localPool : c'.localPool = c.localPool
  npools : c'.npools = c.npools
  atexit : c'.atexit = c.atexit
  itemCount : c'.itemCount = c.itemCount

theorem SameLists.base (h : SameLists c c') (hb : LocalBase g c) : LocalBase g c' := by
  refine ⟨fun q => by rw [h.pools]; exact hb.length q, fun q hq => ?_, ?_, ?_⟩
  · rw [h.pools]; exact hb.fresh q (h.npools ▸ hq)
  · rw [h.localPool, h.npools]; exact hb.localPool
  · rw [h.atexit, h.npools]; exact hb.atexit

theorem SameLists.setBlock (c : Local) (p n : Nat) (b : Option Nat) :
    SameLists c { c.setPool p { c.pools p with curBlock := b } with nblocks := n } := by
  refine ⟨rfl, fun q => ?_, rfl, rfl, rfl, rfl⟩
  by_cases hq : q = p
  · subst hq; simp [Local.setPool]
  · simp [Local.setPool, hq]

theorem Inv.gotNull {nest : Option After} (h : Inv g s) (hpc : (s.thr t).pc = .build nest) (hc : SameLists (s.thr t) c)
    (hs : s.gotNull t c nest = some s') : Inv g s' := by
  cases nest with
  | some a => cases hs
  | none =>
    cases hs
    refine h.of_base ?_ (fun u hu => setThr_thr_of_ne hu) (by rw [setThr_thr_self]; trivial)
    exact h.toBase.setThr rfl hc.pools hc.itemCount (by rw [hpc]; rfl) (hc.base (h.thr t)).setPc

theorem Inv.construct {nest : Option After} {b : Nat} {valid : Bool} (h : Inv g s) (hpc : (s.thr t).pc = .build nest)
    (hc : SameLists (s.thr t) c) (hs : construct s t c b nest valid = some s') : Inv g s' := by
  unfold Pool.construct at hs
  split at hs
  · cases hs
    have hget := h.pc t
    rw [hpc] at hget
    obtain ⟨⟨p, hp, hempty⟩, hnest⟩ := hget
    have hb : LocalBase g { c with itemCount := Function.update c.itemCount b (c.itemCount b + 1) } := by
      have := hc.base (h.thr t)
      exact ⟨this.length, this.fresh, this.localPool, this.atexit⟩
    refine h.of_base ?_ (fun u hu => got_thr_of_ne hu) ?_
    · cases nest with
      | none =>
        refine h.toBase.construct (b := b) (p := p) (x := ⟨t, b, c.itemCount b⟩) rfl (by rw [hc.itemCount]) rfl
          (by rw [← hc.itemCount]) hc.pools ?_
          rfl rfl rfl rfl hb.setPc
        rw [List.perm_iff_count]
        intro y
        simp [around, State.got, State.setThr, hpc, hc.pools, List.count_cons]
      | some a =>
        refine h.toBase.construct (b := b) (p := p) (x := ⟨t, b, c.itemCount b⟩) rfl (by rw [hc.itemCount]) rfl
          (by rw [← hc.itemCount]) hc.pools ?_
          rfl rfl rfl rfl hb.setPc
        rw [List.perm_iff_count]
        intro y
        simp [around, State.got, State.setThr, hpc, hc.pools, List.count_cons]
        omega
    · cases nest with
      | none => simp [State.got, State.setThr, PcOk]
      | some a =>
        obtain ⟨hm, he, ho⟩ := hnest a rfl
        rw [State.got, setThr_thr_self]
        refine ⟨⟨p, hc.localPool.trans hp, ?_⟩, ?_, ?_, ?_⟩
        · have : ((c.pools p).curFree).length = 0 := by rw [hc.pools, hempty]; rfl
          rw [this]
          exact g.freeChunkItemCount_pos
        · exact hc.npools ▸ hm
        · exact (hc.pools _).trans he
        · exact fun hl => ho (hc.localPool ▸ hl)
  · exact h.gotNull hpc hc hs

/-- The end of `submit_contention`, whose object is kept or given back. -/
theorem Inv.submit {a : After} {x : Obj} {i : Input} (h : Inv g s) (hpc : (s.thr t).pc = .submit a x)
    (hs : advance g s t i = some s') : Inv g s' := by
  have hok := h.pc t
  rw [hpc] at hok
  obtain ⟨⟨q, hq, hlen⟩, hn⟩ := hok
  simp only [advance, hpc, hq, if_pos hlen] at hs
  have hqn := (h.thr t).localPool q hq
  have hqa : q ≠ a.pool := fun hqa => hn.other (by rw [hq, hqa])
  have hempty := hn.empty
  split at hs
  · cases hs
    have hlen' : (x :: ((s.thr t).pools q).curFree).length ≤ g.freeChunkItemCount := hlen
    have h1 : Base g (s.setThr t
        { (s.thr t).setFree q (x :: ((s.thr t).pools q).curFree) with pc := .push a }) := by
      refine h.toBase.move _ (p := q) rfl rfl rfl (fun r hr => by simp [hr]) ?_ h.chunks h.failed h.underflow
        ((h.thr t).setFree hqn hlen').setPc
      rw [List.perm_iff_count]
      intro y
      simp [around, State.setThr, hpc, List.count_cons]
      omega
    have hfin := h1.finish (a := a) (setThr_thr_self ..) rfl (by simpa [hqa.symm] using hempty) hn.made
    refine h.of_base ?_ (fun u hu => (finish_thr_of_ne hu).trans (setThr_thr_of_ne hu)) (by rw [finish_pc]; trivial)
    convert hfin using 1
    cases a <;> simp [State.finish, State.putBack, State.setThr, Local.setFree, Local.setPool]
  · cases hs
    have h1 : Base g ({ s with live := x :: s.live }.setThr t { s.thr t with pc := .push a }) := by
      refine h.toBase.move _ (p := q) rfl rfl rfl (fun r hr => rfl) ?_ h.chunks h.failed h.underflow (h.thr t).setPc
      rw [List.perm_iff_count]
      intro y
      simp [around, State.setThr, hpc, List.count_cons]
      omega
    have hfin := h1.finish (a := a) (setThr_thr_self ..) rfl hempty hn.made
    refine h.of_base ?_ (fun u hu => finish_thr_of_ne (a := a) hu) ?_
    · convert hfin using 1
      cases a <;> simp [State.finish, State.setThr, Local.setFree, Local.setPool]
    · have : ({ s.finish t (s.thr t) a with live := x :: s.live } : State).thr t = (s.finish t (s.thr t) a).thr t := rfl
      rw [this, finish_pc]
      trivial

theorem Inv.advance {i : Input} (h : Inv g s) (hok : NoReentry s (.go t i)) (hs : advance g s t i = some s') :
    Inv g s' := by
  have hp := h.pc t
  cases hpc : (s.thr t).pc with
  | idle => simp only [Pool.advance, hpc] at hs; cases hs
  | popTest nest =>
    rw [hpc] at hp
    simp only [Pool.advance, hpc] at hs
    cases hs
    refine h.of_base (h.toBase.setThr rfl (fun _ => rfl) rfl ?_ (h.thr t).setPc) (fun u hu => setThr_thr_of_ne hu) ?_
    · rw [hpc]; dsimp only; split <;> rfl
    · rw [setThr_thr_self]; dsimp only; split <;> exact GetOk.setPc hp _
  | pop nest =>
    rw [hpc] at hp
    simp only [Pool.advance, hpc] at hs
    split at hs
    · cases hs
    · cases hs
      refine h.of_base (h.toBase.setThr rfl (fun _ => rfl) rfl (by rw [hpc]; rfl) (h.thr t).setPc)
        (fun u hu => setThr_thr_of_ne hu) ?_
      rw [setThr_thr_self]
      exact GetOk.setPc hp _
    · rename_i p rest hlp hf
      exact absurd rfl (h.chunks [] (by rw [hf]; exact List.mem_cons_self)).1
    · rename_i p x xs rest hlp hf
      cases hs
      exact h.popChunk hpc hlp hf
  | build nest =>
    simp only [Pool.advance, hpc] at hs
    split at hs
    · cases hs
    rename_i p hlp
    split at hs
    · split at hs
      · exact h.construct hpc ⟨rfl, fun _ => rfl, rfl, rfl, rfl, rfl⟩ hs
      split at hs
      · exact h.construct hpc (SameLists.setBlock _ p _ _) hs
      · exact h.gotNull hpc (SameLists.setBlock _ p _ _) hs
    · split at hs
      · exact h.construct hpc (SameLists.setBlock _ p _ _) hs
      · exact h.gotNull hpc (SameLists.setBlock _ p _ _) hs
  | push a =>
    simp only [NoReentry, hpc] at hok
    simp only [Pool.advance, hpc] at hs
    cases hs
    exact h.push hpc hok
  | submit a x => exact h.submit hpc hs

/-- **Every step keeps every object in one place.** -/
theorem inv_step {l : Label} (h : Inv g s) (hok : NoReentry s l) (hs : step g s l = some s') : Inv g s' := by
  cases l with
  | get t => exact h.get hs
  | ret t x malloc => exact h.returnObject hs
  | clear t malloc => exact h.clearObjects hs
  | exit t malloc => exact h.threadExit hs
  | go t i => exact h.advance hok hs

theorem inv_initState : Inv g initState := by
  have hnone : ∀ k, content initState k = [] := by intro k; cases k <;> rfl
  refine ⟨⟨⟨fun k => by rw [hnone]; exact List.nodup_nil, fun a b x hx => ?_⟩, fun x => ⟨nofun, ?_⟩, nofun,
    fun _ => rfl, rfl, fun t => ⟨fun p => Nat.zero_le _, fun _ _ => rfl, nofun, nofun⟩⟩, fun t => trivial⟩
  · rw [hnone] at hx; cases hx
  · rintro ⟨a, hx⟩
    rw [hnone] at hx
    cases hx

theorem inv_reachable (h : (system g).ReachableVia NoReentry s) : Inv g s := by
  refine System.ReachableVia.invariant (I := Inv g) (fun s hs => ?_) (fun s l s' hi hok hst => ?_) h
  · cases hs
    exact inv_initState
  · exact inv_step hi hok hst

/-! ## Mutexes without callbacks -/

/-- The unlock of `free_chunks_mutex_` does nothing else. -/
def Quiet (_ : State) : Label → Prop
  | .go _ i => i.hook = false
  | _       => True

theorem noReentry_of_quiet {l : Label} (h : Quiet s l) : NoReentry s l := by
  cases l with
  | go t i =>
    have hh : i.hook = false := h
    cases hpc : (s.thr t).pc with
    | push a => simp only [NoReentry, hpc, hh]; exact nofun
    | _ => simp only [NoReentry, hpc]
  | _ => trivial

/-- In the free list of a local pool or in a chunk. -/
def Free (s : State) (x : Obj) : Prop := (∃ t p, x ∈ ((s.thr t).pools p).curFree) ∨ ∃ l ∈ s.freeChunks, x ∈ l

theorem placed_iff (s : State) (x : Obj) : Placed (content s) x ↔ Live s x ∨ Free s x ∨ x ∈ s.lost := by
  constructor
  · rintro ⟨k, hx⟩
    cases k with
    | live => exact .inl (.inl hx)
    | lost => exact .inr (.inr hx)
    | chunks => exact .inr (.inl (.inr (List.mem_flatten.1 hx)))
    | held t => exact .inl (.inr ⟨t, hx⟩)
    | free t p => exact .inr (.inl (.inl ⟨t, p, hx⟩))
  · rintro ((hx | ⟨t, hx⟩) | (⟨t, p, hx⟩ | hx) | hx)
    · exact ⟨.live, hx⟩
    · exact ⟨.held t, hx⟩
    · exact ⟨.free t p, hx⟩
    · exact ⟨.chunks, List.mem_flatten.2 hx⟩
    · exact ⟨.lost, hx⟩

/-- **Every constructed object is in exactly one place**, and is not handed out while it is still out; chunks and lists
keep their bounds; without a failing `malloc` the objects constructed are those handed out and those free. -/
theorem pool_partition (h : (system g).ReachableVia Quiet s) :
    (∀ x, Built s x ↔ ∃ k, x ∈ content s k) ∧
    (∀ x k k', x ∈ content s k → x ∈ content s k' → k = k') ∧ (∀ k, (content s k).Nodup) ∧
    (∀ l s' x, Quiet s l → step g s l = some s' → s'.live = x :: s.live → x ∉ s.live) ∧
    (∀ l ∈ s.freeChunks, 1 ≤ l.length ∧ l.length ≤ g.freeChunkItemCount) ∧
    (∀ t p, ((s.thr t).pools p).curFree.length ≤ g.freeChunkItemCount) ∧ s.underflow = false ∧
    (s.failed = false → ∀ x, Built s x ↔ Live s x ∨ Free s x) := by
  have hi := inv_reachable (h.mono (fun _ _ hq => noReentry_of_quiet hq))
  refine ⟨hi.built, fun x k k' => hi.places.unique k k' x, hi.places.nodup, fun l s' x hq hs hl => ?_, fun l hl => ?_,
    fun t p => (hi.thr t).length p, hi.underflow, fun hf x => ?_⟩
  · have hnd : s'.live.Nodup := (inv_step hi (noReentry_of_quiet hq) hs).places.nodup .live
    rw [hl] at hnd
    exact (List.nodup_cons.1 hnd).1
  · exact ⟨List.length_pos_of_ne_nil (hi.chunks l hl).1, (hi.chunks l hl).2⟩
  · rw [hi.built, placed_iff, hi.failed hf]
    simp

/-- `free_chunk_item_count()` and `BLOCK_ITEM_COUNT` of a pool of `SampledContention`. -/
def sampledContentionConfig : Config := ⟨256, 256, by decide, by decide⟩

/-- Two threads; an object travels from one to the other through a chunk, and a push fails. -/
def quietRun : List Label :=
  [.get 1, .go 1 ⟨false, true, true, false⟩, .go 1 ⟨false, true, true, false⟩,
    .get 1, .go 1 ⟨false, true, true, false⟩, .go 1 ⟨false, true, true, false⟩,
    .ret 1 ⟨1, 0, 0⟩ true, .clear 1 true, .go 1 ⟨false, true, true, false⟩,
    .get 2, .go 2 ⟨false, true, true, false⟩, .go 2 ⟨false, true, true, false⟩,
    .ret 2 ⟨1, 0, 1⟩ true, .exit 2 false]

theorem pool_partition_quietRun : ∃ s, (system sampledContentionConfig).ReachableVia Quiet s ∧
    s.live = [⟨1, 0, 0⟩] ∧ s.lost = [⟨1, 0, 1⟩] ∧ (∀ x, Built s x ↔ ∃ k, x ∈ content s k) ∧
    (∀ x k k', x ∈ content s k → x ∈ content s k' → k = k') := by
  have hrun : ((system sampledContentionConfig).run initState quietRun).map (fun s => (s.live, s.lost)) =
      some ([⟨1, 0, 0⟩], [⟨1, 0, 1⟩]) := by decide
  have hok : System.RunOk (system sampledContentionConfig) Quiet initState quietRun := by
    unfold quietRun
    simp only [System.RunOk, Quiet, implies_true, and_true]
  obtain ⟨s, hs, hx⟩ := Option.map_eq_some_iff.1 hrun
  have hreach := System.ReachableVia.run (.init rfl) quietRun hok hs
  have h := pool_partition hreach
  exact ⟨s, hreach, (Prod.mk.inj hx).1, (Prod.mk.inj hx).2, h.1, h.2.1⟩

end Pool
end ContentionProf
