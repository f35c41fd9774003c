import ContentionProf.SamplesCalls
/-!
# SamplesOwner — one place for every object handed out

In every run an object that the pool has handed out is in one place of the collector, every list of the collector is one
ring of its objects, and an object on no list is linked to nothing, in the pool or outside it.
-/
namespace ContentionProf
namespace Samples

variable {c : Config} {s s' : State} {m : Place → List Obj} {x : Obj} {k j : Place}

/-! ## Every run keeps the places -/

theorem inv_init (h : (system c).init s) : Inv c s (fun _ => []) := by
  obtain ⟨hroot, hlocal, hpool, hsessions, hmtx, hglobal, hagents, hcombiner, hpc, hgrab, hmap, -, -, -, hdump, hprof,
    hsets, hgets, hreturns⟩ := h
  refine ⟨⟨fun k => ?_, ⟨fun _ => List.nodup_nil, fun k _ x hx => by cases hx⟩, fun x => ?_, fun x hb => ?_⟩, ?_, ?_,
    ?_,
    ?_, ?_, ?_, ?_, ?_⟩
  · cases k <;> simp only [holder, hglobal, hagents, hpc, hgrab, hmap, hdump, hsessions, hprof, hsets] <;>
      first | exact ⟨rfl, fun _ hx => by cases hx⟩ | rfl | exact Links.ring_nil.2 (by assumption)
  · rw [hpool]
    refine iff_of_false (fun hx => by cases hx) ?_
    rintro ⟨_, hx⟩
    cases hx
  · rw [hpool] at hb
    exact absurd hb (Nat.not_lt_zero _)
  · rw [hpool]; exact Pool.inv_initState
  · rw [hpool]; exact fun _ => trivial
  · rw [hpool]; exact fun t ht => by cases ht
  · rw [hsessions]; exact Sessions.inv_init
  · refine ⟨by rw [hagents]; exact List.nodup_nil, fun t => by rw [hpc]; trivial, fun t ht => ?_, fun t ht => ?_,
      fun t ht => ?_, fun hg => ?_, by rw [hpc]; rfl⟩
    · rw [hcombiner] at ht; cases ht
    · rw [hagents] at ht; cases ht
    · rw [hpc] at ht; cases ht
    · rw [hgrab] at hg; cases hg
  · rw [hmap, hgrab, hdump]
    exact ⟨List.Pairwise.nil, fun _ => rfl, fun p hp => (by cases hp), fun p hp => (by cases hp)⟩
  · rw [hsessions, hprof, hsets, hdump]
    exact ⟨fun _ _ => rfl, fun hd => (by cases hd), fun t ht => absurd rfl ht, fun p l hl => (by cases hl),
      fun _ _ => rfl⟩
  · rw [hpool, hgets, hreturns]
    exact ⟨fun _ => rfl, fun x hx => by cases hx⟩

/-- **Every step rearranges the objects of a few places.** -/
theorem inv_step {a : Label} (h : Inv c s m) (hs : step c s a = some s') : ∃ m', Inv c s' m' := by
  have guard : ∀ {b : Bool} {o : Option State}, (if b then o else none) = some s' → b = true ∧ o = some s' := by
    intro b o hs
    cases b with
    | true => exact ⟨rfl, hs⟩
    | false => cases hs
  cases a with
  | contend t => exact h.contend (guard hs).1 (guard hs).2
  | pool t addBlock valid => exact h.poolGo rfl hs
  | submit t late malloc => exact h.submit (guard hs).2
  | worker t => exact h.worker (guard hs).2
  | exit t =>
    obtain ⟨hf, hs⟩ := guard hs
    cases hs
    rw [Bool.and_eq_true] at hf
    exact ⟨m, h.exit hf.1 hf.2⟩
  | poolExit t malloc =>
    obtain ⟨p, hp, rfl⟩ := Option.map_eq_some_iff.1 (guard hs).2
    exact ⟨m, h.poolExit hp⟩
  | grab malloc => exact h.grab (guard hs).2
  | dump => exact h.dump (guard hs).2
  | start t => exact ⟨m, h.enter (a := .start t) (q := .start) rfl rfl rfl (guard hs).2⟩
  | stop t => exact ⟨m, h.enter (a := .stop t) (q := .stop) rfl rfl rfl (guard hs).2⟩
  | session t malloc => exact h.session (guard hs).2
  | profiler t order malloc => exact h.profiler (guard hs).2

theorem Reachable.inv (h : (system c).Reachable s) : ∃ m, Inv c s m :=
  h.invariant (I := fun s => ∃ m, Inv c s m) (fun _ h0 => ⟨_, inv_init h0⟩) (fun _ _ _ ⟨_, hi⟩ _ hs => inv_step hi hs)

/-! ## Where an object is, read from the links -/

/-- The node that a pointer or a root of the code leads to. -/
def Holder.start : Holder → Option Node
  | .flat _  => none
  | .list a  => a.map .obj
  | .root r  => some (.root r)

/-- **An object is at a place**: in a hand, a vector or a set, or where `next` leads to from the place's pointer. -/
def At (c : Config) (s : State) (k : Place) (x : Obj) : Prop :=
  match holder c s k with
  | .flat l => x ∈ l
  | H       => ∃ a, H.start = some a ∧ ∃ n, s.links.next^[n] a = .obj x

/-- Given back, or never handed out. -/
def InPool (s : State) (x : Obj) : Prop := ∃ k, k ≠ Pool.Place.live ∧ x ∈ Pool.content s.pool k

/-- **What a pointer or a root leads to is one ring**, of the objects of the place and the root. -/
theorem ring_of_holds {h : Links Node} {H : Holder} {l : List Obj} {a : Node} (hh : Holds h H l)
    (ha : H.start = some a) : ∃ r, h.Ring a r ∧ (∀ x, Node.obj x ∈ a :: r ↔ x ∈ l) ∧ ∀ n ∈ r, ∃ x, n = .obj x := by
  have objs : ∀ {l : List Obj}, ∀ n ∈ l.map Node.obj, ∃ x, n = .obj x := by
    intro l n hn
    obtain ⟨x, -, rfl⟩ := List.mem_map.1 hn
    exact ⟨x, rfl⟩
  match H, hh with
  | .flat _, _ => cases ha
  | .list none, _ => cases ha
  | .list (some b), ⟨as, hl, hr⟩ =>
    cases ha
    subst hl
    exact ⟨_, hr, fun x => mem_map_obj (l := b :: as), objs⟩
  | .root r, hr =>
    cases ha
    refine ⟨_, hr, fun x => ?_, objs⟩
    rw [List.mem_cons, mem_map_obj]
    exact or_iff_right (fun he => by cases he)

theorem Inv.at_iff (h : Inv c s m) : At c s k x ↔ x ∈ m k := by
  have ring : ∀ {H : Holder}, Holds s.links H (m k) → (∀ l, H ≠ .flat l) →
      ((∃ a, H.start = some a ∧ ∃ n, s.links.next^[n] a = .obj x) ↔ x ∈ m k) := by
    intro H hh hf
    cases hs : H.start with
    | none =>
      match H, hh with
      | .flat l, _ => exact absurd rfl (hf l)
      | .list none, hh =>
        have hh : m k = [] := hh
        rw [hh]
        refine iff_of_false ?_ (fun hx => by cases hx)
        rintro ⟨_, ha, _⟩
        cases ha
    | some a =>
      obtain ⟨r, hr, hmem, -⟩ := ring_of_holds hh hs
      rw [← hmem, hr.mem_iff]
      constructor
      · rintro ⟨b, hb, hn⟩
        cases hb
        exact hn
      · exact fun hn => ⟨a, rfl, hn⟩
  have hh := h.place.holds k
  unfold At
  cases hk : holder c s k with
  | flat l =>
    rw [hk] at hh
    rw [hh.1]
  | list a => exact ring (hk ▸ hh) (fun l => by simp)
  | root r => exact ring (hk ▸ hh) (fun l => by simp)

theorem Inv.inPool_iff (h : Inv c s m) (hb : Pool.Built s.pool x) : InPool s x ↔ x ∉ s.pool.live := by
  constructor
  · rintro ⟨k, hk, hx⟩ hl
    exact hk (h.pool.places.unique k .live x hx hl)
  · intro hl
    obtain ⟨k, hk⟩ := (h.pool.built x).1 hb
    refine ⟨k, ?_, hk⟩
    rintro rfl
    exact hl hk

/-- An object on no list is linked to nothing: in the pool, or in a hand, a vector or a set. -/
theorem Inv.selfLinked (h : Inv c s m) (hb : Pool.Built s.pool x)
    (hx : ∀ k, (holder c s k).start ≠ none → ¬ At c s k x) : s.links.SelfLinked (.obj x) := by
  by_cases hl : x ∈ s.pool.live
  · obtain ⟨k, hk⟩ := (h.place.live x).1 hl
    have hat := h.at_iff.2 hk
    cases hh : holder c s k with
    | flat l => exact h.place.selfLinked hh (h.place.flat hh ▸ hk)
    | root r => exact absurd hat (hx k (by rw [hh]; simp [Holder.start]))
    | list a =>
      refine absurd hat (hx k (fun hs => ?_))
      simp only [At, hh, hh ▸ hs] at hat
      obtain ⟨b, hb, -⟩ := hat
      cases hb
  · exact h.place.pooled x hb hl

/-- **One place for every object**: what was obtained from the pool is in the pool again, given back as often as it was
obtained, and nowhere else; or it is in exactly one place outside and was given back once less.  What each pointer and
root leads to is one ring, `next` and `previous` are inverse on it, it has no other root on it and exactly the objects
of its place.  An object that is on none of them is linked to itself. -/
theorem one_place (h : (system c).Reachable s) :
    (∀ x ∈ s.gets,
      InPool s x ∧ (∀ k, ¬ At c s k x) ∧ s.gets.count x = s.returns.count x ∨
      ¬ InPool s x ∧ (∃ k, At c s k x ∧ ∀ j, At c s j x → j = k) ∧ s.gets.count x = s.returns.count x + 1) ∧
    (∀ k a, (holder c s k).start = some a → ∃ r, s.links.Ring a r ∧ (∀ x, At c s k x ↔ .obj x ∈ a :: r) ∧
      (∀ n ∈ r, ∃ x, n = .obj x) ∧
      ∀ n ∈ a :: r, s.links.next (s.links.previous n) = n ∧ s.links.previous (s.links.next n) = n) ∧
    ∀ x, Pool.Built s.pool x → (∀ k, (holder c s k).start ≠ none → ¬ At c s k x) → s.links.SelfLinked (.obj x) := by
  obtain ⟨m, hi⟩ := Reachable.inv h
  refine ⟨fun x hx => ?_, fun k a ha => ?_, fun x => hi.selfLinked⟩
  · have hcount := hi.tally.counts x
    rw [hi.inPool_iff (hi.tally.built x hx), not_not]
    by_cases hl : x ∈ s.pool.live
    · obtain ⟨k, hk⟩ := (hi.place.live x).1 hl
      rw [List.count_eq_one_of_mem hi.nodup_live hl] at hcount
      exact .inr ⟨hl, ⟨k, hi.at_iff.2 hk, fun j hj => hi.place.places.unique j k x (hi.at_iff.1 hj) hk⟩, hcount⟩
    · rw [List.count_eq_zero_of_not_mem hl] at hcount
      exact .inl ⟨hl, fun k hk => hl ((hi.place.live x).2 ⟨k, hi.at_iff.1 hk⟩), hcount⟩
  · obtain ⟨r, hr, hmem, hobj⟩ := ring_of_holds (hi.place.holds k) ha
    exact ⟨r, hr, fun x => hi.at_iff.trans (hmem x).symm, hobj, fun n hn => ⟨(hr.inverse hn).1, (hr.inverse hn).2.1⟩⟩

/-! ## The containers of the code -/

/-- What the code has to hold objects in, each with all that stands in it. -/
inductive Container
  | submitter (t : Thread)
  | agent (t : Thread)
  | globalResult
  | grabLists
  | prepMap
  | dumpRoot
  | dumpList
  | hashSet (p : Sessions.Prof)
  | pool

/-- **The object stands in the container**, whether or not the loop over it has handled the object. -/
def Contains (c : Config) (s : State) : Container → Obj → Prop
  | .submitter t, x  => At c s (.submitter t) x
  | .agent t, x      => At c s (.agent t) x
  | .globalResult, x => At c s .globalResult x
  | .grabLists, x    => At c s .tmp x ∨ At c s .prev x ∨ At c s .tmpRoot x ∨ At c s .root x ∨ At c s .head x
  | .prepMap, x      => x ∈ s.prepMap.flatMap Prod.snd
  | .dumpRoot, x     => At c s .dumpRoot x
  | .dumpList, x     => At c s .newHead x ∨ At c s .dumpLocal x
  | .hashSet p, x    => x ∈ (s.sets p).members
  | .pool, x         => InPool s x

/-- In the dump thread's hand an object is in no container. -/
theorem Inv.not_contains (h : Inv c s m) (hx : At c s .hand x)
    (hmap : s.prepMap.flatMap Prod.snd = []) (hinst : s.sessions.installed = []) (b : Container) :
    ¬ Contains c s b x := by
  have hxk := h.at_iff.1 hx
  have hl : x ∈ s.pool.live := (h.place.live x).2 ⟨.hand, hxk⟩
  have other : ∀ j, j ≠ .hand → ¬ At c s j x := fun j hne hj =>
    hne (h.place.places.unique j .hand x (h.at_iff.1 hj) hxk)
  cases b with
  | prepMap => intro hb; rw [Contains, hmap] at hb; cases hb
  | hashSet p =>
    intro hb
    rw [Contains, h.calls.fresh p (by rw [hinst]; exact List.not_mem_nil)] at hb
    cases hb
  | pool =>
    rintro ⟨j, hj, hb⟩
    exact hj (h.pool.places.unique j .live x hb hl)
  | grabLists => rintro (hb | hb | hb | hb | hb) <;> exact other _ (by simp) hb
  | dumpList => rintro (hb | hb) <;> exact other _ (by simp) hb
  | submitter t => exact other (.submitter t) (by simp)
  | agent t => exact other (.agent t) (by simp)
  | globalResult => exact other .globalResult (by simp)
  | dumpRoot => exact other .dumpRoot (by simp)

/-- Two threads of the collector, and one preprocessor. -/
def collectorConfig : Config := ⟨Pool.sampledContentionConfig, 1000, fun _ => 0, 8, 9⟩

def startState : State where
  links := ⟨id, id⟩
  pool := Pool.initState
  sessions := Sessions.initState Obj
  mtx := none
  globalResult := none
  agents := []
  element := fun _ => none
  combiner := fun _ => false
  pc := fun _ => .idle
  grab := .clear
  prepMap := []
  grabCount := 0
  dropCount := 0
  dumpCount := 0
  dump := .wait
  prof := fun _ => .none
  sets := fun _ => ⟨[], none⟩
  gets := []
  returns := []

theorem startState_init : (system collectorConfig).init startState :=
  ⟨⟨rfl, rfl⟩, ⟨rfl, rfl⟩, rfl, rfl, rfl, rfl, rfl, rfl, rfl, rfl, rfl, rfl, rfl, rfl, rfl, rfl, rfl, rfl, rfl⟩

/-- The first object of thread 0. -/
def firstObj : Obj := ⟨0, 0, 0⟩

def getRun : List Label := [.contend 0, .pool 0 true true, .pool 0 true true]

/-- The object is submitted, and the grab thread has kept it. -/
def keptRun : List Label :=
  getRun ++ [Label.submit 0 false true, Label.worker 0, Label.worker 0] ++ List.replicate 10 (Label.grab true)

/-- It is published, the next round has begun, and the dump thread has unlinked it. -/
def handRun : List Label := keptRun ++ List.replicate 6 (Label.grab true) ++ List.replicate 3 Label.dump

/-- A profiler is started, gets it and is stopped, and its destructor has destroyed it. -/
def flushRun : List Label :=
  [Label.start 1] ++ List.replicate 7 (Label.session 1 true) ++ handRun ++ [Label.dump] ++
    List.replicate 4 (Label.session 9 true) ++ List.replicate 2 (Label.profiler 9 [] true) ++
    List.replicate 2 (Label.session 9 true) ++ [Label.stop 2] ++ List.replicate 7 (Label.session 2 true) ++
    List.replicate 2 (Label.profiler 2 [firstObj] true)

theorem keptRun_ends : ((system collectorConfig).run startState keptRun).map (fun s =>
    (s.gets, s.prepMap, s.grab.filling, s.links.next (.root .root))) =
    some ([firstObj], [(0, [firstObj])], true, .obj firstObj) := by decide

theorem handRun_ends : ((system collectorConfig).run startState handRun).map (fun s =>
    (s.gets, s.prepMap, s.dump.held, s.sessions.installed)) = some ([firstObj], [(0, [])], [firstObj], []) := by
  decide

theorem flushRun_ends : ((system collectorConfig).run startState flushRun).map (fun s =>
    (s.gets, (s.sets 0).members, ((s.pool.thr 2).pools 0).curFree, s.returns)) =
    some ([firstObj], [firstObj], [firstObj], [firstObj]) := by decide

theorem run_reachable {as : List Label} (hr : (system collectorConfig).run startState as = some s) :
    (system collectorConfig).Reachable s := System.Reachable.run (.init startState_init) as hr

/-- **The containers of the code do not part the objects**: an entry of a vector stays when its object goes on the grab
thread's list, and one of a set stays when its object is back in the pool; an object in the dump thread's hand is in no
container. -/
theorem containers_overlap :
    (∃ s x, (system collectorConfig).Reachable s ∧ x ∈ s.gets ∧ Contains collectorConfig s .prepMap x ∧
      Contains collectorConfig s .grabLists x) ∧
    (∃ s x p, (system collectorConfig).Reachable s ∧ x ∈ s.gets ∧ Contains collectorConfig s (.hashSet p) x ∧
      Contains collectorConfig s .pool x) ∧
    ∃ s x, (system collectorConfig).Reachable s ∧ x ∈ s.gets ∧ At collectorConfig s .hand x ∧
      ∀ b, ¬ Contains collectorConfig s b x := by
  refine ⟨?_, ?_, ?_⟩
  · obtain ⟨s, hr, he⟩ := Option.map_eq_some_iff.1 keptRun_ends
    simp only [Prod.mk.injEq] at he
    obtain ⟨hgets, hmap, hfill, hnext⟩ := he
    refine ⟨s, firstObj, run_reachable hr, by rw [hgets]; exact List.mem_cons_self, ?_, .inr (.inr (.inr (.inl ?_)))⟩
    · rw [Contains, hmap]; exact List.mem_cons_self
    · simp only [At, holder, hfill, if_true]
      exact ⟨_, rfl, 1, hnext⟩
  · obtain ⟨s, hr, he⟩ := Option.map_eq_some_iff.1 flushRun_ends
    simp only [Prod.mk.injEq] at he
    obtain ⟨hgets, hset, hfree, -⟩ := he
    refine ⟨s, firstObj, 0, run_reachable hr, by rw [hgets]; exact List.mem_cons_self, ?_, .free 2 0, by simp, ?_⟩
    · rw [Contains, hset]; exact List.mem_cons_self
    · rw [Pool.content, hfree]; exact List.mem_cons_self
  · obtain ⟨s, hr, he⟩ := Option.map_eq_some_iff.1 handRun_ends
    simp only [Prod.mk.injEq] at he
    obtain ⟨hgets, hmap, hheld, hinst⟩ := he
    obtain ⟨m, hi⟩ := Reachable.inv (run_reachable hr)
    have hat : At collectorConfig s .hand firstObj :=
      List.mem_append_left _ (by rw [hheld]; exact List.mem_cons_self)
    exact ⟨s, firstObj, run_reachable hr, by rw [hgets]; exact List.mem_cons_self, hat,
      hi.not_contains hat (by rw [hmap]; rfl) hinst⟩

/-- Back in the pool after the flush, the object is linked to nothing and in no place. -/
theorem one_place_flushRun : ∃ s, (system collectorConfig).run startState flushRun = some s ∧
    InPool s firstObj ∧ (∀ k, ¬ At collectorConfig s k firstObj) ∧ s.returns = [firstObj] := by
  obtain ⟨s, hr, he⟩ := Option.map_eq_some_iff.1 flushRun_ends
  simp only [Prod.mk.injEq] at he
  obtain ⟨hgets, -, hfree, hreturns⟩ := he
  have hin : InPool s firstObj := ⟨.free 2 0, by simp, by rw [Pool.content, hfree]; exact List.mem_cons_self⟩
  obtain ⟨hplace, -, -⟩ := one_place (run_reachable hr)
  refine ⟨s, hr, hin, ?_, hreturns⟩
  rcases hplace firstObj (by rw [hgets]; exact List.mem_cons_self) with ⟨-, hk, -⟩ | ⟨hno, -⟩
  · exact hk
  · exact absurd hin hno

end Samples
end ContentionProf
