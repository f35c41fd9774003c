import ContentionProf.CombinerRelock
/-!
# CombinerLists — the lists behind the pointers of the combiner

Where a list of samples may be, which pointer leads to it, and the invariant that a run keeps: the pointers lead to
lists that have no sample in common, and these hold every sample that was not dropped, each thread's in order.
-/
namespace ContentionProf
namespace CombinerHook

open Combiner (of)
open Hook (Mem owners Single)

variable {α : Type} {L : Layout} {s s' : State α} {t u : Thread} {m : Addr} {i : Input α} {busy : Bool} {x : Nat}

/-- What a reset under way has: what it has combined, and what it has exchanged last. -/
def Main.hand : Main → Pointer × Pointer
  | .walk _ tmp                 => (tmp, none)
  | .exchangeLock _ tmp _ _     => (tmp, none)
  | .exchangeUnlock _ tmp prev _ => (tmp, prev)
  | .combine _ tmp prev         => (tmp, prev)
  | .resetUnlock tmp            => (tmp, none)
  | _                           => (none, none)

def Sub.sample : Sub → Pointer
  | .submit x     => some x
  | .append x     => some x
  | .modifyLock x => some x
  | _             => .none

/-- The sample of a submission that was not dropped. -/
def Sub.pending : Sub → List Nat
  | .append x     => [x]
  | .modifyLock x => [x]
  | _             => []

def inHand (L : Layout) (s : State α) : Pointer × Pointer :=
  match owners s.mem L.mtx with
  | some t => (s.main t).hand
  | none   => (none, none)

/-- What the resets returned, what one has taken so far, the global result and the listed agents: all the lists that
these pointers lead to. -/
def total (L : Layout) (s : State α) : List Nat :=
  (s.results ++ [(inHand L s).1, (inHand L s).2, s.globalResult] ++ s.agents.map s.element).flatMap
    (s.links.toList s.fresh)

/-- The exit has read a null pointer from the agent, or the agent has left the list and its `combiner` is not yet
cleared. -/
def Main.committed : Main → Bool
  | .erase val    => val.isNone
  | .commitUnlock => true
  | .clear        => true
  | _             => false

/-- **A submission that is not dropped interrupts its thread's exit neither after `load` has read null nor after the
agent has left the list.** -/
def NotCommitted (s : State α) : Label α → Prop
  | .go t i => (s.sub t).isSubmit = true → i.late = false → (s.main t).committed = false
  | _       => True

instance (s : State α) : ∀ a, Decidable (NotCommitted s a)
  | .go _ _      => inferInstanceAs (Decidable (_ → _ → _))
  | .contend _ _ => .isTrue trivial
  | .reset _     => .isTrue trivial
  | .exit _      => .isTrue trivial

/-! ## The invariant -/

def Main.unlinked : Main → Bool
  | .commitUnlock => true
  | .clear        => true
  | _             => false

/-- The exit has not yet taken the agent out of the list. -/
def Main.exiting : Main → Bool
  | .commitLock _ => true
  | .loadLock _   => true
  | .loadUnlock _ => true
  | .erase _      => true
  | _             => false

/-- A walk that owns `mtx_`. -/
def Main.walking : Main → Bool
  | .walk _ _               => true
  | .exchangeLock _ _ _ _   => true
  | .exchangeUnlock _ _ _ _ => true
  | .combine _ _ _          => true
  | .resetUnlock _          => true
  | _                       => false

/-- A place after an unlock, where a submission may interrupt. -/
def Main.open : Main → Bool
  | .idle          => true
  | .combine _ _ _ => true
  | .erase _       => true
  | .clear         => true
  | _              => false

/-- What the exit has read. -/
def Main.val : Main → Option Pointer
  | .loadUnlock val => some val
  | .erase val      => some val
  | _               => none

/-- The agent a walk is about to exchange. -/
def Main.target : Main → Option Thread
  | .exchangeLock _ _ u _ => some u
  | _                     => none

/-- What a thread's place says about its agent. -/
structure PlaceOk (s : State α) (t : Thread) (p : Main) (q : Sub) : Prop where
  registered : s.combiner t = true ↔ t ∈ s.agents ∨ (∃ x, q = .append x) ∨ p.unlinked = true
  sample : ∀ x, q.sample = some x → x < s.fresh ∧ (s.object x).thread = t
  append : ∀ x, q = .append x → t ∉ s.agents ∧ s.element t = none
  modify : ∀ x, q = .modifyLock x → t ∈ s.agents
  walking : p.walking = true → s.globalResult = none
  target : ∀ u, p.target = some u → u ∈ s.agents
  exiting : p.exiting = true → t ∈ s.agents
  val : ∀ val, p.val = some val → val = s.element t
  unlinked : p.unlinked = true → t ∉ s.agents
  closed : p.open = false → q = .none
  committed : p.committed = true → q = .none ∨ ∃ x, q = .submit x

/-- Where a list of samples may be. -/
inductive Spot
  | result (k : Nat)
  | tmp
  | prev
  | globalResult
  | element (t : Thread)
  | sub (t : Thread)
deriving DecidableEq

/-- The pointer kept there. -/
def head (L : Layout) (s : State α) : Spot → Pointer
  | .result k     => s.results[k]?.join
  | .tmp          => (inHand L s).1
  | .prev         => (inHand L s).2
  | .globalResult => s.globalResult
  | .element t    => if t ∈ s.agents then s.element t else none
  | .sub t        => (s.sub t).sample

/-- Whose sample it is. -/
def State.owner (s : State α) (x : Nat) : Thread := (s.object x).thread

/-- The samples of one thread that reached the combiner, the oldest first, when `n` resets have returned. -/
def ofThread (owner : Nat → Thread) (n : Nat) (lists : Spot → List Nat) (u : Thread) : List Nat :=
  of owner u ((List.range n).flatMap (fun k => lists (.result k))) ++ of owner u (lists .tmp) ++
    of owner u (lists .prev) ++ of owner u (lists .globalResult) ++ lists (.element u)

/-- **The pointers lead to the lists**, which have no sample in common and hold what was submitted. -/
structure ExitInv (L : Layout) (s : State α) (lists : Spot → List Nat) : Prop where
  lock : LockInv L s
  nodup : s.agents.Nodup
  kept : s.links.Kept id (head L s) lists
  below : ∀ k, ∀ x ∈ lists k, x < s.fresh
  logged : ∀ x ∈ s.log, x < s.fresh
  sample : ∀ t, lists (.sub t) = (s.sub t).sample.toList
  owned : ∀ t, ∀ x ∈ lists (.element t), s.owner x = t
  place : ∀ t, PlaceOk s t (s.main t) (s.sub t)
  values : ∀ u, ofThread s.owner s.results.length lists u ++ (s.sub u).pending = of s.owner u s.log

variable {lists lists' : Spot → List Nat}

theorem hand_of_hasMtx {p : Main} (h : p.hasMtx = false) : p.hand = (none, none) := by
  cases p <;> first | rfl | cases h

theorem LockInv.inHand_of_hasMtx (h : LockInv L s) (ht : (s.main t).hasMtx = true) : inHand L s = (s.main t).hand := by
  unfold inHand
  rw [(h.owns t).mtx.2 ht]

theorem inHand_of_none (hn : ∀ t, (s.main t).hasMtx = false) : inHand L s = (none, none) := by
  unfold inHand
  split
  · exact hand_of_hasMtx (hn _)
  · rfl

/-- What is in hand does not change with the owner of `mtx_`, only with what the walks have taken. -/
theorem inHand_congr (h : LockInv L s) (h' : LockInv L s') (ht : ∀ v, (s'.main v).hand = (s.main v).hand) :
    inHand L s' = inHand L s := by
  by_cases hex : ∃ v, (s.main v).hasMtx = true
  · obtain ⟨v, hv⟩ := hex
    rw [h.inHand_of_hasMtx hv, ← ht v]
    by_cases hv' : (s'.main v).hasMtx = true
    · exact h'.inHand_of_hasMtx hv'
    · rw [hand_of_hasMtx (by simpa using hv')]
      unfold inHand
      split
      · rename_i w hw
        rw [ht w]
        -- another thread owns it now, and took nothing before
        by_cases hwv : (s.main w).hasMtx = true
        · have ho := (h.owns w).mtx.2 hwv
          rw [(h.owns v).mtx.2 hv] at ho
          cases ho
          exact absurd ((h'.owns v).mtx.1 hw) hv'
        · exact hand_of_hasMtx (by simpa using hwv)
      · rfl
  · have hn : ∀ v, (s.main v).hasMtx = false := fun v => by simpa using fun hv => hex ⟨v, hv⟩
    rw [inHand_of_none hn]
    unfold inHand
    split
    · rw [ht]; exact hand_of_hasMtx (hn _)
    · rfl

/-- What the owner of `mtx_` does to it, no other thread is in the middle of. -/
theorem LockInv.others_out (h : LockInv L s) (hmtx : (s.main t).hasMtx = true) (hu : u ≠ t) :
    (s.main u).hasMtx = false := by
  by_contra hc
  have ho := (h.owns u).mtx.2 (by simpa using hc)
  rw [(h.owns t).mtx.2 hmtx] at ho
  exact hu (Option.some.inj ho).symm

theorem LockInv.all_out (h : LockInv L s) (hfree : owners s.mem L.mtx = none) (v : Thread) :
    (s.main v).hasMtx = false := by
  have := (h.owns v).mtx
  rw [hfree] at this
  simpa using this

/-! ## What the lists say -/

theorem head_element (ht : t ∈ s.agents) : head L s (.element t) = s.element t := if_pos ht

theorem head_element_of_not_mem (ht : t ∉ s.agents) : head L s (.element t) = none := if_neg ht

theorem ExitInv.toList_eq (h : ExitInv L s lists) (k : Spot) : s.links.toList s.fresh (head L s k) = lists k := by
  refine (h.kept.list k).toList_eq ?_
  have hsub : lists k ⊆ List.range s.fresh := fun x hx => List.mem_range.2 (h.below k x hx)
  have hnd : (lists k).Nodup := (h.kept.list k).nodup
  have hle := (hnd.subperm hsub).length_le
  rwa [List.length_range] at hle

theorem ExitInv.total_eq (h : ExitInv L s lists) : total L s =
    (List.range s.results.length).flatMap (fun k => lists (.result k)) ++ lists .tmp ++ lists .prev ++
      lists .globalResult ++ s.agents.flatMap (fun t => lists (.element t)) := by
  have hresults : s.results = (List.range s.results.length).map (fun k => head L s (.result k)) := by
    refine List.ext_getElem (by simp) (fun k hk _ => ?_)
    simp [head, List.getElem?_eq_getElem hk]
  have hagents : s.agents.map s.element = s.agents.map (fun t => head L s (.element t)) :=
    List.map_congr_left (fun t ht => (head_element ht).symm)
  unfold total
  rw [hagents, hresults]
  simp only [List.flatMap_append, List.flatMap_map, List.flatMap_cons, List.flatMap_nil, List.append_nil, h.toList_eq,
    List.length_map, List.length_range]
  rw [← h.toList_eq .tmp, ← h.toList_eq .prev, ← h.toList_eq .globalResult]
  simp only [List.append_assoc]
  rfl

theorem ExitInv.of_total (h : ExitInv L s lists) (u : Thread) :
    of s.owner u (total L s) = ofThread s.owner s.results.length lists u := by
  rw [h.total_eq]
  unfold ofThread
  simp only [Combiner.of_append]
  rw [Combiner.of_flatMap_element h.nodup (fun t _ => h.owned t)]
  by_cases hu : u ∈ s.agents
  · rw [Combiner.listed_of_mem hu]
  · rw [Combiner.listed_of_not_mem hu, h.kept.eq_nil (head_element_of_not_mem hu)]

/-! ## What a step changes -/

/-- **What another thread's place says does not change** while its agent is let alone and nobody touches what `mtx_`
protects behind its owner's back. -/
theorem PlaceOk.of_eq {p : Main} {q : Sub} (h : PlaceOk s u p q)
    (hx : ∀ x < s.fresh, x < s'.fresh ∧ s'.owner x = s.owner x) (hc : s'.combiner u = s.combiner u)
    (ha : u ∈ s'.agents ↔ u ∈ s.agents) (he : u ∉ s.agents → s'.element u = s.element u)
    (hm : p.hasMtx = true →
      s'.agents = s.agents ∧ s'.globalResult = s.globalResult ∧ s'.element u = s.element u) : PlaceOk s' u p q where
  registered := by rw [hc, ha]; exact h.registered
  sample x hq := ⟨(hx x (h.sample x hq).1).1, (hx x (h.sample x hq).1).2.trans (h.sample x hq).2⟩
  append x hq := by
    obtain ⟨h1, h2⟩ := h.append x hq
    exact ⟨fun hu => h1 (ha.1 hu), (he h1).trans h2⟩
  modify x hq := ha.2 (h.modify x hq)
  walking hp := by
    have hmt : p.hasMtx = true := by cases p <;> first | rfl | cases hp
    rw [(hm hmt).2.1]
    exact h.walking hp
  target v hv := by
    have hmt : p.hasMtx = true := by cases p <;> first | rfl | cases hv
    rw [(hm hmt).1]
    exact h.target v hv
  exiting hp := ha.2 (h.exiting hp)
  val v hv := by
    have hmt : p.hasMtx = true := by cases p <;> first | rfl | cases hv
    rw [(hm hmt).2.2]
    exact h.val v hv
  unlinked hp hu := h.unlinked hp (ha.1 hu)
  closed := h.closed
  committed := h.committed

/-- A thread that submits nothing answers for the place of its main steps only. -/
theorem PlaceOk.of_none {p : Main}
    (hr : s.combiner t = true ↔ t ∈ s.agents ∨ (∃ x, Sub.none = .append x) ∨ p.unlinked = true)
    (hw : p.walking = true → s.globalResult = none) (hg : ∀ u, p.target = some u → u ∈ s.agents)
    (he : p.exiting = true → t ∈ s.agents) (hv : ∀ val, p.val = some val → val = s.element t)
    (hu : p.unlinked = true → t ∉ s.agents) : PlaceOk s t p .none :=
  ⟨hr, nofun, nofun, nofun, hw, hg, he, hv, hu, fun _ => rfl, fun _ => .inl rfl⟩

/-- A place that says nothing. -/
theorem PlaceOk.outside {p : Main}
    (hr : s.combiner t = true ↔ t ∈ s.agents ∨ (∃ x, Sub.none = .append x) ∨ p.unlinked = true)
    (hp : p.walking = false ∧ p.target = none ∧ p.exiting = false ∧ p.val = none ∧ p.unlinked = false) :
    PlaceOk s t p .none := by
  obtain ⟨hw, hg, he, hv, hu⟩ := hp
  refine .of_none hr ?_ ?_ ?_ ?_ ?_
  all_goals simp [hw, hg, he, hv, hu]

/-- A place in the walk of `reset_all_agents`. -/
theorem PlaceOk.walks {p : Main}
    (hr : s.combiner t = true ↔ t ∈ s.agents ∨ (∃ x, Sub.none = .append x) ∨ p.unlinked = true)
    (hw : s.globalResult = none) (hg : ∀ u, p.target = some u → u ∈ s.agents)
    (hp : p.exiting = false ∧ p.val = none ∧ p.unlinked = false) : PlaceOk s t p .none := by
  obtain ⟨he, hv, hu⟩ := hp
  refine .of_none hr (fun _ => hw) hg ?_ ?_ ?_
  all_goals simp [he, hv, hu]

/-- A place in `commit_and_erase` before the agent leaves the list. -/
theorem PlaceOk.exits {p : Main}
    (hr : s.combiner t = true ↔ t ∈ s.agents ∨ (∃ x, Sub.none = .append x) ∨ p.unlinked = true)
    (he : t ∈ s.agents) (hv : ∀ val, p.val = some val → val = s.element t)
    (hp : p.walking = false ∧ p.target = none ∧ p.unlinked = false) : PlaceOk s t p .none := by
  obtain ⟨hw, hg, hu⟩ := hp
  refine .of_none hr ?_ ?_ (fun _ => he) hv ?_
  all_goals simp [hw, hg, hu]

/-- A place of `~Agent` behind that. -/
theorem PlaceOk.leaves {p : Main} (hc : s.combiner t = true) (ht : t ∉ s.agents) (hu : p.unlinked = true)
    (hp : p.walking = false ∧ p.target = none ∧ p.exiting = false ∧ p.val = none) : PlaceOk s t p .none := by
  obtain ⟨hw, hg, he, hv⟩ := hp
  refine .of_none (iff_of_true hc (.inr (.inr hu))) ?_ ?_ ?_ ?_ (fun _ => ht)
  all_goals simp [hw, hg, he, hv]

/-- At the end of an unlock a submission may begin. -/
theorem PlaceOk.submit {p : Main} (h : PlaceOk s t p .none) (ho : p.open = true) (hx : x < s.fresh)
    (hxt : s.owner x = t) : PlaceOk s t p (.submit x) where
  registered := by simpa using h.registered
  sample y hy := by cases hy; exact ⟨hx, hxt⟩
  append := nofun
  modify := nofun
  walking := h.walking
  target := h.target
  exiting := h.exiting
  val := h.val
  unlinked := h.unlinked
  closed hc := by rw [ho] at hc; cases hc
  committed _ := .inr ⟨x, rfl⟩

/-- Nobody but the moving thread notices. -/
structure Apart (s s' : State α) (t : Thread) : Prop where
  still : ∀ u, u ≠ t → Still s s' u
  combiner : ∀ u, u ≠ t → s'.combiner u = s.combiner u
  agents : ∀ u, u ≠ t → (u ∈ s'.agents ↔ u ∈ s.agents)
  element : ∀ u, u ≠ t → u ∉ s.agents → s'.element u = s.element u
  mtx : ∀ u, u ≠ t → (s.main u).hasMtx = true →
    s'.agents = s.agents ∧ s'.globalResult = s.globalResult ∧ s'.element u = s.element u

/-- The objects are the same, and what was accepted. -/
structure SameObjects (s s' : State α) : Prop where
  object : s'.object = s.object
  fresh : s'.fresh = s.fresh
  log : s'.log = s.log

theorem SameObjects.owner (h : SameObjects s s') : s'.owner = s.owner := by
  funext x
  unfold State.owner
  rw [h.object]

theorem SameObjects.keeps (h : SameObjects s s') : ∀ x < s.fresh, x < s'.fresh ∧ s'.owner x = s.owner x :=
  fun x hx => ⟨by rw [h.fresh]; exact hx, by rw [h.owner]⟩

theorem Apart.place (ha : Apart s s' t) (h : ExitInv L s lists)
    (hx : ∀ x < s.fresh, x < s'.fresh ∧ s'.owner x = s.owner x) (hself : PlaceOk s' t (s'.main t) (s'.sub t))
    (u : Thread) : PlaceOk s' u (s'.main u) (s'.sub u) := by
  by_cases hu : u = t
  · rw [hu]; exact hself
  · rw [(ha.still u hu).1, (ha.still u hu).2]
    exact (h.place u).of_eq hx (ha.combiner u hu) (ha.agents u hu) (ha.element u hu) (ha.mtx u hu)

/-- A step that combines two lists, or hands one over. -/
theorem ExitInv.join {j k : Spot} (h : ExitInv L s lists) (hlock : LockInv L s') (hapart : Apart s s' t)
    (hobj : SameObjects s s') (hnodup : s'.agents.Nodup) (hjk : j ≠ k)
    (hcomb : (s'.links, head L s' j) = s.links.combine id (head L s j) (head L s k)) (hk : head L s' k = none)
    (hrest : ∀ l, l ≠ j → l ≠ k → head L s' l = head L s l)
    (hsample : ∀ u, Links.joined lists j k (.sub u) = (s'.sub u).sample.toList)
    (howned : ∀ u, ∀ x ∈ Links.joined lists j k (.element u), s.owner x = u)
    (hself : PlaceOk s' t (s'.main t) (s'.sub t))
    (hvalues : ∀ u, ofThread s.owner s'.results.length (Links.joined lists j k) u ++ (s'.sub u).pending =
      ofThread s.owner s.results.length lists u ++ (s.sub u).pending) : ExitInv L s' (Links.joined lists j k) where
  lock := hlock
  nodup := hnodup
  kept := by
    rw [show s'.links = _ from congrArg Prod.fst hcomb]
    exact h.kept.combine Function.injective_id hjk (congrArg Prod.snd hcomb) hk hrest
  below l x hx := by
    rw [hobj.fresh]
    rcases (Links.mem_joined hx).2 with hx | ⟨-, hx⟩
    · exact h.below l x hx
    · exact h.below k x hx
  logged x hx := by
    rw [hobj.log] at hx
    rw [hobj.fresh]
    exact h.logged x hx
  sample := hsample
  owned u x hx := by rw [hobj.owner]; exact howned u x hx
  place := hapart.place h hobj.keeps hself
  values u := by rw [hobj.owner, hvalues, h.values, hobj.log]

theorem head_congr (hr : s'.results = s.results) (hh : inHand L s' = inHand L s)
    (hg : s'.globalResult = s.globalResult) (he : ∀ u, head L s' (.element u) = head L s (.element u))
    (hsub : ∀ u, (s'.sub u).sample = (s.sub u).sample) : head L s' = head L s := by
  funext k
  cases k with
  | result k => show s'.results[k]?.join = _; rw [hr]; rfl
  | tmp => show (inHand L s').1 = _; rw [hh]; rfl
  | prev => show (inHand L s').2 = _; rw [hh]; rfl
  | globalResult => exact hg
  | element u => exact he u
  | sub u => exact hsub u

theorem still_of_update {p : Main} {q : Sub} (hmain : s'.main = Function.update s.main t p)
    (hsub : s'.sub = Function.update s.sub t q) (hu : u ≠ t) : Still s s' u :=
  ⟨by rw [hmain, Function.update_of_ne hu], by rw [hsub, Function.update_of_ne hu]⟩

theorem hand_update {f : Thread → Main} {p : Main} (h : p.hand = (f t).hand) (u : Thread) :
    (Function.update f t p u).hand = (f u).hand := by
  by_cases hu : u = t
  · rw [hu, Function.update_self, h]
  · rw [Function.update_of_ne hu]

theorem sample_update {f : Thread → Sub} {q : Sub} (h : q.sample = (f t).sample) (u : Thread) :
    (Function.update f t q u).sample = (f u).sample := by
  by_cases hu : u = t
  · rw [hu, Function.update_self, h]
  · rw [Function.update_of_ne hu]

/-- The same samples at the same places. -/
structure SameSamples (s s' : State α) : Prop extends SameObjects s s' where
  links : s'.links = s.links
  globalResult : s'.globalResult = s.globalResult
  agents : s'.agents = s.agents
  element : s'.element = s.element
  combiner : s'.combiner = s.combiner
  results : s'.results = s.results

theorem SameSamples.apart (h : SameSamples s s') (hstill : ∀ u, u ≠ t → Still s s' u) : Apart s s' t where
  still := hstill
  combiner _ _ := by rw [h.combiner]
  agents _ _ := by rw [h.agents]
  element _ _ _ := by rw [h.element]
  mtx _ _ _ := ⟨h.agents, h.globalResult, by rw [h.element]⟩

theorem of_congr {owner owner' : Nat → Thread} {l : List Nat} (h : ∀ x ∈ l, owner' x = owner x) :
    of owner' u l = of owner u l :=
  List.filter_congr fun x hx => by rw [h x hx]

/-- What submissions have at hand does not count. -/
theorem ofThread_congr {owner owner' : Nat → Thread} {n : Nat} (ho : ∀ k, ∀ x ∈ lists k, owner' x = owner x)
    (hl : ∀ k, (∀ t, k ≠ .sub t) → lists' k = lists k) : ofThread owner' n lists' u = ofThread owner n lists u := by
  have hresult : ∀ k, lists' (.result k) = lists (.result k) := fun k => hl _ (fun _ => nofun)
  unfold ofThread
  simp only [hresult]
  have hreturned : ∀ x ∈ (List.range n).flatMap (fun j => lists (.result j)), owner' x = owner x := by
    intro x hx
    obtain ⟨k, -, hx⟩ := List.mem_flatMap.1 hx
    exact ho _ x hx
  rw [hl .tmp fun _ => nofun, hl .prev fun _ => nofun, hl .globalResult fun _ => nofun, hl (.element u) fun _ => nofun,
    of_congr (ho .tmp), of_congr (ho .prev), of_congr (ho .globalResult), of_congr hreturned]

/-- A step that only moves the thread. -/
theorem ExitInv.move {p : Main} {q : Sub} (h : ExitInv L s lists) (hlock : LockInv L s') (hsame : SameSamples s s')
    (hmain : s'.main = Function.update s.main t p) (hsub : s'.sub = Function.update s.sub t q)
    (hhand : p.hand = (s.main t).hand) (hpend : q.pending = (s.sub t).pending) (hx : q.sample = (s.sub t).sample)
    (hself : PlaceOk s t p q) : ExitInv L s' lists where
  lock := hlock
  nodup := by rw [hsame.agents]; exact h.nodup
  kept := by
    rw [hsame.links, head_congr hsame.results (inHand_congr h.lock hlock fun v => ?_) hsame.globalResult (fun u => ?_)
      (fun u => ?_)]
    · exact h.kept
    · rw [hmain]; exact hand_update hhand v
    · unfold head; rw [hsame.agents, hsame.element]
    · rw [hsub]; exact sample_update hx u
  below k x hk := by rw [hsame.fresh]; exact h.below k x hk
  logged x hk := by rw [hsame.fresh]; rw [hsame.log] at hk; exact h.logged x hk
  sample u := by rw [h.sample, hsub, sample_update hx]
  owned u x hk := by rw [hsame.owner]; exact h.owned u x hk
  place := (hsame.apart fun u => still_of_update hmain hsub).place h hsame.keeps (by
    rw [hmain, hsub, Function.update_self, Function.update_self]
    exact hself.of_eq hsame.keeps (by rw [hsame.combiner]) (by rw [hsame.agents]) (fun _ => by rw [hsame.element])
      (fun _ => ⟨hsame.agents, hsame.globalResult, by rw [hsame.element]⟩))
  values u := by
    rw [hsame.owner, hsame.results, hsame.log, ← h.values, hsub]
    by_cases hu : u = t
    · rw [hu, Function.update_self, hpend]
    · rw [Function.update_of_ne hu]

theorem LockInv.of_makeSample {data : α} (h : LockInv L (s.makeSample t data)) (hq : s.sub t = .none) :
    LockInv L s := by
  have hother : ∀ u, u ≠ t → (s.makeSample t data).sub u = s.sub u := fun u hu => setSub_sub_of_ne hu
  refine ⟨h.single, fun u => ?_⟩
  have ho : Owns L (owners s.mem) u (s.main u) ((s.makeSample t data).sub u) := h.owns u
  by_cases hu : u = t
  · rw [hu] at ho
    rw [hu, hq]
    exact ⟨ho.mtx, ho.main, nofun, fun hn => absurd rfl hn⟩
  · rw [hother u hu] at ho
    exact ho

theorem makeSample_owner {data : α} (hx : x < s.fresh) : (s.makeSample t data).owner x = s.owner x :=
  congrArg Sample.thread (Function.update_of_ne hx.ne ..)

/-- **The hook makes a sample.** -/
theorem ExitInv.makeSample {data : α} (h : ExitInv L s lists) (hlock : LockInv L (s.makeSample t data))
    (hq : s.sub t = .none) (ho : (s.main t).open = true) :
    ExitInv L (s.makeSample t data) (Function.update lists (.sub t) [s.fresh]) := by
  have hkeeps : ∀ x < s.fresh, x < (s.makeSample t data).fresh ∧ (s.makeSample t data).owner x = s.owner x :=
    fun x hx => ⟨Nat.lt_succ_of_lt hx, makeSample_owner hx⟩
  have hapart : Apart s (s.makeSample t data) t :=
    ⟨fun u hu => ⟨rfl, setSub_sub_of_ne hu⟩, fun _ _ => rfl, fun _ _ => .rfl, fun _ _ _ => rfl,
      fun _ _ _ => ⟨rfl, rfl, rfl⟩⟩
  have hold : ∀ k, k ≠ .sub t → Function.update lists (.sub t) [s.fresh] k = lists k :=
    fun k hk => Function.update_of_ne hk ..
  have hplace : PlaceOk (s.makeSample t data) t (s.main t) (s.sub t) :=
    (h.place t).of_eq hkeeps rfl .rfl (fun _ => rfl) (fun _ => ⟨rfl, rfl, rfl⟩)
  rw [hq] at hplace
  refine ⟨hlock, h.nodup, ?_, fun k x hx => ?_, fun x hx => (hkeeps x (h.logged x hx)).1, fun u => ?_,
    fun u x hx => ?_, hapart.place h hkeeps ?_, fun u => ?_⟩
  · have hk : (s.links.construct s.fresh).Kept id (head L s) lists :=
      h.kept.congr fun k x hx => Links.construct_same (h.below k x hx).ne
    refine hk.add (Links.construct_selfLinked _ _) (fun k hx => (h.below k _ hx).false) ?_ (fun k hkt => ?_)
    · show ((s.makeSample t data).sub t).sample = _
      rw [State.makeSample, setSub_sub_self]
      rfl
    · cases k with
      | sub u =>
        have hu : u ≠ t := fun hu => hkt (by rw [hu])
        show ((s.makeSample t data).sub u).sample = _
        rw [State.makeSample, setSub_sub_of_ne hu]
        rfl
      | _ => rfl
  · by_cases hk : k = .sub t
    · rw [hk, Function.update_self, List.mem_singleton] at hx
      rw [hx]
      exact Nat.lt_succ_self _
    · rw [hold k hk] at hx
      exact (hkeeps x (h.below k x hx)).1
  · by_cases hu : u = t
    · rw [hu, Function.update_self, State.makeSample, setSub_sub_self]
      rfl
    · rw [hold _ fun he => hu (Spot.sub.inj he), h.sample, State.makeSample, setSub_sub_of_ne hu]
  · rw [hold (.element u) fun he => by cases he] at hx
    rw [makeSample_owner (h.below _ x hx)]
    exact h.owned u x hx
  · rw [State.makeSample, setSub_sub_self]
    exact hplace.submit ho (Nat.lt_succ_self _) (congrArg Sample.thread (Function.update_self s.fresh _ s.object))
  · have hpend : ((s.makeSample t data).sub u).pending = (s.sub u).pending := by
      by_cases hu : u = t
      · rw [hu, State.makeSample, setSub_sub_self, hq]
        rfl
      · rw [State.makeSample, setSub_sub_of_ne hu]
    rw [hpend, ofThread_congr (fun k x hx => makeSample_owner (h.below k x hx)) (fun k hk => hold k (hk t))]
    exact (h.values u).trans (of_congr fun x hx => makeSample_owner (h.logged x hx)).symm

theorem unlock_cases (s : State α) (t : Thread) (m : Addr) (i : Input α) : ∃ mem,
    unlock s t m i = { s with mem := mem } ∨ unlock s t m i = { s with mem := mem }.makeSample t i.data := by
  unfold unlock
  dsimp only
  split
  · exact ⟨_, .inr rfl⟩
  · exact ⟨_, .inl rfl⟩

/-- An unlock may begin a submission. -/
theorem ExitInv.unlock {s₁ : State α} (hlock : LockInv L (unlock s₁ t m i)) (hq : s₁.sub t = .none)
    (ho : (s₁.main t).open = true)
    (h : ∀ mem, LockInv L { s₁ with mem := mem } → ExitInv L { s₁ with mem := mem } lists) :
    ∃ lists', ExitInv L (unlock s₁ t m i) lists' := by
  obtain ⟨mem, hu | hu⟩ := unlock_cases s₁ t m i
  · rw [hu] at hlock ⊢
    exact ⟨_, h mem hlock⟩
  · rw [hu] at hlock ⊢
    exact ⟨_, (h mem (hlock.of_makeSample hq)).makeSample hlock hq ho⟩

end CombinerHook
end ContentionProf
