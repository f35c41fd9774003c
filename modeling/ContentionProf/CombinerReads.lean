import ContentionProf.CombinerOrder
/-!
# CombinerReads — `combine_agents` while threads submit (`common/combiner.h`)

`combine_agents` holds `mtx_` and loads the agents one by one, so values reach agents during the walk, those already
passed as well.  A read takes a thread that is in no other call.
-/
namespace ContentionProf
namespace Combiner

/-- Where a thread stands in `combine_agents`; `start` is what it found when it took `mtx_` (ghost). -/
inductive Read (α : Type)
  | idle
  /-- Lines 148–149. -/
  | lock
  /-- Lines 151–152. -/
  | walk (node : Nat) (ret : List α) (start : State α)

/-- What `combine_agents` returned, with the states in which it took `mtx_` and gave it back (ghost). -/
structure Returned (α : Type) where
  thread : Thread
  value : List α
  start : State α
  stop : State α

structure Readers (α : Type) where
  base : State α
  read : Thread → Read α
  returned : List (Returned α)

variable {α β : Type}

def Read.isIdle : Read α → Bool
  | .idle => true
  | _     => false

def Label.thread : Label α → Thread
  | .submit t _ => t
  | .reset t    => t
  | .exit t     => t
  | .go t       => t

namespace Readers

inductive Label (α : Type)
  /-- A step of another call. -/
  | other (a : Combiner.Label α)
  /-- `combine_agents` is called. -/
  | get (t : Thread)
  /-- It goes on. -/
  | go (t : Thread)

def setRead (s : Readers α) (t : Thread) (r : Read α) : Readers α := { s with read := Function.update s.read t r }

/-- The next step of `combine_agents`. -/
def advance (s : Readers α) (t : Thread) : Option (Readers α) :=
  match s.read t with
  | .idle                => none
  | .lock                => match s.base.mtx with
    | none   => some ({ s with base := { s.base with mtx := some t } }.setRead t (.walk 0 s.base.globalResult s.base))
    | some _ => none
  | .walk node ret start => match s.base.agents[node]? with
    | some u => some (s.setRead t (.walk (node + 1) (ret ++ s.base.element u) start))
    | none   =>
      let r : Returned α := ⟨t, ret, start, s.base⟩
      some ({ s with base := { s.base with mtx := none }, returned := s.returned ++ [r] }.setRead t .idle)

def step (s : Readers α) : Label α → Option (Readers α)
  | .other a =>
    if (s.read a.thread).isIdle then (Combiner.step s.base a).map (fun b => { s with base := b }) else none
  | .get t   => if (s.read t).isIdle && (s.base.pc t).isIdle then some (s.setRead t .lock) else none
  | .go t    => advance s t

def system (α : Type) : System (Readers α) (Label α) where
  init s := (Combiner.system α).init s.base ∧ s.read = (fun _ => .idle) ∧ s.returned = []
  step := step

end Readers

/-! ## While `mtx_` is held -/

section Owner

variable {owner : β → Thread} {s s' : State β} {t u : Thread}

/-- `mtx_` changes hands while the thread is in no other call. -/
theorem Inv.setMtx {m : Option Thread} (h : Inv owner s) (hp : s.pc t = .idle) (hm : s.mtx = none ∨ s.mtx = some t)
    (hm' : m = none ∨ m = some t) : Inv owner { s with mtx := m } := by
  have htmp : ∀ s₁ : State β, s₁.pc t = .idle → s₁.mtx = none ∨ s₁.mtx = some t → s₁.inHand = [] := by
    intro s₁ hp₁ h₁
    rcases h₁ with h₁ | h₁
    · exact inHand_of_free h₁
    · rw [inHand_of_owner h₁, hp₁]; rfl
  have hh : ({ s with mtx := m } : State β).inHand = s.inHand := by
    rw [htmp s hp hm]
    exact htmp { s with mtx := m } hp hm'
  refine h.of_step (t := t) (fun _ _ => rfl) h.nodup h.owned (fun _ _ => rfl) (fun _ _ => .rfl) (fun _ _ _ => rfl)
    (fun u hu hmu => ?_) ?_ (fun u => ?_)
  · rcases hm with hm | hm
    · rw [hm] at hmu; cases hmu
    · rw [hm] at hmu; exact absurd (Option.some.inj hmu).symm hu
  · have hi := h.pc t
    rw [hp] at hi
    show PcOk owner { s with mtx := m } t (s.pc t)
    rw [hp]
    exact hi
  · have hof : ofThread owner { s with mtx := m } u = ofThread owner s u := ofThread_congr rfl hh rfl rfl
    rw [hof]
    exact h.values u

/-- **What cannot change while a thread that is in no other call holds `mtx_`**: the agents only get values. -/
structure Grown (s s' : State β) : Prop where
  agents : s'.agents = s.agents
  globalResult : s'.globalResult = s.globalResult
  results : s'.results = s.results
  element : ∀ u ∈ s.agents, s.element u <+: s'.element u
  log : s.log <+: s'.log

theorem Grown.refl (s : State β) : Grown s s := ⟨rfl, rfl, rfl, fun _ _ => List.prefix_rfl, List.prefix_rfl⟩

theorem Grown.trans {s'' : State β} (h : Grown s s') (h' : Grown s' s'') : Grown s s'' where
  agents := h'.agents.trans h.agents
  globalResult := h'.globalResult.trans h.globalResult
  results := h'.results.trans h.results
  element u hu := (h.element u hu).trans (h'.element u (h.agents ▸ hu))
  log := h.log.trans h'.log

/-- A step moves one thread only. -/
theorem step_pc {a : Label β} (hs : step s a = some s') (ht : a.thread ≠ t) : s'.pc t = s.pc t := by
  have hne : t ≠ a.thread := fun h => ht h.symm
  cases a with
  | submit u v =>
    simp only [step] at hs
    split at hs <;> cases hs
    unfold submit
    dsimp only
    split <;> exact Function.update_of_ne hne ..
  | reset u =>
    simp only [step] at hs
    split at hs <;> cases hs
    exact Function.update_of_ne hne ..
  | exit u =>
    simp only [step] at hs
    split at hs <;> cases hs
    exact Function.update_of_ne hne ..
  | go u =>
    have hs : advance s u = some s' := hs
    cases hp : s.pc u with
    | idle => simp [advance, hp] at hs
    | append v => cases hm : s.mtx <;> simp [advance, hp, hm] at hs; subst hs; exact Function.update_of_ne hne ..
    | reset => cases hm : s.mtx <;> simp [advance, hp, hm] at hs; subst hs; exact Function.update_of_ne hne ..
    | commit => cases hm : s.mtx <;> simp [advance, hp, hm] at hs; subst hs; exact Function.update_of_ne hne ..
    | exchange node tmp =>
      cases hn : s.agents[node]? <;> simp [advance, hp, hn] at hs <;> subst hs <;> exact Function.update_of_ne hne ..
    | _ => simp [advance, hp] at hs; subst hs; exact Function.update_of_ne hne ..

/-- **A step of another thread while `mtx_` is held.** -/
theorem Inv.grown {a : Label β} (h : Inv owner s) (hm : s.mtx = some t) (ha : a.thread ≠ t)
    (hs : step s a = some s') : Grown s s' ∧ s'.mtx = s.mtx := by
  -- a thread inside a section of `mtx_` would be its owner
  have hfree : ∀ {u : Thread}, u ≠ t → s.mtx ≠ some u := fun hu hmu => hu (Option.some.inj (hmu.symm.trans hm))
  cases a with
  | submit u v =>
    simp only [step] at hs
    split at hs
    · rename_i hp
      have hi := h.pc u
      rw [show s.pc u = .idle from by cases hpc : s.pc u <;> simp [hpc, Pc.isIdle] at hp ⊢] at hi
      cases hs
      unfold Combiner.submit
      dsimp only
      split
      · exact ⟨⟨rfl, rfl, rfl, fun _ _ => List.prefix_rfl, List.prefix_append ..⟩, rfl⟩
      · rename_i hc
        refine ⟨⟨rfl, rfl, rfl, fun w hw => ?_, List.prefix_append ..⟩, rfl⟩
        have hwu : w ≠ u := fun hwu => hc (hi.2 (hwu ▸ hw))
        show s.element w <+: Function.update s.element u [] w
        rw [Function.update_of_ne hwu]
    · cases hs
  | reset u =>
    simp only [step] at hs
    split at hs <;> cases hs
    exact ⟨⟨rfl, rfl, rfl, fun _ _ => List.prefix_rfl, List.prefix_rfl⟩, rfl⟩
  | exit u =>
    simp only [step] at hs
    split at hs <;> cases hs
    exact ⟨⟨rfl, rfl, rfl, fun _ _ => List.prefix_rfl, List.prefix_rfl⟩, rfl⟩
  | go u =>
    have hi := h.pc u
    have hs : Combiner.advance s u = some s' := hs
    cases hp : s.pc u with
    | modify v =>
      simp only [Combiner.advance, hp] at hs
      cases hs
      refine ⟨⟨rfl, rfl, rfl, fun w _ => ?_, List.prefix_rfl⟩, rfl⟩
      show s.element w <+: Function.update s.element u (s.element u ++ [v]) w
      by_cases hw : w = u
      · rw [hw, Function.update_self]; exact List.prefix_append ..
      · rw [Function.update_of_ne hw]
    | exchange node tmp => rw [hp] at hi; exact absurd hi.2.1 (hfree ha)
    | load => rw [hp] at hi; exact absurd hi.2.2 (hfree ha)
    | erase val => rw [hp] at hi; exact absurd hi.2.2.1 (hfree ha)
    | _ => simp [Combiner.advance, hp, hm] at hs

/-! ## The walk -/

/-- **What a walk under way has seen**: the global result, and of every agent passed no less than it had when the walk
began and no more than it has now. -/
structure Walked (owner : β → Thread) (start s : State β) (node : Nat) (ret : List β) : Prop where
  inv : Inv owner start
  free : start.mtx = none
  grown : Grown start s
  seen : ∃ e : Thread → List β, ret = start.globalResult ++ (start.agents.take node).flatMap e ∧
    ∀ u ∈ start.agents, start.element u <+: e u ∧ e u <+: s.element u

theorem Walked.begin (h : Inv owner s) (hm : s.mtx = none) (s' : State β) (hs : Grown s s') :
    Walked owner s s' 0 s.globalResult :=
  ⟨h, hm, hs, s.element, by simp, fun u hu => ⟨List.prefix_rfl, hs.element u hu⟩⟩

theorem Walked.mono {start : State β} {node : Nat} {ret : List β} (h : Walked owner start s node ret)
    (hs : Grown s s') : Walked owner start s' node ret := by
  obtain ⟨e, hret, he⟩ := h.seen
  refine ⟨h.inv, h.free, h.grown.trans hs, e, hret, fun u hu => ⟨(he u hu).1, (he u hu).2.trans ?_⟩⟩
  exact hs.element u (h.grown.agents ▸ hu)

/-- The walk passes one more agent. -/
theorem Walked.next {start : State β} {node : Nat} {ret : List β} {v : Thread} (h : Walked owner start s node ret)
    (hv : s.agents[node]? = some v) : Walked owner start s (node + 1) (ret ++ s.element v) := by
  obtain ⟨e, hret, he⟩ := h.seen
  rw [h.grown.agents] at hv
  have hmem : v ∈ start.agents := List.mem_of_getElem? hv
  -- the agent is listed once, so what the walk has seen of the others stands
  have hnot : v ∉ start.agents.take node := fun hin => by
    obtain ⟨k, hk, hkv⟩ := List.mem_take_iff_getElem.1 hin
    obtain ⟨hn, hnv⟩ := List.getElem?_eq_some_iff.1 hv
    have hkn : k = node := h.inv.nodup.getElem_inj_iff.1 (hkv.trans hnv.symm)
    omega
  have hsame : (start.agents.take node).flatMap (Function.update e v (s.element v)) =
      (start.agents.take node).flatMap e :=
    List.flatMap_congr (fun u hu => Function.update_of_ne (fun huv : u = v => hnot (huv ▸ hu)) ..)
  refine ⟨h.inv, h.free, h.grown, Function.update e v (s.element v), ?_, fun u hu => ?_⟩
  · rw [List.take_add_one, hv, List.flatMap_append, hsame, hret, List.append_assoc]
    simp
  · by_cases huv : u = v
    · rw [huv, Function.update_self]
      exact ⟨h.grown.element v hmem, List.prefix_rfl⟩
    · rw [Function.update_of_ne huv]
      exact he u hu

/-- A walk that has passed every agent. -/
theorem Walked.all {start : State β} {node : Nat} {ret : List β} (h : Walked owner start s node ret)
    (hn : s.agents[node]? = none) : Walked owner start s start.agents.length ret := by
  obtain ⟨e, hret, he⟩ := h.seen
  rw [h.grown.agents, List.getElem?_eq_none_iff] at hn
  refine ⟨h.inv, h.free, h.grown, e, ?_, he⟩
  rw [hret, List.take_of_length_le hn, List.take_of_length_le (Nat.le_refl _)]

def ReadOk (owner : β → Thread) (s : State β) (t : Thread) : Read β → Prop
  | .idle                => True
  | .lock                => s.pc t = .idle
  | .walk node ret start => s.pc t = .idle ∧ s.mtx = some t ∧ Walked owner start s node ret

structure Returned.Ok (owner : β → Thread) (r : Returned β) : Prop where
  stop : Inv owner r.stop
  mtx : r.stop.mtx = some r.thread
  pc : r.stop.pc r.thread = .idle
  walked : Walked owner r.start r.stop r.start.agents.length r.value

structure Readers.Inv (owner : β → Thread) (s : Readers β) : Prop where
  base : Combiner.Inv owner s.base
  read : ∀ t, ReadOk owner s.base t (s.read t)
  returned : ∀ r ∈ s.returned, r.Ok owner

theorem Read.isIdle_iff {r : Read β} : r.isIdle = true ↔ r = .idle := by cases r <;> simp [Read.isIdle]

def Readers.Owned (owner : β → Thread) (s : Readers β) : Readers.Label β → Prop
  | .other a => Combiner.Owned owner s.base a
  | _        => True

theorem ReadOk.other {a : Label β} {r : Read β} (h : Inv owner s) (hr : ReadOk owner s t r) (ha : a.thread ≠ t)
    (hs : step s a = some s') : ReadOk owner s' t r := by
  have hpc : s'.pc t = s.pc t := step_pc hs ha
  cases r with
  | idle => trivial
  | lock => exact hpc.trans hr
  | walk node ret start =>
    obtain ⟨hg, hm⟩ := h.grown hr.2.1 ha hs
    exact ⟨hpc.trans hr.1, hm.trans hr.2.1, hr.2.2.mono hg⟩

/-- Another thread's read while `mtx_` is free or changes hands. -/
theorem ReadOk.setMtx {m : Option Thread} {r : Read β} (hr : ReadOk owner s t r) (hm : s.mtx ≠ some t) :
    ReadOk owner { s with mtx := m } t r := by
  cases r with
  | idle => trivial
  | lock => exact hr
  | walk node ret start => exact absurd hr.2.1 hm

theorem Readers.inv_init {s : Readers β} (h : (Readers.system β).init s) : s.Inv owner := by
  obtain ⟨hb, hr, hret⟩ := h
  refine ⟨Combiner.inv_init hb, fun t => ?_, by rw [hret]; exact nofun⟩
  rw [hr]
  trivial

/-- The read of the moving thread, and the others as they were. -/
theorem Readers.Inv.setRead {s : Readers β} {r : Read β} (hb : Combiner.Inv owner s.base)
    (ho : ∀ u, u ≠ t → ReadOk owner s.base u (s.read u)) (hret : ∀ r ∈ s.returned, r.Ok owner)
    (hr : ReadOk owner s.base t r) : (s.setRead t r).Inv owner := by
  refine ⟨hb, fun u => ?_, hret⟩
  show ReadOk owner s.base u (Function.update s.read t r u)
  by_cases hu : u = t
  · rw [hu, Function.update_self]; exact hr
  · rw [Function.update_of_ne hu]; exact ho u hu

theorem Readers.inv_advance {s s' : Readers β} (h : s.Inv owner) (hs : s.advance t = some s') : s'.Inv owner := by
  have hr := h.read t
  cases hp : s.read t with
  | idle => simp only [Readers.advance, hp] at hs; cases hs
  | lock =>
    rw [hp] at hr
    simp only [Readers.advance, hp] at hs
    split at hs
    · rename_i hm
      cases hs
      have hg : Grown s.base { s.base with mtx := some t } :=
        ⟨rfl, rfl, rfl, fun _ _ => List.prefix_rfl, List.prefix_rfl⟩
      refine .setRead (h.base.setMtx hr (.inl hm) (.inr rfl)) (fun u _ => (h.read u).setMtx ?_) h.returned
        ⟨hr, rfl, .begin h.base hm _ hg⟩
      rw [hm]
      exact nofun
    · cases hs
  | walk node ret start =>
    rw [hp] at hr
    obtain ⟨hpc, hm, hw⟩ := hr
    simp only [Readers.advance, hp] at hs
    split at hs
    · rename_i u hu
      cases hs
      exact .setRead h.base (fun u _ => h.read u) h.returned ⟨hpc, hm, hw.next hu⟩
    · rename_i hn
      cases hs
      refine .setRead (h.base.setMtx hpc (.inr hm) (.inl rfl)) (fun u hu => (h.read u).setMtx ?_) ?_ trivial
      · rw [hm]
        exact fun hut => hu (Option.some.inj hut).symm
      · intro r hmem
        rcases List.mem_append.1 hmem with hmem | hmem
        · exact h.returned r hmem
        · rw [List.mem_singleton.1 hmem]
          exact ⟨h.base, hm, hpc, hw.all hn⟩

theorem Readers.inv_step {s s' : Readers β} {a : Readers.Label β} (h : s.Inv owner) (ha : s.Owned owner a)
    (hs : s.step a = some s') : s'.Inv owner := by
  cases a with
  | other a =>
    simp only [Readers.step] at hs
    split at hs
    · rename_i hi
      obtain ⟨b, hb, rfl⟩ := Option.map_eq_some_iff.1 hs
      refine ⟨Combiner.inv_step h.base ha hb, fun t => ?_, h.returned⟩
      by_cases ht : a.thread = t
      · rw [← ht, show s.read a.thread = .idle from Read.isIdle_iff.1 hi]
        trivial
      · exact (h.read t).other h.base ht hb
    · cases hs
  | get t =>
    simp only [Readers.step] at hs
    split at hs
    · rename_i hi
      cases hs
      exact .setRead h.base (fun u _ => h.read u) h.returned (isIdle_iff.1 (Bool.and_eq_true_iff.1 hi).2)
    · cases hs
  | go t => exact Readers.inv_advance h hs

theorem Readers.inv_reachable {s : Readers β} (h : (Readers.system β).ReachableVia (Readers.Owned owner) s) :
    s.Inv owner :=
  System.ReachableVia.invariant (I := fun s : Readers β => s.Inv owner) (fun _ => Readers.inv_init)
    (fun _ _ _ hi ha hs => Readers.inv_step hi ha hs) h

/-- What a read returned of one thread lies between what it found and what it left. -/
theorem Returned.Ok.of_value {r : Returned β} (h : r.Ok owner) (u : Thread) :
    ofThread owner r.start u <+: of owner u (r.start.results.flatten ++ r.value) ∧
      of owner u (r.start.results.flatten ++ r.value) <+: ofThread owner r.stop u := by
  obtain ⟨e, hval, he⟩ := h.walked.seen
  have hg := h.walked.grown
  rw [List.take_length] at hval
  have howned : ∀ t ∈ r.start.agents, ∀ x ∈ e t, owner x = t := fun t ht x hx =>
    h.stop.owned t (hg.agents ▸ ht) x ((he t ht).2.subset hx)
  have hin : r.start.inHand = [] := inHand_of_free h.walked.free
  have hin' : r.stop.inHand = [] := by rw [inHand_of_owner h.mtx, h.pc]; rfl
  have hvalue : of owner u (r.start.results.flatten ++ r.value) =
      of owner u r.start.results.flatten ++ of owner u r.start.globalResult ++ listed r.start.agents e u := by
    rw [hval, of_append, of_append, of_flatMap_element h.walked.inv.nodup howned, List.append_assoc]
  unfold ofThread
  rw [hvalue, hin, hin', hg.results, hg.globalResult, hg.agents, of_nil, List.append_nil]
  simp only [List.prefix_append_right_inj]
  by_cases hu : u ∈ r.start.agents
  · rw [listed_of_mem hu, listed_of_mem hu, listed_of_mem hu]
    exact he u hu
  · rw [listed_of_not_mem hu, listed_of_not_mem hu, listed_of_not_mem hu]
    exact ⟨List.prefix_rfl, List.prefix_rfl⟩

end Owner

/-! ## Any values -/

def Read.map (f : α → β) : Read α → Read β
  | .idle                => .idle
  | .lock                => .lock
  | .walk node ret start => .walk node (ret.map f) (start.map f)

def Returned.map (f : α → β) (r : Returned α) : Returned β := ⟨r.thread, r.value.map f, r.start.map f, r.stop.map f⟩

def Readers.map (f : α → β) (s : Readers α) : Readers β := ⟨s.base.map f, Read.map f ∘ s.read, s.returned.map (.map f)⟩

def Readers.Label.map (f : α → β) : Readers.Label α → Readers.Label β
  | .other a => .other (a.map f)
  | .get t   => .get t
  | .go t    => .go t

@[simp] theorem Read.isIdle_map (f : α → β) (r : Read α) : (r.map f).isIdle = r.isIdle := by cases r <;> rfl

theorem Label.thread_map (f : α → β) (a : Label α) : (a.map f).thread = a.thread := by cases a <;> rfl

theorem Readers.advance_map (f : α → β) (s : Readers α) (t : Thread) :
    (s.map f).advance t = (s.advance t).map (Readers.map f) := by
  unfold Readers.advance
  have hr : (s.map f).read t = (s.read t).map f := rfl
  rw [hr]
  cases s.read t with
  | idle => rfl
  | lock =>
    cases hm : s.base.mtx <;>
      simp [Readers.map, State.map, hm, Readers.setRead, Function.comp_update, Read.map]
  | walk node ret start =>
    cases hn : s.base.agents[node]? <;>
      simp [Readers.map, State.map, hn, Readers.setRead, Function.comp_update, Read.map, Returned.map]

theorem Readers.step_map (f : α → β) (s : Readers α) (a : Readers.Label α) :
    (s.map f).step (a.map f) = (s.step a).map (Readers.map f) := by
  cases a with
  | other a =>
    simp only [Readers.step, Readers.Label.map]
    rw [Label.thread_map, show (s.map f).read a.thread = (s.read a.thread).map f from rfl, Read.isIdle_map,
      show (s.map f).base = s.base.map f from rfl, Combiner.step_map]
    split
    · cases Combiner.step s.base a <;> rfl
    · rfl
  | get t =>
    simp only [Readers.step, Readers.Label.map]
    rw [show (s.map f).read t = (s.read t).map f from rfl, Read.isIdle_map,
      show (s.map f).base.pc t = (s.base.pc t).map f from rfl, Combiner.isIdle_map]
    split
    · simp [Readers.map, Readers.setRead, Function.comp_update, Read.map]
    · rfl
  | go t => exact Readers.advance_map f s t

def Readers.Label.tagged : Readers.Label α → Readers.Label (Thread × α)
  | .other a => .other a.tagged
  | .get t   => .get t
  | .go t    => .go t

theorem Readers.tagged_map_snd (a : Readers.Label α) : a.tagged.map Prod.snd = a := by
  cases a with
  | other a => exact congrArg Readers.Label.other (Combiner.tagged_map_snd a)
  | _ => rfl

theorem Readers.owned_tagged (s : Readers (Thread × α)) (a : Readers.Label α) : s.Owned Prod.fst a.tagged := by
  cases a with
  | other a => exact Combiner.owned_tagged s.base a
  | _ => trivial

theorem Readers.exists_tagged {s : Readers α} (h : (Readers.system α).Reachable s) :
    ∃ s₁, (Readers.system (Thread × α)).ReachableVia (Readers.Owned Prod.fst) s₁ ∧ s₁.map Prod.snd = s := by
  induction h with
  | init h0 =>
    rename_i s
    obtain ⟨hb, hr, hret⟩ := h0
    refine ⟨⟨State.tagged s.base, fun _ => .idle, []⟩, .init ⟨⟨rfl, rfl, rfl, rfl, rfl, rfl, rfl⟩, rfl, rfl⟩, ?_⟩
    cases s
    simp only at hr hret hb
    subst hr hret
    simp only [Readers.map, map_tagged_init hb, List.map_nil]
    rfl
  | step _ _ hs ih =>
    rename_i s s' a _ _
    obtain ⟨s₁, h₁, rfl⟩ := ih
    have hs : (s₁.map Prod.snd).step a = some s' := hs
    rw [← Readers.tagged_map_snd a, Readers.step_map] at hs
    obtain ⟨s₂, h₂, rfl⟩ := Option.map_eq_some_iff.1 hs
    exact ⟨s₂, h₁.step (Readers.owned_tagged s₁ a) h₂, rfl⟩

/-- What has reached the combiner and what is pending are the calls of the thread. -/
theorem ofThread_log {s : State (Thread × α)} (h : Inv Prod.fst s) (u : Thread) :
    ofThread Prod.fst s u ++ ((s.map Prod.snd).pc u).pending.map (Prod.mk u) =
      (s.map Prod.snd).log.filter (fun x => x.1 == u) := by
  have hpend : ((s.map Prod.snd).pc u).pending = (s.pc u).pending.map Prod.snd := pending_map ..
  rw [hpend, map_mk_snd (pending_owner h), filter_log_tagged h, h.of_total]

/-- **A reading counts what was there**: of every thread, what the resets had returned and what `combine_agents` returns
hold the values of all `operator<<` that had returned when it took `mtx_`, in their order and once each, and only
values given to `operator<<` by the time it gave `mtx_` back.  No reset comes between. -/
theorem combine_agents_between {s : Readers α} (h : (Readers.system α).Reachable s) : ∀ r ∈ s.returned,
    r.stop.results = r.start.results ∧ r.start.log <+: r.stop.log ∧
      ∃ taken l : List (Thread × α), taken.map Prod.snd = r.start.results.flatten ∧ l.map Prod.snd = r.value ∧
        ∀ u, ∃ done, done ++ (r.start.pc u).pending.map (Prod.mk u) = r.start.log.filter (fun x => x.1 == u) ∧
          done <+: (taken ++ l).filter (fun x => x.1 == u) ∧
          (taken ++ l).filter (fun x => x.1 == u) <+: r.stop.log.filter (fun x => x.1 == u) := by
  obtain ⟨s₁, h₁, rfl⟩ := Readers.exists_tagged h
  intro r' hr'
  obtain ⟨r, hr, rfl⟩ := List.mem_map.1 hr'
  have hok := (Readers.inv_reachable h₁).returned r hr
  have hg := hok.walked.grown
  refine ⟨congrArg (List.map (List.map Prod.snd)) hg.results, hg.log.map _, r.start.results.flatten, r.value,
    List.map_flatten, rfl, fun u => ⟨ofThread Prod.fst r.start u, ofThread_log hok.walked.inv u, (hok.of_value u).1,
      (hok.of_value u).2.trans ?_⟩⟩
  exact ⟨_, ofThread_log hok.stop u⟩

/-- A thread submits to an agent already passed, then another one to the agent the walk comes to next. -/
def lateRun : List (Readers.Label Nat) :=
  [.other (.submit 1 10), .other (.go 1), .other (.go 1), .other (.submit 2 20), .other (.go 2), .other (.go 2),
    .get 0, .go 0, .go 0, .other (.submit 1 11), .other (.go 1), .other (.submit 2 21), .other (.go 2), .go 0, .go 0]

theorem combine_agents_between_lateRun : ∃ s, (Readers.system Nat).Reachable s ∧
    s.returned.map (fun r => (r.value, r.stop.log)) = [([10, 20, 21], [(1, 10), (2, 20), (1, 11), (2, 21)])] ∧
      ∀ r ∈ s.returned, r.stop.results = r.start.results ∧ r.start.log <+: r.stop.log := by
  have hrun : ((Readers.system Nat).run ⟨emptyState, fun _ => .idle, []⟩ lateRun).map
      (fun s => s.returned.map (fun r => (r.value, r.stop.log))) =
        some [([10, 20, 21], [(1, 10), (2, 20), (1, 11), (2, 21)])] := by decide
  obtain ⟨s, hs, hx⟩ := Option.map_eq_some_iff.1 hrun
  have hreach : (Readers.system Nat).Reachable s :=
    System.Reachable.run (.init ⟨⟨rfl, rfl, rfl, rfl, rfl, rfl, rfl⟩, rfl, rfl⟩) lateRun hs
  exact ⟨s, hreach, hx, fun r hr => ⟨(combine_agents_between hreach r hr).1, (combine_agents_between hreach r hr).2.1⟩⟩

end Combiner
end ContentionProf
