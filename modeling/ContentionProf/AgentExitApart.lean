import ContentionProf.AgentExit
/-!
# AgentExitApart — combiners share no values when exits keep clear of destructions

As long as no thread that has an agent in a combiner's list exits beside the destruction of the combiner, nobody sees
the list half cleared: a state of `AgentExit` is then a state of `AgentGroup` in which a combiner that is being
destroyed has been cleared already (`Refines`), no step is without a defined outcome, and what is proved of the coarse
model holds (`cells_apart`).
-/
namespace ContentionProf
namespace AgentExit

open AgentGroup (Agent Cell Comb Combiner Config Inv Label Owned getTlsAgent)

variable {α : Type} {cfg : Config α} {n : Nat} {f f' : State α} {C C' : Comb → Combiner α} {M M' : Cell → Agent α}
  {t u : Thread} {c d : Comb} {a b : Cell}

/-- The thread is in `destroy_tls_blocks`. -/
def Exiting : AgentGroup.Pc α → Prop
  | .exit _       => True
  | .commit _ _ _ => True
  | _             => False

instance : (p : AgentGroup.Pc α) → Decidable (Exiting p)
  | .exit _         => .isTrue trivial
  | .commit _ _ _   => .isTrue trivial
  | .idle           => .isFalse (fun h => h)
  | .append _ _ _   => .isFalse (fun h => h)
  | .modify _ _ _   => .isFalse (fun h => h)
  | .destroyAgent _ => .isFalse (fun h => h)

/-- **A destruction and an exit keep apart**: no thread in its exit has an agent in the list when a destruction begins,
nor an exit a thread with an agent in a list that is being cleared. -/
def KeepsApart (n : Nat) (f : State α) : Label α → Prop
  | .destroy _ c => ∀ u, Exiting (f.group.pc u) → ∀ a ∈ (f.group.combiners c).agents, ¬ Owned n f.group u a
  | .exit t      => ∀ c, (f.mtx c).isSome = true → ∀ a ∈ (f.group.combiners c).agents, ¬ Owned n f.group t a
  | _            => True

/-! ## The coarse state -/

/-- The state with these combiners and cells. -/
def coarse (g : AgentGroup.State α) (C : Comb → Combiner α) (M : Cell → Agent α) : AgentGroup.State α :=
  { g with combiners := C, mem := M }

/-- The agent is still in a list that is being cleared. -/
def Walked (f : State α) (a : Cell) : Prop := ∃ c, (f.mtx c).isSome = true ∧ a ∈ (f.group.combiners c).agents

def PlaceOk (cfg : Config α) (f : State α) (t : Thread) : Place → Prop
  | .whole       => ∀ c, f.mtx c ≠ some t
  | .call a left => (∀ c, f.mtx c ≠ some t) ∧ f.group.pc t = .exit (a :: left) ∧ (f.group.mem a).combiner ≠ none
  | .clear c     => f.mtx c = some t
  | .store c a   => f.mtx c = some t ∧ (∃ l, (f.group.combiners c).agents = a :: l) ∧ (f.group.mem a).combiner = none
  | .unlink c a  => f.mtx c = some t ∧ (∃ l, (f.group.combiners c).agents = a :: l) ∧
      f.group.mem a = ⟨none, cfg.elementTp⟩

/-- **What a thread relies on at its place**: the mutex it holds with its list, and the cell it tests. -/
theorem PlaceOk.keep {p : Place} (h : PlaceOk cfg f u p) (hmtx : ∀ d, f'.mtx d = some u ↔ f.mtx d = some u)
    (hpc : f'.group.pc u = f.group.pc u)
    (hagents : ∀ d, f.mtx d = some u → (f'.group.combiners d).agents = (f.group.combiners d).agents)
    (hmem : ∀ d, f.mtx d = some u → ∀ a ∈ (f.group.combiners d).agents, f'.group.mem a = f.group.mem a)
    (hexit : ∀ a left, f.group.pc u = .exit (a :: left) → f'.group.mem a = f.group.mem a) : PlaceOk cfg f' u p := by
  cases p with
  | whole => exact fun d hd => h d ((hmtx d).1 hd)
  | call a left =>
    obtain ⟨hno, hp, hc⟩ := h
    exact ⟨fun d hd => hno d ((hmtx d).1 hd), hpc.trans hp, by rw [hexit a left hp]; exact hc⟩
  | clear d => exact (hmtx d).2 h
  | store d a =>
    obtain ⟨hd, ⟨l, hl⟩, hm⟩ := h
    exact ⟨(hmtx d).2 hd, ⟨l, (hagents d hd).trans hl⟩, by
      rw [hmem d hd a (by rw [hl]; exact List.mem_cons_self)]; exact hm⟩
  | unlink d a =>
    obtain ⟨hd, ⟨l, hl⟩, hm⟩ := h
    exact ⟨(hmtx d).2 hd, ⟨l, (hagents d hd).trans hl⟩, by
      rw [hmem d hd a (by rw [hl]; exact List.mem_cons_self)]; exact hm⟩

/-- The agent is between lines 110 and 214. -/
def Place.resets : Place → Option (Comb × Cell)
  | .store c a  => some (c, a)
  | .unlink c a => some (c, a)
  | _           => none

/-- **What the state is in the coarse model**: a list that is being cleared is empty and its agents are as they will
be. -/
structure Refines (cfg : Config α) (f : State α) (C : Comb → Combiner α) (M : Cell → Agent α) : Prop where
  defined : f.undefined = false
  locked : ∀ c, (f.mtx c).isSome = true → C c = { f.group.combiners c with agents := [] }
  unlocked : ∀ c, f.mtx c = none → C c = f.group.combiners c
  walked : ∀ a, Walked f a → M a = ⟨none, cfg.elementTp⟩
  unwalked : ∀ a, ¬ Walked f a → M a = f.group.mem a
  owner : ∀ c, (f.mtx c).isSome = true → ∀ a ∈ (f.group.combiners c).agents, ∃ u id,
    (f.group.combiners c).id = some id ∧ getTlsAgent cfg.elementPerBlock (f.group.tls u) id = some a ∧
      ¬ Exiting (f.group.pc u)
  nodup : ∀ c, (f.mtx c).isSome = true → (f.group.combiners c).agents.Nodup
  pointer : ∀ c t, f.mtx c = some t → ∀ a ∈ (f.group.combiners c).agents, (f.place t).resets ≠ some (c, a) →
    (f.group.mem a).combiner = some c
  mtx : ∀ c t, f.mtx c = some t → f.group.pc t = .destroyAgent c
  place : ∀ t, PlaceOk cfg f t (f.place t)
  commit : ∀ t c a left, f.group.pc t = .commit c a left → (f.group.mem a).combiner = some c
  dead : ∀ a, f.dead a = true → a.block < f.group.nblocks ∧
    ∀ t, Owned cfg.elementPerBlock f.group t a → Exiting (f.group.pc t)

theorem refines_init : Refines cfg (initState α) (AgentGroup.initState α).combiners (AgentGroup.initState α).mem where
  defined := rfl
  locked := fun _ h => by cases h
  unlocked := fun _ _ => rfl
  walked := by
    rintro a ⟨c, hc, -⟩
    cases hc
  unwalked := fun _ _ => rfl
  owner := fun _ h => by cases h
  nodup := fun _ h => by cases h
  pointer := fun _ _ h => by cases h
  mtx := fun _ _ h => by cases h
  place := fun _ _ h => by cases h
  commit := fun _ _ _ _ h => by cases h
  dead := fun _ h => by cases h

section

variable (h : Refines cfg f C M) (hi : Inv cfg.elementPerBlock (coarse f.group C M))

/-! ## Who is walked -/

include h

theorem Refines.id_eq (c : Comb) : (C c).id = (f.group.combiners c).id := by
  cases hc : f.mtx c with
  | none => rw [h.unlocked c hc]
  | some t => rw [h.locked c (by rw [hc]; rfl)]

theorem Refines.live_eq (c : Comb) : (C c).live = (f.group.combiners c).live := by
  cases hc : f.mtx c with
  | none => rw [h.unlocked c hc]
  | some t => rw [h.locked c (by rw [hc]; rfl)]

theorem Refines.mtx_inj (hc : f.mtx c = some t) (hd : f.mtx d = some t) : c = d := by
  have hpc := h.mtx c t hc
  rw [h.mtx d t hd] at hpc
  cases hpc
  rfl

include hi

/-- A combiner that is being destroyed still has its id. -/
theorem Refines.dying (hc : f.mtx c = some t) :
    (f.group.combiners c).live = false ∧ (f.group.combiners c).id ≠ none := by
  have hok : AgentGroup.PcOk cfg.elementPerBlock (coarse f.group C M) t (f.group.pc t) := hi.pc t
  rw [h.mtx c t hc] at hok
  exact ⟨(h.live_eq c).symm.trans hok.1, fun hn => hok.2 ((h.id_eq c).trans hn)⟩

theorem Refines.unlocked_of_live (hl : (f.group.combiners c).live = true) : f.mtx c = none := by
  cases hc : f.mtx c with
  | none => rfl
  | some t =>
    rw [(h.dying hi hc).1] at hl
    cases hl

theorem Refines.not_walked_of_exiting (ht : Exiting (f.group.pc t)) (ho : Owned cfg.elementPerBlock f.group t a) :
    ¬ Walked f a := by
  rintro ⟨c, hc, ha⟩
  obtain ⟨u, id, -, hget, hu⟩ := h.owner c hc a ha
  have hut := hi.owner_unique (t := u) (u := t) (Owned.of_get cfg.elementPerBlock_pos hget) ho
  rw [hut] at hu
  exact hu ht

/-- The agent whose destructor comes next is the thread's, and nobody walks it. -/
theorem Refines.exit_cell {left : List Cell} (hp : f.group.pc t = .exit (a :: left)) :
    Owned cfg.elementPerBlock f.group t a ∧ ¬ Walked f a := by
  have hok : AgentGroup.PcOk cfg.elementPerBlock (coarse f.group C M) t (f.group.pc t) := hi.pc t
  rw [hp] at hok
  have hown : Owned cfg.elementPerBlock f.group t a := hok.2 a List.mem_cons_self
  exact ⟨hown, h.not_walked_of_exiting hi (by rw [hp]; trivial) hown⟩

/-- Two ids have two cells, so the agents of another combiner are not walked. -/
theorem Refines.eq_of_walked {id : Nat} (hid : (f.group.combiners c).id = some id)
    (hget : getTlsAgent cfg.elementPerBlock (f.group.tls t) id = some a) (hd : (f.mtx d).isSome = true)
    (ha : a ∈ (f.group.combiners d).agents) : c = d := by
  obtain ⟨u, i, hi', hget', -⟩ := h.owner d hd a ha
  have hut := hi.owner_unique (t := u) (u := t) (Owned.of_get cfg.elementPerBlock_pos hget')
    (Owned.of_get cfg.elementPerBlock_pos hget)
  rw [hut] at hget'
  have hij := hi.get_inj (t := t) hget' hget
  exact hi.ids c d id ((h.id_eq c).trans hid) ((h.id_eq d).trans (hij ▸ hi'))

theorem Refines.not_walked_of_live {id : Nat} (hl : (f.group.combiners c).live = true)
    (hid : (f.group.combiners c).id = some id)
    (hget : getTlsAgent cfg.elementPerBlock (f.group.tls t) id = some a) : ¬ Walked f a := by
  rintro ⟨d, hd, ha⟩
  have hcd := h.eq_of_walked hi hid hget hd ha
  rw [← hcd, h.unlocked_of_live hi hl] at hd
  cases hd

theorem Refines.walked_unique (hc : (f.mtx c).isSome = true) (ha : a ∈ (f.group.combiners c).agents)
    (hd : (f.mtx d).isSome = true) (hb : a ∈ (f.group.combiners d).agents) : c = d := by
  obtain ⟨u, id, hid, hget, -⟩ := h.owner c hc a ha
  exact h.eq_of_walked hi hid hget hd hb

/-- An agent of a list that is not being cleared points to its combiner. -/
theorem Refines.listed (hc : f.mtx c = none) (ha : a ∈ (f.group.combiners c).agents) :
    ¬ Walked f a ∧ (f.group.mem a).combiner = some c := by
  have hM : (M a).combiner = some c := hi.listed a c (by
    show a ∈ (C c).agents
    rw [h.unlocked c hc]
    exact ha)
  have hw : ¬ Walked f a := by
    intro hw
    rw [h.walked a hw] at hM
    cases hM
  exact ⟨hw, h.unwalked a hw ▸ hM⟩

omit hi in
/-- The agents of a walk are not dead. -/
theorem Refines.not_dead (hc : (f.mtx c).isSome = true) (ha : a ∈ (f.group.combiners c).agents) :
    f.dead a = false := by
  cases hdead : f.dead a with
  | false => rfl
  | true =>
    obtain ⟨u, id, -, hget, hu⟩ := h.owner c hc a ha
    exact absurd ((h.dead a hdead).2 u (Owned.of_get cfg.elementPerBlock_pos hget)) hu

/-! ## Steps of the coarse model -/

/-- **A step of a thread that walks no list.** -/
theorem Refines.frame (hmtx : f'.mtx = f.mtx) (hdefined : f'.undefined = false)
    (hidle : ∀ c, f.mtx c ≠ some t) (hplace : ∀ u, u ≠ t → f'.place u = f.place u)
    (hself : PlaceOk cfg f' t (f'.place t)) (hpc : ∀ u, u ≠ t → f'.group.pc u = f.group.pc u)
    (hlocked : ∀ c, (f.mtx c).isSome = true → f'.group.combiners c = f.group.combiners c ∧ C' c = C c)
    (hunlocked : ∀ c, f.mtx c = none → C' c = f'.group.combiners c)
    (hwalked : ∀ a, Walked f a → f'.group.mem a = f.group.mem a ∧ M' a = M a)
    (hunwalked : ∀ a, ¬ Walked f a → M' a = f'.group.mem a)
    (hmem : ∀ u, u ≠ t → ∀ a, Owned cfg.elementPerBlock f.group u a → f'.group.mem a = f.group.mem a)
    (hget : ∀ u i a, ¬ Exiting (f.group.pc u) → getTlsAgent cfg.elementPerBlock (f.group.tls u) i = some a →
      getTlsAgent cfg.elementPerBlock (f'.group.tls u) i = some a)
    (hexit : ∀ a, Walked f a → Owned cfg.elementPerBlock f.group t a → ¬ Exiting (f.group.pc t) →
      ¬ Exiting (f'.group.pc t))
    (hcommit : ∀ c a left, f'.group.pc t = .commit c a left → (f'.group.mem a).combiner = some c)
    (hdead : ∀ a, f'.dead a = true → a.block < f'.group.nblocks ∧
      ∀ u, Owned cfg.elementPerBlock f'.group u a → Exiting (f'.group.pc u)) : Refines cfg f' C' M' := by
  have hwalk : ∀ a, Walked f' a ↔ Walked f a := by
    intro a
    refine exists_congr (fun c => ?_)
    rw [hmtx]
    refine and_congr_right (fun hc => ?_)
    rw [(hlocked c hc).1]
  have hholder : ∀ {c u}, f.mtx c = some u → u ≠ t := by
    rintro c u hc rfl
    exact hidle c hc
  -- what a walking thread sees is as it was
  have hhead : ∀ {c u}, f.mtx c = some u → f'.group.combiners c = f.group.combiners c :=
    fun hc => (hlocked _ (by rw [hc]; rfl)).1
  constructor
  case defined => exact hdefined
  case locked => intro c hc; rw [hmtx] at hc; rw [(hlocked c hc).2, (hlocked c hc).1]; exact h.locked c hc
  case unlocked => intro c hc; rw [hmtx] at hc; exact hunlocked c hc
  case walked => intro a ha; rw [hwalk] at ha; rw [(hwalked a ha).2]; exact h.walked a ha
  case unwalked => intro a ha; rw [hwalk] at ha; exact hunwalked a ha
  case owner =>
    intro c hc a ha
    rw [hmtx] at hc
    rw [(hlocked c hc).1] at ha ⊢
    obtain ⟨u, id, hid, hg, hu⟩ := h.owner c hc a ha
    refine ⟨u, id, hid, hget u id a hu hg, ?_⟩
    by_cases hut : u = t
    · subst hut
      exact hexit a ⟨c, hc, ha⟩ (Owned.of_get cfg.elementPerBlock_pos hg) hu
    · rw [hpc u hut]; exact hu
  case nodup => intro c hc; rw [hmtx] at hc; rw [(hlocked c hc).1]; exact h.nodup c hc
  case pointer =>
    intro c u hc a ha hne
    rw [hmtx] at hc
    rw [hhead hc] at ha
    rw [hplace u (hholder hc)] at hne
    rw [(hwalked a ⟨c, by rw [hc]; rfl, ha⟩).1]
    exact h.pointer c u hc a ha hne
  case mtx => intro c u hc; rw [hmtx] at hc; rw [hpc u (hholder hc)]; exact h.mtx c u hc
  case place =>
    intro u
    by_cases hut : u = t
    · rw [hut]; exact hself
    rw [hplace u hut]
    exact (h.place u).keep (fun d => by rw [hmtx]) (hpc u hut) (fun d hd => by rw [hhead hd])
      (fun d hd a ha => (hwalked a ⟨d, by rw [hd]; rfl, ha⟩).1) (fun a left hp => hmem u hut a (h.exit_cell hi hp).1)
  case commit =>
    intro u c a left hp
    by_cases hut : u = t
    · rw [hut] at hp; exact hcommit c a left hp
    rw [hpc u hut] at hp
    have hok : AgentGroup.PcOk cfg.elementPerBlock (coarse f.group C M) u (f.group.pc u) := hi.pc u
    rw [hp] at hok
    rw [hmem u hut a (hok.2.1 a List.mem_cons_self)]
    exact h.commit u c a left hp
  case dead => exact hdead

/-- The coarse model goes along, by one step or none. -/
def Follows (cfg : Config α) (f' : State α) (s : AgentGroup.State α) : Prop :=
  ∃ C' M', Refines cfg f' C' M' ∧
    (coarse f'.group C' M' = s ∨ ∃ l, AgentGroup.step cfg s l = some (coarse f'.group C' M'))

omit hi in
theorem Refines.update_combiner (hc : f.mtx c = none) (k : Combiner α → Combiner α) :
    (∀ d, (f.mtx d).isSome = true →
      Function.update f.group.combiners c (k (f.group.combiners c)) d = f.group.combiners d ∧
        Function.update C c (k (C c)) d = C d) ∧
    ∀ d, f.mtx d = none →
      Function.update C c (k (C c)) d = Function.update f.group.combiners c (k (f.group.combiners c)) d := by
  refine ⟨fun d hd => ?_, fun d hd => ?_⟩
  · have hdc : d ≠ c := by
      rintro rfl
      rw [hc] at hd
      cases hd
    exact ⟨Function.update_of_ne hdc .., Function.update_of_ne hdc ..⟩
  · rw [Function.update_apply, Function.update_apply, h.unlocked d hd, h.unlocked c hc]

omit hi in
theorem Refines.update_cell (ha : ¬ Walked f a) (k : Agent α → Agent α) :
    (∀ b, Walked f b → Function.update f.group.mem a (k (f.group.mem a)) b = f.group.mem b ∧
      Function.update M a (k (M a)) b = M b) ∧
    ∀ b, ¬ Walked f b → Function.update M a (k (M a)) b = Function.update f.group.mem a (k (f.group.mem a)) b := by
  refine ⟨fun b hb => ?_, fun b hb => ?_⟩
  · have hba : b ≠ a := by
      rintro rfl
      exact ha hb
    exact ⟨Function.update_of_ne hba .., Function.update_of_ne hba ..⟩
  · rw [Function.update_apply, Function.update_apply, h.unwalked b hb, h.unwalked a ha]

omit h in
/-- A cell of one thread is none of another's. -/
theorem mem_update_other {x : Agent α} (ha : Owned cfg.elementPerBlock f.group t a) (u : Thread) (hu : u ≠ t)
    (b : Cell) (hb : Owned cfg.elementPerBlock f.group u b) : Function.update f.group.mem a x b = f.group.mem b := by
  refine Function.update_of_ne ?_ ..
  rintro rfl
  exact hu (hi.owner_unique (t := u) (u := t) hb ha)

omit hi in
theorem Refines.idle (hw : f.place t = .whole) (c : Comb) : f.mtx c ≠ some t := by
  have := h.place t
  rw [hw] at this
  exact this c

omit hi in
theorem Refines.placeOk_whole {g : AgentGroup.State α} {dead : Cell → Bool} (hw : f.place t = .whole) :
    PlaceOk cfg { f with group := g, dead := dead } t (f.place t) := by
  rw [hw]
  exact h.idle hw

omit hi in
theorem Refines.dead_kept {g : AgentGroup.State α} (htls : g.tls = f.group.tls) (hnb : g.nblocks = f.group.nblocks)
    (hpc : ∀ u, u ≠ t → g.pc u = f.group.pc u) (hexit : Exiting (f.group.pc t) → Exiting (g.pc t))
    (ha : f.dead a = true) : a.block < g.nblocks ∧ ∀ u, Owned cfg.elementPerBlock g u a → Exiting (g.pc u) := by
  obtain ⟨hlt, hown⟩ := h.dead a ha
  refine ⟨hnb ▸ hlt, fun u hu => ?_⟩
  have hu : Exiting (f.group.pc u) := hown u (hu.of_tls (by rw [htls]))
  by_cases hut : u = t
  · rw [hut] at hu ⊢
    exact hexit hu
  · rw [hpc u hut]
    exact hu

/-- **A step of a thread that is in no exit, before or after.** -/
theorem Refines.plain {g : AgentGroup.State α} (hw : f.place t = .whole) (hpc : ∀ u, u ≠ t → g.pc u = f.group.pc u)
    (hold : ¬ Exiting (f.group.pc t)) (hnew : ¬ Exiting (g.pc t)) (htls : g.tls = f.group.tls)
    (hnb : g.nblocks = f.group.nblocks)
    (hcomb : (∀ c, (f.mtx c).isSome = true → g.combiners c = f.group.combiners c ∧ C' c = C c) ∧
      ∀ c, f.mtx c = none → C' c = g.combiners c)
    (hcell : (∀ a, Walked f a → g.mem a = f.group.mem a ∧ M' a = M a) ∧ ∀ a, ¬ Walked f a → M' a = g.mem a)
    (hmem : ∀ u, u ≠ t → ∀ a, Owned cfg.elementPerBlock f.group u a → g.mem a = f.group.mem a) :
    Refines cfg { f with group := g } C' M' := by
  refine h.frame hi (t := t) rfl h.defined (h.idle hw) (fun _ _ => rfl) ?_ hpc hcomb.1 hcomb.2 hcell.1 hcell.2 hmem
    (fun _ _ _ _ hg => htls ▸ hg) (fun _ _ _ _ => hnew) (fun c a left hm => ?_)
    (fun a ha => h.dead_kept (t := t) htls hnb hpc (fun hex => absurd hex hold) ha)
  · exact h.placeOk_whole hw
  · rw [hm] at hnew
    exact absurd trivial hnew

/-- `~Agent` of an exiting thread has ended. -/
theorem Refines.dead_ended {g : AgentGroup.State α} (hown : Owned cfg.elementPerBlock f.group t a)
    (hpc : ∀ u, u ≠ t → g.pc u = f.group.pc u) (hself : Exiting (g.pc t))
    (htls : g.tls = f.group.tls) (hnb : g.nblocks = f.group.nblocks) (hb : Function.update f.dead a true b = true) :
    b.block < g.nblocks ∧ ∀ u, Owned cfg.elementPerBlock g u b → Exiting (g.pc u) := by
  by_cases hba : b = a
  · rw [hba]
    obtain ⟨k, hk⟩ := hown.2
    refine ⟨hnb ▸ hi.fresh t k _ hk, fun u hu => ?_⟩
    have hu : Owned cfg.elementPerBlock f.group u a := hu.of_tls (by rw [htls])
    rw [hi.owner_unique (t := u) (u := t) hu hown]
    exact hself
  · rw [Function.update_of_ne hba] at hb
    exact h.dead_kept (t := t) htls hnb hpc (fun _ => hself) hb

theorem Refines.append {v : α} (hw : f.place t = .whole) (hp : f.group.pc t = .append c a v) :
    Follows cfg { f with group := (f.group.setCombiner c { f.group.combiners c with
      agents := (f.group.combiners c).agents ++ [a] }).setPc t (.modify c a v) } (coarse f.group C M) := by
  have hok : AgentGroup.PcOk cfg.elementPerBlock (coarse f.group C M) t (f.group.pc t) := hi.pc t
  rw [hp] at hok
  have hc : f.mtx c = none := h.unlocked_of_live hi ((h.live_eq c).symm.trans hok.1)
  refine ⟨_, M, h.plain hi (t := t) hw (fun u hu => Function.update_of_ne hu ..) (by rw [hp]; exact fun h => h)
    (by rw [AgentGroup.setPc_pc_self]; exact fun h => h) rfl rfl
    (h.update_combiner hc (fun x => { x with agents := x.agents ++ [a] })) ⟨fun _ _ => ⟨rfl, rfl⟩, h.unwalked⟩
    (fun _ _ _ _ => rfl), .inr ⟨.go t, ?_⟩⟩
  show AgentGroup.advance (coarse f.group C M) t = _
  rw [AgentGroup.advance, show (coarse f.group C M).pc t = .append c a v from hp]
  rfl

theorem Refines.modify {v : α} (hw : f.place t = .whole) (hp : f.group.pc t = .modify c a v) :
    Follows cfg { f with group := { f.group.setAgent a { f.group.mem a with element := (f.group.mem a).element ++ [v] }
      with users := Function.update f.group.users c ((f.group.users c).filter (· ≠ t)) }.setPc t .idle }
      (coarse f.group C M) := by
  have hok : AgentGroup.PcOk cfg.elementPerBlock (coarse f.group C M) t (f.group.pc t) := hi.pc t
  rw [hp] at hok
  obtain ⟨hl, ⟨id, hid, hget⟩, -⟩ := hok
  have hown := Owned.of_get (s := f.group) cfg.elementPerBlock_pos hget
  have hnw : ¬ Walked f a :=
    h.not_walked_of_live hi ((h.live_eq c).symm.trans hl) ((h.id_eq c).symm.trans hid) hget
  refine ⟨C, _, h.plain hi (t := t) hw (fun u hu => Function.update_of_ne hu ..) (by rw [hp]; exact fun h => h)
    (by rw [AgentGroup.setPc_pc_self]; exact fun h => h) rfl rfl ⟨fun _ _ => ⟨rfl, rfl⟩, h.unlocked⟩
    (h.update_cell hnw (fun x => { x with element := x.element ++ [v] })) (mem_update_other hi hown), .inr ⟨.go t, ?_⟩⟩
  show AgentGroup.advance (coarse f.group C M) t = _
  rw [AgentGroup.advance, show (coarse f.group C M).pc t = .modify c a v from hp]
  rfl

/-- Line 103, when there is no combiner. -/
theorem Refines.skip {left : List Cell} (hw : f.place t = .whole) (hp : f.group.pc t = .exit (a :: left))
    (hc : (f.group.mem a).combiner = none) :
    Follows cfg (f.endAgent a (f.group.setPc t (.exit left))) (coarse f.group C M) := by
  obtain ⟨hown, hnw⟩ := h.exit_cell hi hp
  have hM : M a = f.group.mem a := h.unwalked a hnw
  refine ⟨C, M, h.frame hi (t := t) rfl h.defined (h.idle hw) (fun _ _ => rfl) ?_
    (fun u hu => Function.update_of_ne hu ..) (fun _ _ => ⟨rfl, rfl⟩) h.unlocked (fun _ _ => ⟨rfl, rfl⟩) h.unwalked
    (fun _ _ _ _ => rfl) (fun _ _ _ _ hg => hg) (fun b _ _ hex => ?_) (fun d b l hm => ?_) (fun b hb => ?_),
    .inr ⟨.go t, ?_⟩⟩
  · exact h.placeOk_whole hw
  · rw [hp] at hex
    exact absurd trivial hex
  · have hm : (f.group.setPc t (.exit left)).pc t = .commit d b l := hm
    rw [AgentGroup.setPc_pc_self] at hm
    cases hm
  · have hself : Exiting ((f.group.setPc t (.exit left)).pc t) := by rw [AgentGroup.setPc_pc_self]; trivial
    exact h.dead_ended hi hown (fun u hu => Function.update_of_ne hu ..) hself rfl rfl hb
  · show AgentGroup.advance (coarse f.group C M) t = _
    rw [AgentGroup.advance, show (coarse f.group C M).pc t = .exit (a :: left) from hp]
    dsimp only
    rw [show ((coarse f.group C M).mem a).combiner = none from (congrArg Agent.combiner hM).trans hc]
    rfl

/-- Line 103, when there is one. -/
theorem Refines.pass {left : List Cell} (hw : f.place t = .whole) (hp : f.group.pc t = .exit (a :: left))
    (hc : (f.group.mem a).combiner ≠ none) : Follows cfg (f.goto t (.call a left) f.group) (coarse f.group C M) := by
  refine ⟨C, M, h.frame hi (t := t) rfl h.defined (h.idle hw) (fun u hu => Function.update_of_ne hu ..) ?_
    (fun _ _ => rfl) (fun _ _ => ⟨rfl, rfl⟩) h.unlocked (fun _ _ => ⟨rfl, rfl⟩) h.unwalked (fun _ _ _ _ => rfl)
    (fun _ _ _ _ hg => hg) (fun _ _ _ hex => hex) (fun d b l hm => h.commit t d b l hm) h.dead, .inl rfl⟩
  show PlaceOk cfg _ t (Function.update f.place t (.call a left) t)
  rw [Function.update_self]
  exact ⟨h.idle hw, hp, hc⟩

/-- Line 104: the pointer is read again. -/
theorem Refines.call {left : List Cell} (hw : f.place t = .call a left) (hc : (f.group.mem a).combiner = some c) :
    Follows cfg (f.goto t .whole (f.group.setPc t (.commit c a left))) (coarse f.group C M) := by
  obtain ⟨hidle, hp, -⟩ : PlaceOk cfg f t (.call a left) := hw ▸ h.place t
  obtain ⟨hown, hnw⟩ := h.exit_cell hi hp
  have hM : M a = f.group.mem a := h.unwalked a hnw
  refine ⟨C, M, h.frame hi (t := t) rfl h.defined hidle (fun u hu => Function.update_of_ne hu ..) ?_
    (fun u hu => Function.update_of_ne hu ..) (fun _ _ => ⟨rfl, rfl⟩) h.unlocked (fun _ _ => ⟨rfl, rfl⟩) h.unwalked
    (fun _ _ _ _ => rfl) (fun _ _ _ _ hg => hg) (fun b _ _ hex => ?_) (fun d b l hm => ?_)
    (fun b hb => h.dead_kept (t := t) rfl rfl (fun u hu => Function.update_of_ne hu ..) (fun _ => ?_) hb),
    .inr ⟨.go t, ?_⟩⟩
  · show PlaceOk cfg _ t (Function.update f.place t .whole t)
    rw [Function.update_self]
    exact hidle
  · rw [hp] at hex
    exact absurd trivial hex
  · have hm : (f.group.setPc t (.commit c a left)).pc t = .commit d b l := hm
    rw [AgentGroup.setPc_pc_self] at hm
    cases hm
    exact hc
  · show Exiting ((f.group.setPc t (.commit c a left)).pc t)
    rw [AgentGroup.setPc_pc_self]
    trivial
  · show AgentGroup.advance (coarse f.group C M) t = _
    rw [AgentGroup.advance, show (coarse f.group C M).pc t = .exit (a :: left) from hp]
    dsimp only
    rw [show ((coarse f.group C M).mem a).combiner = some c from (congrArg Agent.combiner hM).trans hc]
    rfl

/-- The combiner of a `commit_and_erase` is alive. -/
theorem Refines.live_of_commit {left : List Cell} (hp : f.group.pc t = .commit c a left) :
    Owned cfg.elementPerBlock f.group t a ∧ ¬ Walked f a ∧ (f.group.combiners c).live = true := by
  have hok : AgentGroup.PcOk cfg.elementPerBlock (coarse f.group C M) t (f.group.pc t) := hi.pc t
  rw [hp] at hok
  have hown : Owned cfg.elementPerBlock f.group t a := hok.2.1 a List.mem_cons_self
  have hnw : ¬ Walked f a := h.not_walked_of_exiting hi (by rw [hp]; trivial) hown
  have hM : (M a).combiner = some c := h.unwalked a hnw ▸ h.commit t c a left hp
  exact ⟨hown, hnw, (h.live_eq c).symm.trans (hi.combiner a c hM).1⟩

theorem Refines.commitAndErase {left : List Cell} (hw : f.place t = .whole) (hp : f.group.pc t = .commit c a left) :
    Follows cfg (f.endAgent a ((f.group.commitAndErase c a).setPc t (.exit left))) (coarse f.group C M) := by
  obtain ⟨hown, hnw, hl⟩ := h.live_of_commit hi hp
  have hM : M a = f.group.mem a := h.unwalked a hnw
  obtain ⟨hlocked, hunlocked⟩ := h.update_combiner (h.unlocked_of_live hi hl) (fun x => { x with
    globalResult := x.globalResult ++ (f.group.mem a).element
    agents := x.agents.erase a })
  obtain ⟨hwalked, hunwalked⟩ := h.update_cell hnw (fun x => { x with combiner := none })
  refine ⟨_, _, h.frame hi (t := t) rfl h.defined (h.idle hw) (fun _ _ => rfl) ?_
    (fun u hu => Function.update_of_ne hu ..) hlocked hunlocked hwalked hunwalked (mem_update_other hi hown)
    (fun _ _ _ _ hg => hg) (fun b _ _ hex => ?_) (fun d b l hm => ?_) (fun b hb => ?_), .inr ⟨.go t, ?_⟩⟩
  · exact h.placeOk_whole hw
  · rw [hp] at hex
    exact absurd trivial hex
  · have hm : ((f.group.commitAndErase c a).setPc t (.exit left)).pc t = .commit d b l := hm
    rw [AgentGroup.setPc_pc_self] at hm
    cases hm
  · have hself : Exiting (((f.group.commitAndErase c a).setPc t (.exit left)).pc t) := by
      rw [AgentGroup.setPc_pc_self]; trivial
    exact h.dead_ended hi hown (fun u hu => Function.update_of_ne hu ..) hself rfl rfl hb
  · show AgentGroup.advance (coarse f.group C M) t = _
    rw [AgentGroup.advance, show (coarse f.group C M).pc t = .commit c a left from hp]
    have hlive : ((coarse f.group C M).combiners c).live = true := (h.live_eq c).trans hl
    simp only [hlive, if_true]
    rw [AgentGroup.State.commitAndErase, ← hM]
    rfl

/-- The last lines of `destroy_tls_blocks`. -/
theorem Refines.exitEnd (hw : f.place t = .whole) (hp : f.group.pc t = .exit []) :
    Follows cfg { f with group := { f.group with tls := Function.update f.group.tls t none }.setPc t .idle }
      (coarse f.group C M) := by
  have hne : ∀ {u}, ¬ Exiting (f.group.pc u) → u ≠ t := by
    rintro u hu rfl
    rw [hp] at hu
    exact hu trivial
  refine ⟨C, M, h.frame hi (t := t) rfl h.defined (h.idle hw) (fun _ _ => rfl) ?_
    (fun u hu => Function.update_of_ne hu ..) (fun _ _ => ⟨rfl, rfl⟩) h.unlocked (fun _ _ => ⟨rfl, rfl⟩) h.unwalked
    (fun _ _ _ _ => rfl) (fun u i b hu hg => ?_) (fun b _ _ hex => absurd rfl (hne hex)) (fun d b l hm => ?_)
    (fun b hb => ⟨(h.dead b hb).1, fun u hu => ?_⟩), .inr ⟨.go t, ?_⟩⟩
  · exact h.placeOk_whole hw
  · show getTlsAgent _ (Function.update f.group.tls t none u) i = some b
    rw [Function.update_of_ne (hne hu)]
    exact hg
  · have hm : (({ f.group with tls := Function.update f.group.tls t none }).setPc t .idle).pc t = .commit d b l := hm
    rw [AgentGroup.setPc_pc_self] at hm
    cases hm
  · obtain ⟨ho, k, hk⟩ := hu
    have hk : AgentGroup.blockAt (Function.update f.group.tls t none u) k = some b.block := hk
    have hut : u ≠ t := by
      rintro rfl
      rw [Function.update_self] at hk
      cases hk
    rw [Function.update_of_ne hut] at hk
    rw [AgentGroup.setPc_pc_of_ne hut]
    exact (h.dead b hb).2 u ⟨ho, k, hk⟩
  · show AgentGroup.advance (coarse f.group C M) t = _
    rw [AgentGroup.advance, show (coarse f.group C M).pc t = .exit [] from hp]
    rfl

/-- Line 141. -/
theorem Refines.destroyAgent {id : Nat} (hw : f.place t = .whole) (hp : f.group.pc t = .destroyAgent c)
    (hid : (f.group.combiners c).id = some id) :
    Follows cfg { f with group := { f.group.setCombiner c { f.group.combiners c with id := none } with
      freeIds := if id < f.group.agentKinds then id :: f.group.freeIds else f.group.freeIds }.setPc t .idle }
      (coarse f.group C M) := by
  -- nobody holds `mtx_` any more
  have hc : f.mtx c = none := by
    cases hc : f.mtx c with
    | none => rfl
    | some u =>
      have hut : u = t := hi.destroys u t c (h.mtx c u hc) hp
      exact absurd (hut ▸ hc) (h.idle hw c)
  refine ⟨_, M, h.plain hi (t := t) hw (fun u hu => Function.update_of_ne hu ..) (by rw [hp]; exact fun h => h)
    (by rw [AgentGroup.setPc_pc_self]; exact fun h => h) rfl rfl (h.update_combiner hc (fun x => { x with id := none }))
    ⟨fun _ _ => ⟨rfl, rfl⟩, h.unwalked⟩ (fun _ _ _ _ => rfl), .inr ⟨.go t, ?_⟩⟩
  show AgentGroup.advance (coarse f.group C M) t = _
  rw [AgentGroup.advance, show (coarse f.group C M).pc t = .destroyAgent c from hp]
  dsimp only
  rw [show ((coarse f.group C M).combiners c).id = some id from (h.id_eq c).trans hid]
  rfl

/-! ## Calls -/

omit hi in
theorem Refines.place_of_idle (hp : f.group.pc t = .idle) : f.place t = .whole := by
  have hno : ∀ c, f.mtx c ≠ some t := by
    intro c hc
    have := h.mtx c t hc
    rw [hp] at this
    cases this
  have ht := h.place t
  cases hw : f.place t with
  | whole => rfl
  | call a left =>
    rw [hw] at ht
    rw [ht.2.1] at hp
    cases hp
  | clear c => rw [hw] at ht; exact absurd ht (hno c)
  | store c a => rw [hw] at ht; exact absurd ht.1 (hno c)
  | unlink c a => rw [hw] at ht; exact absurd ht.1 (hno c)

theorem Refines.construct (hp : f.group.pc t = .idle) :
    Follows cfg { f with group := AgentGroup.construct f.group } (coarse f.group C M) := by
  have hrest : f.group.createNewAgent.1.tls = f.group.tls ∧ f.group.createNewAgent.1.nblocks = f.group.nblocks ∧
      f.group.createNewAgent.1.pc = f.group.pc ∧ f.group.createNewAgent.1.mem = f.group.mem ∧
      f.group.createNewAgent.1.combiners = f.group.combiners := by
    unfold AgentGroup.State.createNewAgent
    split <;> exact ⟨rfl, rfl, rfl, rfl, rfl⟩
  obtain ⟨htls, hnb, hpc, hmem, hcomb⟩ := hrest
  have hnew : f.mtx f.group.ncombiners = none := by
    cases hc : f.mtx f.group.ncombiners with
    | none => rfl
    | some u =>
      have hun : C f.group.ncombiners = .unused α := hi.unused _ (Nat.le_refl _)
      refine absurd ?_ (h.dying hi hc).2
      rw [← h.id_eq, hun]
      rfl
  have hupd := h.update_combiner hnew (fun _ => ⟨some f.group.createNewAgent.2, [], [], true⟩)
  refine ⟨_, M, h.plain hi (t := t) (h.place_of_idle hp) (fun u _ => ?_) (by rw [hp]; exact fun h => h) ?_ htls hnb
    ⟨fun d hd => ⟨?_, (hupd.1 d hd).2⟩, fun d hd => ?_⟩ ⟨fun a _ => ⟨?_, rfl⟩, fun a ha => ?_⟩ (fun _ _ a _ => ?_),
    .inr ⟨.construct t, ?_⟩⟩
  · exact congrFun hpc u
  · show ¬ Exiting (f.group.createNewAgent.1.pc t)
    rw [hpc, hp]
    exact fun h => h
  · show Function.update f.group.createNewAgent.1.combiners _ _ d = _
    rw [hcomb]
    exact (hupd.1 d hd).1
  · show _ = Function.update f.group.createNewAgent.1.combiners _ _ d
    rw [hcomb]
    exact hupd.2 d hd
  · exact congrFun hmem a
  · exact (h.unwalked a ha).trans (congrFun hmem a).symm
  · exact congrFun hmem a
  · show (if ((coarse f.group C M).pc t).isIdle then _ else _) = _
    rw [show (coarse f.group C M).pc t = .idle from hp]
    show some (AgentGroup.construct (coarse f.group C M)) = _
    unfold AgentGroup.construct AgentGroup.State.createNewAgent
    cases hf : f.group.freeIds with
    | nil => simp only [coarse, hf]; rfl
    | cons id ids => simp only [coarse, hf]; rfl

/-- A thread begins its exit beside no destruction of a combiner it has an agent in. -/
theorem Refines.exitStart (hp : f.group.pc t = .idle) (hok : KeepsApart cfg.elementPerBlock f (.exit t)) :
    Follows cfg { f with group := f.group.setPc t (.exit (AgentGroup.cellsOf cfg.elementPerBlock (f.group.tls t))) }
      (coarse f.group C M) := by
  have hw := h.place_of_idle hp
  refine ⟨C, M, h.frame hi (t := t) rfl h.defined (h.idle hw) (fun _ _ => rfl) ?_
    (fun u hu => Function.update_of_ne hu ..) (fun _ _ => ⟨rfl, rfl⟩) h.unlocked (fun _ _ => ⟨rfl, rfl⟩) h.unwalked
    (fun _ _ _ _ => rfl) (fun _ _ _ _ hg => hg) (fun b hb hown _ => ?_) (fun d b l hm => ?_)
    (fun b hb => h.dead_kept (t := t) rfl rfl (fun u hu => Function.update_of_ne hu ..) (fun hex => ?_) hb),
    .inr ⟨.exit t, ?_⟩⟩
  · exact h.placeOk_whole hw
  · obtain ⟨c, hc, hb⟩ := hb
    exact absurd hown (hok c hc b hb)
  · rw [AgentGroup.setPc_pc_self] at hm
    cases hm
  · rw [hp] at hex
    exact hex.elim
  · show (if ((coarse f.group C M).pc t).isIdle then _ else _) = _
    rw [show (coarse f.group C M).pc t = .idle from hp]
    rfl

/-- The first lines of `operator<<`: a new block has no agent that is walked. -/
theorem Refines.findAgent (id : Nat) (raw : Nat → List α) (hp : f.group.pc t = .idle) :
    ∃ M', Refines cfg { f with group := (f.group.findAgent cfg.elementPerBlock t id raw).1 } C M' ∧
      (coarse f.group C M).findAgent cfg.elementPerBlock t id raw =
        (coarse (f.group.findAgent cfg.elementPerBlock t id raw).1 C M',
          (f.group.findAgent cfg.elementPerBlock t id raw).2) := by
  have hw := h.place_of_idle hp
  cases hg : getTlsAgent cfg.elementPerBlock (f.group.tls t) id with
  | some a =>
    have hsame : f.group.findAgent cfg.elementPerBlock t id raw = (f.group, a) := by
      unfold AgentGroup.State.findAgent
      rw [hg]
    refine ⟨M, by rw [hsame]; exact h, ?_⟩
    rw [hsame]
    show AgentGroup.State.findAgent _ _ _ _ _ = _
    unfold AgentGroup.State.findAgent
    rw [show getTlsAgent cfg.elementPerBlock ((coarse f.group C M).tls t) id = some a from hg]
  | none =>
    have hnone : AgentGroup.blockAt (f.group.tls t) (id / cfg.elementPerBlock) = none := by
      rw [AgentGroup.getTlsAgent_eq] at hg
      exact Option.map_eq_none_iff.1 hg
    have hnew : (AgentGroup.getOrCreateTlsAgent cfg.elementPerBlock (f.group.tls t) f.group.nblocks id).2.2 = true := by
      rw [(AgentGroup.getOrCreateTlsAgent_spec _ _ _ _).2.1, hnone]
      rfl
    obtain ⟨hcomb, -, -, -, hpc, -, -⟩ := AgentGroup.findAgent_frame cfg.elementPerBlock f.group t id raw
    have hnb : (f.group.findAgent cfg.elementPerBlock t id raw).1.nblocks = f.group.nblocks + 1 := by
      unfold AgentGroup.State.findAgent
      rw [hg]
      dsimp only
      rw [if_pos hnew]
    obtain ⟨-, hsame | ⟨-, hblock, -, -, hmem⟩⟩ :=
      AgentGroup.findAgent_spec cfg.elementPerBlock f.group t id raw
    · rw [hsame] at hnb
      omega
    -- the block is in no table yet
    have hold : ∀ {u k p}, AgentGroup.blockAt (f.group.tls u) k = some p → p ≠ f.group.nblocks :=
      fun hb => Nat.ne_of_lt (hi.fresh _ _ _ hb)
    have hcell : ∀ b : Cell, b.block ≠ f.group.nblocks →
        (f.group.findAgent cfg.elementPerBlock t id raw).1.mem b = f.group.mem b := fun b hb => by
      rw [hmem]
      exact if_neg hb
    have hwalk : ∀ b, Walked f b → b.block ≠ f.group.nblocks := by
      rintro b ⟨c, hc, hb⟩
      obtain ⟨u, i, -, hg', -⟩ := h.owner c hc b hb
      exact hold (AgentGroup.getTlsAgent_eq_some.1 hg').1
    have hkeep : ∀ {u k p}, AgentGroup.blockAt (f.group.tls u) k = some p →
        AgentGroup.blockAt ((f.group.findAgent cfg.elementPerBlock t id raw).1.tls u) k = some p := by
      intro u k p hb
      rw [hblock, if_neg]
      · exact hb
      · rintro ⟨rfl, rfl⟩
        rw [hnone] at hb
        cases hb
    refine ⟨fun b => if b.block = f.group.nblocks then ⟨none, raw b.offset⟩ else M b,
      h.frame hi (t := t) rfl h.defined (h.idle hw) (fun _ _ => rfl) ?_ (fun u _ => congrFun hpc u)
        (fun c _ => ⟨congrFun hcomb c, rfl⟩) (fun c hc => ?_) (fun b hb => ⟨hcell b (hwalk b hb), if_neg (hwalk b hb)⟩)
        (fun b hb => ?_) (fun u _ b hb => hcell b (hold hb.2.choose_spec)) (fun u i b _ hg' => ?_) (fun b _ _ _ => ?_)
        (fun c b l hm => ?_) (fun b hb => ?_), ?_⟩
    · exact h.placeOk_whole hw
    · exact (h.unlocked c hc).trans (congrFun hcomb c).symm
    · dsimp only
      rw [hmem]
      dsimp only
      split
      · rfl
      · exact h.unwalked b hb
    · obtain ⟨hb, ho⟩ := AgentGroup.getTlsAgent_eq_some.1 hg'
      exact AgentGroup.getTlsAgent_eq_some.2 ⟨hkeep hb, ho⟩
    · rw [hpc, hp]
      exact fun h => h
    · have hm : f.group.pc t = .commit c b l := hpc ▸ hm
      rw [hp] at hm
      cases hm
    · obtain ⟨hlt, hown⟩ := h.dead b hb
      refine ⟨by rw [hnb]; exact Nat.lt_succ_of_lt hlt, fun u hu => ?_⟩
      obtain ⟨ho, k, hk⟩ := hu
      rw [hblock] at hk
      rw [hpc]
      split at hk
      · exact absurd (Option.some.inj hk).symm (Nat.ne_of_lt hlt)
      · exact hown u ⟨ho, k, hk⟩
    · unfold AgentGroup.State.findAgent
      rw [show getTlsAgent cfg.elementPerBlock ((coarse f.group C M).tls t) id = none from hg, hg]
      dsimp only
      rw [if_pos hnew, if_pos (show (AgentGroup.getOrCreateTlsAgent cfg.elementPerBlock ((coarse f.group C M).tls t)
        (coarse f.group C M).nblocks id).2.2 = true from hnew)]
      rfl

theorem Refines.submit {id : Nat} {v : α} {raw : Nat → List α} (hp : f.group.pc t = .idle)
    (hl : (f.group.combiners c).live = true) (hid : (f.group.combiners c).id = some id) :
    Follows cfg { f with group := AgentGroup.submit cfg f.group t c id v raw } (coarse f.group C M) := by
  obtain ⟨M₁, h₁, hover⟩ := h.findAgent hi id raw hp
  obtain ⟨hcomb, -, -, -, hpc, -, -⟩ := AgentGroup.findAgent_frame cfg.elementPerBlock f.group t id raw
  obtain ⟨hget, -⟩ := AgentGroup.findAgent_spec cfg.elementPerBlock f.group t id raw
  have hi₁ : Inv cfg.elementPerBlock ((coarse f.group C M).findAgent cfg.elementPerBlock t id raw).1 :=
    hi.findAgent cfg.elementPerBlock_pos hp
  have hstep : AgentGroup.step cfg (coarse f.group C M) (.submit t c v raw) =
      some (AgentGroup.submit cfg (coarse f.group C M) t c id v raw) := by
    show (if ((coarse f.group C M).pc t).isIdle && ((coarse f.group C M).combiners c).live then _ else _) = _
    rw [show (coarse f.group C M).pc t = .idle from hp,
      show ((coarse f.group C M).combiners c).live = true from (h.live_eq c).trans hl]
    show ((coarse f.group C M).combiners c).id.map _ = _
    rw [show ((coarse f.group C M).combiners c).id = some id from (h.id_eq c).trans hid]
    rfl
  suffices hR : ∃ M', Refines cfg { f with group := AgentGroup.submit cfg f.group t c id v raw } C M' ∧
      AgentGroup.submit cfg (coarse f.group C M) t c id v raw =
        coarse (AgentGroup.submit cfg f.group t c id v raw) C M' by
    obtain ⟨M', hR, hs⟩ := hR
    exact ⟨C, M', hR, .inr ⟨_, by rw [hstep, hs]⟩⟩
  unfold AgentGroup.submit
  rw [hover] at hi₁ ⊢
  generalize f.group.findAgent cfg.elementPerBlock t id raw = r at *
  obtain ⟨g, a⟩ := r
  have hw : f.place t = .whole := h.place_of_idle hp
  have hpt : g.pc t = .idle := (congrFun hpc t).trans hp
  have hown : Owned cfg.elementPerBlock g t a := Owned.of_get cfg.elementPerBlock_pos hget
  have hnw : ¬ Walked { f with group := g } a :=
    h₁.not_walked_of_live (c := c) hi₁ (by show (g.combiners c).live = true; rw [hcomb]; exact hl)
      (by show (g.combiners c).id = some id; rw [hcomb]; exact hid) hget
  have hM : M₁ a = g.mem a := h₁.unwalked a hnw
  have hnot : ¬ Exiting (g.pc t) := by rw [hpt]; exact fun h => h
  dsimp only
  cases hs : (g.mem a).combiner.isSome with
  | true =>
    have hs₁ : ((coarse g C M₁).mem a).combiner.isSome = true := (congrArg (·.combiner.isSome) hM).trans hs
    refine ⟨M₁, ?_, ?_⟩
    · rw [if_pos rfl]
      exact h₁.plain hi₁ (t := t) hw (fun u hu => Function.update_of_ne hu ..) hnot
        (by rw [AgentGroup.setPc_pc_self]; exact fun h => h) rfl rfl ⟨fun _ _ => ⟨rfl, rfl⟩, h₁.unlocked⟩
        ⟨fun _ _ => ⟨rfl, rfl⟩, h₁.unwalked⟩ (fun _ _ _ _ => rfl)
    · rw [if_pos rfl, if_pos hs₁]
      rfl
  | false =>
    have hs₁ : ¬ ((coarse g C M₁).mem a).combiner.isSome = true := by
      rw [show ((coarse g C M₁).mem a).combiner.isSome = false from (congrArg (·.combiner.isSome) hM).trans hs]
      exact fun h => by cases h
    refine ⟨Function.update M₁ a ⟨some c, []⟩, ?_, ?_⟩
    · rw [if_neg (fun h => by cases h)]
      exact h₁.plain hi₁ (t := t) hw (fun u hu => Function.update_of_ne hu ..) hnot
        (by rw [AgentGroup.setPc_pc_self]; exact fun h => h) rfl rfl ⟨fun _ _ => ⟨rfl, rfl⟩, h₁.unlocked⟩
        (h₁.update_cell hnw (fun _ => ⟨some c, []⟩)) (mem_update_other hi₁ hown)
    · rw [if_neg hs₁, if_neg (fun h => by cases h)]
      rfl

/-! ## The walk -/

section

omit h hi

theorem destroy_mtx_self : (destroy f t c).mtx c = some t := Function.update_self ..

theorem destroy_mtx_of_ne (hd : d ≠ c) : (destroy f t c).mtx d = f.mtx d := Function.update_of_ne hd ..

theorem destroy_combiners_self : (destroy f t c).group.combiners c = { f.group.combiners c with live := false } :=
  Function.update_self ..

theorem destroy_combiners_of_ne (hd : d ≠ c) : (destroy f t c).group.combiners d = f.group.combiners d :=
  Function.update_of_ne hd ..

/-- When a destruction begins, the agents of its list are walked. -/
theorem walked_destroy (hc : f.mtx c = none) (a : Cell) :
    Walked (destroy f t c) a ↔ Walked f a ∨ a ∈ (f.group.combiners c).agents := by
  have hother : ∀ {d}, (f.mtx d).isSome = true → d ≠ c := by
    rintro d hd rfl
    rw [hc] at hd
    cases hd
  constructor
  · rintro ⟨d, hd, ha⟩
    by_cases hdc : d = c
    · rw [hdc, destroy_combiners_self] at ha
      exact .inr ha
    · rw [destroy_mtx_of_ne hdc] at hd
      rw [destroy_combiners_of_ne hdc] at ha
      exact .inl ⟨d, hd, ha⟩
  · rintro (⟨d, hd, ha⟩ | ha)
    · exact ⟨d, by rw [destroy_mtx_of_ne (hother hd)]; exact hd, by rw [destroy_combiners_of_ne (hother hd)]; exact ha⟩
    · exact ⟨c, by rw [destroy_mtx_self]; rfl, by rw [destroy_combiners_self]; exact ha⟩

end

omit hi in
/-- The coarse model destroys the combiner in one step. -/
theorem Refines.coarse_destroy (hp : f.group.pc t = .idle) (hl : (f.group.combiners c).live = true)
    (husers : f.group.users c = []) : AgentGroup.step cfg (coarse f.group C M) (.destroy t c) =
      some (coarse (destroy f t c).group (Function.update C c { C c with agents := [], live := false })
        (fun a => if a ∈ (C c).agents then ⟨none, cfg.elementTp⟩ else M a)) := by
  show (if ((coarse f.group C M).pc t).isIdle && ((coarse f.group C M).combiners c).live &&
    ((coarse f.group C M).users c).isEmpty then _ else _) = _
  rw [show (coarse f.group C M).pc t = .idle from hp,
    show ((coarse f.group C M).combiners c).live = true from (h.live_eq c).trans hl,
    show (coarse f.group C M).users c = [] from husers]
  rfl

/-- **`~AgentCombiner` begins**, beside no exit of a thread with an agent in the list. -/
theorem Refines.destroyStart (hp : f.group.pc t = .idle) (hl : (f.group.combiners c).live = true)
    (husers : f.group.users c = []) (hok : KeepsApart cfg.elementPerBlock f (.destroy t c)) :
    Follows cfg (destroy f t c) (coarse f.group C M) := by
  have hc : f.mtx c = none := h.unlocked_of_live hi hl
  have hagents : (C c).agents = (f.group.combiners c).agents := by rw [h.unlocked c hc]
  have hpc : ∀ u, u ≠ t → (destroy f t c).group.pc u = f.group.pc u := fun u hu => Function.update_of_ne hu ..
  have hself : (destroy f t c).group.pc t = .destroyAgent c := Function.update_self ..
  -- a list that was being cleared already is another one, walked by another thread
  have hother : ∀ {d}, (f.mtx d).isSome = true → d ≠ c := by
    rintro d hd rfl
    rw [hc] at hd
    cases hd
  have hwalker : ∀ {d u}, f.mtx d = some u → u ≠ t := by
    rintro d u hd rfl
    have := h.mtx d u hd
    rw [hp] at this
    cases this
  have hwalk := walked_destroy (t := t) hc
  refine ⟨Function.update C c { C c with agents := [], live := false },
    fun a => if a ∈ (C c).agents then ⟨none, cfg.elementTp⟩ else M a, ?_,
    .inr ⟨.destroy t c, h.coarse_destroy hp hl husers⟩⟩
  constructor
  case defined => exact h.defined
  case locked =>
    intro d hd
    by_cases hdc : d = c
    · rw [hdc, destroy_combiners_self, Function.update_self, h.unlocked c hc]
    · rw [destroy_mtx_of_ne hdc] at hd
      rw [destroy_combiners_of_ne hdc, Function.update_of_ne hdc]
      exact h.locked d hd
  case unlocked =>
    intro d hd
    have hdc : d ≠ c := by
      rintro rfl
      rw [destroy_mtx_self] at hd
      cases hd
    rw [destroy_mtx_of_ne hdc] at hd
    rw [destroy_combiners_of_ne hdc, Function.update_of_ne hdc]
    exact h.unlocked d hd
  case walked =>
    intro a ha
    rw [hagents]
    split
    · rfl
    · rename_i hac
      exact h.walked a (((hwalk a).1 ha).resolve_right hac)
  case unwalked =>
    intro a ha
    rw [hwalk, not_or] at ha
    rw [hagents]
    exact (if_neg ha.2).trans (h.unwalked a ha.1)
  case owner =>
    intro d hd a ha
    by_cases hdc : d = c
    · subst hdc
      rw [destroy_combiners_self] at ha ⊢
      obtain ⟨hnw, hcomb⟩ := h.listed hi hc ha
      obtain ⟨-, u, id, hid, hget⟩ := hi.combiner a d ((congrArg Agent.combiner (h.unwalked a hnw)).trans hcomb)
      refine ⟨u, id, (h.id_eq d).symm.trans hid, hget, ?_⟩
      by_cases hut : u = t
      · rw [hut, hself]
        exact fun h => h
      · rw [hpc u hut]
        exact fun hex => hok u hex a ha (Owned.of_get cfg.elementPerBlock_pos hget)
    · rw [destroy_mtx_of_ne hdc] at hd
      rw [destroy_combiners_of_ne hdc] at ha ⊢
      obtain ⟨u, id, hid, hget, hu⟩ := h.owner d hd a ha
      refine ⟨u, id, hid, hget, ?_⟩
      by_cases hut : u = t
      · rw [hut, hself]
        exact fun h => h
      · rw [hpc u hut]
        exact hu
  case nodup =>
    intro d hd
    by_cases hdc : d = c
    · rw [hdc, destroy_combiners_self, ← hagents]
      exact hi.nodup c
    · rw [destroy_mtx_of_ne hdc] at hd
      rw [destroy_combiners_of_ne hdc]
      exact h.nodup d hd
  case pointer =>
    intro d u hd a ha hne
    by_cases hdc : d = c
    · rw [hdc, destroy_combiners_self] at ha
      rw [hdc]
      exact (h.listed hi hc ha).2
    · rw [destroy_mtx_of_ne hdc] at hd
      rw [destroy_combiners_of_ne hdc] at ha
      refine h.pointer d u hd a ha ?_
      rwa [show (destroy f t c).place u = f.place u from Function.update_of_ne (hwalker hd) ..] at hne
  case mtx =>
    intro d u hd
    by_cases hdc : d = c
    · rw [hdc, destroy_mtx_self] at hd
      cases hd
      rw [hself, hdc]
    · rw [destroy_mtx_of_ne hdc] at hd
      rw [hpc u (hwalker hd)]
      exact h.mtx d u hd
  case place =>
    intro u
    by_cases hut : u = t
    · rw [hut, show (destroy f t c).place t = .clear c from Function.update_self ..]
      exact destroy_mtx_self
    have hkept : ∀ d, (destroy f t c).mtx d = some u ↔ f.mtx d = some u := by
      intro d
      by_cases hdc : d = c
      · rw [hdc, destroy_mtx_self, hc]
        exact iff_of_false (fun h => hut (Option.some.inj h).symm) (fun h => by cases h)
      · rw [destroy_mtx_of_ne hdc]
    rw [show (destroy f t c).place u = f.place u from Function.update_of_ne hut ..]
    exact (h.place u).keep hkept (hpc u hut) (fun d hd => by rw [destroy_combiners_of_ne (hother (by rw [hd]; rfl))])
      (fun _ _ _ _ => rfl) (fun _ _ _ => rfl)
  case commit =>
    intro u d a left hu
    by_cases hut : u = t
    · rw [hut, hself] at hu
      cases hu
    · rw [hpc u hut] at hu
      exact h.commit u d a left hu
  case dead =>
    exact fun a ha => h.dead_kept (t := t) rfl rfl hpc (fun hex => by rw [hp] at hex; exact hex.elim) ha

omit hi in
/-- Line 211 at the end of the list, and the unlock. -/
theorem Refines.walkEnd (hw : f.place t = .clear c) (hl : (f.group.combiners c).agents = []) :
    Follows cfg ((f.goto t .whole f.group).setMtx c none) (coarse f.group C M) := by
  have hc : f.mtx c = some t := by
    have := h.place t
    rw [hw] at this
    exact this
  generalize hf : (f.goto t .whole f.group).setMtx c none = f'
  have hgroup : f'.group = f.group := by subst hf; rfl
  have hdead : f'.dead = f.dead := by subst hf; rfl
  have hmtx : ∀ d, d ≠ c → f'.mtx d = f.mtx d := fun d hd => by subst hf; exact Function.update_of_ne hd ..
  have hmtxSelf : f'.mtx c = none := by subst hf; exact Function.update_self ..
  have hplace : ∀ u, u ≠ t → f'.place u = f.place u := fun u hu => by subst hf; exact Function.update_of_ne hu ..
  have hheld : ∀ {d u}, f'.mtx d = some u → d ≠ c ∧ f.mtx d = some u := by
    intro d u hd
    by_cases hdc : d = c
    · rw [hdc, hmtxSelf] at hd
      cases hd
    · exact ⟨hdc, hmtx d hdc ▸ hd⟩
  have hsome : ∀ {d}, (f'.mtx d).isSome = true → (f.mtx d).isSome = true := by
    intro d hd
    obtain ⟨u, hu⟩ := Option.isSome_iff_exists.1 hd
    rw [(hheld hu).2]
    rfl
  have hother : ∀ {d u}, f'.mtx d = some u → u ≠ t := by
    rintro d u hd rfl
    exact (hheld hd).1 (h.mtx_inj (hheld hd).2 hc)
  have hwalk : ∀ a, Walked f' a ↔ Walked f a := by
    intro a
    constructor
    · rintro ⟨d, hd, ha⟩
      exact ⟨d, hsome hd, hgroup ▸ ha⟩
    · rintro ⟨d, hd, ha⟩
      have hdc : d ≠ c := by
        rintro rfl
        rw [hl] at ha
        cases ha
      exact ⟨d, by rw [hmtx d hdc]; exact hd, by rw [hgroup]; exact ha⟩
  refine ⟨C, M, ?_, .inl (by rw [hgroup])⟩
  constructor
  case defined => subst hf; exact h.defined
  case locked => intro d hd; rw [hgroup]; exact h.locked d (hsome hd)
  case unlocked =>
    intro d hd
    rw [hgroup]
    by_cases hdc : d = c
    · rw [hdc, h.locked c (by rw [hc]; rfl), ← hl]
    · exact h.unlocked d (hmtx d hdc ▸ hd)
  case walked => intro a ha; exact h.walked a ((hwalk a).1 ha)
  case unwalked => intro a ha; rw [hgroup]; exact h.unwalked a (fun hw => ha ((hwalk a).2 hw))
  case owner => intro d hd; rw [hgroup]; exact h.owner d (hsome hd)
  case nodup => intro d hd; rw [hgroup]; exact h.nodup d (hsome hd)
  case pointer =>
    intro d u hd a ha hne
    rw [hplace u (hother hd)] at hne
    rw [hgroup] at ha ⊢
    exact h.pointer d u (hheld hd).2 a ha hne
  case mtx => intro d u hd; rw [hgroup]; exact h.mtx d u (hheld hd).2
  case place =>
    intro u
    by_cases hut : u = t
    · have hself : f'.place t = .whole := by subst hf; exact Function.update_self ..
      rw [hut, hself]
      intro d hd
      exact hother hd rfl
    have hkept : ∀ d, f'.mtx d = some u ↔ f.mtx d = some u := by
      intro d
      by_cases hdc : d = c
      · rw [hdc, hmtxSelf, hc]
        exact iff_of_false (fun h => by cases h) (fun h => hut (Option.some.inj h).symm)
      · rw [hmtx d hdc]
    rw [hplace u hut]
    exact (h.place u).keep hkept (by rw [hgroup]) (fun _ _ => by rw [hgroup]) (fun _ _ _ _ => by rw [hgroup])
      (fun _ _ _ => by rw [hgroup])
  case commit => rw [hgroup]; exact h.commit
  case dead => rw [hgroup, hdead]; exact h.dead

/-- Lines 110 and 111 write to the agent at the head of the list. -/
theorem Refines.walkWrite {l : List Cell} {x : Agent α} {p : Place} (hc : f.mtx c = some t)
    (hl : (f.group.combiners c).agents = a :: l) (hx : x.combiner = none)
    (hp : p = .store c a ∨ p = .unlink c a ∧ x = ⟨none, cfg.elementTp⟩) :
    Follows cfg (f.goto t p (f.group.setAgent a x)) (coarse f.group C M) := by
  have hresets : p.resets = some (c, a) := by rcases hp with rfl | ⟨rfl, -⟩ <;> rfl
  have ha : a ∈ (f.group.combiners c).agents := by rw [hl]; exact List.mem_cons_self
  have hsome : (f.mtx c).isSome = true := by rw [hc]; rfl
  generalize hf : f.goto t p (f.group.setAgent a x) = f'
  have hmtx : f'.mtx = f.mtx := by subst hf; rfl
  have hcomb : f'.group.combiners = f.group.combiners := by subst hf; rfl
  have hpc : f'.group.pc = f.group.pc := by subst hf; rfl
  have hmem : ∀ b, b ≠ a → f'.group.mem b = f.group.mem b := fun b hb => by
    subst hf; exact Function.update_of_ne hb ..
  have hmemSelf : f'.group.mem a = x := by subst hf; exact Function.update_self ..
  have hplace : ∀ u, u ≠ t → f'.place u = f.place u := fun u hu => by subst hf; exact Function.update_of_ne hu ..
  have hself : f'.place t = p := by subst hf; exact Function.update_self ..
  have hwalk : ∀ b, Walked f' b ↔ Walked f b := fun b => by unfold Walked; rw [hmtx, hcomb]
  have hexiting : ∀ {u b}, Exiting (f.group.pc u) → Owned cfg.elementPerBlock f.group u b → b ≠ a := by
    rintro u b hu hb rfl
    exact h.not_walked_of_exiting hi hu hb ⟨c, hsome, ha⟩
  -- the agent is in no other list
  have hother : ∀ {d u b}, u ≠ t → f.mtx d = some u → b ∈ (f.group.combiners d).agents → b ≠ a := by
    rintro d u b hut hd hb rfl
    have hdc := h.walked_unique hi (by rw [hd]; rfl) hb hsome ha
    rw [hdc, hc] at hd
    exact hut (Option.some.inj hd).symm
  refine ⟨C, M, ?_, .inl (by subst hf; rfl)⟩
  constructor
  case defined => subst hf; exact h.defined
  case locked => rw [hmtx, hcomb]; exact h.locked
  case unlocked => rw [hmtx, hcomb]; exact h.unlocked
  case walked => intro b hb; exact h.walked b ((hwalk b).1 hb)
  case unwalked =>
    intro b hb
    rw [hwalk] at hb
    rw [hmem b (fun hba => hb ⟨c, hsome, hba ▸ ha⟩)]
    exact h.unwalked b hb
  case owner => rw [hmtx, hcomb, hpc]; subst hf; exact h.owner
  case nodup => rw [hmtx, hcomb]; exact h.nodup
  case pointer =>
    intro d u hd b hb hne
    rw [hmtx] at hd
    rw [hcomb] at hb
    by_cases hut : u = t
    · subst hut
      have hdc := h.mtx_inj hd hc
      subst hdc
      rw [hself, hresets] at hne
      have hba : b ≠ a := fun hba => hne (by rw [hba])
      rw [hmem b hba]
      refine h.pointer d u hd b hb (fun hold => ?_)
      -- before the write the thread was at the same agent, or at none
      have hu := h.place u
      cases hw : f.place u <;> rw [hw] at hu hold
      case store e b' =>
        cases hold
        obtain ⟨l', hl'⟩ := hu.2.1
        rw [hl] at hl'
        exact hba (List.cons.inj hl').1.symm
      case unlink e b' =>
        cases hold
        obtain ⟨l', hl'⟩ := hu.2.1
        rw [hl] at hl'
        exact hba (List.cons.inj hl').1.symm
      all_goals cases hold
    · rw [hplace u hut] at hne
      rw [hmem b (hother hut hd hb)]
      exact h.pointer d u hd b hb hne
  case mtx => rw [hmtx, hpc]; exact h.mtx
  case place =>
    intro u
    by_cases hut : u = t
    · rw [hut, hself]
      rcases hp with rfl | ⟨rfl, hx'⟩
      · exact ⟨by rw [hmtx]; exact hc, ⟨l, by rw [hcomb]; exact hl⟩, by rw [hmemSelf]; exact hx⟩
      · exact ⟨by rw [hmtx]; exact hc, ⟨l, by rw [hcomb]; exact hl⟩, by rw [hmemSelf]; exact hx'⟩
    rw [hplace u hut]
    exact (h.place u).keep (fun d => by rw [hmtx]) (by rw [hpc]) (fun d _ => by rw [hcomb])
      (fun d hd b hb => hmem b (hother hut hd hb))
      (fun b left hu => hmem b (hexiting (by rw [hu]; trivial) (h.exit_cell hi hu).1))
  case commit =>
    intro u d b left hu
    rw [hpc] at hu
    obtain ⟨hown, -, -⟩ := h.live_of_commit hi hu
    rw [hmem b (hexiting (by rw [hu]; trivial) hown)]
    exact h.commit u d b left hu
  case dead => subst hf; exact h.dead

/-- Unlinked, the agent is not walked any more, and the others are as before. -/
theorem Refines.walked_unlink {l : List Cell} {p : Place} (hc : (f.mtx c).isSome = true)
    (hl : (f.group.combiners c).agents = a :: l) (hal : a ∉ l) (b : Cell) :
    Walked (f.goto t p (f.group.setCombiner c { f.group.combiners c with agents := l })) b ↔ Walked f b ∧ b ≠ a := by
  generalize hf : f.goto t p (f.group.setCombiner c { f.group.combiners c with agents := l }) = f'
  have hmtx : f'.mtx = f.mtx := by subst hf; rfl
  have hold : ∀ d, d ≠ c → f'.group.combiners d = f.group.combiners d := fun d hd => by
    subst hf; exact Function.update_of_ne hd ..
  have hnew : (f'.group.combiners c).agents = l := by
    subst hf
    show (Function.update f.group.combiners c { f.group.combiners c with agents := l } c).agents = l
    rw [Function.update_self]
  constructor
  · rintro ⟨d, hd, hb⟩
    rw [hmtx] at hd
    by_cases hdc : d = c
    · rw [hdc, hnew] at hb
      exact ⟨⟨c, hc, by rw [hl]; exact List.mem_cons_of_mem a hb⟩, fun hba => hal (hba ▸ hb)⟩
    · rw [hold d hdc] at hb
      refine ⟨⟨d, hd, hb⟩, ?_⟩
      rintro rfl
      exact hdc (h.walked_unique hi hd hb hc (by rw [hl]; exact List.mem_cons_self))
  · rintro ⟨⟨d, hd, hb⟩, hba⟩
    refine ⟨d, by rw [hmtx]; exact hd, ?_⟩
    by_cases hdc : d = c
    · rw [hdc, hl] at hb
      rw [hdc, hnew]
      exact (List.mem_cons.1 hb).resolve_left hba
    · rw [hold d hdc]
      exact hb

/-- Lines 213 and 214. -/
theorem Refines.walkUnlink (hw : f.place t = .unlink c a) :
    Follows cfg (f.goto t (.clear c) (f.group.setCombiner c { f.group.combiners c with
      agents := (f.group.combiners c).agents.erase a })) (coarse f.group C M) := by
  have ht := h.place t
  rw [hw] at ht
  obtain ⟨hc, ⟨l, hl⟩, hm⟩ := ht
  have hsome : (f.mtx c).isSome = true := by rw [hc]; rfl
  have ha : a ∈ (f.group.combiners c).agents := by rw [hl]; exact List.mem_cons_self
  have hnodup := h.nodup c hsome
  have herase : (f.group.combiners c).agents.erase a = l := by
    rw [hl, List.erase_cons_head]
  rw [herase]
  have hal : a ∉ l := by
    rw [hl] at hnodup
    exact (List.nodup_cons.1 hnodup).1
  generalize hf : f.goto t (.clear c) (f.group.setCombiner c { f.group.combiners c with agents := l }) = f'
  have hmtx : f'.mtx = f.mtx := by subst hf; rfl
  have hmem : f'.group.mem = f.group.mem := by subst hf; rfl
  have hpc : f'.group.pc = f.group.pc := by subst hf; rfl
  have hold : ∀ d, d ≠ c → f'.group.combiners d = f.group.combiners d := fun d hd => by
    subst hf; exact Function.update_of_ne hd ..
  have hnew : f'.group.combiners c = { f.group.combiners c with agents := l } := by
    subst hf; exact Function.update_self ..
  have hid : ∀ d, (f'.group.combiners d).id = (f.group.combiners d).id := fun d => by
    by_cases hdc : d = c
    · rw [hdc, hnew]
    · rw [hold d hdc]
  have hplace : ∀ u, u ≠ t → f'.place u = f.place u := fun u hu => by subst hf; exact Function.update_of_ne hu ..
  have hself : f'.place t = .clear c := by subst hf; exact Function.update_self ..
  have hsub : ∀ {d b}, b ∈ (f'.group.combiners d).agents → b ∈ (f.group.combiners d).agents := by
    intro d b hb
    by_cases hdc : d = c
    · rw [hdc, hnew] at hb
      rw [hdc, hl]
      exact List.mem_cons_of_mem a hb
    · rw [hold d hdc] at hb
      exact hb
  have hwalk : ∀ b, Walked f' b ↔ Walked f b ∧ b ≠ a := by
    subst hf
    exact h.walked_unlink hi (p := .clear c) hsome hl hal
  refine ⟨C, M, ?_, .inl (by subst hf; rfl)⟩
  constructor
  case defined => subst hf; exact h.defined
  case locked =>
    intro d hd
    rw [hmtx] at hd
    by_cases hdc : d = c
    · rw [hdc, hnew]
      exact h.locked c hsome
    · rw [hold d hdc]
      exact h.locked d hd
  case unlocked =>
    intro d hd
    rw [hmtx] at hd
    have hdc : d ≠ c := by
      rintro rfl
      rw [hc] at hd
      cases hd
    rw [hold d hdc]
    exact h.unlocked d hd
  case walked => intro b hb; exact h.walked b ((hwalk b).1 hb).1
  case unwalked =>
    intro b hb
    rw [hmem]
    by_cases hba : b = a
    · rw [hba, hm]
      exact h.walked a ⟨c, hsome, ha⟩
    · exact h.unwalked b (fun hw => hb ((hwalk b).2 ⟨hw, hba⟩))
  case owner =>
    intro d hd b hb
    rw [hmtx] at hd
    rw [hid, hpc]
    subst hf
    exact h.owner d hd b (hsub hb)
  case nodup =>
    intro d hd
    rw [hmtx] at hd
    by_cases hdc : d = c
    · rw [hdc, hnew]
      rw [hl] at hnodup
      exact (List.nodup_cons.1 hnodup).2
    · rw [hold d hdc]
      exact h.nodup d hd
  case pointer =>
    intro d u hd b hb hne
    rw [hmtx] at hd
    rw [hmem]
    refine h.pointer d u hd b (hsub hb) (fun hold' => ?_)
    by_cases hut : u = t
    · rw [hut, hw] at hold'
      cases hold'
      rw [hnew] at hb
      exact hal hb
    · rw [hplace u hut] at hne
      exact hne hold'
  case mtx => rw [hmtx, hpc]; exact h.mtx
  case place =>
    intro u
    by_cases hut : u = t
    · rw [hut, hself, PlaceOk, hmtx]
      exact hc
    have hother : ∀ {d}, f.mtx d = some u → f'.group.combiners d = f.group.combiners d := by
      intro d hd
      refine hold d ?_
      rintro rfl
      exact hut (Option.some.inj (hd.symm.trans hc))
    rw [hplace u hut]
    exact (h.place u).keep (fun d => by rw [hmtx]) (by rw [hpc]) (fun d hd => by rw [hother hd])
      (fun _ _ _ _ => by rw [hmem]) (fun _ _ _ => by rw [hmem])
  case commit => rw [hpc, hmem]; exact h.commit
  case dead => subst hf; exact h.dead

/-! ## Every step -/

theorem Refines.lift_step {g' : AgentGroup.State α} (hw : f.place t = .whole)
    (hs : AgentGroup.advance f.group t = some g') (hno : ∀ a left, f.group.pc t ≠ .exit (a :: left))
    (hno' : ∀ c a left, f.group.pc t ≠ .commit c a left) : Follows cfg { f with group := g' } (coarse f.group C M) := by
  unfold AgentGroup.advance at hs
  cases hp : f.group.pc t with rw [hp] at hs
  | idle => cases hs
  | append c a v => cases hs; exact h.append hi hw hp
  | modify c a v => cases hs; exact h.modify hi hw hp
  | exit left =>
    cases left with
    | nil => cases hs; exact h.exitEnd hi hw hp
    | cons a left => exact absurd hp (hno a left)
  | commit c a left => exact absurd hp (hno' c a left)
  | destroyAgent c =>
    dsimp only at hs
    cases hid : (f.group.combiners c).id with
    | some id =>
      rw [hid] at hs
      cases hs
      exact h.destroyAgent hi hw hp hid
    | none =>
      rw [hid] at hs
      cases hs

theorem Refines.advance (hs : advance cfg f t = some f') : Follows cfg f' (coarse f.group C M) := by
  unfold AgentExit.advance at hs
  cases hw : f.place t with rw [hw] at hs
  | whole =>
    dsimp only at hs
    split at hs
    · rename_i c a v hp
      obtain ⟨-, hs⟩ := Option.ite_none_left_eq_some.1 hs
      obtain ⟨g', hg, rfl⟩ := Option.map_eq_some_iff.1 hs
      exact h.lift_step hi hw hg (by rw [hp]; exact fun _ _ h => by cases h)
        (by rw [hp]; exact fun _ _ _ h => by cases h)
    · rename_i a left hp
      split at hs
      · rename_i hc
        cases hs
        exact h.pass hi hw hp (Option.isSome_iff_ne_none.1 hc)
      · rename_i hc
        cases hs
        exact h.skip hi hw hp (Option.not_isSome_iff_eq_none.1 hc)
    · rename_i c a left hp
      obtain ⟨-, -, hl⟩ := h.live_of_commit hi hp
      rw [destroyed, hl, if_neg (by exact fun h => by cases h), if_neg (by
        rw [h.unlocked_of_live hi hl]; exact fun h => by cases h)] at hs
      cases hs
      exact h.commitAndErase hi hw hp
    · rename_i hno₁ hno₂ hno₃
      obtain ⟨g', hg, rfl⟩ := Option.map_eq_some_iff.1 hs
      exact h.lift_step hi hw hg hno₂ hno₃
  | call a left =>
    have ht := h.place t
    rw [hw] at ht
    obtain ⟨c, hc⟩ := Option.ne_none_iff_exists'.1 ht.2.2
    dsimp only at hs
    rw [hc] at hs
    cases hs
    exact h.call hi hw hc
  | clear c =>
    have ht := h.place t
    rw [hw] at ht
    dsimp only at hs
    cases hl : (f.group.combiners c).agents with
    | nil =>
      rw [hl] at hs
      cases hs
      exact h.walkEnd hw hl
    | cons a l =>
      rw [hl] at hs
      dsimp only at hs
      rw [h.not_dead (c := c) (by rw [show f.mtx c = some t from ht]; rfl) (by rw [hl]; exact List.mem_cons_self)] at hs
      cases hs
      exact h.walkWrite hi ht hl rfl (.inl rfl)
  | store c a =>
    have ht := h.place t
    rw [hw] at ht
    obtain ⟨hc, ⟨l, hl⟩, hnone⟩ := ht
    dsimp only at hs
    rw [h.not_dead (c := c) (by rw [hc]; rfl) (by rw [hl]; exact List.mem_cons_self)] at hs
    cases hs
    exact h.walkWrite hi hc hl hnone (.inr ⟨rfl, by rw [hnone]⟩)
  | unlink c a =>
    have ht := h.place t
    rw [hw] at ht
    obtain ⟨hc, ⟨l, hl⟩, -⟩ := ht
    dsimp only at hs
    rw [h.not_dead (c := c) (by rw [hc]; rfl) (by rw [hl]; exact List.mem_cons_self)] at hs
    cases hs
    exact h.walkUnlink hi hw

/-- **A step of a run that keeps apart is a step of the coarse model, or none.** -/
theorem Refines.step {l : Label α} (hok : KeepsApart cfg.elementPerBlock f l) (hs : step cfg f l = some f') :
    Follows cfg f' (coarse f.group C M) := by
  unfold AgentExit.step at hs
  rw [h.defined, if_neg (fun h => by cases h)] at hs
  cases l with
  | go t => exact h.advance hi hs
  | destroy t c =>
    simp only [Option.ite_none_right_eq_some, Option.some.injEq, Bool.and_eq_true, List.isEmpty_iff] at hs
    obtain ⟨⟨⟨hidle, hl⟩, husers⟩, rfl⟩ := hs
    exact h.destroyStart hi (AgentGroup.Pc.eq_idle hidle) hl husers hok
  | construct t =>
    obtain ⟨g', hg, rfl⟩ := Option.map_eq_some_iff.1 hs
    simp only [AgentGroup.step, Option.ite_none_right_eq_some, Option.some.injEq] at hg
    obtain ⟨hidle, rfl⟩ := hg
    exact h.construct hi (AgentGroup.Pc.eq_idle hidle)
  | submit t c v raw =>
    obtain ⟨g', hg, rfl⟩ := Option.map_eq_some_iff.1 hs
    simp only [AgentGroup.step, Option.ite_none_right_eq_some, Option.map_eq_some_iff, Bool.and_eq_true] at hg
    obtain ⟨⟨hidle, hl⟩, id, hid, rfl⟩ := hg
    exact h.submit hi (AgentGroup.Pc.eq_idle hidle) hl hid
  | exit t =>
    obtain ⟨g', hg, rfl⟩ := Option.map_eq_some_iff.1 hs
    simp only [AgentGroup.step, Option.ite_none_right_eq_some, Option.some.injEq] at hg
    obtain ⟨hidle, rfl⟩ := hg
    exact h.exitStart hi (AgentGroup.Pc.eq_idle hidle) hok

end

/-- **A state reached is a state of the coarse model, with the lists in destruction cleared.** -/
theorem reachable_refines (h : (system cfg).ReachableVia (KeepsApart cfg.elementPerBlock) f) :
    ∃ C M, (AgentGroup.system cfg).Reachable (coarse f.group C M) ∧ Refines cfg f C M := by
  refine System.ReachableVia.invariant
    (I := fun f => ∃ C M, (AgentGroup.system cfg).Reachable (coarse f.group C M) ∧ Refines cfg f C M)
    (fun f h0 => ?_) (fun f l f' hI hok hs => ?_) h
  · cases h0
    exact ⟨_, _, .init rfl, refines_init⟩
  · obtain ⟨C, M, hr, hR⟩ := hI
    obtain ⟨C', M', hR', hsame | ⟨l', hs'⟩⟩ := hR.step (AgentGroup.Reachable.inv hr) hok hs
    · exact ⟨C', M', hsame ▸ hr, hR'⟩
    · exact ⟨C', M', hr.step trivial hs', hR'⟩

/-- Only a step of the coarse model touches a table. -/
theorem advance_tls (hs : advance cfg f t = some f') :
    f'.group.tls = f.group.tls ∨ AgentGroup.advance f.group t = some f'.group := by
  have hlift : ∀ {o}, f.lift o = some f' → o = some f'.group := by
    intro o ho
    obtain ⟨g, hg, rfl⟩ := Option.map_eq_some_iff.1 ho
    exact hg
  unfold advance at hs
  cases hw : f.place t with rw [hw] at hs
  | whole =>
    dsimp only at hs
    split at hs
    · exact .inr (hlift (Option.ite_none_left_eq_some.1 hs).2)
    · split at hs <;> cases hs <;> exact .inl rfl
    · split at hs
      · cases hs; exact .inl rfl
      · obtain ⟨-, hs⟩ := Option.ite_none_left_eq_some.1 hs
        cases hs
        exact .inl rfl
    · exact .inr (hlift hs)
  | call a left =>
    dsimp only at hs
    split at hs <;> cases hs <;> exact .inl rfl
  | clear c =>
    dsimp only at hs
    split at hs
    · cases hs; exact .inl rfl
    · split at hs <;> cases hs <;> exact .inl rfl
  | store c a =>
    dsimp only at hs
    split at hs <;> cases hs <;> exact .inl rfl
  | unlink c a =>
    dsimp only at hs
    split at hs <;> cases hs <;> exact .inl rfl

theorem step_keeps {l : Label α} {i : Nat} (hs : step cfg f l = some f')
    (h : getTlsAgent cfg.elementPerBlock (f.group.tls u) i = some a) :
    getTlsAgent cfg.elementPerBlock (f'.group.tls u) i = some a ∨ l = .go u ∧ f.group.pc u = .exit [] := by
  have hlift : ∀ {l}, f.lift (AgentGroup.step cfg f.group l) = some f' →
      getTlsAgent cfg.elementPerBlock (f'.group.tls u) i = some a ∨ l = .go u ∧ f.group.pc u = .exit [] := by
    intro l hl
    obtain ⟨g, hg, rfl⟩ := Option.map_eq_some_iff.1 hl
    exact AgentGroup.step_keeps hg h rfl
  obtain ⟨-, hs⟩ := Option.ite_none_left_eq_some.1 hs
  cases l with
  | go t =>
    rcases advance_tls hs with htls | hg
    · exact .inl (by rw [htls]; exact h)
    · have hg : AgentGroup.step cfg f.group (.go t) = some f'.group := hg
      exact AgentGroup.step_keeps hg h rfl
  | destroy t c =>
    obtain ⟨-, hs⟩ := Option.ite_none_right_eq_some.1 hs
    cases hs
    exact .inl h
  | construct t => exact hlift hs
  | submit t c v raw => exact hlift hs
  | exit t => exact hlift hs

/-! ## The main result -/

/-- What a user of combiners may rely on, in one state. -/
structure Isolated (cfg : Config α) (f : State α) : Prop where
  defined : f.undefined = false
  ids : ∀ c, (f.group.combiners c).live = true → ∃ id, (f.group.combiners c).id = some id ∧ id < f.group.agentKinds ∧
    ∀ d, (f.group.combiners d).live = true → (f.group.combiners d).id = some id → d = c
  /-- Two places of the tables are two cells, whatever the threads. -/
  cells : ∀ t u i j a, getTlsAgent cfg.elementPerBlock (f.group.tls t) i = some a →
    getTlsAgent cfg.elementPerBlock (f.group.tls u) j = some a → t = u ∧ i = j
  kept : ∀ l f', step cfg f l = some f' → ∀ t i a, getTlsAgent cfg.elementPerBlock (f.group.tls t) i = some a →
    getTlsAgent cfg.elementPerBlock (f'.group.tls t) i = some a ∨ l = .go t ∧ f.group.pc t = .exit []
  agree : ∀ t i a, getTlsAgent cfg.elementPerBlock (f.group.tls t) i = some a →
    (AgentGroup.getOrCreateTlsAgent cfg.elementPerBlock (f.group.tls t) f.group.nblocks i).1 = a ∧
    (AgentGroup.getOrCreateTlsAgent cfg.elementPerBlock (f.group.tls t) f.group.nblocks i).2.2 = false
  /-- But for the cell of an `operator<<` before line 204, and of a destruction between lines 110 and 214. -/
  listed : ∀ a, (∀ t c v, f.group.pc t ≠ .append c a v) → (∀ t c, (f.place t).resets ≠ some (c, a)) →
    ∀ c, (f.group.mem a).combiner = some c ↔ a ∈ (f.group.combiners c).agents
  /-- A thread that has exited has no table. -/
  running : ∀ c, ∀ a ∈ (f.group.combiners c).agents, ∃ t i,
    getTlsAgent cfg.elementPerBlock (f.group.tls t) i = some a
  /-- A combiner that is pointed to is alive, or its destructor is still clearing. -/
  pointer : ∀ a c, (f.group.mem a).combiner = some c →
    (f.group.combiners c).live = true ∨ (f.mtx c).isSome = true
  observed : ∀ c, (f.group.combiners c).live = true → ∀ v ∈ f.group.combineAgents c, (c, v) ∈ f.group.log

/-- **Combiners that share ids share no values, when exits and destructions keep apart**: in every state reached, live
combiners have ids of their own, each id has one cell in each thread that stays where it is, a cell and its combiner
name each other, a list has agents of running threads only, and a combiner combines what was submitted to it alone,
whoever had its id before. -/
theorem cells_apart (h : (system cfg).ReachableVia (KeepsApart cfg.elementPerBlock) f) : Isolated cfg f := by
  obtain ⟨C, M, hr, hR⟩ := reachable_refines h
  have hi := AgentGroup.Reachable.inv hr
  have hs := AgentGroup.cells_isolated hr
  have hlive : ∀ {c}, (f.group.combiners c).live = true → (C c).live = true := fun hl => (hR.live_eq _).trans hl
  constructor
  case defined => exact hR.defined
  case ids =>
    intro c hc
    obtain ⟨id, hid, hlt, hone⟩ := hs.ids c (hlive hc)
    exact ⟨id, (hR.id_eq c).symm.trans hid, hlt, fun d hd hid' => hone d (hlive hd) ((hR.id_eq d).trans hid')⟩
  case cells => exact hs.cells
  case kept => exact fun l f' hl t i a hget => step_keeps hl hget
  case agree => exact hs.agree
  case listed =>
    intro a hnot hno c
    by_cases hw : Walked f a
    · obtain ⟨d, hd, ha⟩ := hw
      obtain ⟨t, ht⟩ := Option.isSome_iff_exists.1 hd
      rw [hR.pointer d t ht a ha (hno t d)]
      constructor
      · intro hdc
        cases hdc
        exact ha
      · intro hac
        cases hc : f.mtx c with
        | some u => rw [hR.walked_unique hi hd ha (by rw [hc]; rfl) hac]
        | none => exact absurd ⟨d, hd, ha⟩ (hR.listed hi hc hac).1
    · have hM := hs.listed a hnot c
      rw [show (coarse f.group C M).mem a = f.group.mem a from hR.unwalked a hw] at hM
      refine hM.trans ?_
      cases hc : f.mtx c with
      | some u =>
        have hsome : (f.mtx c).isSome = true := by rw [hc]; rfl
        rw [show (coarse f.group C M).combiners c = _ from hR.locked c hsome]
        exact iff_of_false List.not_mem_nil (fun ha => hw ⟨c, hsome, ha⟩)
      | none => rw [show (coarse f.group C M).combiners c = _ from hR.unlocked c hc]
  case running =>
    intro c a ha
    cases hc : f.mtx c with
    | some u =>
      obtain ⟨t, id, -, hget, -⟩ := hR.owner c (by rw [hc]; rfl) a ha
      exact ⟨t, id, hget⟩
    | none =>
      rw [← hR.unlocked c hc] at ha
      exact hs.running c a ha
  case pointer =>
    intro a c hc
    by_cases hw : Walked f a
    · obtain ⟨d, hd, ha⟩ := hw
      obtain ⟨t, ht⟩ := Option.isSome_iff_exists.1 hd
      by_cases hres : (f.place t).resets = some (d, a)
      · -- the agent's pointer is null already
        have htp := hR.place t
        cases hp : f.place t <;> rw [hp] at htp hres <;> cases hres
        · rw [htp.2.2] at hc
          cases hc
        · rw [htp.2.2] at hc
          cases hc
      · rw [hR.pointer d t ht a ha hres] at hc
        cases hc
        exact .inr hd
    · rw [← hR.unwalked a hw] at hc
      exact .inl ((hR.live_eq c).symm.trans (hs.pointer a c hc))
  case observed =>
    intro c hc v hv
    have hm := hR.unlocked_of_live hi hc
    refine hs.observed c (hlive hc) v ?_
    unfold AgentGroup.State.combineAgents at hv ⊢
    rw [show (coarse f.group C M).combiners c = _ from hR.unlocked c hm]
    refine (List.mem_append.1 hv).elim (fun hv => List.mem_append_left _ hv) (fun hv => List.mem_append_right _ ?_)
    obtain ⟨a, ha, hv⟩ := List.mem_flatMap.1 hv
    refine List.mem_flatMap.2 ⟨a, ha, ?_⟩
    rw [show (coarse f.group C M).mem a = f.group.mem a from hR.unwalked a (hR.listed hi hm ha).1]
    exact hv

/-- A part of `KeepsApart` that can be evaluated: the agents in the list are of the first `k` threads, which are in no
exit, and no list is being cleared when a thread exits. -/
def Checked (n k : Nat) (f : State α) : Label α → Bool
  | .destroy _ c => (f.group.combiners c).agents.all (fun a => (List.range k).any (fun t =>
      decide (¬ Exiting (f.group.pc t)) && (List.range f.group.agentKinds).any (fun i =>
        decide (getTlsAgent n (f.group.tls t) i = some a))))
  | .exit _      => (List.range f.group.ncombiners).all (fun c => (f.mtx c).isNone)
  | _            => true

theorem keepsApart_of_checked {k : Nat} {l : Label α} (h : (system cfg).ReachableVia (KeepsApart cfg.elementPerBlock) f)
    (hl : Checked cfg.elementPerBlock k f l = true) : KeepsApart cfg.elementPerBlock f l := by
  obtain ⟨C, M, hr, hR⟩ := reachable_refines h
  have hi := AgentGroup.Reachable.inv hr
  cases l with
  | destroy t c =>
    intro u hu a ha ho
    obtain ⟨v, -, hv⟩ := List.any_eq_true.1 (List.all_eq_true.1 hl a ha)
    obtain ⟨hv, hget⟩ := Bool.and_eq_true_iff.1 hv
    obtain ⟨i, -, hget⟩ := List.any_eq_true.1 hget
    have huv := hi.owner_unique (t := u) (u := v) ho (Owned.of_get cfg.elementPerBlock_pos (of_decide_eq_true hget))
    exact of_decide_eq_true hv (huv ▸ hu)
  | exit t =>
    intro c hc
    by_cases hlt : c < f.group.ncombiners
    · have hnone := List.all_eq_true.1 hl c (List.mem_range.2 hlt)
      rw [Option.isNone_iff_eq_none.1 hnone] at hc
      cases hc
    · obtain ⟨u, hu⟩ := Option.isSome_iff_exists.1 hc
      have hun : C c = .unused α := hi.unused c (Nat.le_of_not_lt hlt)
      refine absurd ?_ (hR.dying hi hu).2
      rw [← hR.id_eq, hun]
      rfl
  | _ => trivial

theorem reachable_of_checked {k : Nat}
    (h : (system cfg).ReachableVia (fun f l => Checked cfg.elementPerBlock k f l = true) f) :
    (system cfg).ReachableVia (KeepsApart cfg.elementPerBlock) f := by
  induction h with
  | init h => exact .init h
  | step _ hok hs ih => exact ih.step (keepsApart_of_checked ih hok) hs

/-- Threads 1 and 2 submit to combiner 0, and thread 2 exits.  The combiner is destroyed, another one gets its id, and
thread 1 submits 8 to that one. -/
def recycledIdRun : List (Label Nat) :=
  [.construct 0, .submit 1 0 7 (fun _ => [5]), .go 1, .go 1, .submit 2 0 6 (fun _ => []), .go 2, .go 2, .exit 2,
    .go 2, .go 2, .go 2, .go 2, .go 2, .destroy 0 0, .go 0, .go 0, .go 0, .go 0, .go 0, .construct 0,
    .submit 1 1 8 (fun _ => []), .go 1, .go 1]

theorem cells_apart_recycledIdRun : ∃ f : State Nat,
    (system (⟨2, [9], by decide⟩ : Config Nat)).run (initState Nat) recycledIdRun = some f ∧
    (f.group.combiners 1).id = some 0 ∧ f.group.combineAgents 1 = [8] ∧ Isolated ⟨2, [9], by decide⟩ f := by
  have hrun : ((system (⟨2, [9], by decide⟩ : Config Nat)).run (initState Nat) recycledIdRun).map
      (fun f => ((f.group.combiners 1).id, f.group.combineAgents 1)) = some (some 0, [8]) := by decide
  have hok : (system (⟨2, [9], by decide⟩ : Config Nat)).RunOk (fun f l => Checked 2 3 f l = true) (initState Nat)
      recycledIdRun := by decide
  obtain ⟨f, hs, hx⟩ := Option.map_eq_some_iff.1 hrun
  obtain ⟨hid, hval⟩ := Prod.mk.inj hx
  exact ⟨f, hs, hid, hval, cells_apart (reachable_of_checked (System.ReachableVia.run (.init rfl) _ hok hs))⟩

end AgentExit
end ContentionProf
