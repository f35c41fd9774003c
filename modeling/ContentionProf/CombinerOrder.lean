import ContentionProf.Combiner
import Mathlib.Data.List.Nodup
import Mathlib.Data.List.Perm.Basic
import Mathlib.Data.List.Flatten
/-!
# CombinerOrder — no value lost, none twice, each thread's in order

When every value names its submitter (`owner`), the values of one thread are, from the oldest on, in the results, in the
hands of the reset under way, in the global result and in the thread's own agent.  No value need name it: a run looks
the same when every value is tagged with its thread (`step_map`).
-/
namespace ContentionProf
namespace Combiner

variable {α β : Type}

section Owner

variable (owner : β → Thread)

/-- The values of one thread. -/
def of (u : Thread) (l : List β) : List β := l.filter (fun x => owner x == u)

@[simp] theorem of_nil (u : Thread) : of owner u [] = [] := rfl

@[simp] theorem of_append (u : Thread) (l₁ l₂ : List β) : of owner u (l₁ ++ l₂) = of owner u l₁ ++ of owner u l₂ :=
  List.filter_append ..

/-- Every thread submits values that name it. -/
def Owned (_ : State β) : Label β → Prop
  | .submit t v => owner v = t
  | _           => True

theorem of_eq_self {u : Thread} {l : List β} (h : ∀ x ∈ l, owner x = u) : of owner u l = l :=
  List.filter_eq_self.2 (fun x hx => beq_iff_eq.2 (h x hx))

theorem of_eq_nil {u : Thread} {l : List β} (h : ∀ x ∈ l, owner x ≠ u) : of owner u l = [] :=
  List.filter_eq_nil_iff.2 (fun x hx => fun hb => h x hx (beq_iff_eq.1 hb))

/-- What a thread's place in a call says about its agent and about `mtx_`. -/
def PcOk (s : State β) (t : Thread) : Pc β → Prop
  | .idle         => s.combiner t = true ↔ t ∈ s.agents
  | .append v     => t ∉ s.agents ∧ s.combiner t = true ∧ s.element t = [] ∧ owner v = t
  | .modify v     => t ∈ s.agents ∧ s.combiner t = true ∧ owner v = t
  | .reset        => s.combiner t = true ↔ t ∈ s.agents
  | .exchange _ _ => (s.combiner t = true ↔ t ∈ s.agents) ∧ s.mtx = some t ∧ s.globalResult = []
  | .commit       => t ∈ s.agents ∧ s.combiner t = true
  | .load         => t ∈ s.agents ∧ s.combiner t = true ∧ s.mtx = some t
  | .erase val    => t ∈ s.agents ∧ s.combiner t = true ∧ s.mtx = some t ∧ val = s.element t

/-- What a thread's agent holds, if it is listed. -/
def listed (agents : List Thread) (e : Thread → List β) (u : Thread) : List β := if u ∈ agents then e u else []

/-- The values of one thread that reached the combiner, the oldest first. -/
def ofThread (s : State β) (u : Thread) : List β :=
  of owner u s.results.flatten ++ of owner u s.inHand ++ of owner u s.globalResult ++ listed s.agents s.element u

structure Inv (s : State β) : Prop where
  nodup : s.agents.Nodup
  owned : ∀ t ∈ s.agents, ∀ x ∈ s.element t, owner x = t
  pc : ∀ t, PcOk owner s t (s.pc t)
  values : ∀ u, ofThread owner s u ++ (s.pc u).pending = (s.log.filter (fun x => x.1 == u)).map Prod.snd

variable {owner} {s s' : State β} {t u : Thread}

theorem listed_of_mem {l : List Thread} {e : Thread → List β} (h : u ∈ l) : listed l e u = e u := if_pos h

theorem listed_of_not_mem {l : List Thread} {e : Thread → List β} (h : u ∉ l) : listed l e u = [] := if_neg h

/-- A list of agents in which a thread's is listed at most once. -/
theorem of_flatMap_element {e : Thread → List β} : ∀ {l : List Thread}, l.Nodup → (∀ t ∈ l, ∀ x ∈ e t, owner x = t) →
    of owner u (l.flatMap e) = listed l e u
  | [], _, _         => rfl
  | t :: l, hnd, how => by
    obtain ⟨ht, hl⟩ := List.nodup_cons.1 hnd
    have ih := of_flatMap_element hl (fun v hv => how v (List.mem_cons_of_mem _ hv))
    rw [List.flatMap_cons, of_append, ih]
    by_cases hu : u = t
    · subst hu
      rw [of_eq_self owner (how u List.mem_cons_self), listed_of_not_mem ht, listed_of_mem List.mem_cons_self,
        List.append_nil]
    · have hne : ∀ x ∈ e t, owner x ≠ u := fun x hx h => hu (h.symm.trans (how t List.mem_cons_self x hx))
      rw [of_eq_nil owner hne, List.nil_append]
      simp only [listed, List.mem_cons, hu, false_or]

theorem Inv.of_total (h : Inv owner s) (u : Thread) : of owner u s.total = ofThread owner s u := by
  unfold State.total ofThread
  rw [of_append, of_append, of_append, of_flatMap_element h.nodup h.owned]

/-! ## One step -/

theorem setPc_pc_self (s : State β) (t : Thread) (pc : Pc β) : (s.setPc t pc).pc t = pc := Function.update_self ..

theorem setPc_pc_of_ne {pc : Pc β} (hu : u ≠ t) : (s.setPc t pc).pc u = s.pc u := Function.update_of_ne hu ..

/-- **What another thread's place says does not change** while its agent is let alone and `mtx_` keeps it as its
owner. -/
theorem PcOk.of_eq {pc : Pc β} (h : PcOk owner s u pc) (hc : s'.combiner u = s.combiner u)
    (ha : u ∈ s'.agents ↔ u ∈ s.agents) (he : s.mtx = some u ∨ u ∉ s.agents → s'.element u = s.element u)
    (hm : s.mtx = some u → s'.mtx = some u ∧ s'.globalResult = s.globalResult) : PcOk owner s' u pc := by
  cases pc with
  | idle => exact (by rw [hc, ha]; exact h : s'.combiner u = true ↔ u ∈ s'.agents)
  | append v => exact ⟨fun hu => h.1 (ha.1 hu), hc.trans h.2.1, (he (.inr h.1)).trans h.2.2.1, h.2.2.2⟩
  | modify v => exact ⟨ha.2 h.1, hc.trans h.2.1, h.2.2⟩
  | reset => exact (by rw [hc, ha]; exact h : s'.combiner u = true ↔ u ∈ s'.agents)
  | exchange node tmp =>
    exact ⟨by rw [hc, ha]; exact h.1, (hm h.2.1).1, (hm h.2.1).2.trans h.2.2⟩
  | commit => exact ⟨ha.2 h.1, hc.trans h.2⟩
  | load => exact ⟨ha.2 h.1, hc.trans h.2.1, (hm h.2.2).1⟩
  | erase val => exact ⟨ha.2 h.1, hc.trans h.2.1, (hm h.2.2.1).1, (he (.inl h.2.2.1)).symm ▸ h.2.2.2⟩

theorem inHand_of_owner (h : s.mtx = some t) : s.inHand = (s.pc t).tmp := by unfold State.inHand; rw [h]

theorem inHand_of_free (h : s.mtx = none) : s.inHand = [] := by unfold State.inHand; rw [h]

theorem inHand_congr (hm : s'.mtx = s.mtx) (hpc : ∀ u, (s'.pc u).tmp = (s.pc u).tmp) : s'.inHand = s.inHand := by
  unfold State.inHand
  rw [hm]
  cases s.mtx with
  | none => rfl
  | some u => exact hpc u

theorem tmp_update {f : Thread → Pc β} {pc : Pc β} (h : pc.tmp = (f t).tmp) (u : Thread) :
    (Function.update f t pc u).tmp = (f u).tmp := by
  by_cases hu : u = t
  · rw [hu, Function.update_self, h]
  · rw [Function.update_of_ne hu]

/-- The parts of the invariant that are about the moving thread, and the equation for every thread's values. -/
theorem Inv.of_step (h : Inv owner s) (hpc : ∀ u, u ≠ t → s'.pc u = s.pc u) (hnodup : s'.agents.Nodup)
    (howned : ∀ t ∈ s'.agents, ∀ x ∈ s'.element t, owner x = t)
    (hc : ∀ u, u ≠ t → s'.combiner u = s.combiner u) (ha : ∀ u, u ≠ t → (u ∈ s'.agents ↔ u ∈ s.agents))
    (he : ∀ u, u ≠ t → s.mtx = some u ∨ u ∉ s.agents → s'.element u = s.element u)
    (hm : ∀ u, u ≠ t → s.mtx = some u → s'.mtx = some u ∧ s'.globalResult = s.globalResult)
    (hself : PcOk owner s' t (s'.pc t))
    (hvalues : ∀ u, ofThread owner s' u ++ (s'.pc u).pending = (s'.log.filter (fun x => x.1 == u)).map Prod.snd) :
    Inv owner s' := by
  refine ⟨hnodup, howned, fun u => ?_, hvalues⟩
  by_cases hu : u = t
  · rw [hu]; exact hself
  · rw [hpc u hu]
    exact (h.pc u).of_eq (hc u hu) (ha u hu) (he u hu) (hm u hu)

theorem ofThread_congr (hr : s'.results = s.results) (hh : s'.inHand = s.inHand)
    (hg : s'.globalResult = s.globalResult) (hl : listed s'.agents s'.element u = listed s.agents s.element u) :
    ofThread owner s' u = ofThread owner s u := by
  unfold ofThread
  rw [hr, hh, hg, hl]

theorem listed_update {l : List Thread} {e : Thread → List β} {x : List β} (hu : u ≠ t ∨ t ∉ l) :
    listed l (Function.update e t x) u = listed l e u := by
  by_cases hut : u = t
  · rcases hu with hu | hu
    · exact absurd hut hu
    · rw [hut, listed_of_not_mem hu, listed_of_not_mem hu]
  · unfold listed
    rw [Function.update_of_ne hut]

theorem filter_log_append (l : List (Thread × β)) (t u : Thread) (v : β) :
    ((l ++ [(t, v)]).filter (fun x => x.1 == u)).map Prod.snd =
      (l.filter (fun x => x.1 == u)).map Prod.snd ++ if t = u then [v] else [] := by
  rw [List.filter_append, List.map_append]
  by_cases h : t = u <;> simp [h]

/-- A call of `operator<<` makes its value pending. -/
theorem Inv.submit {v : β} (h : Inv owner s) (hp : s.pc t = .idle) (hv : owner v = t) :
    Inv owner (submit s t v) := by
  have hi := h.pc t
  rw [hp] at hi
  have hi : s.combiner t = true ↔ t ∈ s.agents := hi
  -- the equation, once the combiner's part is known to be unchanged
  have hvals : ∀ (s' : State β) (pc : Pc β) (u : Thread), pc.pending = [v] → s'.pc = Function.update s.pc t pc →
      s'.log = s.log ++ [(t, v)] → ofThread owner s' u = ofThread owner s u →
      ofThread owner s' u ++ (s'.pc u).pending = (s'.log.filter (fun x => x.1 == u)).map Prod.snd := by
    intro s' pc u hpend hpc hl hof
    rw [hl, filter_log_append, ← h.values, hof, hpc]
    by_cases hu : u = t
    · rw [hu, Function.update_self, hpend, hp, if_pos rfl, show (Pc.idle : Pc β).pending = [] from rfl, List.append_nil]
    · rw [Function.update_of_ne hu, if_neg (fun htu => hu htu.symm), List.append_nil]
  unfold Combiner.submit
  dsimp only
  split
  · rename_i hc
    refine h.of_step (t := t) (fun u hu => setPc_pc_of_ne hu) h.nodup h.owned (fun _ _ => rfl) (fun _ _ => .rfl)
      (fun _ _ _ => rfl) (fun _ _ hm => ⟨hm, rfl⟩) ?_ (fun u => hvals _ _ u rfl rfl rfl ?_)
    · rw [setPc_pc_self]
      exact ⟨hi.1 hc, hc, hv⟩
    · exact ofThread_congr rfl (inHand_congr rfl (tmp_update (by rw [hp]; rfl))) rfl rfl
  · rename_i hc
    have ht : t ∉ s.agents := fun ht => hc (hi.2 ht)
    refine h.of_step (t := t) (fun u hu => setPc_pc_of_ne hu) h.nodup (fun u hu => ?_)
      (fun u hu => Function.update_of_ne hu ..) (fun _ _ => .rfl) (fun u hu _ => Function.update_of_ne hu ..)
      (fun _ _ hm => ⟨hm, rfl⟩) ?_ (fun u => hvals _ _ u rfl rfl rfl ?_)
    · have hut : u ≠ t := fun hut => ht (hut ▸ hu)
      show ∀ x ∈ Function.update s.element t [] u, owner x = u
      rw [Function.update_of_ne hut]
      exact h.owned u hu
    · rw [setPc_pc_self]
      exact ⟨ht, Function.update_self .., Function.update_self .., hv⟩
    · refine ofThread_congr rfl (inHand_congr rfl (tmp_update ?_)) rfl (listed_update (.inr ht))
      show _ = (s.pc t).tmp
      rw [hp]
      rfl

/-- The equation is kept by a step that keeps the thread's pending values and the combiner's part. -/
theorem Inv.values_of_eq {pc : Pc β} (h : Inv owner s) (hpc : s'.pc = Function.update s.pc t pc) (hl : s'.log = s.log)
    (hpend : pc.pending = (s.pc t).pending) (hof : ofThread owner s' u = ofThread owner s u) :
    ofThread owner s' u ++ (s'.pc u).pending = (s'.log.filter (fun x => x.1 == u)).map Prod.snd := by
  rw [hof, hl, ← h.values, hpc]
  by_cases hu : u = t
  · rw [hu, Function.update_self, hpend]
  · rw [Function.update_of_ne hu]

/-- A step between two places of a call outside the walk; it may take `mtx_`. -/
theorem Inv.move {pc : Pc β} {m : Option Thread} (h : Inv owner s) (hpend : pc.pending = (s.pc t).pending)
    (htmp : pc.tmp = []) (htmp' : (s.pc t).tmp = []) (hm : m = s.mtx ∨ s.mtx = none ∧ m = some t)
    (hpc : PcOk owner { s with mtx := m } t pc) : Inv owner ({ s with mtx := m }.setPc t pc) := by
  have hh : ({ s with mtx := m }.setPc t pc).inHand = s.inHand := by
    rcases hm with rfl | ⟨hn, rfl⟩
    · exact inHand_congr rfl (tmp_update (htmp.trans htmp'.symm))
    · rw [inHand_of_owner (t := t) rfl, inHand_of_free hn, setPc_pc_self, htmp]
  refine h.of_step (t := t) (fun u hu => setPc_pc_of_ne hu) h.nodup h.owned (fun _ _ => rfl) (fun _ _ => .rfl)
    (fun _ _ _ => rfl) (fun u hu hmu => ?_) ?_ (fun u => h.values_of_eq rfl rfl hpend (ofThread_congr rfl hh rfl rfl))
  · rcases hm with rfl | ⟨hn, -⟩
    · exact ⟨hmu, rfl⟩
    · rw [hn] at hmu; cases hmu
  · rw [setPc_pc_self]
    exact hpc.of_eq rfl .rfl (fun _ => rfl) (fun hm => ⟨hm, rfl⟩)

theorem Inv.append {v : β} (h : Inv owner s) (hp : s.pc t = .append v) (hm : s.mtx = none) :
    Inv owner ({ s with agents := s.agents ++ [t] }.setPc t (.modify v)) := by
  have hi := h.pc t
  rw [hp] at hi
  obtain ⟨ht, hc, he, hv⟩ := hi
  have hmem : ∀ u, u ≠ t → (u ∈ s.agents ++ [t] ↔ u ∈ s.agents) := by
    intro u hu
    rw [List.mem_append, List.mem_singleton]
    exact or_iff_left hu
  refine h.of_step (t := t) (fun u hu => setPc_pc_of_ne hu) ?_ (fun u hu => ?_) (fun _ _ => rfl) hmem
    (fun _ _ _ => rfl) (fun u _ hmu => ?_) ?_ (fun u => h.values_of_eq rfl rfl (by rw [hp]; rfl) ?_)
  · exact List.nodup_append.2 ⟨h.nodup, List.nodup_singleton t, fun a ha b hb hab => ht (by
      rw [← List.mem_singleton.1 hb, ← hab]; exact ha)⟩
  · by_cases hut : u = t
    · subst hut
      show ∀ x ∈ s.element u, owner x = u
      rw [he]
      exact nofun
    · exact h.owned u ((hmem u hut).1 hu)
  · rw [hm] at hmu; cases hmu
  · rw [setPc_pc_self]
    exact ⟨List.mem_append_right _ List.mem_cons_self, hc, hv⟩
  · refine ofThread_congr rfl (inHand_congr rfl (tmp_update (by show _ = (s.pc t).tmp; rw [hp]; rfl))) rfl ?_
    show listed (s.agents ++ [t]) s.element u = _
    by_cases hut : u = t
    · rw [hut, listed_of_mem (List.mem_append_right _ List.mem_cons_self), listed_of_not_mem ht, he]
    · simp only [listed, hmem u hut]

theorem Inv.modify {v : β} (h : Inv owner s) (hp : s.pc t = .modify v) :
    Inv owner ((s.setElement t (s.element t ++ [v])).setPc t .idle) := by
  have hi := h.pc t
  rw [hp] at hi
  obtain ⟨ht, hc, hv⟩ := hi
  refine h.of_step (t := t) (fun u hu => setPc_pc_of_ne hu) h.nodup (fun u hu => ?_) (fun _ _ => rfl) (fun _ _ => .rfl)
    (fun u hu _ => Function.update_of_ne hu ..) (fun _ _ hm => ⟨hm, rfl⟩) ?_ (fun u => ?_)
  · show ∀ x ∈ Function.update s.element t (s.element t ++ [v]) u, owner x = u
    by_cases hut : u = t
    · subst hut
      rw [Function.update_self]
      intro x hx
      rcases List.mem_append.1 hx with hx | hx
      · exact h.owned u hu x hx
      · rw [List.mem_singleton.1 hx, hv]
    · rw [Function.update_of_ne hut]
      exact h.owned u hu
  · rw [setPc_pc_self]
    exact iff_of_true hc ht
  · have hh : ((s.setElement t (s.element t ++ [v])).setPc t .idle).inHand = s.inHand :=
      inHand_congr rfl (tmp_update (by show _ = (s.pc t).tmp; rw [hp]; rfl))
    by_cases hut : u = t
    · subst hut
      refine Eq.trans ?_ (h.values u)
      rw [setPc_pc_self, hp]
      unfold ofThread
      rw [hh]
      show _ ++ listed s.agents (Function.update s.element u (s.element u ++ [v])) u ++ [] = _ ++ listed _ _ _ ++ [v]
      rw [listed_of_mem ht, listed_of_mem ht, Function.update_self, List.append_nil]
      simp only [List.append_assoc]
      rfl
    · have hof : ofThread owner ((s.setElement t (s.element t ++ [v])).setPc t .idle) u = ofThread owner s u :=
        ofThread_congr rfl hh rfl (listed_update (.inl hut))
      rw [hof, setPc_pc_of_ne hut]
      exact h.values u

/-- `reset_all_agents` takes the global result. -/
theorem Inv.resetBegin (h : Inv owner s) (hp : s.pc t = .reset) (hm : s.mtx = none) :
    Inv owner ({ s with mtx := some t, globalResult := [] }.setPc t (.exchange 0 s.globalResult)) := by
  have hi := h.pc t
  rw [hp] at hi
  refine h.of_step (t := t) (fun u hu => setPc_pc_of_ne hu) h.nodup h.owned (fun _ _ => rfl) (fun _ _ => .rfl)
    (fun _ _ _ => rfl) (fun u _ hmu => ?_) ?_ (fun u => h.values_of_eq rfl rfl (by rw [hp]; rfl) ?_)
  · rw [hm] at hmu; cases hmu
  · rw [setPc_pc_self]
    exact ⟨hi, rfl, rfl⟩
  · unfold ofThread
    rw [inHand_of_free hm, inHand_of_owner (t := t) rfl, setPc_pc_self]
    simp [State.setPc, Pc.tmp]

theorem Inv.exchange {node : Nat} {tmp : List β} {v : Thread} (h : Inv owner s) (hp : s.pc t = .exchange node tmp)
    (hv : v ∈ s.agents) : Inv owner ((s.setElement v []).setPc t (.exchange (node + 1) (tmp ++ s.element v))) := by
  have hi := h.pc t
  rw [hp] at hi
  obtain ⟨hc, hm, hg⟩ := hi
  refine h.of_step (t := t) (fun u hu => setPc_pc_of_ne hu) h.nodup (fun u hu => ?_) (fun _ _ => rfl) (fun _ _ => .rfl)
    (fun u hu hor => ?_) (fun _ _ hm => ⟨hm, rfl⟩) ?_ (fun u => h.values_of_eq rfl rfl (by rw [hp]; rfl) ?_)
  · show ∀ x ∈ Function.update s.element v [] u, owner x = u
    by_cases huv : u = v
    · rw [huv, Function.update_self]
      exact nofun
    · rw [Function.update_of_ne huv]
      exact h.owned u hu
  · refine Function.update_of_ne ?_ ..
    rintro rfl
    rcases hor with hor | hor
    · rw [hm] at hor
      exact hu (Option.some.inj hor).symm
    · exact hor hv
  · rw [setPc_pc_self]
    exact ⟨hc, hm, hg⟩
  · have hhand : ((s.setElement v []).setPc t (.exchange (node + 1) (tmp ++ s.element v))).inHand =
      tmp ++ s.element v := by
      have hm' : ((s.setElement v []).setPc t (.exchange (node + 1) (tmp ++ s.element v))).mtx = some t := hm
      rw [inHand_of_owner hm', setPc_pc_self]
      rfl
    unfold ofThread
    rw [hhand, inHand_of_owner hm, hp]
    show of owner u s.results.flatten ++ of owner u (tmp ++ s.element v) ++ of owner u s.globalResult ++
      listed s.agents (Function.update s.element v []) u = _
    rw [hg, of_append]
    by_cases huv : u = v
    · subst huv
      rw [of_eq_self owner (h.owned u hv), listed_of_mem hv, listed_of_mem hv, Function.update_self]
      simp [Pc.tmp]
    · have hne : ∀ x ∈ s.element v, owner x ≠ u := fun x hx hxu => huv (hxu.symm.trans (h.owned v hv x hx))
      rw [of_eq_nil owner hne, listed_update (.inl huv), List.append_nil]
      rfl

/-- `reset_all_agents` returns. -/
theorem Inv.resetEnd {node : Nat} {tmp : List β} (h : Inv owner s) (hp : s.pc t = .exchange node tmp) :
    Inv owner ({ s with mtx := none, results := s.results ++ [tmp] }.setPc t .idle) := by
  have hi := h.pc t
  rw [hp] at hi
  obtain ⟨hc, hm, hg⟩ := hi
  refine h.of_step (t := t) (fun u hu => setPc_pc_of_ne hu) h.nodup h.owned (fun _ _ => rfl) (fun _ _ => .rfl)
    (fun _ _ _ => rfl) (fun u hu hmu => ?_) ?_ (fun u => h.values_of_eq rfl rfl (by rw [hp]; rfl) ?_)
  · rw [hm] at hmu
    exact absurd (Option.some.inj hmu).symm hu
  · rw [setPc_pc_self]
    exact hc
  · unfold ofThread
    rw [inHand_of_free rfl, inHand_of_owner hm, hp]
    simp [State.setPc, Pc.tmp]

/-- An agent's values go to the global result, and the agent leaves the list. -/
theorem Inv.erase {val : List β} (h : Inv owner s) (hp : s.pc t = .erase val) :
    Inv owner ({ s with
      mtx := none
      globalResult := s.globalResult ++ val
      agents := s.agents.erase t
      combiner := Function.update s.combiner t false }.setPc t .idle) := by
  have hi := h.pc t
  rw [hp] at hi
  obtain ⟨ht, hc, hm, rfl⟩ := hi
  have hmem : ∀ u, u ≠ t → (u ∈ s.agents.erase t ↔ u ∈ s.agents) := fun u hu => List.mem_erase_of_ne hu
  have hnot : t ∉ s.agents.erase t := h.nodup.not_mem_erase
  refine h.of_step (t := t) (fun u hu => setPc_pc_of_ne hu) (h.nodup.erase t)
    (fun u hu => h.owned u (List.mem_of_mem_erase hu)) (fun u hu => Function.update_of_ne hu ..) hmem
    (fun _ _ _ => rfl) (fun u hu hmu => ?_) ?_ (fun u => h.values_of_eq rfl rfl (by rw [hp]; rfl) ?_)
  · rw [hm] at hmu
    exact absurd (Option.some.inj hmu).symm hu
  · rw [setPc_pc_self]
    show Function.update s.combiner t false t = true ↔ t ∈ s.agents.erase t
    rw [Function.update_self]
    exact iff_of_false nofun hnot
  · unfold ofThread
    rw [inHand_of_free rfl, inHand_of_owner hm, hp]
    show of owner u s.results.flatten ++ of owner u [] ++ of owner u (s.globalResult ++ s.element t) ++
      listed (s.agents.erase t) s.element u = _
    rw [of_append]
    by_cases hut : u = t
    · subst hut
      rw [of_eq_self owner (h.owned u ht), listed_of_mem ht, listed_of_not_mem hnot]
      simp [Pc.tmp]
    · have hne : ∀ x ∈ s.element t, owner x ≠ u := fun x hx hxu => hut (hxu.symm.trans (h.owned t ht x hx))
      rw [of_eq_nil owner hne]
      simp [listed, hmem u hut, Pc.tmp]

theorem Inv.advance (h : Inv owner s) (hs : advance s t = some s') : Inv owner s' := by
  have hi := h.pc t
  cases hp : s.pc t with
  | idle => simp only [Combiner.advance, hp] at hs; cases hs
  | append v =>
    simp only [Combiner.advance, hp] at hs
    split at hs
    · rename_i hm; cases hs; exact h.append hp hm
    · cases hs
  | modify v =>
    simp only [Combiner.advance, hp] at hs
    cases hs
    exact h.modify hp
  | reset =>
    simp only [Combiner.advance, hp] at hs
    split at hs
    · rename_i hm; cases hs; exact h.resetBegin hp hm
    · cases hs
  | exchange node tmp =>
    simp only [Combiner.advance, hp] at hs
    split at hs
    · rename_i v hv; cases hs; exact h.exchange hp (List.mem_of_getElem? hv)
    · cases hs; exact h.resetEnd hp
  | commit =>
    rw [hp] at hi
    simp only [Combiner.advance, hp] at hs
    split at hs
    · rename_i hm
      cases hs
      exact h.move (by rw [hp]; rfl) rfl (by rw [hp]; rfl) (.inr ⟨hm, rfl⟩) ⟨hi.1, hi.2, rfl⟩
    · cases hs
  | load =>
    rw [hp] at hi
    simp only [Combiner.advance, hp] at hs
    cases hs
    exact h.move (m := s.mtx) (by rw [hp]; rfl) rfl (by rw [hp]; rfl) (.inl rfl) ⟨hi.1, hi.2.1, hi.2.2, rfl⟩
  | erase val =>
    simp only [Combiner.advance, hp] at hs
    cases hs
    exact h.erase hp

theorem isIdle_iff {pc : Pc β} : pc.isIdle = true ↔ pc = .idle := by cases pc <;> simp [Pc.isIdle]

/-- **Every step keeps every thread's values together and in order.** -/
theorem inv_step {a : Label β} (h : Inv owner s) (ha : Owned owner s a) (hs : step s a = some s') : Inv owner s' := by
  cases a with
  | submit t v =>
    simp only [step] at hs
    split at hs
    · rename_i hp
      cases hs
      exact h.submit (isIdle_iff.1 hp) ha
    · cases hs
  | reset t =>
    simp only [step] at hs
    split at hs
    · rename_i hp
      have hp := isIdle_iff.1 hp
      have hi := h.pc t
      rw [hp] at hi
      cases hs
      exact h.move (m := s.mtx) (by rw [hp]; rfl) rfl (by rw [hp]; rfl) (.inl rfl) hi
    · cases hs
  | exit t =>
    simp only [step] at hs
    split at hs
    · rename_i hp
      obtain ⟨hp, hc⟩ := Bool.and_eq_true_iff.1 hp
      have hp := isIdle_iff.1 hp
      have hi := h.pc t
      rw [hp] at hi
      cases hs
      exact h.move (m := s.mtx) (by rw [hp]; rfl) rfl (by rw [hp]; rfl) (.inl rfl) ⟨hi.1 hc, hc⟩
    · cases hs
  | go t => exact h.advance hs

theorem inv_init (h : (system β).init s) : Inv owner s := by
  obtain ⟨hm, hg, ha, hc, hp, hr, hl⟩ := h
  refine ⟨by rw [ha]; exact List.nodup_nil, by rw [ha]; exact nofun, fun t => ?_, fun u => ?_⟩
  · rw [hp]
    show s.combiner t = true ↔ t ∈ s.agents
    rw [hc, ha]
    exact iff_of_false nofun List.not_mem_nil
  · unfold ofThread
    rw [inHand_of_free hm, hr, hg, ha, hp, hl]
    rfl

theorem inv_reachable (h : (system β).ReachableVia (Owned owner) s) : Inv owner s :=
  System.ReachableVia.invariant (I := Inv owner) (fun _ => inv_init) (fun _ _ _ hi ha hs => inv_step hi ha hs) h

end Owner

/-! ## Any values -/

/-- A state with every value tagged: what is in an agent is its thread's. -/
def State.tagged (s : State α) : State (Thread × α) where
  mtx := none
  globalResult := []
  agents := []
  element := fun t => (s.element t).map (Prod.mk t)
  combiner := fun _ => false
  pc := fun _ => .idle
  results := []
  log := []

def Label.tagged : Label α → Label (Thread × α)
  | .submit t v => .submit t (t, v)
  | .reset t    => .reset t
  | .exit t     => .exit t
  | .go t       => .go t

theorem tagged_map_snd (a : Label α) : a.tagged.map Prod.snd = a := by cases a <;> rfl

theorem owned_tagged (s : State (Thread × α)) (a : Label α) : Owned Prod.fst s a.tagged := by cases a <;> trivial

theorem map_tagged_init {s : State α} (h : (system α).init s) : (State.tagged s).map Prod.snd = s := by
  obtain ⟨hm, hg, ha, hc, hp, hr, hl⟩ := h
  cases s
  simp only [State.tagged, State.map] at *
  subst hm hg ha hc hp hr hl
  simp only [State.mk.injEq, List.map_nil, true_and, and_true]
  refine ⟨?_, rfl⟩
  funext t
  simp [Function.comp_def]

/-- **A run looks the same when every value carries its thread.** -/
theorem exists_tagged {s : State α} (h : (system α).Reachable s) :
    ∃ s₁, (system (Thread × α)).ReachableVia (Owned Prod.fst) s₁ ∧ s₁.map Prod.snd = s := by
  induction h with
  | init h0 => exact ⟨_, .init ⟨rfl, rfl, rfl, rfl, rfl, rfl, rfl⟩, map_tagged_init h0⟩
  | step _ _ hs ih =>
    rename_i s s' a _ _
    obtain ⟨s₁, h₁, rfl⟩ := ih
    have hs : step (s₁.map Prod.snd) a = some s' := hs
    rw [← tagged_map_snd a, step_map] at hs
    obtain ⟨s₂, h₂, rfl⟩ := Option.map_eq_some_iff.1 hs
    exact ⟨s₂, h₁.step (owned_tagged s₁ a) h₂, rfl⟩

theorem pending_owner {owner : β → Thread} {s : State β} {t : Thread} (h : Inv owner s) :
    ∀ x ∈ (s.pc t).pending, owner x = t := by
  have hi := h.pc t
  intro x hx
  cases hp : s.pc t with
  | append v =>
    rw [hp] at hx hi
    rw [List.mem_singleton.1 hx]
    exact hi.2.2.2
  | modify v =>
    rw [hp] at hx hi
    rw [List.mem_singleton.1 hx]
    exact hi.2.2
  | _ => rw [hp] at hx; cases hx

theorem map_mk_snd {t : Thread} : ∀ {l : List (Thread × α)}, (∀ x ∈ l, x.1 = t) → (l.map Prod.snd).map (Prod.mk t) = l
  | [], _     => rfl
  | x :: l, h => by
    rw [List.map_cons, List.map_cons, map_mk_snd (fun y hy => h y (List.mem_cons_of_mem _ hy)),
      ← h x List.mem_cons_self]

/-- What the log of the tagged run says of one thread. -/
theorem filter_log_tagged {s : State (Thread × α)} (h : Inv Prod.fst s) (t : Thread) :
    (s.map Prod.snd).log.filter (fun x => x.1 == t) = of Prod.fst t s.total ++ (s.pc t).pending := by
  have hv := h.values t
  rw [← h.of_total] at hv
  -- the values of the thread's calls are tagged with the thread
  have htag : ∀ x ∈ s.log.filter (fun x => x.1 == t), x.2.1 = t := by
    intro x hx
    have hmem : x.2 ∈ of Prod.fst t s.total ++ (s.pc t).pending := hv ▸ List.mem_map_of_mem hx
    rcases List.mem_append.1 hmem with hm | hm
    · exact beq_iff_eq.1 (List.mem_filter.1 hm).2
    · exact pending_owner h _ hm
  rw [hv]
  show (s.log.map (Prod.map id Prod.snd)).filter (fun x => x.1 == t) = _
  rw [List.filter_map]
  refine List.map_congr_left (fun x hx => ?_)
  have hx1 : x.1 = t := beq_iff_eq.1 (List.mem_filter.1 hx).2
  have hx2 : x.2.1 = t := htag x hx
  exact Prod.ext (hx1.trans hx2.symm) rfl

/-- Lists with the same values of every thread are permutations of each other. -/
theorem perm_of_filter {l₁ l₂ : List (Thread × α)}
    (h : ∀ t, l₁.filter (fun x => x.1 == t) = l₂.filter (fun x => x.1 == t)) : l₁.Perm l₂ := by
  classical
  rw [List.perm_iff_count]
  intro x
  have hcount : ∀ l : List (Thread × α), (l.filter (fun y => y.1 == x.1)).count x = l.count x := fun l =>
    List.count_filter (beq_self_eq_true x.1)
  rw [← hcount l₁, h, hcount]

/-- **No value is lost or duplicated, and each thread's are in order**: the results of the resets, what a reset under
way has taken, the global result and the listed agents, in this order, hold the values of every thread exactly as often
and in the order as the thread submitted them, but for the one it is just submitting. -/
theorem reducer_order {s : State α} (h : (system α).Reachable s) :
    ∃ l : List (Thread × α), l.map Prod.snd = s.total ∧
      (∀ t, l.filter (fun x => x.1 == t) ++ (s.pc t).pending.map (Prod.mk t) = s.log.filter (fun x => x.1 == t)) ∧
      ((∀ t, (s.pc t).pending = []) → l.Perm s.log) := by
  obtain ⟨s₁, h₁, rfl⟩ := exists_tagged h
  have hi := inv_reachable h₁
  have hpend : ∀ t, ((s₁.map Prod.snd).pc t).pending = (s₁.pc t).pending.map Prod.snd := fun t => pending_map ..
  have heach : ∀ t, s₁.total.filter (fun x => x.1 == t) ++ ((s₁.map Prod.snd).pc t).pending.map (Prod.mk t) =
      (s₁.map Prod.snd).log.filter (fun x => x.1 == t) := by
    intro t
    rw [hpend, map_mk_snd (pending_owner hi), filter_log_tagged hi]
    rfl
  refine ⟨s₁.total, (total_map ..).symm, heach, fun hp => perm_of_filter (fun t => ?_)⟩
  rw [← heach t, hp t, List.map_nil, List.append_nil]

/-- A value is submitted during a walk that has passed the agent, another thread registers while it waits, and a third
one exits between two resets. -/
def walkRun : List (Label Nat) :=
  [.submit 1 10, .go 1, .go 1, .submit 2 20, .go 2, .go 2, .submit 3 30, .go 3, .go 3,
    .reset 0, .go 0, .go 0, .submit 1 11, .go 1, .submit 4 40, .go 0, .go 0, .go 0, .go 4, .go 4,
    .exit 1, .go 1, .go 1, .go 1, .reset 0, .go 0, .go 0]

def emptyState : State Nat := ⟨none, [], [], fun _ => [], fun _ => false, fun _ => .idle, [], []⟩

theorem reducer_order_walkRun : ∃ s, (system Nat).Reachable s ∧ s.results = [[10, 20, 30]] ∧ s.inHand = [11] ∧
    s.agents = [2, 3, 4] ∧ ∃ l : List (Thread × Nat), l.map Prod.snd = s.total ∧
      (∀ t, l.filter (fun x => x.1 == t) ++ (s.pc t).pending.map (Prod.mk t) = s.log.filter (fun x => x.1 == t)) ∧
      ((∀ t, (s.pc t).pending = []) → l.Perm s.log) := by
  have hrun : ((system Nat).run emptyState walkRun).map (fun s => (s.results, s.inHand, s.agents)) =
      some ([[10, 20, 30]], [11], [2, 3, 4]) := by decide
  obtain ⟨s, hs, hx⟩ := Option.map_eq_some_iff.1 hrun
  have hreach : (system Nat).Reachable s :=
    System.Reachable.run (.init ⟨rfl, rfl, rfl, rfl, rfl, rfl, rfl⟩) walkRun hs
  simp only [Prod.mk.injEq] at hx
  exact ⟨s, hreach, hx.1, hx.2.1, hx.2.2, reducer_order hreach⟩

end Combiner
end ContentionProf
