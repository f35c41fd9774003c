import ContentionProf.Places
import ContentionProf.RingLists
import ContentionProf.SamplerOwners
/-!
# SamplerPlaces — every scheduled sampler in one list (`common/combiner.h`, `common/sampler.cpp`)

A sampler that is scheduled and not unlinked is in one list: of an agent, of the combiner, of the sampling thread while
it collects, or behind the root of `run`.  The others are linked to nothing.
-/
namespace ContentionProf
namespace SamplerCollector

open Links (HeadList RootList SelfLinked Same)

inductive Place
  | agent (t : Thread)
  | globalResult
  | tmp
  | prev
  | list
deriving DecidableEq

/-- How a place holds its samplers. -/
inductive Holder
  | head (a : Option Nat)
  | root

def holder (s : State) : Place → Holder
  | .agent t      => .head (if t ∈ s.agents then s.element t else none)
  | .globalResult => .head s.globalResult
  | .tmp          => .head s.run.tmp
  | .prev         => .head s.run.prev
  | .list         => .root

def Holds (h : Links Node) : Holder → List Nat → Prop
  | .head a, l => h.HeadList .sampler a l
  | .root, l   => h.RootList .sampler .root l

structure Placement (s : State) (m : Place → List Nat) : Prop where
  holds : ∀ k, Holds s.links (holder s k) (m k)
  places : Partition m
  live : ∀ x, Placed m x ↔ x ∈ s.scheduled ∧ x ∉ s.deleted ∧ s.run.hand ≠ some x
  free : ∀ x < s.created, ¬ Placed m x → s.links.SelfLinked (.sampler x)
  made : ∀ x ∈ s.scheduled, x < s.created
  held : ∀ {t x}, (s.pc t).held = some x → x ∉ s.scheduled
  done : ∀ x ∈ s.deleted, x ∈ s.scheduled
  hand : ∀ {x}, s.run.hand = some x → x ∈ s.scheduled ∧ x ∉ s.deleted
  nodup : s.deleted.Nodup

/-! ## The combiner -/

def PcOk (s : State) (t : Thread) : Pc → Prop
  | .append _ _ => t ∉ s.agents ∧ s.element t = none ∧ s.combiner t = true
  | .modify _ _ => t ∈ s.agents
  | .commit     => t ∈ s.agents
  | .load       => t ∈ s.agents
  | .erase val  => t ∈ s.agents ∧ val = s.element t
  | _           => True

structure Combined (s : State) : Prop where
  nodup : s.agents.Nodup
  pc : ∀ t, PcOk s t (s.pc t)
  combiner : ∀ t, s.combiner t = true → t ∈ s.agents ∨ ∃ r x, s.pc t = .append r x
  agents : ∀ t ∈ s.agents, s.combiner t = true
  mtx : ∀ {t}, (s.pc t).hasMtx = true → s.combinerMtx = some (.user t)
  run : s.run.hasMtx = true → s.combinerMtx = some .sampling

variable {s s' : State} {m m' : Place → List Nat} {t : Thread} {r : Var} {x : Nat}

theorem PcOk.of_eq {pc : Pc} (h : PcOk s t pc) (hagents : t ∈ s'.agents ↔ t ∈ s.agents)
    (helement : s'.element t = s.element t) (hcombiner : s'.combiner t = s.combiner t) : PcOk s' t pc := by
  cases pc <;> simp_all [PcOk]

/-- **A thread moves on**, and nothing changes for the agents of the others. -/
theorem Combined.move {q : Pc} (h : Combined s) (hpc : s'.pc = Function.update s.pc t q) (hnodup : s'.agents.Nodup)
    (hother : ∀ u, u ≠ t → (u ∈ s'.agents ↔ u ∈ s.agents) ∧ s'.element u = s.element u ∧ s'.combiner u = s.combiner u)
    (hok : PcOk s' t q) (hcombiner : s'.combiner t = true → t ∈ s'.agents ∨ ∃ r x, q = .append r x)
    (hagents : t ∈ s'.agents → s'.combiner t = true) (hmtx : q.hasMtx = true → s'.combinerMtx = some (.user t))
    (hkept : ∀ o, s.combinerMtx = some o → o ≠ .user t → s'.combinerMtx = some o) (hrun : s'.run = s.run) :
    Combined s' := by
  have hself : s'.pc t = q := by rw [hpc, Function.update_self]
  have hpcs : ∀ u, u ≠ t → s'.pc u = s.pc u := fun u hu => by rw [hpc, Function.update_of_ne hu]
  constructor
  · exact hnodup
  · intro u
    by_cases hu : u = t
    · subst hu
      rw [hself]
      exact hok
    · obtain ⟨ha, he, hc⟩ := hother u hu
      rw [hpcs u hu]
      exact (h.pc u).of_eq ha he hc
  · intro u hcu
    by_cases hu : u = t
    · subst hu
      rw [hself]
      exact hcombiner hcu
    · obtain ⟨ha, -, hc⟩ := hother u hu
      rw [hpcs u hu, ha]
      exact h.combiner u (hc ▸ hcu)
  · intro u hm
    by_cases hu : u = t
    · subst hu
      exact hagents hm
    · obtain ⟨ha, -, hc⟩ := hother u hu
      rw [hc]
      exact h.agents u (ha.1 hm)
  · intro u hm
    by_cases hu : u = t
    · subst hu
      exact hmtx (hself ▸ hm)
    · rw [hpcs u hu] at hm
      exact hkept _ (h.mtx hm) (fun ho => hu (by cases ho; rfl))
  · intro hm
    rw [hrun] at hm
    exact hkept _ (h.run hm) (fun ho => by cases ho)

theorem Combined.go {q : Pc} (h : Combined s) (hpc : s'.pc = Function.update s.pc t q)
    (hagents : s'.agents = s.agents) (helement : s'.element = s.element) (hcombiner : s'.combiner = s.combiner)
    (hmtx : s'.combinerMtx = s.combinerMtx) (hrun : s'.run = s.run) (hok : PcOk s t q)
    (hold : ∀ r x, s.pc t ≠ .append r x) (hnew : q.hasMtx = true → (s.pc t).hasMtx = true) : Combined s' := by
  refine h.move hpc (hagents ▸ h.nodup) (fun u _ => ⟨by rw [hagents], by rw [helement], by rw [hcombiner]⟩)
    (hok.of_eq (by rw [hagents]) (by rw [helement]) (by rw [hcombiner])) (fun hc => ?_) (fun hm => ?_) (fun hm => ?_)
    (fun o ho _ => hmtx.trans ho) hrun
  · rw [hcombiner] at hc
    rw [hagents]
    refine .inl ((h.combiner t hc).resolve_right ?_)
    rintro ⟨r, x, he⟩
    exact hold r x he
  · rw [hagents] at hm
    rw [hcombiner]
    exact h.agents t hm
  · rw [hmtx]
    exact h.mtx (hnew hm)

theorem Combined.goRun {q : RunPc} (h : Combined s) (hpc : s'.pc = s.pc) (hagents : s'.agents = s.agents)
    (helement : s'.element = s.element) (hcombiner : s'.combiner = s.combiner) (hmtx : s'.combinerMtx = s.combinerMtx)
    (hrun : s'.run = q) (hq : q.hasMtx = true → s.run.hasMtx = true) : Combined s' where
  nodup := by rw [hagents]; exact h.nodup
  pc u := by
    rw [hpc]
    exact (h.pc u).of_eq (by rw [hagents]) (by rw [helement]) (by rw [hcombiner])
  combiner := by rw [hcombiner, hagents, hpc]; exact h.combiner
  agents := by rw [hagents, hcombiner]; exact h.agents
  mtx := by rw [hpc, hmtx]; exact h.mtx
  run := by rw [hrun, hmtx]; exact fun hm => h.run (hq hm)

/-- No thread has the combiner's mutex while the sampling thread has it. -/
theorem Combined.not_hasMtx (h : Combined s) (hr : s.run.hasMtx = true) (u : Thread) : (s.pc u).hasMtx = false := by
  cases hu : (s.pc u).hasMtx with
  | false => rfl
  | true =>
    have := (h.mtx hu).symm.trans (h.run hr)
    cases this

/-! ## Steps that move samplers between places -/

theorem sampler_injective : Function.Injective Node.sampler := fun _ _ h => by cases h; rfl

theorem root_ne_sampler (x : Nat) : Node.root ≠ .sampler x := fun h => by cases h

theorem Holds.congr {h h' : Links Node} {k : Holder} {l : List Nat} (hl : Holds h k l)
    (hr : k = .root → Same h h' .root)
    (hs : ∀ x ∈ l, Same h h' (.sampler x)) : Holds h' k l := by
  cases k with
  | head a => exact HeadList.congr hl hs
  | root => exact RootList.congr hl (hr rfl) hs

theorem holder_eq_root {k : Place} (h : holder s k = .root) : k = .list := by
  cases k <;> simp only [holder, reduceCtorEq] at h
  rfl

theorem Placement.lt_created (h : Placement s m) {k : Place} (hx : x ∈ m k) : x < s.created :=
  h.made x ((h.live x).1 ⟨k, hx⟩).1

theorem Placement.disjoint (h : Placement s m) {k j : Place} (hkj : k ≠ j) : ∀ x ∈ m k, x ∉ m j :=
  fun x hk hj => hkj (h.places.unique k j x hk hj)

/-- The fields that say which samplers there are. -/
structure SameSamplers (s s' : State) : Prop where
  scheduled : s'.scheduled = s.scheduled
  deleted : s'.deleted = s.deleted
  created : s'.created = s.created
  hand : s'.run.hand = s.run.hand
  held : ∀ {t x}, (s'.pc t).held = some x → (s.pc t).held = some x

/-- **A step that rearranges the samplers of a few places**, and links no others. -/
theorem Placement.move {S : List Place} (h : Placement s m) (he : SameSamplers s s') (hS : S.Nodup)
    (hperm : (S.flatMap m').Perm (S.flatMap m)) (hout : ∀ k, k ∉ S → m' k = m k)
    (hholder : ∀ k, k ∉ S → holder s' k = holder s k)
    (hsame : ∀ n, (.list ∈ S → n ≠ .root) → (∀ k ∈ S, ∀ x ∈ m k, n ≠ .sampler x) → Same s.links s'.links n)
    (hin : ∀ k ∈ S, Holds s'.links (holder s' k) (m' k)) : Placement s' m' where
  holds k := by
    by_cases hk : k ∈ S
    · exact hin k hk
    · rw [hout k hk, hholder k hk]
      refine (h.holds k).congr (fun hr => hsame _ (fun hl => ?_) (fun _ _ y _ he => root_ne_sampler y he))
        (fun x hx => hsame _ (fun _ he => by cases he) (fun j hj y hy he => ?_))
      · exact absurd (holder_eq_root hr ▸ hl) hk
      · cases he
        exact hk (h.places.unique k j x hx hy ▸ hj)
  places := h.places.rearrange hS hperm hout
  live x := by rw [placed_rearrange hperm hout, he.scheduled, he.deleted, he.hand, h.live]
  free x hx hp := by
    rw [he.created] at hx
    rw [placed_rearrange hperm hout] at hp
    refine (h.free x hx hp).of_same (hsame _ (fun _ he => by cases he) (fun k _ y hy he => ?_))
    cases he
    exact hp ⟨k, hy⟩
  made := by rw [he.scheduled, he.created]; exact h.made
  held hp := by rw [he.scheduled]; exact h.held (he.held hp)
  done := by rw [he.deleted, he.scheduled]; exact h.done
  hand := by rw [he.hand, he.deleted, he.scheduled]; exact h.hand
  nodup := by rw [he.deleted]; exact h.nodup

/-- A step that moves no sampler. -/
theorem Placement.of_eq (h : Placement s m) (he : SameSamplers s s') (hlinks : s'.links = s.links)
    (hholder : ∀ k, holder s' k = holder s k) : Placement s' m :=
  h.move (S := []) he List.nodup_nil (.refl _) (fun _ _ => rfl) (fun k _ => hholder k)
    (fun _ _ _ => by rw [hlinks]; exact ⟨rfl, rfl⟩) (fun _ hk => absurd hk List.not_mem_nil)

/-- **A step that rearranges the samplers of two places.** -/
theorem Placement.move₂ (k₁ k₂ : Place) (l₁ l₂ : List Nat) (h : Placement s m) (he : SameSamplers s s')
    (hne : k₁ ≠ k₂) (hperm : (l₁ ++ l₂).Perm (m k₁ ++ m k₂))
    (hholder : ∀ k, k ≠ k₁ → k ≠ k₂ → holder s' k = holder s k)
    (hsame : ∀ n, (k₁ = .list ∨ k₂ = .list → n ≠ .root) → (∀ x ∈ m k₁, n ≠ .sampler x) → (∀ x ∈ m k₂, n ≠ .sampler x) →
      Same s.links s'.links n)
    (h₁ : Holds s'.links (holder s' k₁) l₁) (h₂ : Holds s'.links (holder s' k₂) l₂) :
    Placement s' (Function.update (Function.update m k₁ l₁) k₂ l₂) := by
  have hm₁ : Function.update (Function.update m k₁ l₁) k₂ l₂ k₁ = l₁ := by
    rw [Function.update_of_ne hne, Function.update_self]
  have hm₂ : Function.update (Function.update m k₁ l₁) k₂ l₂ k₂ = l₂ := Function.update_self ..
  have hmem : ∀ {k}, k ∉ [k₁, k₂] → k ≠ k₁ ∧ k ≠ k₂ := fun hk => by simpa using hk
  refine h.move (S := [k₁, k₂]) he (by simpa using hne) ?_ (fun k hk => ?_) (fun k hk => ?_) (fun n hr hx => ?_)
    (fun k hk => ?_)
  · simpa [hm₁, hm₂] using hperm
  · rw [Function.update_of_ne (hmem hk).2, Function.update_of_ne (hmem hk).1]
  · exact hholder k (hmem hk).1 (hmem hk).2
  · refine hsame n (fun hl => hr ?_) (fun y hy => hx k₁ (by simp) y hy) (fun y hy => hx k₂ (by simp) y hy)
    rcases hl with hl | hl
    · rw [← hl]
      simp
    · rw [← hl]
      simp
  · rcases List.mem_cons.1 hk with rfl | hk
    · rw [hm₁]
      exact h₁
    · rw [List.mem_singleton.1 hk, hm₂]
      exact h₂

/-- **A sampler is made**, and linked to itself. -/
theorem Placement.newSampler (h : Placement s m) (hidle : s.pc t = .idle) :
    Placement (((s.newSampler r).setBusy r (some t)).setPc t (.agent r s.created)) m := by
  have hne : ∀ {k y}, y ∈ m k → Node.sampler y ≠ .sampler s.created := by
    rintro k y hy he
    cases he
    exact Nat.lt_irrefl _ (h.lt_created hy)
  refine ⟨fun k => ?_, h.places, h.live, fun y hy hp => ?_, fun y hy => Nat.lt_succ_of_lt (h.made y hy), ?_, h.done,
    h.hand, h.nodup⟩
  · exact (h.holds k).congr (fun _ => Links.construct_same (root_ne_sampler _))
      (fun y hy => Links.construct_same (hne hy))
  · rcases Nat.lt_succ_iff_lt_or_eq.1 hy with hy | rfl
    · refine (h.free y hy hp).of_same (Links.construct_same (fun he => ?_))
      cases he
      exact Nat.lt_irrefl _ hy
    · exact Links.construct_selfLinked ..
  · intro u y hu
    by_cases hut : u = t
    · subst hut
      have hy : (Pc.agent r s.created).held = some y := by
        rwa [show (((s.newSampler r).setBusy r (some u)).setPc u (.agent r s.created)).pc u = .agent r s.created from
          Function.update_self ..] at hu
      cases hy
      exact fun hs => Nat.lt_irrefl _ (h.made _ hs)
    · rw [show (((s.newSampler r).setBusy r (some t)).setPc t (.agent r s.created)).pc u = s.pc u from
        Function.update_of_ne hut ..] at hu
      exact h.held hu

theorem holder_agent_element (hm : t ∈ s.agents) : holder s (.agent t) = .head (s.element t) := by
  show Holder.head (if t ∈ s.agents then s.element t else none) = _
  rw [if_pos hm]

/-- **A sampler is scheduled**: it goes behind those of the thread's agent. -/
theorem Placement.schedule (h : Placement s m) (ho : Owned s) (hpc : s.pc t = .modify r x) (hm : t ∈ s.agents) :
    Placement (s.schedule t r x) (Function.update m (.agent t) (m (.agent t) ++ [x])) := by
  have hheld : (s.pc t).held = some x := by rw [hpc]; rfl
  have hcall : (s.pc t).call = some (r, x) := by rw [hpc]; rfl
  have hlt : x < s.created := (ho.of_call hcall).2.1
  have hnew : x ∉ s.scheduled := h.held hheld
  have hnot : ¬ Placed m x := fun hp => hnew ((h.live x).1 hp).1
  have hself : s.links.SelfLinked (.sampler x) := h.free x hlt hnot
  have hagent : s.links.HeadList .sampler (s.element t) (m (.agent t)) := by
    have hl := h.holds (.agent t)
    rwa [holder_agent_element hm] at hl
  obtain ⟨hl, hsame⟩ := hagent.combine sampler_injective (Links.headList_single hself)
    (fun y hy hyx => hnot ⟨.agent t, List.mem_singleton.1 hyx ▸ hy⟩)
  have hout : ∀ k, k ≠ .agent t → Function.update m (.agent t) (m (.agent t) ++ [x]) k = m k :=
    fun k hk => Function.update_of_ne hk ..
  have hperm : (Function.update m (.agent t) (m (.agent t) ++ [x]) (.agent t)).Perm (x :: m (.agent t)) := by
    rw [Function.update_self]
    exact List.perm_append_comm
  have hplaced := placed_insert hperm hout
  have hmem : ∀ {y}, y ∈ (s.schedule t r x).scheduled ↔ y ∈ s.scheduled ∨ y = x := by
    intro y
    rw [show (s.schedule t r x).scheduled = s.scheduled ++ [x] from rfl, List.mem_append, List.mem_singleton]
  constructor
  · intro k
    by_cases hk : k = .agent t
    · subst hk
      rw [Function.update_self, holder_agent_element (s := s.schedule t r x) hm,
        show (s.schedule t r x).element t = _ from Function.update_self ..]
      exact hl
    · have hholder : holder (s.schedule t r x) k = holder s k := by
        cases k with
        | agent u =>
          have hu : u ≠ t := fun hu => hk (by rw [hu])
          show Holder.head (if u ∈ s.agents then Function.update s.element t _ u else none) = _
          rw [Function.update_of_ne hu]
          rfl
        | _ => rfl
      rw [hout k hk, hholder]
      refine (h.holds k).congr (fun _ => hsame _ (fun y _ => root_ne_sampler y))
        (fun y hy => hsame _ (fun z hz he => ?_))
      cases he
      rcases List.mem_append.1 hz with hz | hz
      · exact h.disjoint hk y hy hz
      · exact hnot ⟨k, List.mem_singleton.1 hz ▸ hy⟩
  · exact h.places.insert hnot hperm hout
  · intro y
    rw [hplaced, h.live, hmem]
    constructor
    · rintro (rfl | ⟨hs, hd, hh⟩)
      · exact ⟨.inr rfl, fun hd => hnew (h.done y hd), fun hh => hnew (h.hand hh).1⟩
      · exact ⟨.inl hs, hd, hh⟩
    · rintro ⟨hs | rfl, hd, hh⟩
      · exact .inr ⟨hs, hd, hh⟩
      · exact .inl rfl
  · intro y hy hp
    rw [hplaced, not_or] at hp
    refine (h.free y hy hp.2).of_same (hsame _ (fun z hz he => ?_))
    cases he
    rcases List.mem_append.1 hz with hz | hz
    · exact hp.2 ⟨_, hz⟩
    · exact hp.1 (List.mem_singleton.1 hz)
  · intro y hy
    rcases hmem.1 hy with hy | rfl
    · exact h.made y hy
    · exact hlt
  · intro u y hu hy
    have hpcs : (s.schedule t r x).pc = Function.update s.pc t .idle := rfl
    rw [hpcs] at hu
    have hut : u ≠ t := by
      rintro rfl
      rw [Function.update_self] at hu
      cases hu
    rw [Function.update_of_ne hut] at hu
    rcases hmem.1 hy with hy | rfl
    · exact h.held hu hy
    · obtain ⟨r', hc⟩ := Pc.call_of_held hu
      exact hut (ho.thread_unique hc hcall)
  · exact fun y hd => hmem.2 (.inl (h.done y hd))
  · exact fun hh => ⟨hmem.2 (.inl (h.hand hh).1), (h.hand hh).2⟩
  · exact h.nodup

/-- **A thread exits**: its agent's list goes behind the combiner's result. -/
theorem Placement.erase {val : Option Nat} (h : Placement s m) (hm : t ∈ s.agents) (hnd : s.agents.Nodup)
    (hval : val = s.element t) : Placement (s.erase t val)
      (Function.update (Function.update m .globalResult (m .globalResult ++ m (.agent t))) (.agent t) []) := by
  have hagent : s.links.HeadList .sampler val (m (.agent t)) := by
    have hl := h.holds (.agent t)
    rwa [holder_agent_element hm, ← hval] at hl
  have hglobal : s.links.HeadList .sampler s.globalResult (m .globalResult) := h.holds .globalResult
  obtain ⟨hl, hsame⟩ := hglobal.combine sampler_injective hagent (h.disjoint (by simp))
  have hother : ∀ {u}, u ≠ t → (u ∈ s.agents.erase t ↔ u ∈ s.agents) := fun hu => List.mem_erase_of_ne hu
  have hgone : t ∉ s.agents.erase t := hnd.not_mem_erase
  refine h.move₂ .globalResult (.agent t) _ _ ⟨rfl, rfl, rfl, rfl, fun {u y} hu => ?_⟩ (by simp) ?_ (fun k hk hk' => ?_)
    (fun n _ h₁ h₂ => hsame n (fun y hy => ?_)) hl ?_
  · have hpcs : (s.erase t val).pc = Function.update s.pc t .idle := rfl
    rw [hpcs] at hu
    by_cases hut : u = t
    · subst hut
      rw [Function.update_self] at hu
      cases hu
    · rwa [Function.update_of_ne hut] at hu
  · rw [List.append_nil]
  · cases k with
    | agent u =>
      have hu : u ≠ t := fun hu => hk' (by rw [hu])
      show Holder.head (if u ∈ s.agents.erase t then s.element u else none) = Holder.head
        (if u ∈ s.agents then _ else _)
      simp only [hother hu]
    | globalResult => exact absurd rfl hk
    | _ => rfl
  · exact (List.mem_append.1 hy).elim (h₁ y) (h₂ y)
  · show Holds _ (.head (if t ∈ s.agents.erase t then s.element t else none)) []
    rw [if_neg hgone]
    rfl

end SamplerCollector
end ContentionProf
