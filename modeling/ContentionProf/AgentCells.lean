import ContentionProf.AgentGroup
import Mathlib.Data.List.Nodup
/-!
# AgentCells — a cell belongs to the combiner that has its id

The cells of an id are unregistered before the id is free again, so a combiner with a recycled id finds every cell
without a combiner and resets it before its first use.
-/
namespace ContentionProf
namespace AgentGroup

variable {α : Type} {cfg : Config α} {n : Nat} {s s' : State α} {t u : Thread} {c d : Comb} {a b : Cell}

/-! ## The block table -/

section

variable {tbl : Table} {fresh : BlockPtr} {id : Nat}

theorem getTlsAgent_eq (n : Nat) (tbl : Table) (id : Nat) :
    getTlsAgent n tbl id = (blockAt tbl (id / n)).map (fun b => ⟨b, id % n⟩) := by
  have hoff : id - id / n * n = id % n := by rw [Nat.mul_comm, ← Nat.mod_eq_sub]
  cases tbl with
  | none => rfl
  | some l =>
    unfold getTlsAgent blockAt
    dsimp only
    rw [hoff]
    split
    · rfl
    · rename_i h
      rw [Option.bind_some, List.getElem?_eq_none (Nat.le_of_not_lt h)]
      rfl

theorem getTlsAgent_eq_some : getTlsAgent n tbl id = some a ↔ blockAt tbl (id / n) = some a.block ∧
    id % n = a.offset := by
  rw [getTlsAgent_eq, Option.map_eq_some_iff]
  constructor
  · rintro ⟨b, hb, rfl⟩
    exact ⟨hb, rfl⟩
  · rintro ⟨hb, ho⟩
    exact ⟨a.block, hb, by rw [ho]⟩

/-- The table that is walked: grown when the block is beyond it. -/
theorem blockAt_resize (l : List (Option BlockPtr)) (m k : Nat) : (resize l m)[k]?.join = l[k]?.join := by
  unfold resize
  by_cases hk : k < l.length
  · rw [List.getElem?_append_left hk]
  · rw [List.getElem?_append_right (Nat.le_of_not_lt hk), List.getElem?_eq_none (Nat.le_of_not_lt hk),
      List.getElem?_replicate]
    split <;> rfl

/-- **What `get_or_create_tls_agent` does to a table**: the block of the id is there afterwards, and every block that
was there stays where it was. -/
theorem getOrCreateTlsAgent_spec (n : Nat) (tbl : Table) (fresh : BlockPtr) (id : Nat) :
    (getOrCreateTlsAgent n tbl fresh id).1 = ⟨(blockAt tbl (id / n)).getD fresh, id % n⟩ ∧
    (getOrCreateTlsAgent n tbl fresh id).2.2 = (blockAt tbl (id / n)).isNone ∧
    ∀ k, blockAt (some (getOrCreateTlsAgent n tbl fresh id).2.1) k =
      if k = id / n then some ((blockAt tbl (id / n)).getD fresh) else blockAt tbl k := by
  have hoff : id - id / n * n = id % n := by rw [Nat.mul_comm, ← Nat.mod_eq_sub]
  have hnil : ∀ k, (tbl.getD [])[k]?.join = blockAt tbl k := by
    intro k
    cases tbl <;> rfl
  -- the list after the resize
  obtain ⟨l, hl⟩ : ∃ l, l = if (tbl.getD []).length ≤ id / n then resize (tbl.getD []) (max (id / n + 1) 32)
      else tbl.getD [] := ⟨_, rfl⟩
  have hat : ∀ k, l[k]?.join = blockAt tbl k := by
    intro k
    rw [hl]
    split
    · rw [blockAt_resize, hnil]
    · exact hnil k
  have hlen : id / n < l.length := by
    rw [hl]
    split
    · unfold resize
      rw [List.length_append, List.length_replicate]
      omega
    · omega
  unfold getOrCreateTlsAgent
  dsimp only
  rw [← hl, hat, hoff]
  cases hb : blockAt tbl (id / n) with
  | some b =>
    refine ⟨rfl, rfl, fun k => ?_⟩
    show l[k]?.join = _
    rw [hat]
    split
    · rename_i hk; rw [hk, hb]; rfl
    · rfl
  | none =>
    refine ⟨rfl, rfl, fun k => ?_⟩
    show (l.set (id / n) (some fresh))[k]?.join = _
    by_cases hk : k = id / n
    · rw [if_pos hk, hk, List.getElem?_set_self hlen]
      rfl
    · rw [if_neg hk, List.getElem?_set_ne (fun he => hk he.symm), hat]

theorem mem_cellsOf : a ∈ cellsOf n tbl ↔ a.offset < n ∧ ∃ k, blockAt tbl k = some a.block := by
  have hnil : ∀ k, (tbl.getD [])[k]?.join = blockAt tbl k := by
    intro k
    cases tbl <;> rfl
  unfold cellsOf
  rw [List.mem_flatMap]
  constructor
  · rintro ⟨b, hb, ha⟩
    cases b with
    | none => cases ha
    | some b =>
      obtain ⟨o, ho, rfl⟩ := List.mem_map.1 ha
      obtain ⟨k, hk⟩ := List.getElem?_of_mem hb
      refine ⟨List.mem_range.1 (List.mem_reverse.1 ho), k, ?_⟩
      rw [← hnil, hk]
      rfl
  · rintro ⟨ho, k, hk⟩
    rw [← hnil] at hk
    refine ⟨some a.block, ?_, List.mem_map.2 ⟨a.offset, List.mem_reverse.2 (List.mem_range.2 ho), rfl⟩⟩
    exact List.mem_of_getElem? (Option.join_eq_some_iff.1 hk)

end

/-! ## Whose a cell is -/

theorem Owned.of_get (hn : 0 < n) {id : Nat} (h : getTlsAgent n (s.tls t) id = some a) : Owned n s t a := by
  obtain ⟨hb, ho⟩ := getTlsAgent_eq_some.1 h
  exact ⟨ho ▸ Nat.mod_lt _ hn, id / n, hb⟩

/-- A block is in one table, once. -/
theorem Inv.owner_unique (h : Inv n s) (ht : Owned n s t a) (hu : Owned n s u a) : t = u := by
  obtain ⟨-, k, hk⟩ := ht
  obtain ⟨-, l, hl⟩ := hu
  exact (h.blocks t u k l _ hk hl).1

/-- **Distinct ids are distinct cells.** -/
theorem Inv.get_inj (h : Inv n s) {i j : Nat} (hi : getTlsAgent n (s.tls t) i = some a)
    (hj : getTlsAgent n (s.tls t) j = some a) : i = j := by
  obtain ⟨hbi, hoi⟩ := getTlsAgent_eq_some.1 hi
  obtain ⟨hbj, hoj⟩ := getTlsAgent_eq_some.1 hj
  have hblock := (h.blocks t t _ _ _ hbi hbj).2
  rw [← Nat.div_add_mod i n, ← Nat.div_add_mod j n, hblock, hoi, hoj]

/-! ## What other threads know -/

theorem Owned.of_tls (h : Owned n s u a) (htls : s'.tls u = s.tls u) : Owned n s' u a := by
  obtain ⟨ho, k, hk⟩ := h
  exact ⟨ho, k, by rw [htls]; exact hk⟩

/-- A thread's place is judged by its own cells and the combiner it is in. -/
theorem PcOk.frame {p : Pc α} (hok : PcOk n s u p) (hn : 0 < n) (htls : s'.tls u = s.tls u)
    (hmem : ∀ a, Owned n s u a → s'.mem a = s.mem a)
    (hagents : ∀ c a, Owned n s u a → (a ∈ (s'.combiners c).agents ↔ a ∈ (s.combiners c).agents))
    (hcomb : ∀ c, p.uses = some c ∨ p = .destroyAgent c →
      (s'.combiners c).live = (s.combiners c).live ∧ (s'.combiners c).id = (s.combiners c).id)
    (hlive : ∀ c, c < s.ncombiners → (s'.combiners c).live = true → (s.combiners c).live = true)
    (hcount : s.ncombiners ≤ s'.ncombiners) (hlog : ∀ x ∈ s.log, x ∈ s'.log) : PcOk n s' u p := by
  cases p with
  | idle => trivial
  | append c a v =>
    obtain ⟨hl, ⟨id, hid, hget⟩, hc, he, hna, hv⟩ := hok
    have hown := Owned.of_get hn hget
    obtain ⟨hlive, hids⟩ := hcomb c (.inl rfl)
    refine ⟨hlive.trans hl, ⟨id, hids.trans hid, by rw [htls]; exact hget⟩, ?_, ?_, ?_, hlog _ hv⟩
    · rw [hmem a hown]; exact hc
    · rw [hmem a hown]; exact he
    · exact mt (hagents c a hown).1 hna
  | modify c a v =>
    obtain ⟨hl, ⟨id, hid, hget⟩, ha, hv⟩ := hok
    have hown := Owned.of_get hn hget
    obtain ⟨hlive, hids⟩ := hcomb c (.inl rfl)
    exact ⟨hlive.trans hl, ⟨id, hids.trans hid, by rw [htls]; exact hget⟩, (hagents c a hown).2 ha, hlog _ hv⟩
  | exit left =>
    refine ⟨fun a ha => ?_, fun a ha => (hok.2 a ha).of_tls htls⟩
    have ha := ha.of_tls htls.symm
    rw [hmem a ha]
    exact hok.1 a ha
  | commit c b left =>
    obtain ⟨hall, howns, hlt, honly, hb⟩ := hok
    have hown := howns b List.mem_cons_self
    refine ⟨fun a ha => ?_, fun a ha => (howns a ha).of_tls htls, Nat.lt_of_lt_of_le hlt hcount,
      by rw [hmem b hown]; exact honly,
      fun hl => ?_⟩
    · have ha := ha.of_tls htls.symm
      rw [hmem a ha]
      exact hall a ha
    · exact (hagents c b hown).2 (hb (hlive c hlt hl))
  | destroyAgent c =>
    obtain ⟨hlive, hids⟩ := hcomb c (.inr rfl)
    exact ⟨hlive.trans hok.1, fun h => hok.2 (hids ▸ h)⟩

/-- A step of one thread on its own cells. -/
theorem Inv.step_local (h : Inv n s) (hn : 0 < n) (B : Cell → Prop) (hB : ∀ a, B a → Owned n s t a)
    (hpc : ∀ u, u ≠ t → s'.pc u = s.pc u) (htls : s'.tls = s.tls) (hnb : s'.nblocks = s.nblocks)
    (hids : ∀ c, (s'.combiners c).id = (s.combiners c).id) (hlive : ∀ c, (s'.combiners c).live = (s.combiners c).live)
    (hkinds : s'.agentKinds = s.agentKinds) (hfree : s'.freeIds = s.freeIds) (hnc : s'.ncombiners = s.ncombiners)
    (hunused : ∀ c, s.ncombiners ≤ c → s'.combiners c = s.combiners c) (hlog : ∀ x ∈ s.log, x ∈ s'.log)
    (hmem : ∀ a, ¬ B a → s'.mem a = s.mem a)
    (hagents : ∀ a, ¬ B a → ∀ c, a ∈ (s'.combiners c).agents ↔ a ∈ (s.combiners c).agents)
    (hcombiner : ∀ a, B a → ∀ c, (s'.mem a).combiner = some c → (s.combiners c).live = true ∧
      ∃ t id, (s.combiners c).id = some id ∧ getTlsAgent n (s.tls t) id = some a)
    (hlisted : ∀ a, B a → ∀ c, a ∈ (s'.combiners c).agents → (s'.mem a).combiner = some c)
    (hregistered : ∀ a, B a → ∀ c, (s'.mem a).combiner = some c →
      a ∈ (s'.combiners c).agents ∨ ∃ t v, s'.pc t = .append c a v)
    (happend : ∀ c a v, s.pc t = .append c a v → B a) (hnodup : ∀ c, (s'.combiners c).agents.Nodup)
    (husers : ∀ c u, u ∈ s'.users c ↔ (s'.pc u).uses = some c) (hdestroy : ∀ c, s'.pc t ≠ .destroyAgent c)
    (hglobal : ∀ c, (s.combiners c).live = true → ∀ v ∈ (s'.combiners c).globalResult, (c, v) ∈ s'.log)
    (helement : ∀ a, B a → ∀ c, a ∈ (s'.combiners c).agents → ∀ v ∈ (s'.mem a).element, (c, v) ∈ s'.log)
    (hok : PcOk n s' t (s'.pc t)) : Inv n s' := by
  constructor
  case kinds => intro c id hid; rw [hkinds, hfree]; exact h.kinds c id (hids c ▸ hid)
  case ids => intro c d id hc hd; exact h.ids c d id (hids c ▸ hc) (hids d ▸ hd)
  case free => rw [hfree, hkinds]; exact h.free
  case live => intro c hc; rw [hids]; exact h.live c (hlive c ▸ hc)
  case unused =>
    intro c hc
    rw [hnc] at hc
    rw [hunused c hc]
    exact h.unused c hc
  case blocks => rw [htls]; exact h.blocks
  case fresh => rw [htls, hnb]; exact h.fresh
  case combiner =>
    intro a c hc
    rw [hlive c, hids c, htls]
    by_cases hba : B a
    · exact hcombiner a hba c hc
    · rw [hmem a hba] at hc
      exact h.combiner a c hc
  case listed =>
    intro a c ha
    by_cases hba : B a
    · exact hlisted a hba c ha
    · rw [hmem a hba]
      exact h.listed a c ((hagents a hba c).1 ha)
  case registered =>
    intro a c hc
    by_cases hba : B a
    · exact hregistered a hba c hc
    · rw [hmem a hba] at hc
      refine (h.registered a c hc).imp (hagents a hba c).2 ?_
      rintro ⟨u, v, hu⟩
      refine ⟨u, v, ?_⟩
      rw [hpc u (fun he => hba (happend c a v (he ▸ hu)))]
      exact hu
  case nodup => exact hnodup
  case users => exact husers
  case destroys =>
    intro u v c hu hv
    have hne : ∀ w, s'.pc w = .destroyAgent c → w ≠ t := fun w hw he => hdestroy c (he ▸ hw)
    rw [hpc u (hne u hu)] at hu
    rw [hpc v (hne v hv)] at hv
    exact h.destroys u v c hu hv
  case global => intro c hc; exact hglobal c (hlive c ▸ hc)
  case element =>
    intro a c ha v hv
    by_cases hba : B a
    · exact helement a hba c ha v hv
    · rw [hmem a hba] at hv
      exact hlog _ (h.element a c ((hagents a hba c).1 ha) v hv)
  case pc =>
    intro u
    by_cases hut : u = t
    · rw [hut]; exact hok
    · rw [hpc u hut]
      have hnot : ∀ a, Owned n s u a → ¬ B a := fun a ha hba => hut (h.owner_unique ha (hB a hba))
      exact (h.pc u).frame hn (by rw [htls]) (fun a ha => hmem a (hnot a ha))
        (fun c a ha => hagents a (hnot a ha) c) (fun c _ => ⟨hlive c, hids c⟩) (fun c _ hl => hlive c ▸ hl)
        (le_of_eq hnc.symm) hlog

/-! ## The steps of a call -/

@[simp] theorem setPc_pc_self (s : State α) (t : Thread) (p : Pc α) : (s.setPc t p).pc t = p := Function.update_self ..

theorem setPc_pc_of_ne {p : Pc α} (hu : u ≠ t) : (s.setPc t p).pc u = s.pc u := Function.update_of_ne hu ..

theorem update_combiner (f : Comb → Combiner α) {x : Combiner α} (hid : x.id = (f c).id)
    (hlive : x.live = (f c).live) :
    (∀ d, (Function.update f c x d).id = (f d).id) ∧ (∀ d, (Function.update f c x d).live = (f d).live) := by
  constructor <;> intro d <;> by_cases hd : d = c
  · rw [hd, Function.update_self, hid]
  · rw [Function.update_of_ne hd]
  · rw [hd, Function.update_self, hlive]
  · rw [Function.update_of_ne hd]

theorem Inv.lt_of_live (h : Inv n s) (hc : (s.combiners c).live = true) : c < s.ncombiners := by
  rw [← Nat.not_le]
  intro hle
  rw [h.unused c hle] at hc
  cases hc

/-- Lines 202–205: the agent is appended. -/
theorem Inv.append {v : α} (h : Inv n s) (hn : 0 < n) (hp : s.pc t = .append c a v) :
    Inv n ((s.setCombiner c { s.combiners c with agents := (s.combiners c).agents ++ [a] }).setPc t
      (.modify c a v)) := by
  have hok := h.pc t
  rw [hp] at hok
  obtain ⟨hl, ⟨id, hid, hget⟩, hc, he, hna, hv⟩ := hok
  have hown := Owned.of_get hn hget
  generalize hs' : (s.setCombiner c { s.combiners c with agents := (s.combiners c).agents ++ [a] }).setPc t
    (.modify c a v) = s'
  have hpc : ∀ u, u ≠ t → s'.pc u = s.pc u := fun u hu => by subst hs'; exact Function.update_of_ne hu ..
  have hself : s'.pc t = .modify c a v := by subst hs'; exact Function.update_self ..
  have hcomb : s'.combiners = Function.update s.combiners c
      { s.combiners c with agents := (s.combiners c).agents ++ [a] } := by subst hs'; rfl
  obtain ⟨hids, hlive⟩ := update_combiner s.combiners (c := c)
    (x := { s.combiners c with agents := (s.combiners c).agents ++ [a] }) rfl rfl
  have hag : ∀ d, (s'.combiners d).agents = if d = c then (s.combiners c).agents ++ [a] else
      (s.combiners d).agents := by
    intro d
    rw [hcomb, Function.update_apply]
    split <;> rfl
  have hmem : s'.mem = s.mem := by subst hs'; rfl
  have hlog : s'.log = s.log := by subst hs'; rfl
  have husers : s'.users = s.users := by subst hs'; rfl
  have honly : ∀ d, a ∈ (s'.combiners d).agents → d = c := by
    intro d hd
    by_contra hne
    rw [hag, if_neg hne] at hd
    exact hne (Option.some.inj ((h.listed a d hd).symm.trans hc))
  refine h.step_local (t := t) hn (fun b => b = a) (fun b hb => hb ▸ hown) hpc (by subst hs'; rfl) (by subst hs'; rfl)
    (fun d => by rw [hcomb]; exact hids d) (fun d => by rw [hcomb]; exact hlive d) (by subst hs'; rfl)
    (by subst hs'; rfl) (by subst hs'; rfl) (fun d hd => ?_) (fun x hx => hlog ▸ hx) (fun b _ => by rw [hmem])
    (fun b hb d => ?_) (fun b hb d hd => ?_) (fun b hb d hd => ?_) (fun b hb d hd => ?_) (fun d b w hw => ?_)
    (fun d => ?_) (fun d u => ?_) (fun d => by rw [hself]; exact nofun) (fun d hd w hw => ?_) (fun b hb d hd w hw => ?_)
    ?_
  · rw [hcomb, Function.update_of_ne (fun he => by rw [he] at hd; exact absurd (h.lt_of_live hl) (Nat.not_lt.2 hd))]
  · rw [hag]
    split
    · rename_i hd
      rw [hd, List.mem_append, List.mem_singleton, or_iff_left hb]
    · exact Iff.rfl
  · rw [hb, hmem, hc] at hd
    cases hd
    exact ⟨hl, t, id, hid, hb ▸ hget⟩
  · rw [hmem, hb, hc, honly d (hb ▸ hd)]
  · rw [hb, hmem, hc] at hd
    cases hd
    left
    rw [hb, hag, if_pos rfl]
    exact List.mem_append_right _ (List.mem_singleton_self a)
  · rw [hp] at hw
    cases hw
    rfl
  · rw [hag]
    split
    · exact List.nodup_append_comm.1 (List.nodup_cons.2 ⟨hna, h.nodup c⟩)
    · exact h.nodup d
  · rw [husers, h.users d u]
    by_cases hut : u = t
    · rw [hut, hself, hp]; exact Iff.rfl
    · rw [hpc u hut]
  · rw [hlog]
    refine h.global d hd w ?_
    rw [hcomb] at hw
    by_cases hdc : d = c
    · subst hdc
      rwa [Function.update_self] at hw
    · rwa [Function.update_of_ne hdc] at hw
  · rw [hb, hmem, he] at hw
    cases hw
  · rw [hself]
    refine ⟨?_, ⟨id, ?_, ?_⟩, ?_, hlog ▸ hv⟩
    · rw [hcomb]; exact (hlive c).trans hl
    · rw [hcomb]; exact (hids c).trans hid
    · subst hs'; exact hget
    · rw [hag, if_pos rfl]
      exact List.mem_append_right _ (List.mem_singleton_self a)

/-- `element.modify`. -/
theorem Inv.modify {v : α} (h : Inv n s) (hn : 0 < n) (hp : s.pc t = .modify c a v) :
    Inv n ({ s.setAgent a { s.mem a with element := (s.mem a).element ++ [v] } with
      users := Function.update s.users c ((s.users c).filter (· ≠ t)) }.setPc t .idle) := by
  have hok := h.pc t
  rw [hp] at hok
  obtain ⟨hl, ⟨id, hid, hget⟩, ha, hv⟩ := hok
  have hown := Owned.of_get hn hget
  have hc := h.listed a c ha
  generalize hs' : { s.setAgent a { s.mem a with element := (s.mem a).element ++ [v] } with
      users := Function.update s.users c ((s.users c).filter (· ≠ t)) }.setPc t .idle = s'
  have hpc : ∀ u, u ≠ t → s'.pc u = s.pc u := fun u hu => by subst hs'; exact Function.update_of_ne hu ..
  have hself : s'.pc t = .idle := by subst hs'; exact Function.update_self ..
  have hcomb : s'.combiners = s.combiners := by subst hs'; rfl
  have hmem : ∀ b, b ≠ a → s'.mem b = s.mem b := fun b hb => by subst hs'; exact Function.update_of_ne hb ..
  have hmemSelf : s'.mem a = { s.mem a with element := (s.mem a).element ++ [v] } := by
    subst hs'; exact Function.update_self ..
  have hlog : s'.log = s.log := by subst hs'; rfl
  have husers : ∀ d, s'.users d = if d = c then (s.users c).filter (· ≠ t) else s.users d := by
    intro d
    subst hs'
    exact Function.update_apply ..
  refine h.step_local (t := t) hn (fun b => b = a) (fun b hb => hb ▸ hown) hpc (by subst hs'; rfl) (by subst hs'; rfl)
    (fun d => by rw [hcomb]) (fun d => by rw [hcomb]) (by subst hs'; rfl) (by subst hs'; rfl) (by subst hs'; rfl)
    (fun d _ => by rw [hcomb]) (fun x hx => hlog ▸ hx) (fun b hb => hmem b hb) (fun b _ d => by rw [hcomb])
    (fun b hb d hd => ?_) (fun b hb d hd => ?_) (fun b hb d hd => ?_) (fun d b w hw => by rw [hp] at hw; cases hw)
    (fun d => by rw [hcomb]; exact h.nodup d) (fun d u => ?_) (fun d => by rw [hself]; exact nofun)
    (fun d hd w hw => ?_) (fun b hb d hd w hw => ?_) (by rw [hself]; trivial)
  · rw [hb, hmemSelf] at hd
    rw [hb]
    exact h.combiner a d hd
  · rw [hcomb] at hd
    rw [hb, hmemSelf]
    exact h.listed a d (hb ▸ hd)
  · rw [hb, hmemSelf] at hd
    have hd := hc.symm.trans hd
    cases hd
    left
    rw [hb, hcomb]
    exact ha
  · rw [husers]
    by_cases hut : u = t
    · subst hut
      rw [hself]
      refine iff_of_false (fun hm => ?_) nofun
      split at hm
      · simp at hm
      · rename_i hdc
        have := (h.users d u).1 hm
        rw [hp] at this
        exact hdc (Option.some.inj this).symm
    · rw [hpc u hut, ← h.users d u]
      split
      · rename_i hdc
        rw [hdc, List.mem_filter]
        exact and_iff_left (by simpa using hut)
      · exact Iff.rfl
  · rw [hcomb] at hw
    rw [hlog]
    exact h.global d hd w hw
  · rw [hcomb, hb] at hd
    have hdc := hc.symm.trans (h.listed a d hd)
    cases hdc
    rw [hb, hmemSelf] at hw
    rw [hlog]
    rcases List.mem_append.1 hw with hw | hw
    · exact h.element a c ha w hw
    · rw [List.mem_singleton.1 hw]; exact hv

/-- `commit_and_erase` of an exiting thread, and line 105. -/
theorem Inv.commit {left : List Cell} (h : Inv n s) (hn : 0 < n) (hp : s.pc t = .commit c b left) :
    Inv n ((s.commitAndErase c b).setPc t (.exit left)) := by
  have hok := h.pc t
  rw [hp] at hok
  obtain ⟨hall, howns, hlt, honly, hlist⟩ := hok
  have hown := howns b List.mem_cons_self
  generalize hs' : (s.commitAndErase c b).setPc t (.exit left) = s'
  have hpc : ∀ u, u ≠ t → s'.pc u = s.pc u := fun u hu => by subst hs'; exact Function.update_of_ne hu ..
  have hself : s'.pc t = .exit left := by subst hs'; exact Function.update_self ..
  have hcomb : s'.combiners = Function.update s.combiners c { s.combiners c with
      globalResult := (s.combiners c).globalResult ++ (s.mem b).element
      agents := (s.combiners c).agents.erase b } := by subst hs'; rfl
  obtain ⟨hids, hlive⟩ := update_combiner s.combiners (c := c) (x := { s.combiners c with
      globalResult := (s.combiners c).globalResult ++ (s.mem b).element
      agents := (s.combiners c).agents.erase b }) rfl rfl
  have hag : ∀ d, (s'.combiners d).agents = if d = c then (s.combiners c).agents.erase b else
      (s.combiners d).agents := by
    intro d
    rw [hcomb, Function.update_apply]
    split <;> rfl
  have hmem : ∀ a, a ≠ b → s'.mem a = s.mem a := fun a ha => by subst hs'; exact Function.update_of_ne ha ..
  have hmemSelf : s'.mem b = { s.mem b with combiner := none } := by subst hs'; exact Function.update_self ..
  have hlog : s'.log = s.log := by subst hs'; rfl
  have husers : s'.users = s.users := by subst hs'; rfl
  have htls : s'.tls = s.tls := by subst hs'; rfl
  have hgone : ∀ d, b ∉ (s'.combiners d).agents := by
    intro d hd
    rw [hag] at hd
    split at hd
    · exact (h.nodup c).not_mem_erase hd
    · rename_i hdc
      exact hdc (honly d (h.listed b d hd))
  refine h.step_local (t := t) hn (fun a => a = b) (fun a ha => ha ▸ hown) hpc htls (by subst hs'; rfl)
    (fun d => by rw [hcomb]; exact hids d) (fun d => by rw [hcomb]; exact hlive d) (by subst hs'; rfl)
    (by subst hs'; rfl) (by subst hs'; rfl) (fun d hd => ?_) (fun x hx => hlog ▸ hx) (fun a ha => hmem a ha)
    (fun a ha d => ?_) (fun a ha d hd => ?_) (fun a ha d hd => absurd (ha ▸ hd) (hgone d)) (fun a ha d hd => ?_)
    (fun d a w hw => by rw [hp] at hw; cases hw) (fun d => ?_) (fun d u => ?_) (fun d => by rw [hself]; exact nofun)
    (fun d hd w hw => ?_) (fun a ha d hd => absurd (ha ▸ hd) (hgone d)) ?_
  · rw [hcomb, Function.update_of_ne (fun he => by rw [he] at hd; exact absurd hlt (Nat.not_lt.2 hd))]
  · rw [hag]
    split
    · rename_i hd
      rw [hd]
      exact List.mem_erase_of_ne ha
    · exact Iff.rfl
  · rw [ha, hmemSelf] at hd
    cases hd
  · rw [ha, hmemSelf] at hd
    cases hd
  · rw [hag]
    split
    · exact (h.nodup c).erase b
    · exact h.nodup d
  · rw [husers, h.users d u]
    by_cases hut : u = t
    · rw [hut, hself, hp]; exact Iff.rfl
    · rw [hpc u hut]
  · rw [hlog]
    rw [hcomb] at hw
    by_cases hdc : d = c
    · subst hdc
      rw [Function.update_self] at hw
      rcases List.mem_append.1 hw with hw | hw
      · exact h.global d hd w hw
      · exact h.element b d (hlist hd) w hw
    · rw [Function.update_of_ne hdc] at hw
      exact h.global d hd w hw
  · rw [hself]
    refine ⟨fun a ha => ?_, fun a ha => (howns a (List.mem_cons_of_mem b ha)).of_tls (by rw [htls])⟩
    have ha : Owned n s t a := ha.of_tls (by rw [htls])
    by_cases hab : a = b
    · left
      rw [hab, hmemSelf]
    · rw [hmem a hab]
      exact (hall a ha).imp_right (fun hm => (List.mem_cons.1 hm).resolve_left hab)

/-- A step that changes nothing but the thread's place. -/
theorem Inv.move {p : Pc α} (h : Inv n s) (hn : 0 < n) (hold : ∀ c a v, s.pc t ≠ .append c a v)
    (huses : p.uses = (s.pc t).uses) (hdestroy : ∀ c, p ≠ .destroyAgent c) (hok : PcOk n s t p) :
    Inv n (s.setPc t p) := by
  refine h.step_local (t := t) hn (fun _ => False) (fun _ hb => hb.elim) (fun u hu => setPc_pc_of_ne hu) rfl rfl
    (fun _ => rfl) (fun _ => rfl) rfl rfl rfl (fun _ _ => rfl) (fun _ hx => hx) (fun _ _ => rfl) (fun _ _ _ => .rfl)
    (fun _ hb => hb.elim) (fun _ hb => hb.elim) (fun _ hb => hb.elim) (fun c a v hp => absurd hp (hold c a v)) h.nodup
    (fun c u => ?_) (fun c => ?_) h.global (fun _ hb => hb.elim) ?_
  · show u ∈ s.users c ↔ _
    rw [h.users c u]
    by_cases hut : u = t
    · rw [hut, setPc_pc_self, huses]
    · rw [setPc_pc_of_ne hut]
  · rw [setPc_pc_self]; exact hdestroy c
  · rw [setPc_pc_self]
    exact hok.frame hn rfl (fun _ _ => rfl) (fun _ _ _ => .rfl) (fun _ _ => ⟨rfl, rfl⟩)
      (fun _ _ hl => hl) le_rfl (fun _ hx => hx)

/-- Line 103, for the next agent of an exiting thread. -/
theorem Inv.exitNext {left : List Cell} (h : Inv n s) (hn : 0 < n) (hp : s.pc t = .exit (a :: left)) :
    Inv n (s.setPc t (match (s.mem a).combiner with
      | some c => .commit c a left
      | none   => .exit left)) := by
  obtain ⟨hall, howns⟩ : PcOk n s t (.exit (a :: left)) := hp ▸ h.pc t
  have hown := howns a List.mem_cons_self
  cases hc : (s.mem a).combiner with
  | some c =>
    obtain ⟨hl, -⟩ := h.combiner a c hc
    refine h.move hn (by rw [hp]; exact nofun) (by rw [hp]; rfl) nofun
      ⟨hall, howns, h.lt_of_live hl, fun d hd => (Option.some.inj (hc.symm.trans hd)).symm, fun _ => ?_⟩
    refine (h.registered a c hc).resolve_right ?_
    rintro ⟨u, v, hu⟩
    obtain ⟨-, ⟨id, -, hget⟩, -⟩ : PcOk n s u (.append c a v) := hu ▸ h.pc u
    have hut := h.owner_unique (Owned.of_get hn hget) hown
    rw [hut, hp] at hu
    cases hu
  | none =>
    refine h.move hn (by rw [hp]; exact nofun) (by rw [hp]; rfl) nofun
      ⟨fun b hb => ?_, fun b hb => howns b (List.mem_cons_of_mem a hb)⟩
    rcases hall b hb with hb | hb
    · exact .inl hb
    · rcases List.mem_cons.1 hb with rfl | hb
      · exact .inl hc
      · exact .inr hb

/-- The first lines of `destroy_tls_blocks`. -/
theorem Inv.exitStart (h : Inv n s) (hn : 0 < n) (hp : s.pc t = .idle) :
    Inv n (s.setPc t (.exit (cellsOf n (s.tls t)))) :=
  h.move hn (by rw [hp]; exact nofun) (by rw [hp]; rfl) nofun
    ⟨fun _ ha => .inr (mem_cellsOf.2 ha), fun _ ha => mem_cellsOf.1 ha⟩

/-- The last ones: the table is gone, and no cell of it is registered. -/
theorem Inv.exitEnd (h : Inv n s) (hn : 0 < n) (hp : s.pc t = .exit []) :
    Inv n ({ s with tls := Function.update s.tls t none }.setPc t .idle) := by
  obtain ⟨hall, -⟩ : PcOk n s t (.exit []) := hp ▸ h.pc t
  have hclean : ∀ a, Owned n s t a → (s.mem a).combiner = none := fun a ha => (hall a ha).resolve_right List.not_mem_nil
  generalize hs' : { s with tls := Function.update s.tls t none }.setPc t .idle = s'
  have hpc : ∀ u, u ≠ t → s'.pc u = s.pc u := fun u hu => by subst hs'; exact Function.update_of_ne hu ..
  have hself : s'.pc t = .idle := by subst hs'; exact Function.update_self ..
  have htls : ∀ u, u ≠ t → s'.tls u = s.tls u := fun u hu => by subst hs'; exact Function.update_of_ne hu ..
  have htlsSelf : s'.tls t = none := by subst hs'; exact Function.update_self ..
  have hat : ∀ {u k p}, blockAt (s'.tls u) k = some p → u ≠ t ∧ blockAt (s.tls u) k = some p := by
    intro u k p hb
    by_cases hut : u = t
    · rw [hut, htlsSelf] at hb; cases hb
    · exact ⟨hut, htls u hut ▸ hb⟩
  have hcomb : s'.combiners = s.combiners := by subst hs'; rfl
  have hmem : s'.mem = s.mem := by subst hs'; rfl
  have husers : s'.users = s.users := by subst hs'; rfl
  have hlog : s'.log = s.log := by subst hs'; rfl
  have hnotT : ∀ {a u id}, getTlsAgent n (s.tls u) id = some a → (s.mem a).combiner ≠ none → u ≠ t := by
    rintro a u id hget hne rfl
    exact hne (hclean a (Owned.of_get hn hget))
  constructor
  case kinds => rw [hcomb]; subst hs'; exact h.kinds
  case ids => rw [hcomb]; exact h.ids
  case free => subst hs'; exact h.free
  case live => rw [hcomb]; exact h.live
  case unused => rw [hcomb]; subst hs'; exact h.unused
  case blocks => intro u v k l p hu hv; exact h.blocks u v k l p (hat hu).2 (hat hv).2
  case fresh =>
    intro u k p hb
    have := h.fresh u k p (hat hb).2
    subst hs'
    exact this
  case combiner =>
    intro a c hc
    rw [hmem] at hc
    obtain ⟨hl, u, id, hid, hget⟩ := h.combiner a c hc
    rw [hcomb]
    refine ⟨hl, u, id, hid, ?_⟩
    rw [htls u (hnotT hget (by rw [hc]; exact nofun))]
    exact hget
  case listed => rw [hcomb, hmem]; exact h.listed
  case registered =>
    intro a c hc
    rw [hmem] at hc
    rw [hcomb]
    refine (h.registered a c hc).imp_right ?_
    rintro ⟨u, v, hu⟩
    exact ⟨u, v, by rw [hpc u (fun he => by rw [he, hp] at hu; cases hu)]; exact hu⟩
  case nodup => rw [hcomb]; exact h.nodup
  case users =>
    intro c u
    rw [husers, h.users c u]
    by_cases hut : u = t
    · rw [hut, hself, hp]; exact Iff.rfl
    · rw [hpc u hut]
  case destroys =>
    intro u v c hu hv
    have hne : ∀ w, s'.pc w = .destroyAgent c → w ≠ t := fun w hw he => by rw [he, hself] at hw; cases hw
    exact h.destroys u v c (hpc u (hne u hu) ▸ hu) (hpc v (hne v hv) ▸ hv)
  case global => rw [hcomb, hlog]; exact h.global
  case element => rw [hcomb, hmem, hlog]; exact h.element
  case pc =>
    intro u
    by_cases hut : u = t
    · rw [hut, hself]; trivial
    · rw [hpc u hut]
      exact (h.pc u).frame hn (htls u hut) (fun a _ => by rw [hmem]) (fun c a _ => by rw [hcomb])
        (fun c _ => by rw [hcomb]; exact ⟨rfl, rfl⟩) (fun c _ hl => by rw [hcomb] at hl; exact hl)
        (by subst hs'; exact le_rfl) (fun x hx => hlog ▸ hx)

/-! ## Construction and destruction -/

/-- The combiner a thread's place is about exists. -/
theorem Inv.lt_of_relevant (h : Inv n s) (hc : (s.pc u).uses = some c ∨ s.pc u = .destroyAgent c) :
    c < s.ncombiners := by
  have hok := h.pc u
  cases hp : s.pc u <;> rw [hp] at hc hok <;> simp only [Pc.uses, reduceCtorEq, Option.some.injEq, false_or, or_false,
    Pc.destroyAgent.injEq] at hc
  case append d a v => exact h.lt_of_live (hc ▸ hok.1)
  case modify d a v => exact h.lt_of_live (hc ▸ hok.1)
  case destroyAgent d =>
    rw [← Nat.not_le]
    intro hle
    refine hok.2 ?_
    rw [h.unused d (hc ▸ hle)]
    rfl

/-- **An id given out is nobody's.** -/
theorem Inv.createNewAgent_spec (h : Inv n s) :
    s.createNewAgent.2 < s.createNewAgent.1.agentKinds ∧ s.createNewAgent.2 ∉ s.createNewAgent.1.freeIds ∧
      (∀ c, (s.combiners c).id ≠ some s.createNewAgent.2) ∧ s.createNewAgent.1.freeIds.Nodup ∧
      (∀ id ∈ s.createNewAgent.1.freeIds, id ∈ s.freeIds) ∧ s.agentKinds ≤ s.createNewAgent.1.agentKinds := by
  obtain ⟨hnodup, hlt⟩ := h.free
  unfold State.createNewAgent
  cases hf : s.freeIds with
  | cons id ids =>
    rw [hf] at hnodup hlt
    obtain ⟨hnot, hids⟩ := List.nodup_cons.1 hnodup
    exact ⟨hlt id List.mem_cons_self, hnot, fun c hc => (h.kinds c id hc).2 (hf ▸ List.mem_cons_self), hids,
      fun id hid => List.mem_cons_of_mem _ hid, le_rfl⟩
  | nil =>
    exact ⟨Nat.lt_succ_self _, List.not_mem_nil, fun c hc => Nat.lt_irrefl _ (h.kinds c _ hc).1, List.nodup_nil,
      fun id hid => hid, Nat.le_succ _⟩

theorem Inv.construct (h : Inv n s) (hn : 0 < n) : Inv n (construct s) := by
  obtain ⟨hkind, hnotFree, hnobody, hnodup, hsub, hle⟩ := h.createNewAgent_spec
  obtain ⟨id, hid⟩ : ∃ id, id = s.createNewAgent.2 := ⟨_, rfl⟩
  rw [← hid] at hkind hnotFree hnobody
  have hrest : s.createNewAgent.1.combiners = s.combiners ∧ s.createNewAgent.1.tls = s.tls ∧
      s.createNewAgent.1.mem = s.mem ∧ s.createNewAgent.1.nblocks = s.nblocks ∧ s.createNewAgent.1.pc = s.pc ∧
      s.createNewAgent.1.users = s.users ∧ s.createNewAgent.1.log = s.log := by
    unfold State.createNewAgent
    split <;> exact ⟨rfl, rfl, rfl, rfl, rfl, rfl, rfl⟩
  obtain ⟨hc0, htls, hmem, hnb, hpc, husers, hlog⟩ := hrest
  have hcomb : (AgentGroup.construct s).combiners =
      Function.update s.combiners s.ncombiners ⟨some id, [], [], true⟩ := by
    show Function.update s.createNewAgent.1.combiners s.ncombiners ⟨some s.createNewAgent.2, [], [], true⟩ = _
    rw [hc0, ← hid]
  have hold : ∀ {c}, c ≠ s.ncombiners → (AgentGroup.construct s).combiners c = s.combiners c := fun hc => by
    rw [hcomb]; exact Function.update_of_ne hc ..
  have hnew : (AgentGroup.construct s).combiners s.ncombiners = ⟨some id, [], [], true⟩ := by
    rw [hcomb]; exact Function.update_self ..
  have htls' : (AgentGroup.construct s).tls = s.tls := htls
  have hmem' : (AgentGroup.construct s).mem = s.mem := hmem
  have hpc' : (AgentGroup.construct s).pc = s.pc := hpc
  have hlog' : (AgentGroup.construct s).log = s.log := hlog
  have hneLive : ∀ {c}, (s.combiners c).live = true → c ≠ s.ncombiners := fun hl => Nat.ne_of_lt (h.lt_of_live hl)
  constructor
  case kinds =>
    intro c i hc
    by_cases hcn : c = s.ncombiners
    · rw [hcn, hnew] at hc
      cases hc
      exact ⟨hkind, hnotFree⟩
    · rw [hold hcn] at hc
      exact ⟨Nat.lt_of_lt_of_le (h.kinds c i hc).1 hle, fun hm => (h.kinds c i hc).2 (hsub i hm)⟩
  case ids =>
    intro c d i hc hd
    by_cases hcn : c = s.ncombiners <;> by_cases hdn : d = s.ncombiners
    · rw [hcn, hdn]
    · rw [hcn, hnew] at hc
      rw [hold hdn] at hd
      cases hc
      exact absurd hd (hnobody d)
    · rw [hdn, hnew] at hd
      rw [hold hcn] at hc
      cases hd
      exact absurd hc (hnobody c)
    · rw [hold hcn] at hc
      rw [hold hdn] at hd
      exact h.ids c d i hc hd
  case free => exact ⟨hnodup, fun i hi => Nat.lt_of_lt_of_le (h.free.2 i (hsub i hi)) hle⟩
  case live =>
    intro c hc
    by_cases hcn : c = s.ncombiners
    · rw [hcn, hnew]; exact nofun
    · rw [hold hcn] at hc ⊢
      exact h.live c hc
  case unused =>
    intro c hc
    have hc : s.ncombiners + 1 ≤ c := hc
    rw [hold (by omega)]
    exact h.unused c (by omega)
  case blocks => rw [htls']; exact h.blocks
  case fresh =>
    intro t k p hb
    rw [htls'] at hb
    exact hnb ▸ h.fresh t k p hb
  case combiner =>
    intro a c hc
    rw [hmem'] at hc
    obtain ⟨hl, hex⟩ := h.combiner a c hc
    rw [hold (hneLive hl), htls']
    exact ⟨hl, hex⟩
  case listed =>
    intro a c ha
    by_cases hcn : c = s.ncombiners
    · rw [hcn, hnew] at ha; cases ha
    · rw [hold hcn] at ha
      rw [hmem']
      exact h.listed a c ha
  case registered =>
    intro a c hc
    rw [hmem'] at hc
    rw [hold (hneLive (h.combiner a c hc).1), hpc']
    exact h.registered a c hc
  case nodup =>
    intro c
    by_cases hcn : c = s.ncombiners
    · rw [hcn, hnew]; exact List.nodup_nil
    · rw [hold hcn]; exact h.nodup c
  case users =>
    intro c t
    rw [hpc']
    have : (AgentGroup.construct s).users = s.users := husers
    rw [this]
    exact h.users c t
  case destroys => rw [hpc']; exact h.destroys
  case global =>
    intro c hc v hv
    by_cases hcn : c = s.ncombiners
    · rw [hcn, hnew] at hv; cases hv
    · rw [hold hcn] at hc hv
      rw [hlog']
      exact h.global c hc v hv
  case element =>
    intro a c ha v hv
    by_cases hcn : c = s.ncombiners
    · rw [hcn, hnew] at ha; cases ha
    · rw [hold hcn] at ha
      rw [hmem'] at hv
      rw [hlog']
      exact h.element a c ha v hv
  case pc =>
    intro u
    rw [hpc']
    refine (h.pc u).frame hn (by rw [htls']) (fun a _ => by rw [hmem']) (fun c a ha => ?_) (fun c hc => ?_)
      (fun c hlt hl => ?_) (Nat.le_succ _) (fun x hx => hlog' ▸ hx)
    · by_cases hcn : c = s.ncombiners
      · rw [hcn, hnew, h.unused _ le_rfl]
        exact .rfl
      · rw [hold hcn]
    · rw [hold (Nat.ne_of_lt (h.lt_of_relevant hc))]
      exact ⟨rfl, rfl⟩
    · rwa [hold (Nat.ne_of_lt hlt)] at hl

/-- Line 141: the id is free again. -/
theorem Inv.destroyAgent {id : Nat} (h : Inv n s) (hn : 0 < n) (hp : s.pc t = .destroyAgent c)
    (hid : (s.combiners c).id = some id) :
    Inv n ({ s.setCombiner c { s.combiners c with id := none } with
      freeIds := if id < s.agentKinds then id :: s.freeIds else s.freeIds }.setPc t .idle) := by
  obtain ⟨hdead, -⟩ : PcOk n s t (.destroyAgent c) := hp ▸ h.pc t
  obtain ⟨hlt, hnotFree⟩ := h.kinds c id hid
  rw [if_pos hlt]
  generalize hs' : { s.setCombiner c { s.combiners c with id := none } with freeIds := id :: s.freeIds }.setPc t .idle =
    s'
  have hpc : ∀ u, u ≠ t → s'.pc u = s.pc u := fun u hu => by subst hs'; exact Function.update_of_ne hu ..
  have hself : s'.pc t = .idle := by subst hs'; exact Function.update_self ..
  have hold : ∀ {d}, d ≠ c → s'.combiners d = s.combiners d := fun hd => by subst hs'; exact Function.update_of_ne hd ..
  have hnew : s'.combiners c = { s.combiners c with id := none } := by subst hs'; exact Function.update_self ..
  have hlive : ∀ d, (s'.combiners d).live = (s.combiners d).live := fun d => by
    by_cases hd : d = c
    · rw [hd, hnew]
    · rw [hold hd]
  have hagents : ∀ d, (s'.combiners d).agents = (s.combiners d).agents := fun d => by
    by_cases hd : d = c
    · rw [hd, hnew]
    · rw [hold hd]
  have hglobal : ∀ d, (s'.combiners d).globalResult = (s.combiners d).globalResult := fun d => by
    by_cases hd : d = c
    · rw [hd, hnew]
    · rw [hold hd]
  have hids : ∀ {d i}, (s'.combiners d).id = some i → d ≠ c ∧ (s.combiners d).id = some i := by
    intro d i hi
    by_cases hd : d = c
    · rw [hd, hnew] at hi; cases hi
    · exact ⟨hd, hold hd ▸ hi⟩
  have hneLive : ∀ {d}, (s.combiners d).live = true → d ≠ c := by
    rintro d hl rfl
    rw [hdead] at hl
    cases hl
  have hmem : s'.mem = s.mem := by subst hs'; rfl
  have htls : s'.tls = s.tls := by subst hs'; rfl
  have hlog : s'.log = s.log := by subst hs'; rfl
  have hfree : s'.freeIds = id :: s.freeIds := by subst hs'; rfl
  have hkinds : s'.agentKinds = s.agentKinds := by subst hs'; rfl
  constructor
  case kinds =>
    intro d i hi
    obtain ⟨hd, hi⟩ := hids hi
    rw [hkinds, hfree]
    refine ⟨(h.kinds d i hi).1, fun hm => ?_⟩
    rcases List.mem_cons.1 hm with rfl | hm
    · exact hd (h.ids d c i hi hid)
    · exact (h.kinds d i hi).2 hm
  case ids => intro d e i hd he; exact h.ids d e i (hids hd).2 (hids he).2
  case free =>
    rw [hfree, hkinds]
    refine ⟨List.nodup_cons.2 ⟨hnotFree, h.free.1⟩, fun i hi => ?_⟩
    rcases List.mem_cons.1 hi with rfl | hi
    · exact hlt
    · exact h.free.2 i hi
  case live =>
    intro d hd
    rw [hlive] at hd
    rw [hold (hneLive hd)]
    exact h.live d hd
  case unused =>
    intro d hd
    have hd : s.ncombiners ≤ d := by subst hs'; exact hd
    rw [hold (fun he => by
      rw [he] at hd
      rw [h.unused c hd] at hid
      cases hid)]
    exact h.unused d hd
  case blocks => rw [htls]; exact h.blocks
  case fresh => rw [htls]; subst hs'; exact h.fresh
  case combiner =>
    intro a d hd
    rw [hmem] at hd
    obtain ⟨hl, hex⟩ := h.combiner a d hd
    rw [hold (hneLive hl), htls]
    exact ⟨hl, hex⟩
  case listed => intro a d ha; rw [hagents] at ha; rw [hmem]; exact h.listed a d ha
  case registered =>
    intro a d hd
    rw [hmem] at hd
    rw [hagents]
    refine (h.registered a d hd).imp_right ?_
    rintro ⟨u, v, hu⟩
    exact ⟨u, v, by rw [hpc u (fun he => by rw [he, hp] at hu; cases hu)]; exact hu⟩
  case nodup => intro d; rw [hagents]; exact h.nodup d
  case users =>
    intro d u
    have : s'.users = s.users := by subst hs'; rfl
    rw [this, h.users d u]
    by_cases hut : u = t
    · rw [hut, hself, hp]; exact Iff.rfl
    · rw [hpc u hut]
  case destroys =>
    intro u v d hu hv
    have hne : ∀ w, s'.pc w = .destroyAgent d → w ≠ t := fun w hw he => by rw [he, hself] at hw; cases hw
    exact h.destroys u v d (hpc u (hne u hu) ▸ hu) (hpc v (hne v hv) ▸ hv)
  case global => intro d hd; rw [hlive] at hd; rw [hglobal, hlog]; exact h.global d hd
  case element => intro a d ha; rw [hagents] at ha; rw [hmem, hlog]; exact h.element a d ha
  case pc =>
    intro u
    by_cases hut : u = t
    · rw [hut, hself]; trivial
    · rw [hpc u hut]
      refine (h.pc u).frame hn (by rw [htls]) (fun a _ => by rw [hmem]) (fun d a _ => by rw [hagents]) (fun d hd => ?_)
        (fun d _ hl => hlive d ▸ hl) (by subst hs'; exact le_rfl) (fun x hx => hlog ▸ hx)
      have hdc : d ≠ c := by
        rcases hd with hd | hd
        · have hok := h.pc u
          cases hpu : s.pc u <;> rw [hpu] at hd hok <;> simp only [Pc.uses, reduceCtorEq, Option.some.injEq] at hd
          case append e a v => exact hneLive (hd ▸ hok.1)
          case modify e a v => exact hneLive (hd ▸ hok.1)
        · rintro rfl
          exact hut (h.destroys u t d hd hp)
      rw [hold hdc]
      exact ⟨rfl, rfl⟩

/-- Another thread's place, when the agents of a combiner it is not in are cleared. -/
theorem PcOk.clear {cfg : Config α} (h : Inv n s) (hok : PcOk n s u (s.pc u)) (hc : (s.combiners c).live = true)
    (huses : (s.pc u).uses ≠ some c) : PcOk n (s.clearAllAgents cfg c) u (s.pc u) := by
  have hold : ∀ {d}, d ≠ c → (s.clearAllAgents cfg c).combiners d = s.combiners d :=
    fun hd => Function.update_of_ne hd ..
  have hnone : ∀ a, (s.mem a).combiner = none → ((s.clearAllAgents cfg c).mem a).combiner = none := by
    intro a ha
    unfold State.clearAllAgents
    dsimp only
    split
    · rfl
    · exact ha
  have hmem : ∀ a, a ∉ (s.combiners c).agents → (s.clearAllAgents cfg c).mem a = s.mem a := fun a ha => if_neg ha
  cases hp : s.pc u <;> rw [hp] at hok huses
  case idle => trivial
  case append d a v =>
    obtain ⟨hl, hex, ha, he, hna, hv⟩ := hok
    have hd : d ≠ c := fun he => huses (congrArg some he)
    have hac : a ∉ (s.combiners c).agents := fun hm => hd (Option.some.inj (ha.symm.trans (h.listed a c hm)))
    simp only [PcOk]
    rw [hold hd, hmem a hac]
    exact ⟨hl, hex, ha, he, hna, hv⟩
  case modify d a v =>
    obtain ⟨hl, hex, ha, hv⟩ := hok
    have hd : d ≠ c := fun he => huses (congrArg some he)
    simp only [PcOk]
    rw [hold hd]
    exact ⟨hl, hex, ha, hv⟩
  case exit left => exact ⟨fun a ha => (hok.1 a ha).imp_left (hnone a), hok.2⟩
  case commit d b left =>
    obtain ⟨hall, howns, hlt, honly, hb⟩ := hok
    refine ⟨fun a ha => (hall a ha).imp_left (hnone a), howns, hlt, fun e he => ?_, fun hl => ?_⟩
    · by_cases hbc : b ∈ (s.combiners c).agents
      · have hbn : ((s.clearAllAgents cfg c).mem b) = ⟨none, cfg.elementTp⟩ := if_pos hbc
        rw [hbn] at he
        cases he
      · rw [hmem b hbc] at he
        exact honly e he
    · by_cases hdc : d = c
      · rw [hdc] at hl
        have hdead : ((s.clearAllAgents cfg c).combiners c).live = false := by
          show (Function.update s.combiners c _ c).live = false
          rw [Function.update_self]
        rw [hdead] at hl
        cases hl
      · rw [hold hdc] at hl ⊢
        exact hb hl
  case destroyAgent d =>
    by_cases hdc : d = c
    · rw [hdc] at hok
      rw [hok.1] at hc
      cases hc
    · simp only [PcOk]
      rw [hold hdc]
      exact hok

/-- **`clear_all_agents`**: no cell keeps a pointer to the combiner. -/
theorem Inv.clearAllAgents {cfg : Config α} (h : Inv n s) (hn : 0 < n) (hp : s.pc t = .idle)
    (hc : (s.combiners c).live = true) (husers : s.users c = []) :
    Inv n ((s.clearAllAgents cfg c).setPc t (.destroyAgent c)) := by
  have hnobody : ∀ u, (s.pc u).uses ≠ some c := fun u hu => by
    have := (h.users c u).2 hu
    rw [husers] at this
    cases this
  generalize hs₁ : s.clearAllAgents cfg c = s₁
  have hold : ∀ {d}, d ≠ c → s₁.combiners d = s.combiners d := fun hd => by subst hs₁; exact Function.update_of_ne hd ..
  have hnew : s₁.combiners c = { s.combiners c with agents := [], live := false } := by
    subst hs₁; exact Function.update_self ..
  have hmem : ∀ a, s₁.mem a = if a ∈ (s.combiners c).agents then ⟨none, cfg.elementTp⟩ else s.mem a := fun a => by
    subst hs₁; rfl
  have hids : ∀ d, (s₁.combiners d).id = (s.combiners d).id := fun d => by
    by_cases hd : d = c
    · rw [hd, hnew]
    · rw [hold hd]
  have hpc₁ : s₁.pc = s.pc := by subst hs₁; rfl
  have htls : s₁.tls = s.tls := by subst hs₁; rfl
  have hlog : s₁.log = s.log := by subst hs₁; rfl
  have hpc : ∀ u, u ≠ t → (s₁.setPc t (.destroyAgent c)).pc u = s.pc u := fun u hu => by
    rw [setPc_pc_of_ne hu, hpc₁]
  have hliveOld : ∀ {d}, (s₁.combiners d).live = true → d ≠ c ∧ (s.combiners d).live = true := by
    intro d hl
    by_cases hd : d = c
    · rw [hd, hnew] at hl; cases hl
    · exact ⟨hd, hold hd ▸ hl⟩
  have hpointer : ∀ {a d}, (s₁.mem a).combiner = some d → d ≠ c ∧ a ∉ (s.combiners c).agents ∧
      (s.mem a).combiner = some d := by
    intro a d hd
    rw [hmem] at hd
    split at hd
    · cases hd
    · rename_i hac
      refine ⟨?_, hac, hd⟩
      rintro rfl
      refine hac ((h.registered a d hd).resolve_right ?_)
      rintro ⟨u, v, hu⟩
      exact hnobody u (by rw [hu]; rfl)
  have hlisted : ∀ {a d}, a ∈ (s₁.combiners d).agents → d ≠ c ∧ a ∈ (s.combiners d).agents ∧ s₁.mem a = s.mem a := by
    intro a d ha
    by_cases hd : d = c
    · rw [hd, hnew] at ha; cases ha
    · rw [hold hd] at ha
      refine ⟨hd, ha, ?_⟩
      rw [hmem, if_neg]
      exact fun hac => hd (Option.some.inj ((h.listed a d ha).symm.trans (h.listed a c hac)))
  constructor
  case kinds => intro d id hid; exact (by subst hs₁; exact h.kinds d id (hids d ▸ hid))
  case ids => intro d e id hd he; exact h.ids d e id (hids d ▸ hd) (hids e ▸ he)
  case free => subst hs₁; exact h.free
  case live => intro d hd hnone; exact h.live d (hliveOld hd).2 ((hids d).symm.trans hnone)
  case unused =>
    intro d hd
    have hd : s.ncombiners ≤ d := by subst hs₁; exact hd
    exact (hold (fun he => absurd (h.lt_of_live hc) (Nat.not_lt.2 (he ▸ hd)))).trans (h.unused d hd)
  case blocks => intro u v k l p hu hv; exact h.blocks u v k l p (htls ▸ hu) (htls ▸ hv)
  case fresh => subst hs₁; exact h.fresh
  case combiner =>
    intro a d hd
    obtain ⟨hdc, -, hd⟩ := hpointer hd
    show (s₁.combiners d).live = true ∧ ∃ t id, (s₁.combiners d).id = some id ∧ getTlsAgent n (s₁.tls t) id = some a
    rw [hold hdc, htls]
    exact h.combiner a d hd
  case listed =>
    intro a d ha
    obtain ⟨-, ha, hm⟩ := hlisted ha
    exact (congrArg Agent.combiner hm).trans (h.listed a d ha)
  case registered =>
    intro a d hd
    obtain ⟨hdc, -, hd⟩ := hpointer hd
    rcases h.registered a d hd with hr | ⟨u, v, hu⟩
    · left
      show a ∈ (s₁.combiners d).agents
      rw [hold hdc]
      exact hr
    · exact .inr ⟨u, v, by rw [hpc u (fun he => by rw [he, hp] at hu; cases hu)]; exact hu⟩
  case nodup =>
    intro d
    show (s₁.combiners d).agents.Nodup
    by_cases hd : d = c
    · rw [hd, hnew]; exact List.nodup_nil
    · rw [hold hd]; exact h.nodup d
  case users =>
    intro d u
    have hu₁ : (s₁.setPc t (.destroyAgent c)).users = s.users := by subst hs₁; rfl
    rw [hu₁, h.users d u]
    by_cases hut : u = t
    · rw [hut, setPc_pc_self, hp]; exact Iff.rfl
    · rw [hpc u hut]
  case destroys =>
    intro u v d hu hv
    by_cases hdc : d = c
    · have hone : ∀ w, (s₁.setPc t (.destroyAgent c)).pc w = .destroyAgent d → w = t := by
        intro w hw
        by_contra hwt
        rw [hpc w hwt] at hw
        have hok := h.pc w
        rw [hw, hdc] at hok
        rw [hok.1] at hc
        cases hc
      rw [hone u hu, hone v hv]
    · have hne : ∀ w, (s₁.setPc t (.destroyAgent c)).pc w = .destroyAgent d → w ≠ t := by
        rintro w hw rfl
        rw [setPc_pc_self] at hw
        cases hw
        exact hdc rfl
      exact h.destroys u v d (hpc u (hne u hu) ▸ hu) (hpc v (hne v hv) ▸ hv)
  case global =>
    intro d hd v hv
    obtain ⟨hdc, hl⟩ := hliveOld hd
    have hv : v ∈ (s₁.combiners d).globalResult := hv
    rw [hold hdc] at hv
    exact hlog ▸ h.global d hl v hv
  case element =>
    intro a d ha v hv
    obtain ⟨-, ha, hm⟩ := hlisted ha
    have hv : v ∈ (s₁.mem a).element := hv
    rw [hm] at hv
    exact hlog ▸ h.element a d ha v hv
  case pc =>
    intro u
    by_cases hut : u = t
    · rw [hut, setPc_pc_self]
      refine ⟨?_, fun hnone => h.live c hc ((hids c).symm.trans hnone)⟩
      show (s₁.combiners c).live = false
      rw [hnew]
    · rw [hpc u hut]
      have hok : PcOk n (s.clearAllAgents cfg c) u (s.pc u) := (h.pc u).clear h hc (hnobody u)
      rw [hs₁] at hok
      exact hok.frame hn rfl (fun _ _ => rfl) (fun _ _ _ => .rfl) (fun _ _ => ⟨rfl, rfl⟩) (fun _ _ hl => hl) le_rfl
        (fun _ hx => hx)

/-! ## The first lines of `operator<<` -/

/-- **The cell of an id is found or made**, and every cell there was keeps its address. -/
theorem findAgent_spec (n : Nat) (s : State α) (t : Thread) (id : Nat) (raw : Nat → List α) :
    getTlsAgent n ((s.findAgent n t id raw).1.tls t) id = some (s.findAgent n t id raw).2 ∧
    ((s.findAgent n t id raw).1 = s ∨
      blockAt (s.tls t) (id / n) = none ∧
        (∀ u k, blockAt ((s.findAgent n t id raw).1.tls u) k =
          if u = t ∧ k = id / n then some s.nblocks else blockAt (s.tls u) k) ∧
        (∀ u, u ≠ t → (s.findAgent n t id raw).1.tls u = s.tls u) ∧
        (s.findAgent n t id raw).1.nblocks = s.nblocks + 1 ∧
        (s.findAgent n t id raw).1.mem = fun a => if a.block = s.nblocks then ⟨none, raw a.offset⟩ else s.mem a) := by
  unfold State.findAgent
  cases hg : getTlsAgent n (s.tls t) id with
  | some a => exact ⟨hg, .inl rfl⟩
  | none =>
    have hnone : blockAt (s.tls t) (id / n) = none := by
      rw [getTlsAgent_eq] at hg
      exact Option.map_eq_none_iff.1 hg
    obtain ⟨hcell, hnew, hblock⟩ := getOrCreateTlsAgent_spec n (s.tls t) s.nblocks id
    rw [hnone] at hcell hnew hblock
    have hnew : (getOrCreateTlsAgent n (s.tls t) s.nblocks id).2.2 = true := hnew
    dsimp only
    rw [if_pos hnew]
    have hself : Function.update s.tls t (some (getOrCreateTlsAgent n (s.tls t) s.nblocks id).2.1) t =
      some (getOrCreateTlsAgent n (s.tls t) s.nblocks id).2.1 := Function.update_self ..
    refine ⟨?_, .inr ⟨hnone, fun u k => ?_, fun u hu => Function.update_of_ne hu .., rfl, rfl⟩⟩
    · show getTlsAgent n (Function.update s.tls t _ t) id = _
      rw [hself, getTlsAgent_eq_some, hblock, if_pos rfl, hcell]
      exact ⟨rfl, rfl⟩
    · show blockAt (Function.update s.tls t _ u) k = _
      by_cases hu : u = t
      · rw [hu, hself, hblock]
        simp only [true_and]
        rfl
      · rw [Function.update_of_ne hu, if_neg (fun he => hu he.1)]

theorem findAgent_frame (n : Nat) (s : State α) (t : Thread) (id : Nat) (raw : Nat → List α) :
    (s.findAgent n t id raw).1.combiners = s.combiners ∧ (s.findAgent n t id raw).1.ncombiners = s.ncombiners ∧
    (s.findAgent n t id raw).1.agentKinds = s.agentKinds ∧ (s.findAgent n t id raw).1.freeIds = s.freeIds ∧
    (s.findAgent n t id raw).1.pc = s.pc ∧ (s.findAgent n t id raw).1.users = s.users ∧
    (s.findAgent n t id raw).1.log = s.log := by
  unfold State.findAgent
  split
  · exact ⟨rfl, rfl, rfl, rfl, rfl, rfl, rfl⟩
  · dsimp only
    split <;> exact ⟨rfl, rfl, rfl, rfl, rfl, rfl, rfl⟩

/-- A new block has no registered cell. -/
theorem Inv.findAgent {id : Nat} {raw : Nat → List α} (h : Inv n s) (hn : 0 < n) (hp : s.pc t = .idle) :
    Inv n (s.findAgent n t id raw).1 := by
  obtain ⟨hcomb, hnc, hkinds, hfree, hpc, husers, hlog⟩ := findAgent_frame n s t id raw
  obtain ⟨-, hsame | ⟨hnone, hblock, htls, hnb, hmem⟩⟩ := findAgent_spec n s t id raw
  · rw [hsame]; exact h
  generalize (s.findAgent n t id raw).1 = s' at *
  have hkeep : ∀ {u k p}, blockAt (s.tls u) k = some p → blockAt (s'.tls u) k = some p := by
    intro u k p hb
    rw [hblock, if_neg]
    · exact hb
    · rintro ⟨rfl, rfl⟩
      rw [hnone] at hb
      cases hb
  have hget : ∀ {u i a}, getTlsAgent n (s.tls u) i = some a → getTlsAgent n (s'.tls u) i = some a := by
    intro u i a hg
    obtain ⟨hb, ho⟩ := getTlsAgent_eq_some.1 hg
    exact getTlsAgent_eq_some.2 ⟨hkeep hb, ho⟩
  -- a registered cell is in a block that was there
  have hold : ∀ {a c}, (s.mem a).combiner = some c → s'.mem a = s.mem a := by
    intro a c hc
    obtain ⟨-, u, i, -, hg⟩ := h.combiner a c hc
    have := h.fresh u _ _ (getTlsAgent_eq_some.1 hg).1
    rw [hmem]
    exact if_neg (Nat.ne_of_lt this)
  have hpointer : ∀ {a c}, (s'.mem a).combiner = some c → (s.mem a).combiner = some c := by
    intro a c hc
    rw [hmem] at hc
    dsimp only at hc
    split at hc
    · cases hc
    · exact hc
  constructor
  case kinds => rw [hcomb, hkinds, hfree]; exact h.kinds
  case ids => rw [hcomb]; exact h.ids
  case free => rw [hfree, hkinds]; exact h.free
  case live => rw [hcomb]; exact h.live
  case unused => rw [hcomb, hnc]; exact h.unused
  case blocks =>
    intro u v k l p hu hv
    rw [hblock] at hu hv
    split at hu <;> split at hv
    · rename_i hut hvt
      exact ⟨hut.1.trans hvt.1.symm, hut.2.trans hvt.2.symm⟩
    · cases hu
      exact absurd (h.fresh v l _ hv) (Nat.lt_irrefl _)
    · cases hv
      exact absurd (h.fresh u k _ hu) (Nat.lt_irrefl _)
    · exact h.blocks u v k l p hu hv
  case fresh =>
    intro u k p hb
    rw [hblock] at hb
    rw [hnb]
    split at hb
    · cases hb
      exact Nat.lt_succ_self _
    · exact Nat.lt_succ_of_lt (h.fresh u k p hb)
  case combiner =>
    intro a c hc
    obtain ⟨hl, u, i, hi, hg⟩ := h.combiner a c (hpointer hc)
    rw [hcomb]
    exact ⟨hl, u, i, hi, hget hg⟩
  case listed =>
    intro a c ha
    rw [hcomb] at ha
    have hc := h.listed a c ha
    rw [hold hc]
    exact hc
  case registered => intro a c hc; rw [hcomb, hpc]; exact h.registered a c (hpointer hc)
  case nodup => rw [hcomb]; exact h.nodup
  case users => rw [husers, hpc]; exact h.users
  case destroys => rw [hpc]; exact h.destroys
  case global => rw [hcomb, hlog]; exact h.global
  case element =>
    intro a c ha
    rw [hcomb] at ha
    rw [hold (h.listed a c ha), hlog]
    exact h.element a c ha
  case pc =>
    intro u
    rw [hpc]
    by_cases hut : u = t
    · rw [hut, hp]; trivial
    · refine (h.pc u).frame hn (htls u hut) (fun a ha => ?_) (fun c a _ => by rw [hcomb])
        (fun c _ => by rw [hcomb]; exact ⟨rfl, rfl⟩) (fun c _ hl => by rw [hcomb] at hl; exact hl) (le_of_eq hnc.symm)
        (fun x hx => hlog ▸ hx)
      obtain ⟨-, k, hk⟩ := ha
      rw [hmem]
      exact if_neg (Nat.ne_of_lt (h.fresh u k _ hk))

/-- **A cell that is registered is registered with the combiner that has its id.** -/
theorem Inv.combiner_eq {id : Nat} (h : Inv n s) (hn : 0 < n) (hid : (s.combiners c).id = some id)
    (hget : getTlsAgent n (s.tls t) id = some a) (hd : (s.mem a).combiner = some d) : d = c := by
  obtain ⟨-, u, i, hi, hgu⟩ := h.combiner a d hd
  have hut := h.owner_unique (Owned.of_get hn hgu) (Owned.of_get hn hget)
  subst hut
  have hij := h.get_inj hgu hget
  subst hij
  exact h.ids d c i hi hid

/-- A thread enters `operator<<`. -/
theorem users_push {f : Comb → List Thread} {p q : Thread → Pc α} (h : ∀ d u, u ∈ f d ↔ (p u).uses = some d)
    (hp : p t = .idle) (hq : (q t).uses = some c) (hne : ∀ u, u ≠ t → q u = p u) (d : Comb) (u : Thread) :
    u ∈ Function.update f c (t :: f c) d ↔ (q u).uses = some d := by
  have hnot : ∀ e, t ∉ f e := fun e hm => by
    have := (h e t).1 hm
    rw [hp] at this
    cases this
  by_cases hut : u = t
  · subst hut
    rw [hq, Function.update_apply]
    split
    · rename_i hdc
      exact iff_of_true List.mem_cons_self (congrArg some hdc.symm)
    · rename_i hdc
      exact iff_of_false (hnot d) (fun he => hdc (Option.some.inj he).symm)
  · rw [hne u hut, ← h d u, Function.update_apply]
    split
    · rename_i hdc
      rw [hdc, List.mem_cons]
      exact or_iff_right hut
    · exact Iff.rfl

/-- The rest of `operator<<` up to the lock, for a cell that is registered. -/
theorem Inv.submitOld {id : Nat} {v : α} (h : Inv n s) (hn : 0 < n) (hp : s.pc t = .idle)
    (hl : (s.combiners c).live = true) (hid : (s.combiners c).id = some id)
    (hget : getTlsAgent n (s.tls t) id = some a) (hsome : (s.mem a).combiner.isSome = true) :
    Inv n ({ s with users := Function.update s.users c (t :: s.users c), log := (c, v) :: s.log }.setPc t
      (.modify c a v)) := by
  obtain ⟨d, hd⟩ := Option.isSome_iff_exists.1 hsome
  have hdc := h.combiner_eq hn hid hget hd
  rw [hdc] at hd
  -- nobody else registers a cell of the thread
  have hlisted : a ∈ (s.combiners c).agents := by
    refine (h.registered a c hd).resolve_right ?_
    rintro ⟨u, w, hu⟩
    obtain ⟨-, ⟨i, -, hgu⟩, -⟩ : PcOk n s u (.append c a w) := hu ▸ h.pc u
    rw [h.owner_unique (Owned.of_get hn hgu) (Owned.of_get hn hget), hp] at hu
    cases hu
  generalize hs' : { s with users := Function.update s.users c (t :: s.users c), log := (c, v) :: s.log }.setPc t
    (.modify c a v) = s'
  have hpc : ∀ u, u ≠ t → s'.pc u = s.pc u := fun u hu => by subst hs'; exact Function.update_of_ne hu ..
  have hself : s'.pc t = .modify c a v := by subst hs'; exact Function.update_self ..
  have hcomb : s'.combiners = s.combiners := by subst hs'; rfl
  have hmem : s'.mem = s.mem := by subst hs'; rfl
  have hlog : s'.log = (c, v) :: s.log := by subst hs'; rfl
  have husers : s'.users = Function.update s.users c (t :: s.users c) := by subst hs'; rfl
  refine h.step_local (t := t) hn (fun _ => False) (fun _ hb => hb.elim) hpc (by subst hs'; rfl) (by subst hs'; rfl)
    (fun d => by rw [hcomb]) (fun d => by rw [hcomb]) (by subst hs'; rfl) (by subst hs'; rfl) (by subst hs'; rfl)
    (fun d _ => by rw [hcomb]) (fun x hx => hlog ▸ List.mem_cons_of_mem _ hx) (fun b _ => by rw [hmem])
    (fun b _ d => by rw [hcomb]) (fun _ hb => hb.elim) (fun _ hb => hb.elim) (fun _ hb => hb.elim)
    (fun d b w hw => by rw [hp] at hw; cases hw) (fun d => by rw [hcomb]; exact h.nodup d) (fun d u => ?_)
    (fun d => by rw [hself]; exact nofun) (fun d hd w hw => ?_) (fun _ hb => hb.elim) ?_
  · rw [husers]
    exact users_push h.users hp (by rw [hself]; rfl) hpc d u
  · rw [hlog]
    rw [hcomb] at hw
    exact List.mem_cons_of_mem _ (h.global d hd w hw)
  · rw [hself]
    simp only [PcOk]
    rw [hcomb, hlog]
    refine ⟨hl, ⟨id, hid, ?_⟩, hlisted, List.mem_cons_self⟩
    subst hs'
    exact hget

/-- The same for a cell that is not: `reset`. -/
theorem Inv.submitNew {id : Nat} {v : α} (h : Inv n s) (hn : 0 < n) (hp : s.pc t = .idle)
    (hl : (s.combiners c).live = true) (hid : (s.combiners c).id = some id)
    (hget : getTlsAgent n (s.tls t) id = some a) (hnone : (s.mem a).combiner = none) :
    Inv n (({ s with users := Function.update s.users c (t :: s.users c), log := (c, v) :: s.log }.setAgent a
      ⟨some c, []⟩).setPc t (.append c a v)) := by
  have hown := Owned.of_get hn hget
  have hnot : ∀ d, a ∉ (s.combiners d).agents := by
    intro d hd
    rw [h.listed a d hd] at hnone
    cases hnone
  generalize hs' : ({ s with users := Function.update s.users c (t :: s.users c), log := (c, v) :: s.log }.setAgent a
    ⟨some c, []⟩).setPc t (.append c a v) = s'
  have hpc : ∀ u, u ≠ t → s'.pc u = s.pc u := fun u hu => by subst hs'; exact Function.update_of_ne hu ..
  have hself : s'.pc t = .append c a v := by subst hs'; exact Function.update_self ..
  have hcomb : s'.combiners = s.combiners := by subst hs'; rfl
  have hmem : ∀ b, b ≠ a → s'.mem b = s.mem b := fun b hb => by subst hs'; exact Function.update_of_ne hb ..
  have hmemSelf : s'.mem a = ⟨some c, []⟩ := by subst hs'; exact Function.update_self ..
  have hlog : s'.log = (c, v) :: s.log := by subst hs'; rfl
  have husers : s'.users = Function.update s.users c (t :: s.users c) := by subst hs'; rfl
  refine h.step_local (t := t) hn (fun b => b = a) (fun b hb => hb ▸ hown) hpc (by subst hs'; rfl) (by subst hs'; rfl)
    (fun d => by rw [hcomb]) (fun d => by rw [hcomb]) (by subst hs'; rfl) (by subst hs'; rfl) (by subst hs'; rfl)
    (fun d _ => by rw [hcomb]) (fun x hx => hlog ▸ List.mem_cons_of_mem _ hx) (fun b hb => hmem b hb)
    (fun b _ d => by rw [hcomb]) (fun b hb d hd => ?_) (fun b hb d hd => ?_) (fun b hb d hd => ?_)
    (fun d b w hw => by rw [hp] at hw; cases hw) (fun d => by rw [hcomb]; exact h.nodup d) (fun d u => ?_)
    (fun d => by rw [hself]; exact nofun) (fun d hd w hw => ?_) (fun b hb d hd => ?_) ?_
  · rw [hb, hmemSelf] at hd
    cases hd
    exact ⟨hl, t, id, hid, hb ▸ hget⟩
  · rw [hcomb, hb] at hd
    exact absurd hd (hnot d)
  · rw [hb, hmemSelf] at hd
    cases hd
    exact .inr ⟨t, v, by rw [hself, hb]⟩
  · rw [husers]
    exact users_push h.users hp (by rw [hself]; rfl) hpc d u
  · rw [hlog]
    rw [hcomb] at hw
    exact List.mem_cons_of_mem _ (h.global d hd w hw)
  · rw [hcomb, hb] at hd
    exact absurd hd (hnot d)
  · rw [hself]
    simp only [PcOk]
    rw [hcomb, hlog, hmemSelf]
    refine ⟨hl, ⟨id, hid, ?_⟩, rfl, rfl, hnot c, List.mem_cons_self⟩
    subst hs'
    exact hget

theorem Inv.submit {id : Nat} {v : α} {raw : Nat → List α} (h : Inv cfg.elementPerBlock s) (hp : s.pc t = .idle)
    (hl : (s.combiners c).live = true) (hid : (s.combiners c).id = some id) :
    Inv cfg.elementPerBlock (submit cfg s t c id v raw) := by
  have hn := cfg.elementPerBlock_pos
  have h₁ : Inv cfg.elementPerBlock (s.findAgent cfg.elementPerBlock t id raw).1 := h.findAgent hn hp
  obtain ⟨hcomb, -, -, -, hpc, -⟩ := findAgent_frame cfg.elementPerBlock s t id raw
  have hget := (findAgent_spec cfg.elementPerBlock s t id raw).1
  unfold AgentGroup.submit
  generalize s.findAgent cfg.elementPerBlock t id raw = r at *
  rw [← hcomb] at hl hid
  rw [← hpc] at hp
  dsimp only
  split
  · rename_i hsome
    exact h₁.submitOld hn hp hl hid hget hsome
  · rename_i hnone
    exact h₁.submitNew hn hp hl hid hget (Option.not_isSome_iff_eq_none.1 hnone)

/-! ## Every run -/

theorem Pc.eq_idle {p : Pc α} (h : p.isIdle = true) : p = .idle := by
  cases p with
  | idle => rfl
  | _ => cases h

theorem inv_init (n : Nat) : Inv n (initState α) where
  kinds := nofun
  ids := nofun
  free := ⟨List.nodup_nil, nofun⟩
  live := nofun
  unused := fun _ _ => rfl
  blocks := nofun
  fresh := nofun
  combiner := nofun
  listed := nofun
  registered := nofun
  nodup := fun _ => List.nodup_nil
  users := fun _ _ => iff_of_false List.not_mem_nil nofun
  destroys := nofun
  global := nofun
  element := nofun
  pc := fun _ => trivial

theorem Inv.advance (h : Inv n s) (hn : 0 < n) (hs : advance s t = some s') : Inv n s' := by
  unfold AgentGroup.advance at hs
  cases hp : s.pc t with rw [hp] at hs
  | idle => cases hs
  | append c a v => cases hs; exact h.append hn hp
  | modify c a v => cases hs; exact h.modify hn hp
  | exit left =>
    cases left with
    | nil => cases hs; exact h.exitEnd hn hp
    | cons a left =>
      have := h.exitNext hn hp
      dsimp only at hs
      cases hc : (s.mem a).combiner with
      | some c =>
        rw [hc] at this hs
        cases hs
        exact this
      | none =>
        rw [hc] at this hs
        cases hs
        exact this
  | commit c a left =>
    obtain ⟨-, hs⟩ := Option.ite_none_right_eq_some.1 hs
    cases hs
    exact h.commit hn hp
  | destroyAgent c =>
    dsimp only at hs
    cases hid : (s.combiners c).id with
    | some id =>
      rw [hid] at hs
      cases hs
      exact h.destroyAgent hn hp hid
    | none =>
      rw [hid] at hs
      cases hs

theorem inv_step {l : Label α} (h : Inv cfg.elementPerBlock s) (hs : step cfg s l = some s') :
    Inv cfg.elementPerBlock s' := by
  have hn := cfg.elementPerBlock_pos
  cases l with
  | construct t =>
    simp only [step, Option.ite_none_right_eq_some, Option.some.injEq] at hs
    obtain ⟨-, rfl⟩ := hs
    exact h.construct hn
  | destroy t c =>
    simp only [step, Option.ite_none_right_eq_some, Option.some.injEq, Bool.and_eq_true, List.isEmpty_iff] at hs
    obtain ⟨⟨⟨hidle, hl⟩, husers⟩, rfl⟩ := hs
    exact h.clearAllAgents hn (Pc.eq_idle hidle) hl husers
  | submit t c v raw =>
    simp only [step, Option.ite_none_right_eq_some, Option.map_eq_some_iff, Bool.and_eq_true] at hs
    obtain ⟨⟨hidle, hl⟩, id, hid, rfl⟩ := hs
    exact h.submit (Pc.eq_idle hidle) hl hid
  | exit t =>
    simp only [step, Option.ite_none_right_eq_some, Option.some.injEq] at hs
    obtain ⟨hidle, rfl⟩ := hs
    exact h.exitStart hn (Pc.eq_idle hidle)
  | go t => exact h.advance hn hs

theorem Reachable.inv (h : (system cfg).Reachable s) : Inv cfg.elementPerBlock s :=
  h.invariant (I := Inv cfg.elementPerBlock) (fun s h0 => by cases h0; exact inv_init _)
    (fun _ _ _ hi _ hs => inv_step hi hs)

/-! ## What a table keeps -/

/-- The block of an id, once it is there, is where `get_or_create_tls_agent` goes too. -/
theorem getOrCreateTlsAgent_of_get {fresh : BlockPtr} {id : Nat} {tbl : Table} (h : getTlsAgent n tbl id = some a) :
    (getOrCreateTlsAgent n tbl fresh id).1 = a ∧ (getOrCreateTlsAgent n tbl fresh id).2.2 = false := by
  obtain ⟨hb, ho⟩ := getTlsAgent_eq_some.1 h
  obtain ⟨hcell, hnew, -⟩ := getOrCreateTlsAgent_spec n tbl fresh id
  rw [hb] at hcell hnew
  exact ⟨by rw [hcell, ho]; rfl, hnew⟩

theorem findAgent_keeps {id i : Nat} {raw : Nat → List α} (h : getTlsAgent n (s.tls u) i = some a) :
    getTlsAgent n ((s.findAgent n t id raw).1.tls u) i = some a := by
  obtain ⟨-, hsame | ⟨hnone, hblock, -⟩⟩ := findAgent_spec n s t id raw
  · rw [hsame]; exact h
  · obtain ⟨hb, ho⟩ := getTlsAgent_eq_some.1 h
    refine getTlsAgent_eq_some.2 ⟨?_, ho⟩
    rw [hblock, if_neg]
    · exact hb
    · rintro ⟨rfl, hi⟩
      rw [hi, hnone] at hb
      cases hb

/-- A section of a call leaves the tables alone, but for the last one of an exit. -/
theorem advance_tls (h : advance s t = some s') :
    s'.tls = s.tls ∨ s.pc t = .exit [] ∧ ∀ u, u ≠ t → s'.tls u = s.tls u := by
  unfold AgentGroup.advance at h
  cases hp : s.pc t with rw [hp] at h
  | idle => cases h
  | append c a v => cases h; exact .inl rfl
  | modify c a v => cases h; exact .inl rfl
  | exit left =>
    cases left with
    | nil => cases h; exact .inr ⟨rfl, fun u hu => Function.update_of_ne hu ..⟩
    | cons a left =>
      dsimp only at h
      cases hc : (s.mem a).combiner <;> rw [hc] at h <;> cases h <;> exact .inl rfl
  | commit c a left =>
    obtain ⟨-, h⟩ := Option.ite_none_right_eq_some.1 h
    cases h
    exact .inl rfl
  | destroyAgent c =>
    dsimp only at h
    cases hid : (s.combiners c).id <;> rw [hid] at h <;> cases h
    exact .inl rfl

/-- **The address of a cell never changes** while its thread runs. -/
theorem step_keeps {l : Label α} {i : Nat} (hs : step cfg s l = some s')
    (h : getTlsAgent n (s.tls u) i = some a) (hn : n = cfg.elementPerBlock) :
    getTlsAgent n (s'.tls u) i = some a ∨ l = .go u ∧ s.pc u = .exit [] := by
  cases l with
  | construct t =>
    simp only [step, Option.ite_none_right_eq_some, Option.some.injEq] at hs
    obtain ⟨-, rfl⟩ := hs
    left
    show getTlsAgent n (s.createNewAgent.1.tls u) i = some a
    unfold State.createNewAgent
    split <;> exact h
  | destroy t c =>
    simp only [step, Option.ite_none_right_eq_some, Option.some.injEq] at hs
    obtain ⟨-, rfl⟩ := hs
    exact .inl h
  | submit t c v raw =>
    simp only [step, Option.ite_none_right_eq_some, Option.map_eq_some_iff] at hs
    obtain ⟨-, id, -, rfl⟩ := hs
    left
    have hkeep : getTlsAgent n ((s.findAgent n t id raw).1.tls u) i = some a := findAgent_keeps h
    rw [hn] at hkeep ⊢
    unfold AgentGroup.submit
    dsimp only
    split <;> exact hkeep
  | exit t =>
    simp only [step, Option.ite_none_right_eq_some, Option.some.injEq] at hs
    obtain ⟨-, rfl⟩ := hs
    exact .inl h
  | go t =>
    rcases advance_tls hs with htls | ⟨hp, htls⟩
    · left
      rw [htls]
      exact h
    · by_cases hut : u = t
      · rw [hut]
        exact .inr ⟨rfl, hp⟩
      · left
        rw [htls u hut]
        exact h

/-! ## The main result -/

/-- What a user of combiners may rely on, in one state. -/
structure Isolated (cfg : Config α) (s : State α) : Prop where
  ids : ∀ c, (s.combiners c).live = true → ∃ id, (s.combiners c).id = some id ∧ id < s.agentKinds ∧
    ∀ d, (s.combiners d).live = true → (s.combiners d).id = some id → d = c
  /-- Two places of the tables are two cells, whatever the threads. -/
  cells : ∀ t u i j a, getTlsAgent cfg.elementPerBlock (s.tls t) i = some a →
    getTlsAgent cfg.elementPerBlock (s.tls u) j = some a → t = u ∧ i = j
  kept : ∀ l s', step cfg s l = some s' → ∀ t i a, getTlsAgent cfg.elementPerBlock (s.tls t) i = some a →
    getTlsAgent cfg.elementPerBlock (s'.tls t) i = some a ∨ l = .go t ∧ s.pc t = .exit []
  agree : ∀ t i a, getTlsAgent cfg.elementPerBlock (s.tls t) i = some a →
    (getOrCreateTlsAgent cfg.elementPerBlock (s.tls t) s.nblocks i).1 = a ∧
    (getOrCreateTlsAgent cfg.elementPerBlock (s.tls t) s.nblocks i).2.2 = false
  /-- The one place between the two assignments is `append`. -/
  listed : ∀ a, (∀ t c v, s.pc t ≠ .append c a v) → ∀ c, (s.mem a).combiner = some c ↔ a ∈ (s.combiners c).agents
  /-- A thread that has exited has no table. -/
  running : ∀ c, ∀ a ∈ (s.combiners c).agents, ∃ t i, getTlsAgent cfg.elementPerBlock (s.tls t) i = some a
  pointer : ∀ a c, (s.mem a).combiner = some c → (s.combiners c).live = true
  observed : ∀ c, (s.combiners c).live = true → ∀ v ∈ s.combineAgents c, (c, v) ∈ s.log

/-- **Combiners that share ids share no values**: in every state reached, live combiners have ids of their own, each id
has one cell in each thread that stays where it is, a cell and its combiner name each other, and a combiner combines
what was submitted to it alone, whoever had its id before. -/
theorem cells_isolated (h : (system cfg).Reachable s) : Isolated cfg s := by
  have hi := Reachable.inv h
  constructor
  case ids =>
    intro c hc
    obtain ⟨id, hid⟩ := Option.ne_none_iff_exists'.1 (hi.live c hc)
    exact ⟨id, hid, (hi.kinds c id hid).1, fun d _ hd => hi.ids d c id hd hid⟩
  case cells =>
    intro t u i j a hti huj
    have htu := hi.owner_unique (Owned.of_get cfg.elementPerBlock_pos hti) (Owned.of_get cfg.elementPerBlock_pos huj)
    subst htu
    exact ⟨rfl, hi.get_inj hti huj⟩
  case kept => intro l s' hs t i a ha; exact step_keeps hs ha rfl
  case agree => intro t i a ha; exact getOrCreateTlsAgent_of_get ha
  case listed =>
    intro a hnot c
    refine ⟨fun hc => (hi.registered a c hc).resolve_right ?_, hi.listed a c⟩
    rintro ⟨t, v, hp⟩
    exact hnot t c v hp
  case running =>
    intro c a ha
    obtain ⟨-, t, i, -, hget⟩ := hi.combiner a c (hi.listed a c ha)
    exact ⟨t, i, hget⟩
  case pointer => intro a c hc; exact (hi.combiner a c hc).1
  case observed =>
    intro c hc v hv
    rcases List.mem_append.1 hv with hv | hv
    · exact hi.global c hc v hv
    · obtain ⟨a, ha, hv⟩ := List.mem_flatMap.1 hv
      exact hi.element a c ha v hv

end AgentGroup
end ContentionProf
