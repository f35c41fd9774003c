import ContentionProf.SamplerThreads
/-!
# SamplerRounds — the rounds of the sampling thread (`common/sampler.cpp`, `SamplerCollector::run`)

A round takes the lists of the agents, puts them behind its own list and goes through that.  Each step of it keeps
`Inv`, so every reachable state has it, and at the end of a pass it says what the round did.
-/
namespace ContentionProf
namespace SamplerCollector

open Links (HeadList RootList SelfLinked Same)

variable {s s' : State} {m m' : Place → List Nat} {t : Thread} {r : Var} {x node : Nat} {tmp prev : Option Nat}
  {p : Node}

theorem Owned.collect {q : RunPc} (h : Owned s) (hs : SameOwners s s') (hpc : s'.pc = s.pc) (hbusy : s'.busy = s.busy)
    (hmtx : s'.mtx = s.mtx) (hrun : s'.run = q) (hq : q.current = none) : Owned s' := by
  refine h.goRun hs hpc hbusy hmtx hrun (fun hl => ?_) (fun he => ?_) (fun hg => ?_) (fun hc => ?_)
  · rw [RunPc.current_of_locked hl] at hq
    cases hq
  · rw [he] at hq
    cases hq
  · cases q with
    | unlock | remove | delete => cases hq
    | _ => cases hg
  · rw [hc] at hq
    cases hq

theorem Placement.nil_of_none (h : Placement s m) {k : Place} (hk : holder s k = .head none) : m k = [] := by
  have hl := h.holds k
  rwa [hk] at hl

theorem Placement.agent_mem (h : Placement s m) (hx : x ∈ m (.agent t)) : t ∈ s.agents := by
  by_contra ht
  have hnil : m (.agent t) = [] := h.nil_of_none (by rw [holder, if_neg ht])
  rw [hnil] at hx
  cases hx

/-! ## The lists are taken -/

theorem not_hasMtx_of_free (h : Combined s) (hfree : s.combinerMtx = none) (hm : (s.pc t).hasMtx = true) : False := by
  have := h.mtx hm
  rw [hfree] at this
  cases this

/-- `reset_all_agents`, the lock: what is due is in one of the lists that the round takes. -/
theorem Inv.runReset (h : Inv s m) (hr : s.run = .reset) (hfree : s.combinerMtx = none) :
    ∃ m', Inv { s with
      combinerMtx := some .sampling
      globalResult := none
      run := .exchange 0 s.globalResult
      due := s.scheduled.filter (fun x => x ∈ s.destroyed) } m' := by
  have htmp : m .tmp = [] := h.placement.nil_of_none (by rw [holder, hr]; rfl)
  have hplace : Placement { s with
      combinerMtx := some .sampling
      globalResult := none
      run := .exchange 0 s.globalResult
      due := s.scheduled.filter (fun x => x ∈ s.destroyed) }
      (Function.update (Function.update m .globalResult []) .tmp (m .globalResult)) := by
    refine h.placement.move₂ .globalResult .tmp [] (m .globalResult)
      ⟨rfl, rfl, rfl, by rw [hr]; rfl, fun hu => hu⟩ (by simp) (by rw [htmp, List.append_nil, List.nil_append])
      (fun k hk hk' => ?_) (fun _ _ _ _ => ⟨rfl, rfl⟩) rfl (h.placement.holds .globalResult)
    cases k with
    | globalResult => exact absurd rfl hk
    | tmp => exact absurd rfl hk'
    | prev =>
      show Holder.head none = Holder.head s.run.prev
      rw [hr]
      rfl
    | _ => rfl
  refine ⟨_, h.owned.collect ⟨rfl, rfl, rfl, rfl, rfl, rfl⟩ rfl rfl rfl rfl rfl, ?_, hplace, ?_⟩
  · exact ⟨h.combined.nodup, fun u => (h.combined.pc u).of_eq Iff.rfl rfl rfl, h.combined.combiner, h.combined.agents,
      fun hm => (not_hasMtx_of_free h.combined hfree hm).elim, fun _ => rfl⟩
  · refine ⟨fun x hx => by simpa using (List.mem_filter.1 hx).2, fun {l} hl x hx => ?_, fun hp => (by cases hp),
      h.rounds.gone, h.rounds.deleted⟩
    cases hl
    by_cases hd : x ∈ s.deleted
    · exact .inl hd
    obtain ⟨k, hk⟩ := (hplace.live x).2 ⟨(List.mem_filter.1 hx).1, hd, fun he => by cases he⟩
    cases k with
    | agent u => exact .inr (.inr (.inr (.inr ⟨u, hplace.agent_mem hk, hk⟩)))
    | globalResult =>
      rw [hplace.nil_of_none (k := .globalResult) rfl] at hk
      cases hk
    | tmp => exact .inr (.inl hk)
    | prev => exact .inr (.inr (.inl hk))
    | list => exact .inr (.inr (.inr (.inl hk)))

/-- `element.exchange`. -/
theorem Inv.runExchange {u : Thread} (h : Inv s m) (hr : s.run = .exchange node tmp) (hu : s.agents[node]? = some u) :
    ∃ m', Inv { s.setElement u none with run := .combine node tmp (s.element u) } m' := by
  have hprev : m .prev = [] := h.placement.nil_of_none (by rw [holder, hr]; rfl)
  have hmem : u ∈ s.agents := List.mem_of_getElem? hu
  have hmtx : s.run.hasMtx = true := by rw [hr]; rfl
  have hagent : Holds s.links (.head (s.element u)) (m (.agent u)) := by
    have hl := h.placement.holds (.agent u)
    rwa [holder_agent_element hmem] at hl
  have hplace : Placement { s.setElement u none with run := .combine node tmp (s.element u) }
      (Function.update (Function.update m (.agent u) []) .prev (m (.agent u))) := by
    refine h.placement.move₂ (.agent u) .prev [] (m (.agent u)) ⟨rfl, rfl, rfl, by rw [hr]; rfl, fun hu => hu⟩ (by simp)
      (by rw [hprev, List.append_nil, List.nil_append]) (fun k hk hk' => ?_) (fun _ _ _ _ => ⟨rfl, rfl⟩) ?_ hagent
    · cases k with
      | agent v =>
        have hv : v ≠ u := fun hv => hk (by rw [hv])
        show Holder.head (if v ∈ s.agents then Function.update s.element u none v else none) = _
        rw [Function.update_of_ne hv]
        rfl
      | tmp =>
        show Holder.head tmp = Holder.head s.run.tmp
        rw [hr]
        rfl
      | prev => exact absurd rfl hk'
      | _ => rfl
    · show Holds s.links (Holder.head (if u ∈ s.agents then Function.update s.element u none u else none)) []
      rw [if_pos hmem, Function.update_self]
      rfl
  refine ⟨_, h.owned.collect ⟨rfl, rfl, rfl, rfl, rfl, rfl⟩ rfl rfl rfl rfl rfl, ?_, hplace, ?_⟩
  · refine ⟨h.combined.nodup, fun v => ?_, h.combined.combiner, h.combined.agents, h.combined.mtx,
      fun _ => h.combined.run hmtx⟩
    have hok := h.combined.pc v
    show PcOk _ v (s.pc v)
    cases hpc : s.pc v with
    | append r x =>
      rw [hpc] at hok
      have hv : v ≠ u := by
        rintro rfl
        exact hok.1 hmem
      exact ⟨hok.1, (Function.update_of_ne hv ..).trans hok.2.1, hok.2.2⟩
    | erase val =>
      -- it would have the mutex
      have hno := h.combined.not_hasMtx hmtx v
      rw [hpc] at hno
      cases hno
    | _ =>
      rw [hpc] at hok
      exact hok
  · refine ⟨h.rounds.due, fun {l} hl x hx => ?_, fun hp => (by cases hp), h.rounds.gone, h.rounds.deleted⟩
    cases hl
    have hdrop : s.agents.drop node = u :: s.agents.drop (node + 1) := by
      obtain ⟨hlt, he⟩ := List.getElem?_eq_some_iff.1 hu
      rw [List.drop_eq_getElem_cons hlt, he]
    have hold := h.rounds.rest (l := s.agents.drop node) (by rw [hr]; rfl) x hx
    rw [hdrop, hprev] at hold
    rcases hold with hd | ht | hp | hl | ⟨v, hv, hxv⟩
    · exact .inl hd
    · exact .inr (.inl ht)
    · cases hp
    · exact .inr (.inr (.inr (.inl hl)))
    · by_cases hvu : v = u
      · subst hvu
        exact .inr (.inr (.inl hxv))
      · refine .inr (.inr (.inr (.inr ⟨v, (List.mem_cons.1 hv).resolve_left hvu, ?_⟩)))
        rw [Function.update_of_ne (by simp), Function.update_of_ne (fun he => hvu (by cases he; rfl))]
        exact hxv

/-- The last agent is behind: `reset_all_agents` returns. -/
theorem Inv.runReturn (h : Inv s m) (hr : s.run = .exchange node tmp) (hnone : s.agents[node]? = none) :
    Inv { s with combinerMtx := none, run := .splice tmp } m := by
  have hmtx : s.run.hasMtx = true := by rw [hr]; rfl
  refine ⟨h.owned.collect ⟨rfl, rfl, rfl, rfl, rfl, rfl⟩ rfl rfl rfl rfl rfl, ?_, ?_, ?_⟩
  · refine ⟨h.combined.nodup, fun u => (h.combined.pc u).of_eq Iff.rfl rfl rfl, h.combined.combiner, h.combined.agents,
      fun {u} hm => ?_, fun hm => by cases hm⟩
    have hno := h.combined.not_hasMtx hmtx u
    rw [hm] at hno
    cases hno
  · refine h.placement.of_eq ⟨rfl, rfl, rfl, by rw [hr]; rfl, fun hu => hu⟩ rfl (fun k => ?_)
    cases k with
    | tmp | prev => simp [holder, hr, RunPc.tmp, RunPc.prev]
    | _ => rfl
  · refine ⟨h.rounds.due, fun {l} hl x hx => ?_, fun hp => (by cases hp), h.rounds.gone, h.rounds.deleted⟩
    cases hl
    have hold := h.rounds.rest (l := s.agents.drop node) (by rw [hr]; rfl) x hx
    rwa [List.drop_eq_nil_of_le (List.getElem?_eq_none_iff.1 hnone)] at hold

/-- `op_(tmp, prev)`. -/
theorem Inv.runCombine (h : Inv s m) (hr : s.run = .combine node tmp prev) :
    ∃ m', Inv { s with links := (combine s.links tmp prev).1, run := .exchange (node + 1) (combine s.links tmp prev).2 }
      m' := by
  have hmtx : s.run.hasMtx = true := by rw [hr]; rfl
  have htmp : s.links.HeadList .sampler tmp (m .tmp) := by
    have hl := h.placement.holds .tmp
    rwa [show holder s .tmp = .head tmp by rw [holder, hr]; rfl] at hl
  have hprev : s.links.HeadList .sampler prev (m .prev) := by
    have hl := h.placement.holds .prev
    rwa [show holder s .prev = .head prev by rw [holder, hr]; rfl] at hl
  obtain ⟨hl, hsame⟩ := htmp.combine sampler_injective hprev (h.placement.disjoint (by simp))
  have hplace : Placement { s with
      links := (combine s.links tmp prev).1, run := .exchange (node + 1) (combine s.links tmp prev).2 }
      (Function.update (Function.update m .tmp (m .tmp ++ m .prev)) .prev []) := by
    refine h.placement.move₂ .tmp .prev (m .tmp ++ m .prev) [] ⟨rfl, rfl, rfl, by rw [hr]; rfl, fun hu => hu⟩ (by simp)
      (by rw [List.append_nil]) (fun k hk hk' => ?_)
      (fun n _ h₁ h₂ => hsame n (fun y hy => (List.mem_append.1 hy).elim (h₁ y) (h₂ y))) hl rfl
    cases k with
    | tmp => exact absurd rfl hk
    | prev => exact absurd rfl hk'
    | _ => rfl
  refine ⟨_, h.owned.collect ⟨rfl, rfl, rfl, rfl, rfl, rfl⟩ rfl rfl rfl rfl rfl,
    h.combined.goRun rfl rfl rfl rfl rfl rfl (fun _ => hmtx), hplace, ?_⟩
  refine ⟨h.rounds.due, fun {l} hl x hx => ?_, fun hp => (by cases hp), h.rounds.gone, h.rounds.deleted⟩
  cases hl
  have hin : ∀ {y}, y ∈ m .tmp ++ m .prev →
      y ∈ Function.update (Function.update m .tmp (m .tmp ++ m .prev)) .prev [] .tmp := by
    intro y hy
    rwa [Function.update_of_ne (by simp), Function.update_self]
  rcases h.rounds.rest (l := s.agents.drop (node + 1)) (by rw [hr]; rfl) x hx with hd | ht | hp | hl | ⟨v, hv, hxv⟩
  · exact .inl hd
  · exact .inr (.inl (hin (List.mem_append_left _ ht)))
  · exact .inr (.inl (hin (List.mem_append_right _ hp)))
  · exact .inr (.inr (.inr (.inl hl)))
  · exact .inr (.inr (.inr (.inr ⟨v, hv, hxv⟩)))

/-! ## The pass -/

/-- **A pass begins**: everything in the list is to be visited. -/
theorem AtWork.begin {l : List Nat} (hlist : s.links.RootList .sampler .root l) (hbegun : s.begun = s.links)
    (hvisited : s.visited = []) (hdue : ∀ x ∈ s.due, x ∈ s.deleted ∨ x ∈ l) :
    AtWork s l [] [] (s.links.next .root) := by
  unfold AtWork State.kept
  rw [hvisited, hbegun]
  exact ⟨⟨l, rfl, hlist, hlist.next_root, hdue⟩, fun x hx => absurd hx List.not_mem_nil⟩

/-- `if (s)`, which is null. -/
theorem Inv.runNull (h : Inv s m) (hr : s.run = .splice none) :
    Inv { s with begun := s.links, visited := [], run := .loop (s.links.next .root) } m := by
  refine ⟨h.owned.collect ⟨rfl, rfl, rfl, rfl, rfl, rfl⟩ rfl rfl rfl rfl rfl,
    h.combined.goRun rfl rfl rfl rfl rfl rfl (fun hm => by cases hm), ?_, ?_⟩
  · refine h.placement.of_eq ⟨rfl, rfl, rfl, by rw [hr]; rfl, fun hu => hu⟩ rfl (fun k => ?_)
    cases k with
    | tmp | prev => simp [holder, hr, RunPc.tmp, RunPc.prev]
    | _ => rfl
  · refine ⟨h.rounds.due, fun hl => (by cases hl), fun {cur linked p} hp => ?_, fun x hx => (by cases hx),
      h.rounds.deleted⟩
    cases hp
    refine AtWork.begin (h.placement.holds .list) rfl rfl (fun x hx => ?_)
    have htmp : m .tmp = [] := h.placement.nil_of_none (by rw [holder, hr]; rfl)
    have hprev : m .prev = [] := h.placement.nil_of_none (by rw [holder, hr]; rfl)
    have hold := h.rounds.rest (l := []) (by rw [hr]; rfl) x hx
    rw [htmp, hprev] at hold
    rcases hold with hd | ht | hp | hl | ⟨v, hv, -⟩
    · exact .inl hd
    · cases ht
    · cases hp
    · exact .inr hl
    · cases hv

/-- `s->insert_before_as_list(&root)`. -/
theorem Inv.runSplice {a : Nat} (h : Inv s m) (hr : s.run = .splice (some a)) :
    ∃ m', Inv { s with
      links := s.links.insertBeforeAsList (.sampler a) .root
      begun := s.links.insertBeforeAsList (.sampler a) .root
      visited := []
      run := .loop ((s.links.insertBeforeAsList (.sampler a) .root).next .root) } m' := by
  have htmp : s.links.HeadList .sampler (some a) (m .tmp) := by
    have hl := h.placement.holds .tmp
    rwa [show holder s .tmp = .head (some a) by rw [holder, hr]; rfl] at hl
  have hprev : m .prev = [] := h.placement.nil_of_none (by rw [holder, hr]; rfl)
  obtain ⟨hl, hsame⟩ := RootList.insertList sampler_injective root_ne_sampler (h.placement.holds .list) htmp
    (h.placement.disjoint (by simp))
  have hplace : Placement { s with
      links := s.links.insertBeforeAsList (.sampler a) .root
      begun := s.links.insertBeforeAsList (.sampler a) .root
      visited := []
      run := .loop ((s.links.insertBeforeAsList (.sampler a) .root).next .root) }
      (Function.update (Function.update m .tmp []) .list (m .list ++ m .tmp)) := by
    refine h.placement.move₂ .tmp .list [] (m .list ++ m .tmp) ⟨rfl, rfl, rfl, by rw [hr]; rfl, fun hu => hu⟩ (by simp)
      (by rw [List.nil_append]; exact List.perm_append_comm) (fun k hk hk' => ?_)
      (fun n hn h₁ h₂ => hsame n (hn (.inr rfl)) (fun y hy => (List.mem_append.1 hy).elim (h₂ y) (h₁ y))) rfl hl
    cases k with
    | tmp => exact absurd rfl hk
    | list => exact absurd rfl hk'
    | prev =>
      show Holder.head none = Holder.head s.run.prev
      rw [hr]
      rfl
    | _ => rfl
  refine ⟨_, h.owned.collect ⟨rfl, rfl, rfl, rfl, rfl, rfl⟩ rfl rfl rfl rfl rfl,
    h.combined.goRun rfl rfl rfl rfl rfl rfl (fun hm => by cases hm), hplace, ?_⟩
  refine ⟨h.rounds.due, fun hl => (by cases hl), fun {cur linked p} hp => ?_, fun x hx => (by cases hx),
    h.rounds.deleted⟩
  cases hp
  rw [Function.update_self]
  refine AtWork.begin hl rfl rfl (fun x hx => ?_)
  have hold := h.rounds.rest (l := []) (by rw [hr]; rfl) x hx
  rw [hprev] at hold
  rcases hold with hd | ht | hp | hl | ⟨v, hv, -⟩
  · exact .inl hd
  · exact .inr (List.mem_append_right _ ht)
  · cases hp
  · exact .inr (List.mem_append_left _ hl)
  · cases hv

/-- A step of the pass that moves no sampler, and is at the same one after it. -/
theorem Rounds.pace {q : RunPc} (h : Rounds s m) (hdue : s'.due = s.due) (hdestroyed : s'.destroyed = s.destroyed)
    (hdeleted : s'.deleted = s.deleted) (hbegun : s'.begun = s.begun) (hvisited : s'.visited = s.visited)
    (hrun : s'.run = q) (hrest : q.rest s'.agents = none)
    (hpass : ∀ {cur linked p}, q.pass = some (cur, linked, p) → AtWork s (m .list) cur linked p) : Rounds s' m where
  due := by rw [hdue, hdestroyed]; exact h.due
  rest {l} hl := by
    rw [hrun, hrest] at hl
    cases hl
  pass {cur linked p} hp := by
    rw [hrun] at hp
    have hw := hpass hp
    unfold AtWork State.kept at hw ⊢
    rw [hbegun, hvisited, hdue, hdeleted]
    exact hw
  gone := by rw [hvisited, hdeleted]; exact h.gone
  deleted := by rw [hdeleted, hdestroyed]; exact h.deleted

/-- In the pass the sampling thread has no list but its own. -/
theorem Placement.pace {q : RunPc} (h : Placement s m) (hlinks : s'.links = s.links) (hagents : s'.agents = s.agents)
    (helement : s'.element = s.element) (hglobal : s'.globalResult = s.globalResult)
    (hscheduled : s'.scheduled = s.scheduled) (hdeleted : s'.deleted = s.deleted) (hcreated : s'.created = s.created)
    (hpc : s'.pc = s.pc) (hrun : s'.run = q) (htmp : q.tmp = s.run.tmp) (hprev : q.prev = s.run.prev)
    (hhand : q.hand = s.run.hand) : Placement s' m := by
  refine h.of_eq ⟨hscheduled, hdeleted, hcreated, by rw [hrun, hhand], fun {t x} hu => by rwa [hpc] at hu⟩ hlinks
    (fun k => ?_)
  unfold holder
  rw [hagents, helement, hglobal, hrun, htmp, hprev]

/-- `p != &root`, and `saved_next` is what comes behind. -/
theorem Inv.runNext (h : Inv s m) (hr : s.run = .loop (.sampler x)) :
    Inv { s with run := .lock x (s.links.next (.sampler x)) } m := by
  obtain ⟨⟨todo, hlist, hbegun, hp, hdue⟩, hkept⟩ := h.rounds.pass (p := .sampler x) (by rw [hr]; rfl)
  rw [List.append_nil] at hlist hbegun hdue
  obtain ⟨todo, rfl⟩ : ∃ todo', todo = x :: todo' := by
    cases todo with
    | nil => cases hp
    | cons y todo =>
      cases hp
      exact ⟨todo, rfl⟩
  have hroot : s.links.RootList .sampler .root (s.kept ++ x :: todo) := hlist ▸ h.placement.holds .list
  have hx : x ∈ m .list := by
    rw [hlist]
    simp
  have hsplit : ∀ l : List Nat, l ++ [x] ++ todo = l ++ x :: todo := fun l => by simp
  refine ⟨h.owned.goRun ⟨rfl, rfl, rfl, rfl, rfl, rfl⟩ rfl rfl rfl rfl (fun hl => ?_) (fun he => ?_) (fun hg => ?_)
      (fun {y} hc => ?_), h.combined.goRun rfl rfl rfl rfl rfl rfl (fun hm => by cases hm),
    h.placement.pace rfl rfl rfl rfl rfl rfl rfl rfl rfl (by rw [hr]; rfl) (by rw [hr]; rfl) (by rw [hr]; rfl),
    h.rounds.pace rfl rfl rfl rfl rfl rfl rfl (fun {cur linked p} hp => ?_)⟩
  · cases hl
  · cases he
  · cases hg
  · cases hc
    exact h.placement.lt_created hx
  · cases hp
    refine ⟨⟨todo, ?_, ?_, hroot.next, ?_⟩, hkept⟩
    · rw [hsplit]
      exact hlist
    · rw [hsplit]
      exact hbegun
    · rw [hsplit]
      exact hdue

/-- The sampling thread goes on with the sampler it is at, or between two. -/
theorem Inv.pace {q : RunPc} {f : Nat → Option Party} (h : Inv s m) (howned : Owned { s with mtx := f, run := q })
    (hmtx : q.hasMtx = false) (hrest : q.rest s.agents = none) (htmp : q.tmp = s.run.tmp) (hprev : q.prev = s.run.prev)
    (hhand : q.hand = s.run.hand) (hpass : ∀ c, q.pass = some c → s.run.pass = some c) :
    Inv { s with mtx := f, run := q } m := by
  refine ⟨howned, h.combined.goRun rfl rfl rfl rfl rfl rfl (fun hm => ?_),
    h.placement.pace rfl rfl rfl rfl rfl rfl rfl rfl rfl htmp hprev hhand,
    h.rounds.pace rfl rfl rfl rfl rfl rfl hrest (fun hp => h.rounds.pass (hpass _ hp))⟩
  rw [hmtx] at hm
  cases hm

/-- `take_sample`. -/
theorem Inv.runSample (h : Inv s m) (hr : s.run = .sample x p) :
    Inv { s with visited := s.visited ++ [(x, true)], run := .sampled x p } m := by
  obtain ⟨⟨todo, hlist, hbegun, hp, hdue⟩, hkept⟩ := h.rounds.pass (p := p) (by rw [hr]; rfl)
  have hx : x ∉ s.due := fun hx => (h.owned.sample hr).1 (h.rounds.due x hx)
  refine ⟨h.owned.goRun ⟨rfl, rfl, rfl, rfl, rfl, rfl⟩ rfl rfl rfl rfl (fun {y} hl => ?_) (fun he => ?_) (fun hg => ?_)
      (fun {y} hc => ?_), h.combined.goRun rfl rfl rfl rfl rfl rfl (fun hm => by cases hm),
    h.placement.pace rfl rfl rfl rfl rfl rfl rfl rfl rfl (by rw [hr]; rfl) (by rw [hr]; rfl) (by rw [hr]; rfl),
    h.rounds.due, fun hl => (by cases hl), fun {cur linked p'} hp' => ?_, fun y hy => ?_, h.rounds.deleted⟩
  · rw [hr]
    exact hl
  · cases he
  · cases hg
  · refine h.owned.current (x := y) ?_
    rw [hr]
    exact hc
  · cases hp'
    have hvisited : (s.visited ++ [(x, true)]).map Prod.fst = s.visited.map Prod.fst ++ [x] := by simp
    have hused : ((s.visited ++ [(x, true)]).filter Prod.snd).map Prod.fst = s.kept ++ [x] := by simp [State.kept]
    refine ⟨⟨todo, ?_, ?_, hp, ?_⟩, fun y hy => ?_⟩
    · show m .list = ((s.visited ++ [(x, true)]).filter Prod.snd).map Prod.fst ++ [] ++ todo
      rw [hused, List.append_nil]
      exact hlist
    · show s.begun.RootList .sampler .root ((s.visited ++ [(x, true)]).map Prod.fst ++ [] ++ todo)
      rw [hvisited, List.append_nil]
      exact hbegun
    · show ∀ y ∈ s.due, y ∈ s.deleted ∨ y ∈ (s.visited ++ [(x, true)]).map Prod.fst ++ [] ++ todo
      rw [hvisited, List.append_nil]
      exact hdue
    · rcases List.mem_append.1 hy with hy | hy
      · exact hkept y hy
      · cases List.mem_singleton.1 hy
        exact hx
  · rcases List.mem_append.1 hy with hy | hy
    · exact h.rounds.gone y hy
    · cases List.mem_singleton.1 hy

/-- **A sampler leaves the list**, wherever it stands. -/
theorem Placement.remove {l l' : List Nat} (h : Placement s m) (hr : s.run = .remove x p)
    (hlist : m .list = l ++ x :: l') :
    Placement { s with links := s.links.removeFromList (.sampler x), run := .delete x p }
      (Function.update m .list (l ++ l')) := by
  have hroot : s.links.RootList .sampler .root (l ++ x :: l') := hlist ▸ h.holds .list
  obtain ⟨hring, hself, hsame⟩ := hroot.remove
  have hout : ∀ k, k ≠ .list → m k = Function.update m .list (l ++ l') k :=
    fun k hk => (Function.update_of_ne hk ..).symm
  have hperm : (m .list).Perm (x :: Function.update m .list (l ++ l') .list) := by
    rw [Function.update_self, hlist]
    exact List.perm_middle
  have hmem : ∀ {y}, y ∈ l ++ x :: l' → y ∈ m .list := fun hy => hlist ▸ hy
  have hsub : ∀ k, (Function.update m .list (l ++ l') k).Sublist (m k) := by
    intro k
    by_cases hk : k = .list
    · subst hk
      rw [Function.update_self, hlist]
      exact List.Sublist.append (.refl l) (List.sublist_cons_self x l')
    · rw [hout k hk]
  have hplaced : ∀ y, Placed (Function.update m .list (l ++ l')) y ↔ Placed m y ∧ y ≠ x := by
    intro y
    rw [placed_insert hperm hout]
    have hnot : ¬ Placed (Function.update m .list (l ++ l')) x := by
      rintro ⟨k, hk⟩
      have hxm : x ∈ m .list := hmem (by simp)
      have hkl : k = .list := h.places.unique k .list x ((hsub k).subset hk) hxm
      subst hkl
      rw [Function.update_self] at hk
      exact (List.nodup_middle.1 (hlist ▸ h.places.nodup .list)).notMem hk
    constructor
    · intro hp
      refine ⟨.inr hp, ?_⟩
      rintro rfl
      exact hnot hp
    · rintro ⟨rfl | hp, hne⟩
      · exact absurd rfl hne
      · exact hp
  have hx := (h.live x).1 ⟨.list, hmem (by simp)⟩
  constructor
  · intro k
    by_cases hk : k = .list
    · subst hk
      rw [Function.update_self]
      exact hring
    · have hholder : holder { s with links := s.links.removeFromList (.sampler x), run := .delete x p } k =
        holder s k := by
        cases k with
        | tmp | prev => simp [holder, hr, RunPc.tmp, RunPc.prev]
        | _ => rfl
      rw [← hout k hk, hholder]
      refine (h.holds k).congr (fun he => absurd (holder_eq_root he) hk) (fun y hy => hsame _ (fun he => by cases he)
        (fun z hz he => ?_))
      cases he
      exact h.disjoint hk y hy (hmem hz)
  · exact h.places.sublist hsub
  · intro y
    rw [hplaced, h.live, hr]
    constructor
    · rintro ⟨⟨hs, hd, -⟩, hne⟩
      exact ⟨hs, hd, fun he => hne (Option.some.inj he).symm⟩
    · rintro ⟨hs, hd, hh⟩
      exact ⟨⟨hs, hd, fun he => (by cases he)⟩, fun he => hh (by rw [he]; rfl)⟩
  · intro y hy hp
    rw [hplaced] at hp
    by_cases hyx : y = x
    · rw [hyx]
      exact hself
    · refine (h.free y hy (fun hp' => hp ⟨hp', hyx⟩)).of_same (hsame _ (fun he => by cases he) (fun z hz he => ?_))
      cases he
      exact hp ⟨⟨.list, hmem hz⟩, hyx⟩
  · exact h.made
  · exact h.held
  · exact h.done
  · rintro y hy
    cases hy
    exact ⟨hx.1, hx.2.1⟩
  · exact h.nodup

/-- `p->remove_from_list()`. -/
theorem Inv.runRemove (h : Inv s m) (hr : s.run = .remove x p) :
    ∃ m', Inv { s with links := s.links.removeFromList (.sampler x), run := .delete x p } m' := by
  obtain ⟨⟨todo, hlist, hbegun, hp, hdue⟩, hkept⟩ := h.rounds.pass (p := p) (by rw [hr]; rfl)
  have hlist' : m .list = s.kept ++ x :: todo := by
    rw [hlist]
    simp
  refine ⟨_, h.owned.goRun ⟨rfl, rfl, rfl, rfl, rfl, rfl⟩ rfl rfl rfl rfl (fun hl => ?_) (fun he => ?_)
      (fun {y} hg => h.owned.gone (x := y) ?_) (fun {y} hc => h.owned.current (x := y) ?_),
    h.combined.goRun rfl rfl rfl rfl rfl rfl (fun hm => by cases hm), h.placement.remove hr hlist',
    h.rounds.due, fun hl => (by cases hl), fun {cur linked p'} hp' => ?_, h.rounds.gone, h.rounds.deleted⟩
  · cases hl
  · cases he
  · rw [hr]
    exact hg
  · rw [hr]
    exact hc
  · cases hp'
    rw [Function.update_self]
    refine ⟨⟨todo, ?_, hbegun, hp, hdue⟩, hkept⟩
    rw [List.append_nil]
    rfl

/-- `delete s`. -/
theorem Inv.runDelete (h : Inv s m) (hr : s.run = .delete x p) :
    Inv { s with deleted := s.deleted ++ [x], visited := s.visited ++ [(x, false)], run := .loop p } m := by
  obtain ⟨⟨todo, hlist, hbegun, hp, hdue⟩, hkept⟩ := h.rounds.pass (p := p) (by rw [hr]; rfl)
  obtain ⟨hs, hd⟩ := h.placement.hand (x := x) (by rw [hr]; rfl)
  have hgone : x ∈ s.destroyed := h.owned.gone (by rw [hr]; rfl)
  have hmem : ∀ {y}, y ∈ s.deleted ++ [x] ↔ y ∈ s.deleted ∨ y = x := by simp
  refine ⟨h.owned.collect ⟨rfl, rfl, rfl, rfl, rfl, rfl⟩ rfl rfl rfl rfl rfl,
    h.combined.goRun rfl rfl rfl rfl rfl rfl (fun hm => by cases hm), ?_, ?_⟩
  · refine ⟨fun k => ?_, h.placement.places, fun y => ?_, h.placement.free, h.placement.made, h.placement.held,
      fun y hy => ?_, fun hh => (by cases hh), ?_⟩
    · have hholder : holder { s with
          deleted := s.deleted ++ [x], visited := s.visited ++ [(x, false)], run := .loop p } k = holder s k := by
        cases k with
        | tmp | prev => simp [holder, hr, RunPc.tmp, RunPc.prev]
        | _ => rfl
      rw [hholder]
      exact h.placement.holds k
    · show Placed m y ↔ y ∈ s.scheduled ∧ y ∉ s.deleted ++ [x] ∧ none ≠ some y
      rw [h.placement.live, hr, hmem, not_or]
      constructor
      · rintro ⟨hy, hyd, hne⟩
        exact ⟨hy, ⟨hyd, fun he => hne (by rw [he]; rfl)⟩, fun he => by cases he⟩
      · rintro ⟨hy, ⟨hyd, hne⟩, -⟩
        exact ⟨hy, hyd, fun he => hne (Option.some.inj he).symm⟩
    · rcases hmem.1 hy with hy | rfl
      · exact h.placement.done y hy
      · exact hs
    · exact List.nodup_append.2 ⟨h.placement.nodup, List.nodup_singleton x, fun a ha b hb hab => by
        rw [List.mem_singleton.1 hb] at hab
        exact hd (hab ▸ ha)⟩
  · refine ⟨h.rounds.due, fun hl => (by cases hl), fun {cur linked p'} hp' => ?_, fun y hy => ?_, fun y hy => ?_⟩
    · cases hp'
      have hvisited : (s.visited ++ [(x, false)]).map Prod.fst = s.visited.map Prod.fst ++ [x] := by simp
      have hused : ((s.visited ++ [(x, false)]).filter Prod.snd).map Prod.fst = s.kept := by simp [State.kept]
      refine ⟨⟨todo, ?_, ?_, hp, fun y hy => ?_⟩, fun y hy => ?_⟩
      · show m .list = ((s.visited ++ [(x, false)]).filter Prod.snd).map Prod.fst ++ [] ++ todo
        rw [hused]
        exact hlist
      · show s.begun.RootList .sampler .root ((s.visited ++ [(x, false)]).map Prod.fst ++ [] ++ todo)
        rw [hvisited, List.append_nil]
        exact hbegun
      · show y ∈ s.deleted ++ [x] ∨ y ∈ (s.visited ++ [(x, false)]).map Prod.fst ++ [] ++ todo
        rw [hvisited, List.append_nil]
        exact (hdue y hy).imp_left (fun hy => hmem.2 (.inl hy))
      · rcases List.mem_append.1 hy with hy | hy
        · exact hkept y hy
        · cases List.mem_singleton.1 hy
    · rcases List.mem_append.1 hy with hy | hy
      · exact hmem.2 (.inl (h.rounds.gone y hy))
      · cases List.mem_singleton.1 hy
        exact hmem.2 (.inr rfl)
    · rcases hmem.1 hy with hy | rfl
      · exact h.rounds.deleted y hy
      · exact hgone

/-- **Every step of the sampling thread keeps the invariant.** -/
theorem Inv.runStep (h : Inv s m) (hs : runStep s = some s') : ∃ m', Inv s' m' := by
  unfold SamplerCollector.runStep at hs
  split at hs
  · rename_i hr
    split at hs
    · rename_i hfree
      cases hs
      exact h.runReset hr hfree
    · cases hs
  · rename_i node tmp hr
    split at hs
    · rename_i u hu
      cases hs
      exact h.runExchange hr hu
    · rename_i hnone
      cases hs
      exact ⟨m, h.runReturn hr hnone⟩
  · rename_i node tmp prev hr
    cases hs
    exact h.runCombine hr
  · rename_i hr
    cases hs
    exact ⟨m, h.runNull hr⟩
  · rename_i a hr
    cases hs
    exact h.runSplice hr
  · rename_i hr
    cases hs
    exact ⟨m, h.pace (q := .sleep) (h.owned.collect ⟨rfl, rfl, rfl, rfl, rfl, rfl⟩ rfl rfl rfl rfl rfl) rfl rfl
      (by rw [hr]; rfl) (by rw [hr]; rfl) (by rw [hr]; rfl) (fun c hc => by rw [hr]; exact hc)⟩
  · rename_i x hr
    cases hs
    exact ⟨m, h.runNext hr⟩
  · rename_i x p hr
    split at hs
    · rename_i hfree
      cases hs
      exact ⟨m, h.pace (q := .check x p) (h.owned.runLock hfree (h.owned.current (by rw [hr]; rfl))) rfl rfl
        (by rw [hr]; rfl) (by rw [hr]; rfl) (by rw [hr]; rfl) (fun c hc => by rw [hr]; exact hc)⟩
    · cases hs
  · rename_i x p hr
    cases hs
    have howned := h.owned.runCheck hr
    refine ⟨m, ?_⟩
    by_cases hu : s.used x = true
    · rw [if_pos hu] at howned ⊢
      exact h.pace (q := .sample x p) howned rfl rfl (by rw [hr]; rfl) (by rw [hr]; rfl) (by rw [hr]; rfl)
        (fun c hc => by rw [hr]; exact hc)
    · rw [if_neg hu] at howned ⊢
      exact h.pace (q := .unlock x p) howned rfl rfl (by rw [hr]; rfl) (by rw [hr]; rfl) (by rw [hr]; rfl)
        (fun c hc => by rw [hr]; exact hc)
  · rename_i x p hr
    cases hs
    exact ⟨m, h.runSample hr⟩
  · rename_i x p hr
    cases hs
    refine ⟨m, h.pace (q := .loop p) (h.owned.runUnlock (x := x) ?_ rfl (fun he => by cases he) (fun hg => by cases hg)
      (fun hc => by cases hc)) rfl rfl (by rw [hr]; rfl) (by rw [hr]; rfl) (by rw [hr]; rfl)
      (fun c hc => by rw [hr]; exact hc)⟩
    rw [hr]
    rfl
  · rename_i x p hr
    cases hs
    refine ⟨m, h.pace (q := .remove x p) (h.owned.runUnlock (x := x) ?_ rfl (fun he => by cases he) (fun hg => ?_)
      (fun hc => ?_)) rfl rfl (by rw [hr]; rfl) (by rw [hr]; rfl) (by rw [hr]; rfl)
      (fun c hc => by rw [hr]; exact hc)⟩
    · rw [hr]
      rfl
    · rw [hr]
      exact hg
    · rw [hr]
      exact hc
  · rename_i x p hr
    cases hs
    exact h.runRemove hr
  · rename_i x p hr
    cases hs
    exact ⟨m, h.runDelete hr⟩
  · rename_i hr
    cases hs
    exact ⟨m, h.pace (q := .reset) (h.owned.collect ⟨rfl, rfl, rfl, rfl, rfl, rfl⟩ rfl rfl rfl rfl rfl) rfl rfl
      (by rw [hr]; rfl) (by rw [hr]; rfl) (by rw [hr]; rfl) (fun c hc => by cases hc)⟩

/-! ## Runs -/

theorem inv_init (h : system.init s) : Inv s (fun _ => []) := by
  obtain ⟨hroot, hcreated, hsampler, hbusy, hpc, hmtx, hglobal, hagents, hcombiner, hrun, hscheduled, hdestroyed,
    hdeleted, hdue, hvisited⟩ := h
  have hidle : ∀ t, s.pc t = .idle := fun t => by rw [hpc]
  refine ⟨?_, ?_, ?_, ?_⟩
  · constructor <;> simp [hcreated, hsampler, hidle, hrun, hdestroyed, Pc.call, Pc.locked, RunPc.locked, RunPc.gone,
      RunPc.current]
  · constructor <;> simp [hagents, hidle, hcombiner, hrun, PcOk, Pc.hasMtx, RunPc.hasMtx]
  · refine ⟨fun k => ?_, ⟨fun _ => List.nodup_nil, fun _ _ _ hx => absurd hx List.not_mem_nil⟩, fun x => ?_, ?_, ?_, ?_,
      ?_,
      ?_, ?_⟩
    · cases k with
      | list => exact Links.ring_nil.2 hroot
      | _ => simp [holder, hagents, hglobal, hrun, RunPc.tmp, RunPc.prev, Holds, HeadList]
    · simp [Placed, hscheduled]
    all_goals simp [hcreated, hscheduled, hdeleted, hidle, Pc.held, hrun, RunPc.hand]
  · constructor <;> simp [hdue, hrun, RunPc.rest, RunPc.pass, hvisited, hdeleted]

theorem inv_step {a : Label} (h : ∃ m, Inv s m) (hs : system.step s a = some s') : ∃ m, Inv s' m := by
  obtain ⟨m, h⟩ := h
  cases a with
  | getSampler t r => exact ⟨m, h.getSampler hs⟩
  | agent t => exact ⟨m, h.getAgent hs⟩
  | destroy t r => exact ⟨m, h.destroyVar hs⟩
  | exit t =>
    change (if s.pc t = .idle ∧ s.combiner t = true then some (s.setPc t .commit) else none) = some s' at hs
    split at hs
    · rename_i hg
      cases hs
      exact ⟨m, h.exit hg.1 hg.2⟩
    · cases hs
  | user t => exact h.userStep hs
  | run => exact h.runStep hs

theorem inv_reachable (h : system.Reachable s) : ∃ m, Inv s m :=
  h.invariant (fun _ h0 => ⟨_, inv_init h0⟩) (fun _ _ _ hI _ hs => inv_step hI hs)

/-- Every sampler is scheduled, or a thread is about to schedule it. -/
def Settled (s : State) : Prop := ∀ x < s.created, x ∈ s.scheduled ∨ ∃ t, (s.pc t).held = some x

theorem Settled.move {q : Pc} (h : Settled s) (hpc : s'.pc = Function.update s.pc t q)
    (hcreated : s'.created = s.created) (hscheduled : ∀ y ∈ s.scheduled, y ∈ s'.scheduled)
    (hheld : ∀ y, (s.pc t).held = some y → y ∈ s'.scheduled ∨ q.held = some y) : Settled s' := by
  intro y hy
  rw [hcreated] at hy
  rcases h y hy with hs | ⟨u, hu⟩
  · exact .inl (hscheduled y hs)
  · by_cases hut : u = t
    · subst hut
      refine (hheld y hu).imp_right (fun hp => ⟨u, ?_⟩)
      rw [hpc, Function.update_self]
      exact hp
    · refine .inr ⟨u, ?_⟩
      rw [hpc, Function.update_of_ne hut]
      exact hu

theorem Settled.go {q : Pc} (h : Settled s) (hpc : s'.pc = Function.update s.pc t q) (hcreated : s'.created = s.created)
    (hscheduled : s'.scheduled = s.scheduled) (hheld : (s.pc t).held = q.held) : Settled s' :=
  h.move hpc hcreated (fun _ hy => hscheduled ▸ hy) (fun _ hy => .inr (hheld ▸ hy))

theorem settled_user (h : Settled s) (hs : userStep s t = some s') : Settled s' := by
  unfold userStep at hs
  split at hs
  · rename_i r x hpc
    split at hs
    · cases hs
      exact h.go (t := t) (q := .modify r x) rfl rfl rfl (by rw [hpc]; rfl)
    · cases hs
  · rename_i r x hpc
    cases hs
    refine h.move (t := t) (q := .idle) rfl rfl (fun _ hy => List.mem_append_left _ hy) (fun y hy => ?_)
    rw [hpc] at hy
    cases hy
    exact .inl (List.mem_append_right _ (List.mem_singleton_self x))
  · rename_i r x hpc
    split at hs
    · cases hs
      exact h.go (t := t) (q := .store r x) rfl rfl rfl (by rw [hpc]; rfl)
    · cases hs
  · rename_i r x hpc
    cases hs
    exact h.go (t := t) (q := .unlock r x) rfl rfl rfl (by rw [hpc]; rfl)
  · rename_i r x hpc
    cases hs
    exact h.go (t := t) (q := .idle) rfl rfl rfl (by rw [hpc]; rfl)
  · rename_i hpc
    split at hs
    · cases hs
      exact h.go (t := t) (q := .load) rfl rfl rfl (by rw [hpc]; rfl)
    · cases hs
  · rename_i hpc
    cases hs
    exact h.go (t := t) (q := .erase (s.element t)) rfl rfl rfl (by rw [hpc]; rfl)
  · rename_i val hpc
    cases hs
    exact h.go (t := t) (q := .idle) rfl rfl rfl (by rw [hpc]; rfl)
  · cases hs

theorem settled_step {a : Label} (h : Settled s) (hs : system.step s a = some s') : Settled s' := by
  cases a with
  | getSampler t r =>
    simp only [system, step, getSampler] at hs
    split at hs
    · rename_i hg
      split at hs
      · cases hs
        exact h
      · cases hs
        intro y hy
        rcases Nat.lt_succ_iff_lt_or_eq.1 hy with hy | rfl
        · refine (h y hy).imp_right ?_
          rintro ⟨u, hu⟩
          have hut : u ≠ t := by
            rintro rfl
            rw [hg.1] at hu
            cases hu
          exact ⟨u, by rw [← hu]; exact congrArg Pc.held (Function.update_of_ne hut ..)⟩
        · exact .inr ⟨t, (congrArg Pc.held (Function.update_self ..)).trans rfl⟩
    · cases hs
  | agent t =>
    simp only [system, step, getAgent] at hs
    split at hs
    · rename_i r x hpc
      split at hs
      · cases hs
        exact h.go (t := t) (q := .modify r x) rfl rfl rfl (by rw [hpc]; rfl)
      · cases hs
        exact h.go (t := t) (q := .append r x) rfl rfl rfl (by rw [hpc]; rfl)
    · cases hs
  | destroy t r =>
    simp only [system, step, destroyVar] at hs
    split at hs
    · rename_i hg
      split at hs
      · rename_i x hx
        cases hs
        exact h.go (t := t) (q := .lock r x) rfl rfl rfl (by rw [hg.1]; rfl)
      · cases hs
        exact h
    · cases hs
  | exit t =>
    simp only [system, step] at hs
    split at hs
    · rename_i hg
      cases hs
      exact h.go (t := t) (q := .commit) rfl rfl rfl (by rw [hg.1]; rfl)
    · cases hs
  | user t => exact settled_user h hs
  | run =>
    simp only [system, step, runStep] at hs
    repeat' split at hs
    all_goals cases hs
    all_goals exact h

/-- **A sampler that is destroyed has been scheduled.** -/
theorem scheduled_of_destroyed (h : system.Reachable s) : ∀ x ∈ s.destroyed, x ∈ s.scheduled := by
  have hsettled : Settled s := h.invariant (fun s h0 x hx => absurd hx (by rw [h0.2.1]; exact Nat.not_lt_zero x))
    (fun _ _ _ hI _ hs => settled_step hI hs)
  obtain ⟨m, hI⟩ := inv_reachable h
  intro x hx
  rcases hsettled x (hI.owned.unused x hx).2 with hs | ⟨t, ht⟩
  · exact hs
  · obtain ⟨r, hc⟩ := Pc.call_of_held ht
    exact absurd hx (hI.owned.of_call hc).2.2.2

/-- A sampler is linked to itself only, and no list has it. -/
def Unlinked (s : State) (x : Nat) : Prop :=
  s.links.SelfLinked (.sampler x) ∧ ∀ k, ∃ l, Holds s.links (holder s k) l ∧ x ∉ l

/-- **What a round has done when its pass is over**: of the list that the pass began with each sampler was visited, in
the order of the list; the list is the ring of those that were used, and the others are deleted, as is everything that
was scheduled and destroyed when the round began. -/
structure Round (s : State) : Prop where
  visited : s.begun.RootList .sampler .root (s.visited.map Prod.fst) ∧ (s.visited.map Prod.fst).Nodup
  kept : s.links.RootList .sampler .root s.kept
  removed : ∀ x, (x, false) ∈ s.visited → x ∈ s.deleted
  due : ∀ x ∈ s.due, x ∈ s.deleted

/-- **The samplers are safe**: a sample is taken of one that is not destroyed, for a reducer that is alive; what is
deleted is destroyed and unlinked, and deleted once and by the sampling thread. -/
structure Safe (s : State) : Prop where
  sample : ∀ {x p}, s.run = .sample x p → x ∉ s.destroyed ∧ s.alive (s.owner x) = true
  deleted : s.deleted.Nodup ∧ ∀ x ∈ s.deleted, x ∈ s.destroyed
  scheduled : ∀ x ∈ s.destroyed, x ∈ s.scheduled
  delete : ∀ {x p}, s.run = .delete x p → x ∈ s.destroyed ∧ x ∉ s.deleted ∧ Unlinked s x
  only : ∀ {a s'}, step s a = some s' → s'.deleted = s.deleted ∨
    a = .run ∧ ∃ x p, s.run = .delete x p ∧ s'.deleted = s.deleted ++ [x]
  call : ∀ {t r x}, (s.pc t).call = some (r, x) → x ∉ s.deleted
  round : s.run = .sleep → Round s

/-- Only the sampling thread deletes, and only the sampler at `delete s`. -/
theorem step_deleted {a : Label} (hs : step s a = some s') : s'.deleted = s.deleted ∨
    a = .run ∧ ∃ x p, s.run = .delete x p ∧ s'.deleted = s.deleted ++ [x] := by
  cases a with
  | getSampler t r =>
    simp only [step, getSampler] at hs
    repeat' split at hs
    all_goals cases hs
    all_goals exact .inl rfl
  | agent t =>
    simp only [step, getAgent] at hs
    repeat' split at hs
    all_goals cases hs
    all_goals exact .inl rfl
  | destroy t r =>
    simp only [step, destroyVar] at hs
    repeat' split at hs
    all_goals cases hs
    all_goals exact .inl rfl
  | exit t =>
    simp only [step] at hs
    split at hs
    all_goals cases hs
    exact .inl rfl
  | user t =>
    simp only [step, userStep] at hs
    repeat' split at hs
    all_goals cases hs
    all_goals exact .inl rfl
  | run =>
    simp only [step, runStep] at hs
    repeat' split at hs
    all_goals cases hs
    case h_14 x p hr => exact .inr ⟨rfl, x, p, hr, rfl⟩
    all_goals exact .inl rfl

/-- The pass is over. -/
theorem Inv.round (h : Inv s m) (hr : s.run = .sleep) : Round s := by
  obtain ⟨⟨todo, hlist, hbegun, hp, hdue⟩, hkept⟩ := h.rounds.pass (p := .root) (by rw [hr]; rfl)
  obtain rfl : todo = [] := by
    cases todo with
    | nil => rfl
    | cons y todo => cases hp
  rw [List.append_nil, List.append_nil] at hlist hbegun hdue
  have hgone := h.rounds.gone
  refine ⟨⟨hbegun, hbegun.nodup⟩, hlist ▸ h.placement.holds .list, hgone, fun x hx => ?_⟩
  refine (hdue x hx).elim id (fun hv => ?_)
  obtain ⟨⟨y, b⟩, hy, rfl⟩ := List.mem_map.1 hv
  cases b with
  | false => exact hgone y hy
  | true => exact absurd hx (hkept y hy)

/-- **The samplers are safe in every state of every run.** -/
theorem safe_reachable (hr : system.Reachable s) : Safe s := by
  obtain ⟨m, h⟩ := inv_reachable hr
  refine ⟨h.owned.sample, ⟨h.placement.nodup, h.rounds.deleted⟩, scheduled_of_destroyed hr, fun {x p} hr => ?_,
    step_deleted,
    fun hc hd => (h.owned.of_call hc).2.2.2 (h.rounds.deleted _ hd), h.round⟩
  obtain ⟨hs, hd⟩ := h.placement.hand (x := x) (by rw [hr]; rfl)
  have hnot : ¬ Placed m x := fun hp => ((h.placement.live x).1 hp).2.2 (by rw [hr]; rfl)
  refine ⟨h.owned.gone (by rw [hr]; rfl), hd, h.placement.free x (h.placement.made x hs) hnot, fun k => ?_⟩
  exact ⟨m k, h.placement.holds k, fun hx => hnot ⟨k, hx⟩⟩

/-- There is no sampler yet. -/
def started : State where
  links := ⟨id, id⟩
  used _ := false
  mtx _ := none
  owner _ := 0
  created := 0
  samplerOf _ := none
  alive _ := true
  busy _ := none
  pc _ := .idle
  combinerMtx := none
  globalResult := none
  agents := []
  element _ := none
  combiner _ := false
  run := .reset
  scheduled := []
  destroyed := []
  deleted := []
  due := []
  begun := ⟨id, id⟩
  visited := []

/-- Two threads make samplers, a round samples both, the first reducer is destroyed, and a round removes its sampler. -/
def roundsRun : List Label :=
  [Label.getSampler 0 5, Label.agent 0, Label.user 0, Label.user 0, Label.getSampler 1 6, Label.agent 1,
    Label.user 1, Label.user 1] ++ List.replicate 18 Label.run ++
    [Label.destroy 0 5, Label.user 0, Label.user 0, Label.user 0] ++ List.replicate 20 Label.run

theorem safe_reachable_roundsRun : ∃ s, system.run started roundsRun = some s ∧ s.run = .sleep ∧ s.deleted = [0] ∧
    s.visited = [(0, false), (1, true)] ∧ Safe s := by
  have hrun : (system.run started roundsRun).map (fun s => (s.run, s.deleted, s.visited)) =
      some (.sleep, [0], [(0, false), (1, true)]) := by decide
  obtain ⟨s, hs, hx⟩ := Option.map_eq_some_iff.1 hrun
  simp only [Prod.mk.injEq] at hx
  have hinit : system.init started :=
    ⟨⟨rfl, rfl⟩, rfl, rfl, rfl, rfl, rfl, rfl, rfl, rfl, rfl, rfl, rfl, rfl, rfl, rfl⟩
  exact ⟨s, hs, hx.1, hx.2.1, hx.2.2, safe_reachable (System.Reachable.run (.init hinit) _ hs)⟩

end SamplerCollector
end ContentionProf
