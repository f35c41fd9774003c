import ContentionProf.CombinerLists
/-!
# CombinerExit — the samples of a thread that exits

`commit_and_erase` copies the pointer to the agent's samples, combines the list behind it with the global result, takes
the agent out of the list and unlocks; only then does `~Agent` clear the agent's `combiner`.  Until it is cleared a
submission on the same thread still takes the agent for a registered one.  If the pointer was null when it was read,
what comes in before the agent leaves the list is behind no pointer that is kept; if it was not, it is in the list.
-/
namespace ContentionProf
namespace CombinerHook

open Combiner (of)
open Hook (Mem owners)

variable {α : Type} {L : Layout} {s s' : State α} {t u : Thread} {m : Addr} {i : Input α} {busy : Bool} {x : Nat}
  {lists : Spot → List Nat}

/-! ## The steps that move samples -/

theorem sub_eq_update (hq : s.sub t = .none) : s.sub = Function.update s.sub t .none := by
  rw [← hq, Function.update_eq_self]

/-- `reset_all_agents` takes the global result. -/
theorem ExitInv.takeGlobal {mem : Mem} (h : ExitInv L s lists) (hq : s.sub t = .none) (hp : s.main t = .resetLock busy)
    (hfree : owners s.mem L.mtx = none)
    (hlock : LockInv L ({ s with mem := mem, globalResult := none }.setMain t (.walk 0 s.globalResult))) :
    ExitInv L ({ s with mem := mem, globalResult := none }.setMain t (.walk 0 s.globalResult))
      (Links.joined lists .tmp .globalResult) := by
  have hi := h.place t
  rw [hp, hq] at hi
  have hout := h.lock.all_out hfree
  have hhand : inHand L s = (none, none) := inHand_of_none hout
  have htmp : lists .tmp = [] := h.kept.eq_nil (congrArg Prod.fst hhand)
  have hprev : lists .prev = [] := h.kept.eq_nil (congrArg Prod.snd hhand)
  have hhand' := hlock.inHand_of_hasMtx (t := t) (by rw [setMain_main_self]; rfl)
  rw [setMain_main_self] at hhand'
  refine h.join (t := t) hlock ⟨fun u => still_of_update rfl (sub_eq_update hq), fun _ _ => rfl, fun _ _ => .rfl,
    fun _ _ _ => rfl, fun u _ hu => ?_⟩ ⟨rfl, rfl, rfl⟩ h.nodup (by rintro ⟨⟩) ?_ rfl (fun l hl hl' => ?_) (fun u => ?_)
    (fun u => ?_) ?_ (fun u => ?_)
  · rw [hout u] at hu; cases hu
  · show (s.links, (inHand L _).1) = s.links.combine id (inHand L s).1 s.globalResult
    rw [hhand, hhand', Links.combine_none]
    rfl
  · cases l with
    | tmp => exact absurd rfl hl
    | globalResult => exact absurd rfl hl'
    | prev => show (inHand L _).2 = (inHand L s).2; rw [hhand, hhand']; rfl
    | _ => rfl
  · exact h.sample u
  · exact h.owned u
  · rw [setMain_main_self]
    show PlaceOk _ t _ (s.sub t)
    rw [hq]
    exact .walks hi.registered rfl (fun _ hu => by cases hu) ⟨rfl, rfl, rfl⟩
  · show ofThread s.owner s.results.length _ u ++ _ = _
    simp [ofThread, Links.joined_apply, htmp, hprev]
    rfl

/-- An agent's value goes to the walk. -/
theorem ExitInv.exchange {mem : Mem} {node : Nat} {tmp : Pointer} {v : Thread}
    (h : ExitInv L s lists) (hq : s.sub t = .none) (hp : s.main t = .exchangeLock node tmp v busy)
    (hlock : LockInv L (({ s with mem := mem }.setElement v none).setMain t
      (.exchangeUnlock node tmp (s.element v) v))) :
    ExitInv L (({ s with mem := mem }.setElement v none).setMain t (.exchangeUnlock node tmp (s.element v) v))
      (Links.joined lists .prev (.element v)) := by
  have hi := h.place t
  rw [hp, hq] at hi
  have hv : v ∈ s.agents := hi.target v rfl
  have hg : s.globalResult = none := hi.walking rfl
  have hmtx : (s.main t).hasMtx = true := by rw [hp]; rfl
  have hhand := h.lock.inHand_of_hasMtx hmtx
  rw [hp] at hhand
  have hprev : lists .prev = [] := h.kept.eq_nil (congrArg Prod.snd hhand)
  have hglobal : lists .globalResult = [] := h.kept.eq_nil hg
  have hhand' := hlock.inHand_of_hasMtx (t := t) (by rw [setMain_main_self]; rfl)
  rw [setMain_main_self] at hhand'
  refine h.join (t := t) hlock ⟨fun u => still_of_update rfl (sub_eq_update hq), fun _ _ => rfl, fun _ _ => .rfl,
    fun u _ hu => ?_, fun u hu hm => ?_⟩ ⟨rfl, rfl, rfl⟩ h.nodup (by rintro ⟨⟩) ?_ ?_ (fun l hl hl' => ?_) (fun u => ?_)
    (fun u x hx => ?_) ?_ (fun u => ?_)
  · exact Function.update_of_ne (ne_of_mem_of_not_mem hv hu).symm ..
  · rw [h.lock.others_out hmtx hu] at hm; cases hm
  · show (s.links, (inHand L _).2) = s.links.combine id (inHand L s).2 (head L s (.element v))
    rw [hhand, hhand', head_element hv]
    exact (Links.combine_none id s.links (s.element v)).symm
  · exact (if_pos hv).trans (Function.update_self ..)
  · cases l with
    | prev => exact absurd rfl hl
    | tmp => show (inHand L _).1 = (inHand L s).1; rw [hhand, hhand']; rfl
    | element u =>
      have hu : u ≠ v := fun hu => hl' (by rw [hu])
      show (if u ∈ s.agents then Function.update s.element v none u else none) = _
      rw [Function.update_of_ne hu]
      rfl
    | _ => rfl
  · exact h.sample u
  · rcases (Links.mem_joined hx).2 with hx | ⟨he, -⟩
    · exact h.owned u x hx
    · cases he
  · rw [setMain_main_self]
    show PlaceOk _ t _ (s.sub t)
    rw [hq]
    exact .walks hi.registered hg (fun _ hu => by cases hu) ⟨rfl, rfl, rfl⟩
  · show ofThread s.owner s.results.length _ u ++ _ = _
    by_cases huv : u = v
    · subst huv
      simp [ofThread, Links.joined_apply, hprev, hglobal, Combiner.of_eq_self _ (h.owned u)]
      rfl
    · have hne : ∀ x ∈ lists (.element v), s.owner x ≠ u := fun x hx hxu => huv (hxu.symm.trans (h.owned v x hx))
      simp [ofThread, Links.joined_apply, hprev, hglobal, Combiner.of_eq_nil _ hne, huv]
      rfl

/-- Line 164. -/
theorem ExitInv.combine {node : Nat} {tmp prev : Pointer} (h : ExitInv L s lists) (hq : s.sub t = .none)
    (hp : s.main t = .combine node tmp prev)
    (hlock : LockInv L ({ s with links := (s.links.combine id tmp prev).1 }.setMain t
      (.walk (node + 1) (s.links.combine id tmp prev).2))) :
    ExitInv L ({ s with links := (s.links.combine id tmp prev).1 }.setMain t
      (.walk (node + 1) (s.links.combine id tmp prev).2)) (Links.joined lists .tmp .prev) := by
  have hi := h.place t
  rw [hp, hq] at hi
  have hmtx : (s.main t).hasMtx = true := by rw [hp]; rfl
  have hhand := h.lock.inHand_of_hasMtx hmtx
  rw [hp] at hhand
  have hhand' := hlock.inHand_of_hasMtx (t := t) (by rw [setMain_main_self]; rfl)
  rw [setMain_main_self] at hhand'
  refine h.join (t := t) hlock ⟨fun u => still_of_update rfl (sub_eq_update hq), fun _ _ => rfl, fun _ _ => .rfl,
    fun _ _ _ => rfl, fun _ _ _ => ⟨rfl, rfl, rfl⟩⟩ ⟨rfl, rfl, rfl⟩ h.nodup (by rintro ⟨⟩) ?_ ?_ (fun l hl hl' => ?_)
    (fun u => ?_) (fun u => ?_) ?_ (fun u => ?_)
  · show (_, (inHand L _).1) = s.links.combine id (inHand L s).1 (inHand L s).2
    rw [hhand, hhand']
    rfl
  · show (inHand L _).2 = none
    rw [hhand']
    rfl
  · cases l with
    | tmp => exact absurd rfl hl
    | prev => exact absurd rfl hl'
    | _ => rfl
  · exact h.sample u
  · exact h.owned u
  · rw [setMain_main_self]
    show PlaceOk _ t _ (s.sub t)
    rw [hq]
    exact .walks hi.registered (hi.walking rfl) (fun _ hu => by cases hu) ⟨rfl, rfl, rfl⟩
  · show ofThread s.owner s.results.length _ u ++ _ = _
    simp [ofThread, Links.joined_apply]
    rfl

/-- `reset_all_agents` returns. -/
theorem ExitInv.resetReturn {mem : Mem} {tmp : Pointer} (h : ExitInv L s lists) (hq : s.sub t = .none)
    (hp : s.main t = .resetUnlock tmp)
    (hlock : LockInv L ({ s with mem := mem, results := s.results ++ [tmp] }.setMain t .idle)) :
    ExitInv L ({ s with mem := mem, results := s.results ++ [tmp] }.setMain t .idle)
      (Links.joined lists (.result s.results.length) .tmp) := by
  have hi := h.place t
  rw [hp, hq] at hi
  have hmtx : (s.main t).hasMtx = true := by rw [hp]; rfl
  have hhand := h.lock.inHand_of_hasMtx hmtx
  rw [hp] at hhand
  have hnew : head L s (.result s.results.length) = none := by simp [head]
  have hresult : lists (.result s.results.length) = [] := h.kept.eq_nil hnew
  have hprev : lists .prev = [] := h.kept.eq_nil (congrArg Prod.snd hhand)
  have hhand' : inHand L ({ s with mem := mem, results := s.results ++ [tmp] }.setMain t .idle) = (none, none) := by
    refine inHand_of_none (fun v => ?_)
    by_cases hv : v = t
    · rw [hv, setMain_main_self]; rfl
    · rw [setMain_main_of_ne hv]; exact h.lock.others_out hmtx hv
  refine h.join (t := t) hlock ⟨fun u => still_of_update rfl (sub_eq_update hq), fun _ _ => rfl, fun _ _ => .rfl,
    fun _ _ _ => rfl, fun _ _ _ => ⟨rfl, rfl, rfl⟩⟩ ⟨rfl, rfl, rfl⟩ h.nodup (by rintro ⟨⟩) ?_ ?_ (fun l hl hl' => ?_)
    (fun u => ?_) (fun u => ?_) ?_ (fun u => ?_)
  · rw [hnew, Links.combine_none]
    show (s.links, ((s.results ++ [tmp])[s.results.length]?).join) = (s.links, (inHand L s).1)
    rw [hhand, List.getElem?_concat_length]
    rfl
  · exact congrArg Prod.fst hhand'
  · cases l with
    | tmp => exact absurd rfl hl'
    | prev => show (inHand L _).2 = (inHand L s).2; rw [hhand, hhand']; rfl
    | result k =>
      have hk : k ≠ s.results.length := fun hk => hl (by rw [hk])
      show ((s.results ++ [tmp])[k]?).join = (s.results[k]?).join
      rcases Nat.lt_or_gt_of_ne hk with hk | hk
      · rw [List.getElem?_append_left hk]
      · rw [List.getElem?_eq_none (by rw [List.length_append]; exact hk), List.getElem?_eq_none hk.le]
    | _ => rfl
  · exact h.sample u
  · exact h.owned u
  · rw [setMain_main_self]
    show PlaceOk _ t _ (s.sub t)
    rw [hq]
    exact .outside hi.registered ⟨rfl, rfl, rfl, rfl, rfl⟩
  · show ofThread s.owner (s.results ++ [tmp]).length _ u ++ _ = _
    have hold : (List.range s.results.length).flatMap (fun k =>
        Links.joined lists (.result s.results.length) .tmp (.result k)) =
          (List.range s.results.length).flatMap (fun k => lists (.result k)) := by
      refine List.flatMap_congr (fun k hk => ?_)
      simp [Links.joined_apply, (List.mem_range.1 hk).ne]
    rw [List.length_append, List.length_singleton]
    simp only [ofThread, List.range_succ, List.flatMap_append, hold]
    simp [Links.joined_apply, hresult, hprev]
    rfl

/-- **An agent's samples go to the global result, and the agent leaves the list**: the pointer is the agent's, so it
leads to what was submitted since it was read, if it is not null. -/
theorem ExitInv.erase {val : Pointer} (h : ExitInv L s lists) (hq : s.sub t = .none) (hp : s.main t = .erase val)
    (hlock : LockInv L ({ s with
      links := (s.links.combine id s.globalResult val).1
      globalResult := (s.links.combine id s.globalResult val).2
      agents := s.agents.erase t }.setMain t .commitUnlock)) :
    ExitInv L ({ s with
      links := (s.links.combine id s.globalResult val).1
      globalResult := (s.links.combine id s.globalResult val).2
      agents := s.agents.erase t }.setMain t .commitUnlock) (Links.joined lists .globalResult (.element t)) := by
  have hi := h.place t
  rw [hp, hq] at hi
  have ht : t ∈ s.agents := hi.exiting rfl
  have hval : val = s.element t := hi.val val rfl
  have hmtx : (s.main t).hasMtx = true := by rw [hp]; rfl
  have hmem : ∀ u, u ≠ t → (u ∈ s.agents.erase t ↔ u ∈ s.agents) := fun u hu => List.mem_erase_of_ne hu
  have hnot : t ∉ s.agents.erase t := h.nodup.not_mem_erase
  have hhand := h.lock.inHand_of_hasMtx hmtx
  rw [hp] at hhand
  have hhand' := hlock.inHand_of_hasMtx (t := t) (by rw [setMain_main_self]; rfl)
  rw [setMain_main_self] at hhand'
  refine h.join (t := t) hlock ⟨fun u => still_of_update rfl (sub_eq_update hq), fun _ _ => rfl, hmem,
    fun _ _ _ => rfl, fun u hu hm => ?_⟩ ⟨rfl, rfl, rfl⟩ (h.nodup.erase t) (by rintro ⟨⟩) ?_ (if_neg hnot)
    (fun l hl hl' => ?_) (fun u => ?_) (fun u x hx => ?_) ?_ (fun u => ?_)
  · rw [h.lock.others_out hmtx hu] at hm; cases hm
  · rw [head_element ht, ← hval]
    rfl
  · cases l with
    | globalResult => exact absurd rfl hl
    | tmp => show (inHand L _).1 = (inHand L s).1; rw [hhand, hhand']; rfl
    | prev => show (inHand L _).2 = (inHand L s).2; rw [hhand, hhand']; rfl
    | element u =>
      have hu : u ≠ t := fun hu => hl' (by rw [hu])
      exact if_congr (hmem u hu) rfl rfl
    | _ => rfl
  · exact h.sample u
  · rcases (Links.mem_joined hx).2 with hx | ⟨he, -⟩
    · exact h.owned u x hx
    · cases he
  · rw [setMain_main_self]
    show PlaceOk _ t _ (s.sub t)
    rw [hq]
    exact .leaves (hi.registered.2 (.inl ht)) hnot rfl ⟨rfl, rfl, rfl, rfl⟩
  · show ofThread s.owner s.results.length _ u ++ _ = _
    by_cases hut : u = t
    · subst hut
      simp [ofThread, Links.joined_apply, Combiner.of_eq_self _ (h.owned u)]
      rfl
    · have hne : ∀ x ∈ lists (.element t), s.owner x ≠ u := fun x hx hxu => hut (hxu.symm.trans (h.owned t x hx))
      simp [ofThread, Links.joined_apply, Combiner.of_eq_nil _ hne, hut]
      rfl

/-- The agent's `combiner` is cleared. -/
theorem ExitInv.clear (h : ExitInv L s lists) (hq : s.sub t = .none) (hp : s.main t = .clear)
    (hlock : LockInv L ({ s with combiner := Function.update s.combiner t false }.setMain t .idle)) :
    ExitInv L ({ s with combiner := Function.update s.combiner t false }.setMain t .idle) lists := by
  have hi := h.place t
  rw [hp, hq] at hi
  have hhand : inHand L ({ s with combiner := Function.update s.combiner t false }.setMain t .idle) = inHand L s :=
    inHand_congr h.lock hlock (hand_update (by rw [hp]; rfl))
  have hapart : Apart s ({ s with combiner := Function.update s.combiner t false }.setMain t .idle) t :=
    ⟨fun u => still_of_update rfl (sub_eq_update hq), fun u hu => Function.update_of_ne hu .., fun _ _ => .rfl,
      fun _ _ _ => rfl, fun _ _ _ => ⟨rfl, rfl, rfl⟩⟩
  refine ⟨hlock, h.nodup, ?_, h.below, h.logged, h.sample, h.owned,
    hapart.place h (fun _ hx => ⟨hx, rfl⟩) ?_, h.values⟩
  · rw [head_congr (by rfl) hhand (by rfl) (fun _ => by rfl) (fun _ => by rfl)]
    exact h.kept
  · rw [setMain_main_self]
    show PlaceOk _ t _ (s.sub t)
    rw [hq]
    refine .outside ?_ ⟨rfl, rfl, rfl, rfl, rfl⟩
    show Function.update s.combiner t false t = true ↔ _
    rw [Function.update_self]
    refine iff_of_false nofun ?_
    rintro (ht | ⟨_, hx⟩ | hx)
    · exact hi.unlinked rfl ht
    · cases hx
    · cases hx

/-! ## The steps of a submission -/

/-- A step of a submission leaves the thread's reset or exit where it is. -/
theorem still_of_sub {q : Sub} (hmain : s'.main = s.main) (hsub : s'.sub = Function.update s.sub t q) (hu : u ≠ t) :
    Still s s' u := ⟨by rw [hmain], by rw [hsub, Function.update_of_ne hu]⟩

theorem Main.unlinked_of_committed {p : Main} (h : p.committed = false) : p.unlinked = false := by
  cases p <;> first | rfl | cases h

theorem Main.committed_of_unlinked {p : Main} (h : p.unlinked = true) : p.committed = true := by
  cases p <;> first | rfl | exact nomatch h

theorem Main.exiting_of_val {p : Main} {val : Pointer} (h : p.val = some val) : p.exiting = true := by
  cases p <;> first | rfl | cases h

theorem PlaceOk.open_of_sub {p : Main} {q : Sub} (h : PlaceOk s t p q) (hq : q ≠ .none) : p.open = true := by
  by_contra hcl
  exact hq (h.closed (by simpa using hcl))

/-- What an exit has read while a submission adds to the agent. -/
theorem Main.val_isSome {p : Main} {val : Pointer} (ho : p.open = true) (hc : p.committed = false)
    (hv : p.val = some val) : val.isSome = true := by
  cases p with
  | erase w =>
    cases hv
    have hw : val.isNone = false := hc
    simpa using hw
  | loadUnlock w => cases ho
  | _ => cases hv

theorem of_log_append (owner : Nat → Thread) (l : List Nat) (x : Nat) (u : Thread) :
    of owner u (l ++ [x]) = of owner u l ++ if owner x = u then [x] else [] := by
  rw [Combiner.of_append]
  by_cases h : owner x = u
  · rw [if_pos h, Combiner.of_eq_self owner (l := [x]) (by simpa using h)]
  · rw [if_neg h, Combiner.of_eq_nil owner (l := [x]) (by simpa using h)]

/-- The submission is dropped. -/
theorem ExitInv.destroy (h : ExitInv L s lists) (hp : s.sub t = .submit x) (hlock : LockInv L (s.setSub t .none)) :
    ExitInv L (s.setSub t .none) (Function.update lists (.sub t) []) := by
  have hi := h.place t
  rw [hp] at hi
  have hold : ∀ k, k ≠ .sub t → Function.update lists (.sub t) [] k = lists k := fun k hk => Function.update_of_ne hk ..
  have hmem : ∀ k, ∀ y ∈ Function.update lists (.sub t) [] k, y ∈ lists k := by
    intro k y hy
    by_cases hk : k = .sub t
    · rw [hk, Function.update_self] at hy; cases hy
    · rwa [hold k hk] at hy
  have hapart : Apart s (s.setSub t .none) t :=
    ⟨fun u => still_of_sub rfl rfl, fun _ _ => rfl, fun _ _ => .rfl, fun _ _ _ => rfl, fun _ _ _ => ⟨rfl, rfl, rfl⟩⟩
  refine ⟨hlock, h.nodup, h.kept.drop ?_ (fun k hk => ?_), fun k y hy => h.below k y (hmem k y hy), h.logged,
    fun u => ?_, fun u y hy => h.owned u y (hmem _ y hy), hapart.place h (fun _ hx => ⟨hx, rfl⟩) ?_, fun u => ?_⟩
  · exact congrArg Sub.sample (setSub_sub_self s t .none)
  · cases k with
    | sub u => exact congrArg Sub.sample (setSub_sub_of_ne fun hu => hk (by rw [hu]))
    | _ => rfl
  · by_cases hu : u = t
    · rw [hu, Function.update_self, setSub_sub_self]
      rfl
    · rw [hold _ fun he => hu (Spot.sub.inj he), h.sample, setSub_sub_of_ne hu]
  · rw [setSub_sub_self]
    have hr : s.combiner t = true ↔ t ∈ s.agents ∨ (∃ x, Sub.none = .append x) ∨ (s.main t).unlinked = true := by
      simpa using hi.registered
    exact .of_none hr hi.walking hi.target hi.exiting hi.val hi.unlinked
  · have hpend : ((s.setSub t .none).sub u).pending = (s.sub u).pending := by
      by_cases hu : u = t
      · rw [hu, setSub_sub_self, hp]
        rfl
      · rw [setSub_sub_of_ne hu]
    rw [hpend, ofThread_congr (fun _ _ _ => rfl) (fun k hk => hold k (hk t))]
    exact h.values u

/-- The submission is not dropped. -/
theorem ExitInv.accept {q : Sub} (h : ExitInv L s lists) (hlock : LockInv L s') (hapart : Apart s s' t)
    (hp : s.sub t = .submit x) (hobject : s'.object = s.object) (hfresh : s'.fresh = s.fresh)
    (hlog : s'.log = s.log ++ [x]) (hlinks : s'.links = s.links) (hresults : s'.results = s.results)
    (hagents : s'.agents = s.agents) (hhead : head L s' = head L s) (hsub : s'.sub = Function.update s.sub t q)
    (hpend : q.pending = [x]) (hsample : q.sample = some x) (hself : PlaceOk s' t (s'.main t) q) :
    ExitInv L s' lists := by
  have hi := h.place t
  rw [hp] at hi
  obtain ⟨hx, hxt⟩ := hi.sample x rfl
  have howner : s'.owner = s.owner := by
    funext y
    unfold State.owner
    rw [hobject]
  refine ⟨hlock, hagents ▸ h.nodup, by rw [hlinks, hhead]; exact h.kept, fun k y hy => hfresh ▸ h.below k y hy,
    fun y hy => ?_, fun u => ?_, fun u y hy => by rw [howner]; exact h.owned u y hy,
    hapart.place h (fun y hy => ⟨hfresh ▸ hy, by rw [howner]⟩) ?_, fun u => ?_⟩
  · rw [hlog] at hy
    rw [hfresh]
    rcases List.mem_append.1 hy with hy | hy
    · exact h.logged y hy
    · rw [List.mem_singleton.1 hy]; exact hx
  · rw [h.sample, hsub, sample_update (by rw [hsample, hp]; rfl)]
  · rw [hsub, Function.update_self]; exact hself
  · have hxt : s.owner x = t := hxt
    rw [howner, hresults, hlog, of_log_append, ← h.values, hsub, hxt]
    by_cases hu : u = t
    · rw [hu, Function.update_self, hpend, hp, if_pos rfl]
      simp [Sub.pending]
    · rw [Function.update_of_ne hu, if_neg (Ne.symm hu), List.append_nil]

theorem ExitInv.submit (h : ExitInv L s lists) (hp : s.sub t = .submit x) (hok : (s.main t).committed = false)
    (hc : s.combiner t = true) (hlock : LockInv L ({ s with log := s.log ++ [x] }.setSub t (.modifyLock x))) :
    ExitInv L ({ s with log := s.log ++ [x] }.setSub t (.modifyLock x)) lists := by
  have hi := h.place t
  rw [hp] at hi
  have ht : t ∈ s.agents := by
    rcases hi.registered.1 hc with ht | ⟨_, hy⟩ | hu
    · exact ht
    · cases hy
    · rw [Main.unlinked_of_committed hok] at hu; cases hu
  have hhand := inHand_congr h.lock hlock fun _ => rfl
  refine h.accept (t := t) hlock ⟨fun u => still_of_sub rfl rfl, fun _ _ => rfl, fun _ _ => .rfl, fun _ _ _ => rfl,
    fun _ _ _ => ⟨rfl, rfl, rfl⟩⟩ hp rfl rfl rfl rfl rfl rfl
    (head_congr rfl hhand rfl (fun _ => rfl) (sample_update (by rw [hp]; rfl))) rfl rfl rfl
    ⟨iff_of_true hc (.inl ht), ?_, nofun, fun y _ => ht, hi.walking, hi.target, hi.exiting, hi.val, hi.unlinked,
      fun hcl => (nomatch hi.closed hcl), fun hcm => ?_⟩
  · rintro y ⟨⟩
    exact hi.sample x rfl
  · have hcm : (s.main t).committed = true := hcm
    rw [hok] at hcm
    cases hcm

theorem ExitInv.agentReset {mem : Mem} (h : ExitInv L s lists) (hp : s.sub t = .submit x)
    (hok : (s.main t).committed = false) (hc : s.combiner t = false)
    (hlock : LockInv L (({ s with
      mem := mem
      log := s.log ++ [x]
      combiner := Function.update s.combiner t true }.setElement t none).setSub t (.append x))) :
    ExitInv L (({ s with
      mem := mem
      log := s.log ++ [x]
      combiner := Function.update s.combiner t true }.setElement t none).setSub t (.append x)) lists := by
  have hi := h.place t
  rw [hp] at hi
  have ht : t ∉ s.agents := by
    intro ht
    rw [hi.registered.2 (.inl ht)] at hc
    cases hc
  have hhand := inHand_congr h.lock hlock fun _ => rfl
  refine h.accept (t := t) hlock ⟨fun u => still_of_sub rfl rfl, fun u hu => Function.update_of_ne hu ..,
    fun _ _ => .rfl, fun u hu _ => Function.update_of_ne hu .., fun u hu _ => ⟨rfl, rfl, Function.update_of_ne hu ..⟩⟩
    hp rfl rfl rfl rfl rfl rfl (head_congr rfl hhand rfl (fun u => ?_) (sample_update (f := s.sub) (by rw [hp]; rfl)))
    rfl rfl rfl
    ⟨iff_of_true (Function.update_self ..) (.inr (.inl ⟨x, rfl⟩)), ?_, fun y _ => ⟨ht, Function.update_self ..⟩, nofun,
      hi.walking, hi.target, hi.exiting, fun val hval => ?_, hi.unlinked, fun hcl => (nomatch hi.closed hcl),
      fun hcm => ?_⟩
  · by_cases hu : u = t
    · rw [hu]
      exact (if_neg ht).trans (if_neg ht).symm
    · show (if u ∈ s.agents then Function.update s.element t none u else none) = _
      rw [Function.update_of_ne hu]
      rfl
  · rintro y ⟨⟩
    exact hi.sample x rfl
  · exact absurd (hi.exiting (Main.exiting_of_val hval)) ht
  · have hcm : (s.main t).committed = true := hcm
    rw [hok] at hcm
    cases hcm

theorem ExitInv.append {mem : Mem} (h : ExitInv L s lists) (hp : s.sub t = .append x)
    (hfree : owners s.mem L.mtx = none)
    (hlock : LockInv L ({ s with mem := mem, agents := s.agents ++ [t] }.setSub t (.modifyLock x))) :
    ExitInv L ({ s with mem := mem, agents := s.agents ++ [t] }.setSub t (.modifyLock x)) lists := by
  have hi := h.place t
  rw [hp] at hi
  obtain ⟨ht, he⟩ := hi.append x rfl
  have hout := h.lock.all_out hfree
  have hmem : ∀ u, u ≠ t → (u ∈ s.agents ++ [t] ↔ u ∈ s.agents) := by
    intro u hu
    rw [List.mem_append, List.mem_singleton]
    exact or_iff_left hu
  have hin : t ∈ s.agents ++ [t] := List.mem_append_right _ List.mem_cons_self
  have hapart : Apart s ({ s with mem := mem, agents := s.agents ++ [t] }.setSub t (.modifyLock x)) t := by
    refine ⟨fun u => still_of_sub rfl rfl, fun _ _ => rfl, hmem, fun _ _ _ => rfl, fun u _ hm => ?_⟩
    rw [hout u] at hm
    cases hm
  have hhand := inHand_congr h.lock hlock fun _ => rfl
  have hsample : ∀ u, (Function.update s.sub t (.modifyLock x) u).sample = (s.sub u).sample :=
    sample_update (by rw [hp]; rfl)
  refine ⟨hlock, ?_, ?_, h.below, h.logged, fun u => (h.sample u).trans (congrArg Option.toList (hsample u).symm),
    h.owned, hapart.place h (fun _ hx => ⟨hx, rfl⟩) ?_, fun u => ?_⟩
  · exact List.nodup_append.2 ⟨h.nodup, List.nodup_singleton t, fun a ha b hb hab => ht (by
      rw [← List.mem_singleton.1 hb, ← hab]; exact ha)⟩
  · rw [head_congr (by rfl) hhand (by rfl) (fun u => ?_) hsample]
    · exact h.kept
    · by_cases hu : u = t
      · rw [hu]
        exact (if_pos hin).trans (he.trans (if_neg ht).symm)
      · exact if_congr (hmem u hu) rfl rfl
  · rw [setSub_sub_self]
    refine ⟨iff_of_true (hi.registered.2 (.inr (.inl ⟨x, rfl⟩))) (.inl hin), ?_, nofun, fun y _ => hin, hi.walking,
      fun v hv => List.mem_append_left _ (hi.target v hv), fun _ => hin, hi.val, fun hun => ?_,
      fun hcl => (nomatch hi.closed hcl), fun hcm => ?_⟩
    · rintro y ⟨⟩
      exact hi.sample x rfl
    · rcases hi.committed (Main.committed_of_unlinked hun) with hq | ⟨_, hq⟩ <;> cases hq
    · rcases hi.committed hcm with hq | ⟨_, hq⟩ <;> cases hq
  · refine Eq.trans ?_ (h.values u)
    by_cases hu : u = t
    · rw [hu, setSub_sub_self, hp]
      rfl
    · rw [setSub_sub_of_ne hu]
      rfl

/-- **A sample goes into the agent.**  An exit that has read the agent's value has read this pointer. -/
theorem ExitInv.modify {mem : Mem} (h : ExitInv L s lists) (hp : s.sub t = .modifyLock x)
    (hlock : LockInv L (({ s with
      mem := mem
      links := (s.links.combine id (s.element t) (some x)).1 }.setElement t
        (s.links.combine id (s.element t) (some x)).2).setSub t .modifyUnlock)) :
    ExitInv L (({ s with
      mem := mem
      links := (s.links.combine id (s.element t) (some x)).1 }.setElement t
        (s.links.combine id (s.element t) (some x)).2).setSub t .modifyUnlock)
      (Links.joined lists (.element t) (.sub t)) := by
  have hi := h.place t
  rw [hp] at hi
  have ht := hi.modify x rfl
  have hxt : s.owner x = t := (hi.sample x rfl).2
  have hx : lists (.sub t) = [x] := by rw [h.sample, hp]; rfl
  have hcm : (s.main t).committed = false := by
    by_contra hcm
    rcases hi.committed (by simpa using hcm) with hq | ⟨_, hq⟩ <;> cases hq
  have hhand := inHand_congr h.lock hlock fun _ => rfl
  refine h.join (t := t) hlock ⟨fun u => still_of_sub rfl rfl, fun _ _ => rfl, fun _ _ => .rfl,
    fun u hu _ => Function.update_of_ne hu .., fun u hu _ => ⟨rfl, rfl, Function.update_of_ne hu ..⟩⟩ ⟨rfl, rfl, rfl⟩
    h.nodup (by rintro ⟨⟩) ?_ (congrArg Sub.sample (setSub_sub_self _ t .modifyUnlock)) (fun l hl hl' => ?_) (fun u => ?_)
    (fun u y hy => ?_) ?_ (fun u => ?_)
  · rw [head_element ht, show head L s (.sub t) = some x from congrArg Sub.sample hp]
    refine Prod.ext rfl ?_
    exact (if_pos ht).trans (Function.update_self ..)
  · cases l with
    | tmp => exact congrArg Prod.fst hhand
    | prev => exact congrArg Prod.snd hhand
    | element u =>
      have hu : u ≠ t := fun hu => hl (by rw [hu])
      show (if u ∈ s.agents then Function.update s.element t _ u else none) = _
      rw [Function.update_of_ne hu]
      rfl
    | sub u => exact congrArg Sub.sample (setSub_sub_of_ne fun hu => hl' (by rw [hu]))
    | _ => rfl
  · rw [Links.joined_apply]
    by_cases hu : u = t
    · rw [if_pos (by rw [hu]), hu, setSub_sub_self]
      rfl
    · rw [if_neg fun he => hu (Spot.sub.inj he), if_neg nofun, h.sample, setSub_sub_of_ne hu]
      rfl
  · rcases (Links.mem_joined hy).2 with hy | ⟨he, hy⟩
    · exact h.owned u y hy
    · rw [hx, List.mem_singleton] at hy
      rw [hy, hxt, Spot.element.inj he]
  · rw [setSub_sub_self]
    refine ⟨?_, nofun, nofun, nofun, hi.walking, hi.target, hi.exiting, fun val hval => ?_, hi.unlinked,
      fun hcl => (nomatch hi.closed hcl), fun hc => ?_⟩
    · show s.combiner t = true ↔ t ∈ s.agents ∨ (∃ x, Sub.modifyUnlock = .append x) ∨ (s.main t).unlinked = true
      simpa using hi.registered
    · -- the combining operator keeps a pointer that is not null
      have hval : (s.main t).val = some val := hval
      obtain ⟨a, ha⟩ := Option.isSome_iff_exists.1 (Main.val_isSome (hi.open_of_sub nofun) hcm hval)
      have hv := hi.val val hval
      rw [ha] at hv
      rw [ha]
      show some a = Function.update s.element t _ t
      rw [Function.update_self, ← hv]
      rfl
    · have hc : (s.main t).committed = true := hc
      rw [hcm] at hc
      cases hc
  · show ofThread s.owner s.results.length _ u ++ _ = _
    by_cases hut : u = t
    · subst hut
      rw [setSub_sub_self, hp]
      simp [ofThread, Links.joined_apply, hx, Sub.pending]
    · rw [setSub_sub_of_ne hut]
      simp [ofThread, Links.joined_apply, hut]
      rfl

/-! ## Steps and runs -/

/-- An unlock that only moves the thread, and may begin a submission. -/
theorem ExitInv.unlockMove {p : Main} (h : ExitInv L s lists) (hq : s.sub t = .none)
    (hlock : LockInv L (CombinerHook.unlock (s.setMain t p) t m i)) (ho : p.open = true)
    (hhand : p.hand = (s.main t).hand) (hself : PlaceOk s t p .none) :
    ∃ lists', ExitInv L (CombinerHook.unlock (s.setMain t p) t m i) lists' := by
  have hmoved (mem : Mem) (hmem : LockInv L { s.setMain t p with mem := mem }) :
      ExitInv L { s.setMain t p with mem := mem } lists :=
    h.move (p := p) hmem ⟨⟨rfl, rfl, rfl⟩, rfl, rfl, rfl, rfl, rfl, rfl⟩ rfl (sub_eq_update hq) hhand (by rw [hq])
      (by rw [hq]) hself
  exact ExitInv.unlock hlock hq (by rw [setMain_main_self]; exact ho) hmoved

theorem ExitInv.lockMove {waiting p : Main} (h : ExitInv L s lists) (hq : s.sub t = .none) (hlock : LockInv L s')
    (hs : CombinerHook.lock s t m busy i waiting (fun s => s.setMain t p) = some s')
    (hhand : waiting.hand = (s.main t).hand) (hhand' : p.hand = (s.main t).hand) (hwait : PlaceOk s t waiting .none)
    (hself : PlaceOk s t p .none) : ExitInv L s' lists := by
  rcases lock_spec hs with rfl | ⟨mem, -, -, -, rfl⟩
  · exact h.move hlock ⟨⟨rfl, rfl, rfl⟩, rfl, rfl, rfl, rfl, rfl, rfl⟩ rfl (sub_eq_update hq) hhand (by rw [hq])
      (by rw [hq]) hwait
  · exact h.move hlock ⟨⟨rfl, rfl, rfl⟩, rfl, rfl, rfl, rfl, rfl, rfl⟩ rfl (sub_eq_update hq) hhand' (by rw [hq])
      (by rw [hq]) hself

theorem ExitInv.mainStep (h : ExitInv L s lists) (hlock : LockInv L s') (hq : s.sub t = .none)
    (hs : mainStep L s t i = some s') : ∃ lists', ExitInv L s' lists' := by
  have hi := h.place t
  rw [hq] at hi
  have hmove : ∀ {p : Main}, s' = s.setMain t p → p.hand = (s.main t).hand → PlaceOk s t p .none →
      ExitInv L s' lists := by
    rintro p rfl hhand hself
    exact h.move hlock ⟨⟨rfl, rfl, rfl⟩, rfl, rfl, rfl, rfl, rfl, rfl⟩ rfl (sub_eq_update hq) hhand (by rw [hq])
      (by rw [hq]) hself
  cases hp : s.main t <;> rw [hp] at hi hmove <;> simp only [CombinerHook.mainStep, hp] at hs
  case idle => cases hs
  case resetLock busy =>
    rcases lock_spec hs with hw | ⟨mem, hfree, -, -, rfl⟩
    · exact ⟨_, hmove hw rfl (.outside hi.registered ⟨rfl, rfl, rfl, rfl, rfl⟩)⟩
    · exact ⟨_, h.takeGlobal hq hp hfree hlock⟩
  case walk node tmp =>
    split at hs
    · rename_i v hv
      exact ⟨_, hmove (Option.some.inj hs).symm rfl (.walks hi.registered (hi.walking rfl)
        (fun u hu => by cases hu; exact List.mem_of_getElem? hv) ⟨rfl, rfl, rfl⟩)⟩
    · exact ⟨_, hmove (Option.some.inj hs).symm rfl
        (.walks hi.registered (hi.walking rfl) (fun _ hu => by cases hu) ⟨rfl, rfl, rfl⟩)⟩
  case exchangeLock node tmp v busy =>
    rcases lock_spec hs with hw | ⟨mem, -, -, -, rfl⟩
    · exact ⟨_, hmove hw rfl (.walks hi.registered (hi.walking rfl) hi.target ⟨rfl, rfl, rfl⟩)⟩
    · exact ⟨_, h.exchange hq hp hlock⟩
  case exchangeUnlock node tmp prev v =>
    cases hs
    exact h.unlockMove hq hlock rfl (by rw [hp]; rfl)
      (.walks hi.registered (hi.walking rfl) (fun _ hu => by cases hu) ⟨rfl, rfl, rfl⟩)
  case combine node tmp prev =>
    cases hs
    exact ⟨_, h.combine hq hp hlock⟩
  case resetUnlock tmp =>
    cases hs
    exact ExitInv.unlock hlock hq (by rw [setMain_main_self]; rfl) (fun mem hmem => h.resetReturn hq hp hmem)
  case commitLock busy =>
    have hti : t ∈ s.agents := hi.exiting rfl
    exact ⟨_, h.lockMove hq hlock hs (by rw [hp]; rfl) (by rw [hp]; rfl)
      (.exits hi.registered hti (fun _ hv => by cases hv) ⟨rfl, rfl, rfl⟩)
      (.exits hi.registered hti (fun _ hv => by cases hv) ⟨rfl, rfl, rfl⟩)⟩
  case loadLock busy =>
    have hti : t ∈ s.agents := hi.exiting rfl
    rcases lock_spec hs with hw | ⟨mem, -, -, -, rfl⟩
    · exact ⟨_, hmove hw rfl (.exits hi.registered hti (fun _ hv => by cases hv) ⟨rfl, rfl, rfl⟩)⟩
    · exact ⟨_, h.move hlock ⟨⟨rfl, rfl, rfl⟩, rfl, rfl, rfl, rfl, rfl, rfl⟩ rfl (sub_eq_update hq) (by rw [hp]; rfl)
        (by rw [hq]) (by rw [hq])
        (.exits hi.registered hti (fun val hval => by cases hval; rfl) ⟨rfl, rfl, rfl⟩)⟩
  case loadUnlock val =>
    cases hs
    exact h.unlockMove hq hlock rfl (by rw [hp]; rfl)
      (.exits hi.registered (hi.exiting rfl) hi.val ⟨rfl, rfl, rfl⟩)
  case erase val =>
    cases hs
    exact ⟨_, h.erase hq hp hlock⟩
  case commitUnlock =>
    cases hs
    exact h.unlockMove hq hlock rfl (by rw [hp]; rfl)
      (.leaves (hi.registered.2 (.inr (.inr rfl))) (hi.unlinked rfl) rfl ⟨rfl, rfl, rfl, rfl⟩)
  case clear =>
    cases hs
    exact ⟨_, h.clear hq hp hlock⟩

theorem ExitInv.subStep (h : ExitInv L s lists) (hlock : LockInv L s') (hok : NotCommitted s (.go t i))
    (hs : subStep L s t i = some s') : ∃ lists', ExitInv L s' lists' := by
  have hi := h.place t
  cases hp : s.sub t <;> rw [hp] at hi <;> simp only [CombinerHook.subStep, hp] at hs
  case none => cases hs
  case submit x =>
    split at hs
    · cases hs
      exact ⟨_, h.destroy hp hlock⟩
    rename_i hl
    have hnc := hok (by rw [hp]; rfl) (by simpa using hl)
    split at hs
    · rename_i hc
      cases hs
      exact ⟨_, h.submit hp hnc hc hlock⟩
    · rename_i hc
      obtain ⟨s₁, h₁, rfl⟩ := Option.map_eq_some_iff.1 hs
      obtain ⟨-, rfl⟩ := realLock_spec h₁
      exact ⟨_, h.agentReset hp hnc (by simpa using hc) hlock⟩
  case append x =>
    obtain ⟨s₁, h₁, rfl⟩ := Option.map_eq_some_iff.1 hs
    obtain ⟨hfree, rfl⟩ := realLock_spec h₁
    exact ⟨_, h.append hp hfree hlock⟩
  case modifyLock x =>
    obtain ⟨s₁, h₁, rfl⟩ := Option.map_eq_some_iff.1 hs
    obtain ⟨-, rfl⟩ := realLock_spec h₁
    exact ⟨_, h.modify hp hlock⟩
  case modifyUnlock =>
    cases hs
    refine ⟨_, h.move hlock ⟨⟨rfl, rfl, rfl⟩, rfl, rfl, rfl, rfl, rfl, rfl⟩ (Function.update_eq_self t s.main).symm rfl
      rfl (by rw [hp]; rfl) (by rw [hp]; rfl)
      (.of_none (by simpa using hi.registered) hi.walking hi.target hi.exiting hi.val hi.unlinked)⟩

theorem exitInv_step {a : Label α} (h : ∃ lists, ExitInv L s lists) (hok : NotCommitted s a)
    (hs : step L s a = some s') : ∃ lists, ExitInv L s' lists := by
  obtain ⟨lists, h⟩ := h
  have hlock := lockInv_step h.lock hs
  cases a with
  | contend t data =>
    obtain ⟨hp, hq, rfl⟩ := step_contend hs
    exact ⟨_, h.makeSample hlock hq (by rw [hp]; rfl)⟩
  | reset t =>
    obtain ⟨hp, hq, rfl⟩ := step_reset hs
    have hi := h.place t
    rw [hp, hq] at hi
    exact ⟨_, h.move hlock ⟨⟨rfl, rfl, rfl⟩, rfl, rfl, rfl, rfl, rfl, rfl⟩ rfl (sub_eq_update hq) (by rw [hp]; rfl)
      (by rw [hq]) (by rw [hq]) (.outside hi.registered ⟨rfl, rfl, rfl, rfl, rfl⟩)⟩
  | exit t =>
    obtain ⟨hp, hq, hcomb, rfl⟩ := step_exit hs
    have hi := h.place t
    rw [hp, hq] at hi
    have ht : t ∈ s.agents := by
      rcases hi.registered.1 hcomb with ht | ⟨_, hx⟩ | hx
      · exact ht
      · cases hx
      · cases hx
    exact ⟨_, h.move hlock ⟨⟨rfl, rfl, rfl⟩, rfl, rfl, rfl, rfl, rfl, rfl⟩ rfl (sub_eq_update hq) (by rw [hp]; rfl)
      (by rw [hq]) (by rw [hq]) (.exits hi.registered ht (fun _ hv => by cases hv) ⟨rfl, rfl, rfl⟩)⟩
  | go t i =>
    rcases step_go hs with ⟨hq, hs⟩ | hs
    · exact h.mainStep hlock hq hs
    · exact h.subStep hlock hok hs

theorem exitInv_init (h : (system L α).init s) : ∃ lists, ExitInv L s lists := by
  have hlock := lockInv_init h
  obtain ⟨-, -, hg, hnd, hc, he, hmain, hsub, hr, hl⟩ := h
  have hhead : ∀ k, head L s k = none := by
    have hhand : inHand L s = (none, none) := inHand_of_none (fun v => by rw [hmain]; rfl)
    intro k
    cases k with
    | result k => show (s.results[k]?).join = none; rw [hr]; rfl
    | tmp => exact congrArg Prod.fst hhand
    | prev => exact congrArg Prod.snd hhand
    | globalResult => exact hg
    | element t => exact ite_eq_right_iff.2 (he t)
    | sub t => show (s.sub t).sample = none; rw [hsub]; rfl
  refine ⟨fun _ => [], hlock, hnd, ⟨fun k => ?_, nofun⟩, nofun, by rw [hl]; nofun, fun t => by rw [hsub]; rfl, nofun,
    fun t => ?_, fun u => ?_⟩
  · rw [hhead]
    rfl
  · rw [hmain, hsub]
    exact .outside (by simpa [Main.unlinked] using hc t) ⟨rfl, rfl, rfl, rfl, rfl⟩
  · rw [hl, hr, hsub]
    rfl

/-- **The samples of a thread survive its exit**, in every run in which no submission that is not dropped interrupts
`commit_and_erase` after `load` has read null, or `~Agent` after the agent has left the list: what the resets returned,
what one has taken, the global result and the listed agents lead to every sample of every thread once and in order, and
a sample is added to a listed agent only. -/
theorem exit_order (h : (system L α).ReachableVia NotCommitted s) :
    (∀ t, (total L s).filter (fun x => s.owner x == t) ++ (s.sub t).pending =
      s.log.filter (fun x => s.owner x == t)) ∧ ∀ t x, s.sub t = .modifyLock x → t ∈ s.agents := by
  obtain ⟨lists, hi⟩ := System.ReachableVia.invariant (I := fun s => ∃ lists, ExitInv L s lists)
    (fun _ => exitInv_init) (fun _ _ _ hi hok hs => exitInv_step hi hok hs) h
  refine ⟨fun t => ?_, fun t x hx => (hi.place t).modify x hx⟩
  have hv := hi.values t
  rw [← hi.of_total] at hv
  exact hv

/-- Worker 1 adds sample 10 and exits while thread 0 owns `mtx_` and takes that sample; at the end of `commit_and_erase`
its unlock of `mtx_` runs a submission of sample 20. -/
def contendedExit : List (Label Nat) :=
  [.contend 1 10, goOn 1 0, goOn 1 0, goOn 1 0, goOn 1 0, .reset 0, goOn 0 0, .exit 1, goOn 1 0, goOn 0 0, goOn 0 0,
    goOn 0 0, goOn 0 0, goOn 0 0, goOn 0 0, goOn 1 0, goOn 1 0, goOn 1 0, goOn 1 0, goOn 1 20]

/-- **A sample is lost**: it goes to the agent that has left the list. -/
theorem sample_lost : ∃ s₁ s₂, (system sampleLayout Nat).Reachable s₁ ∧ (system sampleLayout Nat).Reachable s₂ ∧
    s₁.sub 1 = .modifyLock 1 ∧ 1 ∉ s₁.agents ∧ s₂.object 1 = ⟨1, 20⟩ ∧ s₂.log = [0, 1] ∧
    total sampleLayout s₂ ++ (s₂.sub 1).pending = [0] := by
  have hrun₁ : ((system sampleLayout Nat).run startState (contendedExit ++ [goOn 1 0])).map
      (fun s => (s.agents, match s.sub 1 with | .modifyLock x => some x | _ => none)) = some ([], some 1) := by
    decide
  have hrun₂ : ((system sampleLayout Nat).run startState
      (contendedExit ++ [goOn 1 0, goOn 1 0, goOn 1 0, goOn 1 0])).map
      (fun s => (s.object 1, s.log, total sampleLayout s ++ (s.sub 1).pending)) = some (⟨1, 20⟩, [0, 1], [0]) := by
    decide
  obtain ⟨s₁, hs₁, hx₁⟩ := Option.map_eq_some_iff.1 hrun₁
  obtain ⟨s₂, hs₂, hx₂⟩ := Option.map_eq_some_iff.1 hrun₂
  obtain ⟨ha, hm⟩ := Prod.mk.inj hx₁
  obtain ⟨hobj, hx₂⟩ := Prod.mk.inj hx₂
  obtain ⟨hl, ht⟩ := Prod.mk.inj hx₂
  refine ⟨s₁, s₂, System.Reachable.run (.init startState_init) _ hs₁,
    System.Reachable.run (.init startState_init) _ hs₂, ?_, by rw [ha]; exact List.not_mem_nil, hobj, hl, ht⟩
  cases hsub : s₁.sub 1 with
  | modifyLock x => rw [hsub] at hm; rw [Option.some.inj hm]
  | _ => rw [hsub] at hm; cases hm

/-- Worker 1 has a record of its element mutex, left by an earlier mutex at that address. -/
def recordState : State Nat :=
  { startState with
    mem := startState.mem.setTls 1 ⟨1, 1, fun _ => ⟨sampleLayout.element 1, ⟨5, 16, none⟩⟩, by decide⟩ }

theorem recordState_init : (system sampleLayout Nat).init recordState :=
  ⟨fun _ => rfl, fun _ => rfl, rfl, List.nodup_nil, fun _ => iff_of_false nofun List.not_mem_nil, nofun, fun _ => rfl,
    fun _ => rfl, rfl, rfl⟩

/-- Two agents with a sample each exit one after the other.  A submission of worker 1 after its `load` adds sample 20
to its agent; the one at the end of its `commit_and_erase` is dropped as late; then thread 0 resets. -/
def orderlyExit : List (Label Nat) :=
  .contend 2 30 :: List.replicate 4 (goOn 2 0) ++ .contend 1 10 :: List.replicate 4 (goOn 1 0) ++
    [.exit 2, goOn 2 0, .exit 1, goOn 1 0] ++ List.replicate 5 (goOn 2 0) ++ [goOn 1 0, goOn 1 0, goOn 1 20] ++
    List.replicate 5 (goOn 1 0) ++ [.go 1 ⟨5, 9, 16, 0, true⟩, goOn 1 0, .reset 0] ++ List.replicate 3 (goOn 0 0)

theorem exit_order_orderlyExit : ∃ s, (system sampleLayout Nat).ReachableVia NotCommitted s ∧
    (∀ t, (total sampleLayout s).filter (fun x => s.owner x == t) ++ (s.sub t).pending =
      s.log.filter (fun x => s.owner x == t)) ∧ s.agents = [] ∧ s.log = [0, 1, 2] ∧
    s.results.map (fun value => (s.links.toList s.fresh value).map s.object) = [[⟨2, 30⟩, ⟨1, 10⟩, ⟨1, 20⟩]] := by
  have hrun : ((system sampleLayout Nat).run recordState orderlyExit).map (fun s =>
      (s.agents, s.log, s.results.map (fun value => (s.links.toList s.fresh value).map s.object))) =
      some ([], [0, 1, 2], [[⟨2, 30⟩, ⟨1, 10⟩, ⟨1, 20⟩]]) := by decide +kernel
  have hok : System.RunOk (system sampleLayout Nat) NotCommitted recordState orderlyExit := by decide +kernel
  obtain ⟨s, hs, hx⟩ := Option.map_eq_some_iff.1 hrun
  obtain ⟨ha, hx⟩ := Prod.mk.inj hx
  obtain ⟨hl, hr⟩ := Prod.mk.inj hx
  have hreach := System.ReachableVia.run (.init recordState_init) orderlyExit hok hs
  exact ⟨s, hreach, (exit_order hreach).1, ha, hl, hr⟩

end CombinerHook
end ContentionProf
