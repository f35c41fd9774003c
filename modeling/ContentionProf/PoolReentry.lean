import ContentionProf.PoolPlaces
/-!
# PoolReentry — a push that calls back into the pool

Between the copy of `cur_free_` into the chunk and the update of `free_count`, the unlock of `free_chunks_mutex_` may
run `submit_contention` on the same thread, which takes an object from the list that was just copied.
-/
namespace ContentionProf
namespace Pool

variable {g : Config} {s s' : State}

/-- No object is handed out twice, or handed out and free. -/
structure Exclusive (s : State) : Prop where
  nodup : s.live.Nodup
  held : ∀ t, ∀ x ∈ (s.thr t).pc.held, x ∉ s.live
  free : ∀ x, Live s x → ¬ Free s x

theorem Inv.exclusive (h : Inv g s) : Exclusive s where
  nodup := h.places.nodup .live
  held := fun t x hx hl => nomatch h.places.unique (.held t) .live x hx hl
  free := by
    rintro x (hx | ⟨t, hx⟩) (⟨u, p, hf⟩ | hf)
    · exact nomatch h.places.unique .live (.free u p) x hx hf
    · exact nomatch h.places.unique .live .chunks x hx (List.mem_flatten.2 hf)
    · exact nomatch h.places.unique (.held t) (.free u p) x hx hf
    · exact nomatch h.places.unique (.held t) .chunks x hx (List.mem_flatten.2 hf)

/-- **A hook that fires while `local_pool_` is the pool being pushed takes an object that is also in the chunk.** -/
theorem not_exclusive_of_reentry {l : Label} (h : Inv g s) (hok : ¬ NoReentry s l) (hs : step g s l = some s') :
    ¬ Exclusive s' := by
  cases l with
  | go t i =>
    cases hpc : (s.thr t).pc with
    | push a =>
      simp only [NoReentry, hpc, Classical.not_imp, not_not] at hok
      obtain ⟨hh, hlp⟩ := hok
      have hp := h.pc t
      rw [hpc] at hp
      have hs : advance g s t i = some s' := hs
      simp only [advance, hpc] at hs
      cases hs
      obtain ⟨x, xs, hx⟩ := List.exists_cons_of_ne_nil hp.1
      intro he
      refine he.free x (.inr ⟨t, ?_⟩) (.inr ⟨x :: xs, ?_, List.mem_cons_self⟩)
      · simp [pushFreeChunk, hh, hlp, State.getObject, Local.getOrNewLocalPool, hx, State.got]
      · simp [pushFreeChunk, hh, hlp, State.getObject, Local.getOrNewLocalPool, hx, State.got, State.setThr]
    | _ => exact absurd (by simp only [NoReentry, hpc]) hok
  | _ => exact absurd trivial hok

/-- **No object is ever handed out while it is free, or to two owners, exactly in the runs in which the hook does not
fire while `local_pool_` is the pool being pushed.** -/
theorem exclusive_iff {as : List Label} (hr : (system g).run initState as = some s) :
    (∀ s₁, (system g).Passes initState as s₁ → Exclusive s₁) ↔ (system g).RunOk NoReentry initState as :=
  System.passes_iff_runOk (I := Inv g) (P := Exclusive) (fun _ h => h.exclusive) (fun _ _ _ => inv_step)
    (fun _ _ _ => not_exclusive_of_reentry) inv_initState hr

/-- A thread exits with one object in its list, the hook fires, and thread 2 takes the object as well. -/
def twoOwnersRun : List Label :=
  [.get 1, .go 1 ⟨false, true, true, false⟩, .go 1 ⟨false, true, true, false⟩, .ret 1 ⟨1, 0, 0⟩ true,
    .exit 1 true, .go 1 ⟨true, true, true, false⟩, .go 1 ⟨false, true, true, false⟩,
    .get 2, .go 2 ⟨false, true, true, false⟩, .go 2 ⟨false, true, true, false⟩]

/-- **An object is handed out to two owners.** -/
theorem two_owners : ∃ s, (system sampledContentionConfig).Reachable s ∧ s.live = [⟨1, 0, 0⟩, ⟨1, 0, 0⟩] ∧
    ¬ Exclusive s := by
  have hrun : ((system sampledContentionConfig).run initState twoOwnersRun).map (fun s => s.live) =
      some [⟨1, 0, 0⟩, ⟨1, 0, 0⟩] := by decide
  obtain ⟨s, hs, hx⟩ := Option.map_eq_some_iff.1 hrun
  refine ⟨s, System.Reachable.run (.init rfl) twoOwnersRun hs, hx, fun he => ?_⟩
  have := he.nodup
  rw [hx] at this
  exact absurd this (by decide)

/-- `clear_objects` with a hook that fires: `local_pool_` is null by then, so a new pool serves the hook. -/
def clearRun : List Label :=
  [.get 1, .go 1 ⟨false, true, true, false⟩, .go 1 ⟨false, true, true, false⟩, .ret 1 ⟨1, 0, 0⟩ true,
    .clear 1 true, .go 1 ⟨true, true, true, false⟩, .go 1 ⟨false, true, true, false⟩,
    .go 1 ⟨false, true, true, false⟩, .go 1 ⟨false, true, true, false⟩]

theorem exclusive_clearRun : ∃ s, (system sampledContentionConfig).run initState clearRun = some s ∧
    s.live = [⟨1, 0, 0⟩] ∧
    ((∀ s₁, (system sampledContentionConfig).Passes initState clearRun s₁ → Exclusive s₁) ↔
      (system sampledContentionConfig).RunOk NoReentry initState clearRun) := by
  have hrun : ((system sampledContentionConfig).run initState clearRun).map (fun s => s.live) =
      some [⟨1, 0, 0⟩] := by decide
  obtain ⟨s, hs, hx⟩ := Option.map_eq_some_iff.1 hrun
  exact ⟨s, hs, hx, exclusive_iff hs⟩

end Pool
end ContentionProf
