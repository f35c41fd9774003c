import ContentionProf.Hook
/-!
# HookList — the thread's list of records

What `refresh`, `append`, `find` and `remove` do to the live entries of a list.
-/
namespace ContentionProf
namespace Hook

namespace TLSPthreadContentionSites

/-- The list has a live entry for the mutex. -/
def Live (f : TLSPthreadContentionSites) (m : Addr) : Prop := ∃ j, j < f.count ∧ (f.list j).mutex = m

theorem refresh_count {f : TLSPthreadContentionSites} {v : Nat} (h : 0 < f.count → f.cpVersion = v) :
    (f.refresh v).count = f.count := by
  unfold refresh
  split
  · rename_i hv
    exact (Nat.eq_zero_of_not_pos (fun hc => hv (h hc))).symm
  · rfl

@[simp] theorem refresh_list (f : TLSPthreadContentionSites) (v : Nat) : (f.refresh v).list = f.list := by
  unfold refresh; split <;> rfl

@[simp] theorem refresh_cpVersion (f : TLSPthreadContentionSites) (v : Nat) : (f.refresh v).cpVersion = v := by
  unfold refresh
  split
  · rfl
  · rename_i hv; exact not_not.1 hv

/-- Appending either adds one entry at the end or finds the list full. -/
theorem append_cases (f : TLSPthreadContentionSites) (m : Addr) (r : U64) :
    ((f.append m r).2 = some f.count ∧ (f.append m r).1.count = f.count + 1 ∧
      (f.append m r).1.cpVersion = f.cpVersion ∧ ((f.append m r).1.list f.count).mutex = m ∧
      (r = 0 → ((f.append m r).1.list f.count).csite.samplingRange = 0) ∧
      ∀ j, j ≠ f.count → (f.append m r).1.list j = f.list j) ∨
    ((f.append m r).2 = none ∧ (f.append m r).1 = f ∧ f.count = tlsMaxCount) := by
  unfold append
  split
  · refine .inl ⟨rfl, rfl, rfl, ?_, ?_, ?_⟩
    · simp
    · intro hr; simp [hr, makeContentionSiteInvalid]
    · intro j hj; exact Function.update_of_ne hj _ _
  · rename_i h
    exact .inr ⟨rfl, rfl, Nat.le_antisymm f.count_le (Nat.le_of_not_lt h)⟩

theorem scan_some {list : Nat → MutexAndContentionSite} {m : Addr} {k : Nat} :
    ∀ {n : Nat}, scan list m n = some k → k < n ∧ (list k).mutex = m
  | 0, h     => by cases h
  | n + 1, h => by
    rw [scan] at h
    split at h
    · rename_i hm
      cases h
      exact ⟨Nat.lt_succ_self _, hm⟩
    · obtain ⟨hk, hm⟩ := scan_some h
      exact ⟨Nat.lt_succ_of_lt hk, hm⟩

theorem scan_none {list : Nat → MutexAndContentionSite} {m : Addr} :
    ∀ {n : Nat}, scan list m n = none → ∀ j, j < n → (list j).mutex ≠ m
  | 0, _, _, hj     => absurd hj (Nat.not_lt_zero _)
  | n + 1, h, j, hj => by
    rw [scan] at h
    split at h
    · cases h
    · rename_i hm
      rcases Nat.lt_succ_iff_lt_or_eq.1 hj with hj | rfl
      · exact scan_none h j hj
      · exact hm

theorem find_some {f : TLSPthreadContentionSites} {m : Addr} {k : Nat} (h : f.find m = some k) :
    k < f.count ∧ (f.list k).mutex = m := scan_some h

theorem find_none {f : TLSPthreadContentionSites} {m : Addr} (h : f.find m = none) : ¬ f.Live m :=
  fun ⟨j, hj, hm⟩ => scan_none h j hj hm

/-- What is left of the list after an entry was removed comes from another entry. -/
theorem remove_list {f : TLSPthreadContentionSites} {k j : Nat} (hk : k < f.count) (hj : j < (f.remove k).count) :
    ∃ i, i < f.count ∧ i ≠ k ∧ (f.remove k).list j = f.list i ∧ (j = k → i = f.count - 1) ∧ (j ≠ k → i = j) := by
  have hj : j < f.count - 1 := hj
  by_cases h : j = k
  · subst h
    exact ⟨f.count - 1, by omega, by omega, by simp [remove], fun _ => rfl, fun hn => absurd rfl hn⟩
  · exact ⟨j, by omega, h, by simp [remove, h], fun hn => absurd hn h, fun _ => rfl⟩

end TLSPthreadContentionSites

end Hook
end ContentionProf
