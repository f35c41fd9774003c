import ContentionProf.CombinerHook
/-!
# CombinerRelock — who locks `mtx_` while owning it

The walk of `reset_all_agents` unlocks element mutexes while it owns `mtx_`.  The submission that such an unlock runs
reaches `mtx_` again exactly when the thread's own agent is not registered yet.
-/
namespace ContentionProf
namespace CombinerHook

open Hook (Mem owners Single)

variable {α : Type} {L : Layout} {s s' : State α} {t u : Thread} {m : Addr} {i : Input α}

/-- The thread is between its lock and its unlock of `mtx_`. -/
def Main.hasMtx : Main → Bool
  | .walk _ _               => true
  | .exchangeLock _ _ _ _   => true
  | .exchangeUnlock _ _ _ _ => true
  | .combine _ _ _          => true
  | .resetUnlock _          => true
  | .loadLock _             => true
  | .loadUnlock _           => true
  | .erase _                => true
  | .commitUnlock           => true
  | _                       => false

/-- The element mutex the thread owns in a reset or in its exit. -/
def Main.hasElement (L : Layout) (t : Thread) : Main → Option Addr
  | .exchangeUnlock _ _ _ u => some (L.element u)
  | .loadUnlock _           => some (L.element t)
  | _                       => none

/-- The thread owns what its place says. -/
structure Owns (L : Layout) (o : Addr → Option Thread) (t : Thread) (p : Main) (q : Sub) : Prop where
  mtx : o L.mtx = some t ↔ p.hasMtx = true
  main : ∀ m, p.hasElement L t = some m → o m = some t
  sub : q = .modifyUnlock → o (L.element t) = some t
  apart : q ≠ .none → p.hasElement L t = none

structure LockInv (L : Layout) (s : State α) : Prop where
  single : Single s.mem
  owns : ∀ t, Owns L (owners s.mem) t (s.main t) (s.sub t)

/-- The thread is about to lock `mtx_`, or waits for it. -/
def LocksMtx (s : State α) (t : Thread) : Prop :=
  match s.sub t, s.main t with
  | .append _, _       => True
  | .none, .resetLock _  => True
  | .none, .commitLock _ => True
  | _, _               => False

/-- The thread locks the mutex it owns. -/
def Relocks (L : Layout) (s : State α) (t : Thread) : Prop := owners s.mem L.mtx = some t ∧ LocksMtx s t

/-- **A submission that is not dropped finds a registered agent**, if its thread owns `mtx_`. -/
def RegisteredInReset (L : Layout) (s : State α) : Label α → Prop
  | .go t i =>
    (s.sub t).isSubmit = true → i.late = false → owners s.mem L.mtx = some t → s.combiner t = true
  | _       => True

/-! ## What a lock and an unlock do -/

theorem lock_spec {busy : Bool} {waiting : Main} {locked : State α → State α}
    (hs : lock s t m busy i waiting locked = some s') :
    s' = s.setMain t waiting ∨ ∃ mem, owners s.mem m = none ∧ owners mem = Function.update (owners s.mem) m (some t) ∧
      (Single s.mem → Single mem) ∧ s' = locked { s with mem := mem } := by
  unfold lock at hs
  split at hs
  · exact .inl (Option.some.inj hs).symm
  · obtain ⟨mem, hmem, rfl⟩ := Option.map_eq_some_iff.1 hs
    obtain ⟨hfree, hown, hsingle⟩ := Hook.pthreadMutexLockImpl_owner hmem rfl
    exact .inr ⟨mem, hfree, hown, hsingle, rfl⟩

/-- The state after an unlock: a submission may have begun. -/
inductive Unlocked (s : State α) (t : Thread) (data : α) (mem : Mem) : State α → Prop
  | quiet : Unlocked s t data mem { s with mem := mem }
  | fires : Unlocked s t data mem ({ s with mem := mem }.makeSample t data)

theorem unlock_spec (hs : Single s.mem) (ho : owners s.mem m = some t) (i : Input α) :
    ∃ mem, owners mem = Function.update (owners s.mem) m none ∧ Single mem ∧
    Unlocked s t i.data mem (unlock s t m i) := by
  obtain ⟨hown, hsingle⟩ := Hook.pthreadMutexUnlockImpl_owner ⟨i.startNs, i.nowNs⟩ hs ho
  refine ⟨_, hown, hsingle, ?_⟩
  unfold unlock
  dsimp only
  split
  · exact .fires
  · exact .quiet

theorem realLock_spec (hs : realLock s t m = some s') : owners s.mem m = none ∧
    s' = { s with mem := s.mem.acquire t m false 0 } := by
  unfold realLock at hs
  split at hs
  · cases hs
  · rename_i hb
    cases hs
    exact ⟨Hook.busy_false_iff.1 (by simpa using hb), rfl⟩

/-! ## One step -/

/-- A mutex goes from free to a thread, or from the thread to free: nobody else notices. -/
theorem owners_update_iff {o : Addr → Option Thread} {v : Option Thread} (hv : v = some t ∨ v = none)
    (ho : o m = some t ∨ o m = none) (hu : u ≠ t) (n : Addr) : Function.update o m v n = some u ↔ o n = some u := by
  by_cases hn : n = m
  · subst hn
    rw [Function.update_self]
    have hut : some u ≠ some t := fun h => hu (Option.some.inj h)
    constructor
    · rintro rfl
      rcases hv with hv | hv
      · exact absurd hv hut
      · cases hv
    · intro h
      rw [h] at ho
      rcases ho with ho | ho
      · exact absurd ho hut
      · cases ho
  · rw [Function.update_of_ne hn]

theorem Owns.of_iff {o o' : Addr → Option Thread} {p : Main} {q : Sub} (h : Owns L o u p q)
    (ho : ∀ n, o' n = some u ↔ o n = some u) : Owns L o' u p q :=
  ⟨(ho _).trans h.mtx, fun n hn => (ho n).2 (h.main n hn), fun hq => (ho _).2 (h.sub hq), h.apart⟩

/-- Only the moving thread's place changes, and the mutexes of the others stay theirs. -/
theorem LockInv.of_step (h : LockInv L s) (hmain : ∀ u, u ≠ t → s'.main u = s.main u)
    (hsub : ∀ u, u ≠ t → s'.sub u = s.sub u) (hsingle : Single s'.mem)
    (hother : ∀ u, u ≠ t → ∀ n, owners s'.mem n = some u ↔ owners s.mem n = some u)
    (hself : Owns L (owners s'.mem) t (s'.main t) (s'.sub t)) : LockInv L s' := by
  refine ⟨hsingle, fun u => ?_⟩
  by_cases hu : u = t
  · rw [hu]; exact hself
  · rw [hmain u hu, hsub u hu]
    exact (h.owns u).of_iff (hother u hu)

@[simp] theorem setMain_main_self (s : State α) (t : Thread) (p : Main) : (s.setMain t p).main t = p :=
  Function.update_self ..

@[simp] theorem setSub_sub_self (s : State α) (t : Thread) (q : Sub) : (s.setSub t q).sub t = q :=
  Function.update_self ..

theorem setMain_main_of_ne {p : Main} (hu : u ≠ t) : (s.setMain t p).main u = s.main u := Function.update_of_ne hu ..

theorem setSub_sub_of_ne {q : Sub} (hu : u ≠ t) : (s.setSub t q).sub u = s.sub u := Function.update_of_ne hu ..

/-- A step after which every mutex has the owner it had. -/
theorem LockInv.move {p : Main} {q : Sub} (h : LockInv L s) (hown : owners s'.mem = owners s.mem)
    (hsingle : Single s'.mem) (hmain : s'.main = Function.update s.main t p)
    (hsub : s'.sub = Function.update s.sub t q) (hself : Owns L (owners s.mem) t p q) : LockInv L s' := by
  refine h.of_step (t := t) (fun u hu => ?_) (fun u hu => ?_) hsingle (fun u _ n => by rw [hown]) ?_
  · rw [hmain, Function.update_of_ne hu]
  · rw [hsub, Function.update_of_ne hu]
  · rw [hown, hmain, hsub, Function.update_self, Function.update_self]
    exact hself

/-- A step that locks or unlocks one mutex. -/
theorem LockInv.change {p : Main} {q : Sub} {v : Option Thread} (h : LockInv L s)
    (hv : v = some t ∨ v = none) (ho : owners s.mem m = some t ∨ owners s.mem m = none)
    (hmem : owners s'.mem = Function.update (owners s.mem) m v) (hsingle : Single s'.mem)
    (hmain : s'.main = Function.update s.main t p) (hsub : s'.sub = Function.update s.sub t q)
    (hself : Owns L (Function.update (owners s.mem) m v) t p q) : LockInv L s' := by
  refine h.of_step (t := t) (fun u hu => ?_) (fun u hu => ?_) hsingle (fun u hu n => ?_) ?_
  · rw [hmain, Function.update_of_ne hu]
  · rw [hsub, Function.update_of_ne hu]
  · rw [hmem]
    exact owners_update_iff hv ho hu n
  · rw [hmem, hmain, hsub, Function.update_self, Function.update_self]
    exact hself

theorem LockInv.unlock {s₁ : State α} {p : Main} (h : LockInv L s) (ho : owners s.mem m = some t)
    (hmem : s₁.mem = s.mem) (hmain : s₁.main = Function.update s.main t p) (hsub : s₁.sub = s.sub)
    (hself : ∀ q : Sub, q ≠ .modifyUnlock → Owns L (Function.update (owners s.mem) m none) t p q)
    (hq : s.sub t = .none) : LockInv L (unlock s₁ t m i) := by
  obtain ⟨mem, hown, hsingle, hun⟩ := unlock_spec (hmem ▸ h.single) (hmem ▸ ho) i
  rw [hmem] at hown
  generalize CombinerHook.unlock s₁ t m i = s₂ at hun
  cases hun with
  | quiet =>
    refine h.change (.inr rfl) (.inl ho) hown hsingle hmain ?_ (hself .none nofun)
    show s₁.sub = _
    rw [hsub, ← hq, Function.update_eq_self]
  | fires =>
    refine h.change (.inr rfl) (.inl ho) hown hsingle hmain ?_ (hself (.submit s₁.fresh) nofun)
    show Function.update s₁.sub t _ = _
    rw [hsub]

theorem LockInv.lock {busy : Bool} {waiting p : Main} {locked : State α → State α} (h : LockInv L s)
    (hq : s.sub t = .none) (hs : lock s t m busy i waiting locked = some s')
    (hwait : Owns L (owners s.mem) t waiting .none) (hmem : ∀ mem, (locked { s with mem := mem }).mem = mem)
    (hmain : ∀ mem, (locked { s with mem := mem }).main = Function.update s.main t p)
    (hsub : ∀ mem, (locked { s with mem := mem }).sub = s.sub)
    (hself : owners s.mem m = none → Owns L (Function.update (owners s.mem) m (some t)) t p .none) : LockInv L s' := by
  have hnone : s.sub = Function.update s.sub t .none := by rw [← hq, Function.update_eq_self]
  rcases lock_spec hs with rfl | ⟨mem, hfree, hown, hsingle, rfl⟩
  · exact h.move rfl h.single rfl hnone hwait
  · refine h.change (.inl rfl) (.inr hfree) ?_ ?_ (hmain _) ((hsub _).trans hnone) (hself hfree)
    · rw [hmem]; exact hown
    · rw [hmem]; exact hsingle h.single

/-- **A step of a reset or an exit locks and unlocks as its places say.** -/
theorem LockInv.mainStep (h : LockInv L s) (hq : s.sub t = .none) (hs : mainStep L s t i = some s') : LockInv L s' := by
  have ho := h.owns t
  have hnone : s.sub = Function.update s.sub t .none := by rw [← hq, Function.update_eq_self]
  cases hp : s.main t <;> rw [hp] at ho <;> simp only [CombinerHook.mainStep, hp] at hs
  case idle => cases hs
  case resetLock busy =>
    refine h.lock (p := .walk 0 s.globalResult) hq hs ⟨ho.mtx, nofun, nofun, fun h => absurd rfl h⟩ (fun _ => rfl)
      (fun _ => rfl) (fun _ => rfl) (fun _ => ⟨?_, nofun, nofun, fun h => absurd rfl h⟩)
    rw [Function.update_self]; exact iff_of_true rfl rfl
  case walk node tmp =>
    split at hs <;> cases hs <;> exact h.move rfl h.single rfl hnone ⟨ho.mtx, nofun, nofun, fun h => absurd rfl h⟩
  case exchangeLock node tmp u busy =>
    refine h.lock (p := .exchangeUnlock node tmp (s.element u) u) hq hs ⟨ho.mtx, nofun, nofun, fun h => absurd rfl h⟩
      (fun _ => rfl) (fun _ => rfl) (fun _ => rfl) (fun _ => ⟨?_, ?_, nofun, fun h => absurd rfl h⟩)
    · rw [Function.update_of_ne (L.ne u).symm]; exact ho.mtx
    · rintro n hn
      cases hn
      rw [Function.update_self]
  case exchangeUnlock node tmp prev u =>
    cases hs
    refine h.unlock (ho.main _ rfl) rfl rfl rfl (fun q hq' => ⟨?_, nofun, fun hm => absurd hm hq', fun _ => rfl⟩) hq
    rw [Function.update_of_ne (L.ne u).symm]; exact ho.mtx
  case combine node tmp prev =>
    cases hs
    exact h.move rfl h.single rfl hnone ⟨ho.mtx, nofun, nofun, fun h => absurd rfl h⟩
  case resetUnlock tmp =>
    cases hs
    refine h.unlock (ho.mtx.2 rfl) rfl rfl rfl (fun q hq' => ⟨?_, nofun, fun hm => absurd hm hq', fun _ => rfl⟩) hq
    rw [Function.update_self]; exact iff_of_false nofun nofun
  case commitLock busy =>
    refine h.lock (p := .loadLock false) hq hs ⟨ho.mtx, nofun, nofun, fun h => absurd rfl h⟩ (fun _ => rfl)
      (fun _ => rfl) (fun _ => rfl) (fun _ => ⟨?_, nofun, nofun, fun h => absurd rfl h⟩)
    rw [Function.update_self]; exact iff_of_true rfl rfl
  case loadLock busy =>
    refine h.lock (p := .loadUnlock (s.element t)) hq hs ⟨ho.mtx, nofun, nofun, fun h => absurd rfl h⟩ (fun _ => rfl)
      (fun _ => rfl) (fun _ => rfl) (fun _ => ⟨?_, ?_, nofun, fun h => absurd rfl h⟩)
    · rw [Function.update_of_ne (L.ne t).symm]; exact ho.mtx
    · rintro n hn
      cases hn
      rw [Function.update_self]
  case loadUnlock val =>
    cases hs
    refine h.unlock (ho.main _ rfl) rfl rfl rfl (fun q hq' => ⟨?_, nofun, fun hm => absurd hm hq', fun _ => rfl⟩) hq
    rw [Function.update_of_ne (L.ne t).symm]; exact ho.mtx
  case erase val =>
    cases hs
    exact h.move rfl h.single rfl hnone ⟨ho.mtx, nofun, nofun, fun h => absurd rfl h⟩
  case commitUnlock =>
    cases hs
    refine h.unlock (ho.mtx.2 rfl) rfl rfl rfl (fun q hq' => ⟨?_, nofun, fun hm => absurd hm hq', fun _ => rfl⟩) hq
    rw [Function.update_self]; exact iff_of_false nofun nofun
  case clear =>
    cases hs
    exact h.move rfl h.single rfl hnone ⟨ho.mtx, nofun, nofun, fun h => absurd rfl h⟩

/-- **A step of a submission does not keep `mtx_`.** -/
theorem LockInv.subStep (h : LockInv L s) (hs : subStep L s t i = some s') : LockInv L s' := by
  have ho := h.owns t
  have hnone : s.main = Function.update s.main t (s.main t) := (Function.update_eq_self ..).symm
  cases hp : s.sub t <;> rw [hp] at ho <;> simp only [CombinerHook.subStep, hp] at hs
  case none => cases hs
  case submit x =>
    split at hs
    · cases hs
      exact h.move rfl h.single hnone rfl ⟨ho.mtx, ho.main, nofun, fun h => absurd rfl h⟩
    split at hs
    · cases hs
      exact h.move rfl h.single hnone rfl ⟨ho.mtx, ho.main, nofun, fun _ => ho.apart nofun⟩
    · obtain ⟨s₁, hl, rfl⟩ := Option.map_eq_some_iff.1 hs
      obtain ⟨hfree, rfl⟩ := realLock_spec hl
      obtain ⟨hown, hsingle⟩ := Hook.owners_acquire_release (t := t) (b := false) (r := 0) h.single hfree
      exact h.move hown hsingle hnone rfl ⟨ho.mtx, ho.main, nofun, fun _ => ho.apart nofun⟩
  case append x =>
    obtain ⟨s₁, hl, rfl⟩ := Option.map_eq_some_iff.1 hs
    obtain ⟨hfree, rfl⟩ := realLock_spec hl
    obtain ⟨hown, hsingle⟩ := Hook.owners_acquire_release (t := t) (b := false) (r := 0) h.single hfree
    exact h.move hown hsingle hnone rfl ⟨ho.mtx, ho.main, nofun, fun _ => ho.apart nofun⟩
  case modifyLock x =>
    obtain ⟨s₁, hl, rfl⟩ := Option.map_eq_some_iff.1 hs
    obtain ⟨hfree, rfl⟩ := realLock_spec hl
    have hap := ho.apart nofun
    refine h.change (.inl rfl) (.inr hfree) (Hook.owners_acquire ..) (h.single.acquire hfree) hnone rfl
      ⟨?_, fun n hn => ?_, fun _ => Function.update_self .., fun _ => hap⟩
    · rw [Function.update_of_ne (L.ne t).symm]; exact ho.mtx
    · rw [hap] at hn; cases hn
  case modifyUnlock =>
    cases hs
    have hel := ho.sub rfl
    have hap := ho.apart nofun
    refine h.change (.inr rfl) (.inl hel) (Hook.owners_release h.single hel) (h.single.release hel) hnone rfl
      ⟨?_, fun n hn => ?_, nofun, fun h => absurd rfl h⟩
    · rw [Function.update_of_ne (L.ne t).symm]; exact ho.mtx
    · rw [hap] at hn; cases hn

theorem isNone_iff {q : Sub} : q.isNone = true ↔ q = .none := by cases q <;> simp [Sub.isNone]

theorem isSubmit_iff {q : Sub} : q.isSubmit = true ↔ ∃ x, q = .submit x := by cases q <;> simp [Sub.isSubmit]

theorem isIdle_iff {p : Main} : p.isIdle = true ↔ p = .idle := by cases p <;> simp [Main.isIdle]

/-! ### What each label can do -/

theorem step_contend {data : α} (hs : step L s (.contend t data) = some s') :
    s.main t = .idle ∧ s.sub t = .none ∧ s' = s.makeSample t data := by
  obtain ⟨hc, hs⟩ := Option.ite_none_right_eq_some.1 hs
  obtain ⟨hp, hq⟩ := Bool.and_eq_true_iff.1 hc
  exact ⟨isIdle_iff.1 hp, isNone_iff.1 hq, (Option.some.inj hs).symm⟩

theorem step_reset (hs : step L s (.reset t) = some s') :
    s.main t = .idle ∧ s.sub t = .none ∧ s' = s.setMain t (.resetLock false) := by
  obtain ⟨hc, hs⟩ := Option.ite_none_right_eq_some.1 hs
  obtain ⟨hp, hq⟩ := Bool.and_eq_true_iff.1 hc
  exact ⟨isIdle_iff.1 hp, isNone_iff.1 hq, (Option.some.inj hs).symm⟩

theorem step_exit (hs : step L s (.exit t) = some s') :
    s.main t = .idle ∧ s.sub t = .none ∧ s.combiner t = true ∧ s' = s.setMain t (.commitLock false) := by
  obtain ⟨hc, hs⟩ := Option.ite_none_right_eq_some.1 hs
  obtain ⟨hc, hcomb⟩ := Bool.and_eq_true_iff.1 hc
  obtain ⟨hp, hq⟩ := Bool.and_eq_true_iff.1 hc
  exact ⟨isIdle_iff.1 hp, isNone_iff.1 hq, hcomb, (Option.some.inj hs).symm⟩

theorem step_go (hs : step L s (.go t i) = some s') :
    s.sub t = .none ∧ mainStep L s t i = some s' ∨ subStep L s t i = some s' := by
  have hs : (if (s.sub t).isNone then mainStep L s t i else subStep L s t i) = some s' := hs
  by_cases hq : (s.sub t).isNone = true
  · rw [if_pos hq] at hs
    exact Or.inl ⟨isNone_iff.1 hq, hs⟩
  · rw [if_neg hq] at hs
    exact Or.inr hs

theorem lockInv_step {a : Label α} (h : LockInv L s) (hs : step L s a = some s') : LockInv L s' := by
  cases a with
  | contend t data =>
    obtain ⟨hp, -, rfl⟩ := step_contend hs
    have ho := h.owns t
    rw [hp] at ho
    exact h.move (p := .idle) rfl h.single (by rw [← hp]; exact (Function.update_eq_self ..).symm) rfl
      ⟨ho.mtx, nofun, nofun, fun _ => rfl⟩
  | reset t =>
    obtain ⟨hp, hq, rfl⟩ := step_reset hs
    have ho := h.owns t
    rw [hp] at ho
    exact h.move (q := .none) rfl h.single rfl (by rw [← hq]; exact (Function.update_eq_self ..).symm)
      ⟨ho.mtx, nofun, nofun, fun h => absurd rfl h⟩
  | exit t =>
    obtain ⟨hp, hq, -, rfl⟩ := step_exit hs
    have ho := h.owns t
    rw [hp] at ho
    exact h.move (q := .none) rfl h.single rfl (by rw [← hq]; exact (Function.update_eq_self ..).symm)
      ⟨ho.mtx, nofun, nofun, fun h => absurd rfl h⟩
  | go t i =>
    rcases step_go hs with ⟨hq, hs⟩ | hs
    · exact h.mainStep hq hs
    · exact h.subStep hs

theorem lockInv_init (h : (system L α).init s) : LockInv L s := by
  obtain ⟨ho, hsingle, -, -, -, -, hmain, hsub, -, -⟩ := h
  refine ⟨hsingle, fun t => ?_⟩
  rw [hmain, hsub]
  exact ⟨by rw [ho]; exact iff_of_false nofun nofun, nofun, nofun, fun h => absurd rfl h⟩

/-! ## Who moves -/

def Label.thread : Label α → Thread
  | .contend t _ => t
  | .reset t     => t
  | .exit t      => t
  | .go t _      => t

/-- A thread stands where it stood. -/
def Still (s s' : State α) (u : Thread) : Prop := s'.main u = s.main u ∧ s'.sub u = s.sub u

theorem lock_still {busy : Bool} {waiting : Main} {locked : State α → State α}
    (hs : lock s t m busy i waiting locked = some s') (hu : u ≠ t)
    (hl : ∀ mem, Still s (locked { s with mem := mem }) u) : Still s s' u := by
  rcases lock_spec hs with rfl | ⟨mem, -, -, -, rfl⟩
  · exact ⟨setMain_main_of_ne hu, rfl⟩
  · exact hl mem

theorem unlock_fields (s : State α) (t : Thread) (m : Addr) (i : Input α) :
    (unlock s t m i).main = s.main ∧
      ((unlock s t m i).sub = s.sub ∨ (unlock s t m i).sub = Function.update s.sub t (.submit s.fresh)) := by
  unfold unlock
  dsimp only
  split
  · exact ⟨rfl, .inr rfl⟩
  · exact ⟨rfl, .inl rfl⟩

theorem unlock_still {s₁ : State α} (hu : u ≠ t) (h : Still s s₁ u) : Still s (unlock s₁ t m i) u := by
  obtain ⟨hm, hs | hs⟩ := unlock_fields s₁ t m i
  · exact ⟨hm ▸ h.1, hs ▸ h.2⟩
  · exact ⟨hm ▸ h.1, by rw [hs, Function.update_of_ne hu]; exact h.2⟩

theorem mainStep_still (hs : mainStep L s t i = some s') (hu : u ≠ t) : Still s s' u := by
  have hmain : ∀ {s₁ : State α} {p : Main}, Still s s₁ u → Still s (s₁.setMain t p) u := fun h =>
    ⟨(setMain_main_of_ne hu).trans h.1, h.2⟩
  have hrefl : Still s s u := ⟨rfl, rfl⟩
  cases hp : s.main t <;> simp only [mainStep, hp] at hs
  case idle => cases hs
  case resetLock => exact lock_still hs hu (fun _ => hmain hrefl)
  case walk => split at hs <;> cases hs <;> exact hmain hrefl
  case exchangeLock => exact lock_still hs hu (fun _ => hmain hrefl)
  case exchangeUnlock => cases hs; exact unlock_still hu (hmain hrefl)
  case combine => cases hs; exact hmain hrefl
  case resetUnlock => cases hs; exact unlock_still hu (hmain hrefl)
  case commitLock => exact lock_still hs hu (fun _ => hmain hrefl)
  case loadLock => exact lock_still hs hu (fun _ => hmain hrefl)
  case loadUnlock => cases hs; exact unlock_still hu (hmain hrefl)
  case erase => cases hs; exact hmain hrefl
  case commitUnlock => cases hs; exact unlock_still hu (hmain hrefl)
  case clear => cases hs; exact hmain hrefl

/-- **A step of a submission**: it is dropped, or goes on with a registered agent or without. -/
theorem subStep_cases (hs : subStep L s t i = some s') : s'.main = s.main ∧
    ∃ q, s'.sub = Function.update s.sub t q ∧
      ∀ x, q = .append x → s.sub t = .submit x ∧ i.late = false ∧ s.combiner t = false := by
  cases hp : s.sub t <;> simp only [subStep, hp] at hs
  case none => cases hs
  case submit x =>
    split at hs
    · cases hs; exact ⟨rfl, _, rfl, nofun⟩
    rename_i hl
    split at hs
    · cases hs; exact ⟨rfl, _, rfl, nofun⟩
    rename_i hc
    obtain ⟨s₁, h₁, rfl⟩ := Option.map_eq_some_iff.1 hs
    obtain ⟨-, rfl⟩ := realLock_spec h₁
    refine ⟨rfl, .append x, rfl, fun y hy => ?_⟩
    cases hy
    exact ⟨rfl, by simpa using hl, by simpa using hc⟩
  case append x =>
    obtain ⟨s₁, h₁, rfl⟩ := Option.map_eq_some_iff.1 hs
    obtain ⟨-, rfl⟩ := realLock_spec h₁
    exact ⟨rfl, _, rfl, nofun⟩
  case modifyLock x =>
    obtain ⟨s₁, h₁, rfl⟩ := Option.map_eq_some_iff.1 hs
    obtain ⟨-, rfl⟩ := realLock_spec h₁
    exact ⟨rfl, _, rfl, nofun⟩
  case modifyUnlock => cases hs; exact ⟨rfl, _, rfl, nofun⟩

theorem mainStep_sub (hs : mainStep L s t i = some s') (hq : s.sub t = .none) (x : Nat) :
    s'.sub t ≠ .append x := by
  have hlock : ∀ {m : Addr} {busy : Bool} {waiting : Main} {locked : State α → State α},
      lock s t m busy i waiting locked = some s' → (∀ mem, (locked { s with mem := mem }).sub = s.sub) →
        s'.sub t ≠ .append x := by
    intro m busy waiting locked hl hk
    rcases lock_spec hl with rfl | ⟨mem, -, -, -, rfl⟩
    · rw [show (s.setMain t waiting).sub = s.sub from rfl, hq]; exact nofun
    · rw [hk, hq]; exact nofun
  have hunlock : ∀ {s₁ : State α} {m : Addr}, s₁.sub = s.sub → (unlock s₁ t m i).sub t ≠ .append x := by
    intro s₁ m h₁
    rcases (unlock_fields s₁ t m i).2 with h | h
    · rw [h, h₁, hq]; exact nofun
    · rw [h, Function.update_self]; exact nofun
  cases hp : s.main t <;> simp only [mainStep, hp] at hs
  case idle => cases hs
  case resetLock => exact hlock hs (fun _ => rfl)
  case walk => split at hs <;> cases hs <;> exact fun h => nomatch hq.symm.trans h
  case exchangeLock => exact hlock hs (fun _ => rfl)
  case exchangeUnlock => cases hs; exact hunlock rfl
  case combine => cases hs; exact fun h => nomatch hq.symm.trans h
  case resetUnlock => cases hs; exact hunlock rfl
  case commitLock => exact hlock hs (fun _ => rfl)
  case loadLock => exact hlock hs (fun _ => rfl)
  case loadUnlock => cases hs; exact hunlock rfl
  case erase => cases hs; exact fun h => nomatch hq.symm.trans h
  case commitUnlock => cases hs; exact hunlock rfl
  case clear => cases hs; exact fun h => nomatch hq.symm.trans h

theorem step_still {a : Label α} (hs : step L s a = some s') (hu : u ≠ a.thread) : Still s s' u := by
  cases a with
  | contend t data =>
    obtain ⟨-, -, rfl⟩ := step_contend hs
    exact ⟨rfl, setSub_sub_of_ne hu⟩
  | reset t =>
    obtain ⟨-, -, rfl⟩ := step_reset hs
    exact ⟨setMain_main_of_ne hu, rfl⟩
  | exit t =>
    obtain ⟨-, -, -, rfl⟩ := step_exit hs
    exact ⟨setMain_main_of_ne hu, rfl⟩
  | go t i =>
    have hu : u ≠ t := hu
    rcases step_go hs with ⟨-, hs⟩ | hs
    · exact mainStep_still hs hu
    · obtain ⟨hm, q, hq, -⟩ := subStep_cases hs
      exact ⟨by rw [hm], by rw [hq, Function.update_of_ne hu]⟩

/-- **A thread comes to the lock of `mtx_` in `get_or_create_tls_agent` only from a submission that is not dropped and
finds no agent.** -/
theorem step_append {a : Label α} {x : Nat} (hs : step L s a = some s') (hx : s'.sub u = .append x)
    (hold : s.sub u ≠ .append x) :
    s'.main u = s.main u ∧ ∃ i, a = .go u i ∧ s.sub u = .submit x ∧ i.late = false ∧ s.combiner u = false := by
  by_cases hu : u = a.thread
  · cases a with
    | contend t data =>
      have hu : u = t := hu
      subst hu
      obtain ⟨-, -, rfl⟩ := step_contend hs
      rw [State.makeSample, setSub_sub_self] at hx
      cases hx
    | reset t =>
      obtain ⟨-, -, rfl⟩ := step_reset hs
      exact absurd hx hold
    | exit t =>
      obtain ⟨-, -, -, rfl⟩ := step_exit hs
      exact absurd hx hold
    | go t i =>
      have hu : u = t := hu
      subst hu
      rcases step_go hs with ⟨hq, hs⟩ | hs
      · exact absurd hx (mainStep_sub hs hq x)
      · obtain ⟨hm, q, hq, happ⟩ := subStep_cases hs
        rw [hq, Function.update_self] at hx
        exact ⟨by rw [hm], i, rfl, happ x hx⟩
  · exact absurd ((step_still hs hu).2.symm.trans hx) hold

/-! ## The locks of `mtx_` -/

/-- No thread that owns `mtx_` is about to lock it in `get_or_create_tls_agent`. -/
def NoAppend (s : State α) : Prop := ∀ t x, s.sub t = .append x → (s.main t).hasMtx = false

theorem LockInv.not_relocks (h : LockInv L s) (hn : NoAppend s) (t : Thread) : ¬ Relocks L s t := by
  rintro ⟨ho, hl⟩
  have hhas := (h.owns t).mtx.1 ho
  unfold LocksMtx at hl
  split at hl
  · rename_i x hx
    rw [hn t x hx] at hhas
    cases hhas
  · rename_i b _ hm
    rw [hm] at hhas
    cases hhas
  · rename_i b _ hm
    rw [hm] at hhas
    cases hhas
  · exact hl

theorem noAppend_step {a : Label α} (h : LockInv L s) (hn : NoAppend s) (hok : RegisteredInReset L s a)
    (hs : step L s a = some s') : NoAppend s' := by
  intro u x hx
  by_cases hold : s.sub u = .append x
  · by_cases hu : u = a.thread
    · subst hu
      cases a with
      | go t i =>
        rcases step_go hs with ⟨hq, -⟩ | hs
        · rw [show Label.thread (.go t i) = t from rfl, hq] at hold
          cases hold
        · rw [(subStep_cases hs).1]
          exact hn _ x hold
      | contend t data =>
        obtain ⟨-, -, rfl⟩ := step_contend hs
        exact hn _ x hold
      | reset t =>
        obtain ⟨-, -, rfl⟩ := step_reset hs
        rw [show Label.thread (.reset t : Label α) = t from rfl, setMain_main_self]
        rfl
      | exit t =>
        obtain ⟨-, -, -, rfl⟩ := step_exit hs
        rw [show Label.thread (.exit t : Label α) = t from rfl, setMain_main_self]
        rfl
    · rw [(step_still hs hu).1]
      exact hn u x hold
  · obtain ⟨hm, i, rfl, hsub, hlate, hcomb⟩ := step_append hs hx hold
    rw [hm]
    have hno : owners s.mem L.mtx ≠ some u := by
      intro ho
      have := hok (by rw [hsub]; rfl) hlate ho
      rw [hcomb] at this
      cases this
    rw [Ne, (h.owns u).mtx] at hno
    simpa using hno

/-- **A submission without a registered agent, on the thread that owns `mtx_`, locks it again.** -/
theorem relocks_of_not_registered {a : Label α} (h : LockInv L s) (hok : ¬ RegisteredInReset L s a)
    (hs : step L s a = some s') : ¬ ∀ t, ¬ Relocks L s' t := by
  have h' := lockInv_step h hs
  cases a with
  | go t i =>
    simp only [RegisteredInReset, Classical.not_imp] at hok
    obtain ⟨hsub, hlate, ho, hc⟩ := hok
    obtain ⟨x, hsub⟩ := isSubmit_iff.1 hsub
    rcases step_go hs with ⟨hq, -⟩ | hs
    · rw [hsub] at hq
      cases hq
    simp only [Bool.false_eq_true, if_false, subStep, hsub, hlate, hc] at hs
    obtain ⟨s₁, h₁, rfl⟩ := Option.map_eq_some_iff.1 hs
    obtain ⟨-, rfl⟩ := realLock_spec h₁
    intro hall
    refine hall t ⟨(h'.owns t).mtx.2 ((h.owns t).mtx.1 ho), ?_⟩
    unfold LocksMtx
    rw [setSub_sub_self]
    trivial
  | _ => exact absurd trivial hok

/-- **No thread ever tries to lock `mtx_` while it owns it, exactly in the runs in which a submission that the hook runs
inside `reset_all_agents`, and that is not dropped, finds its thread's agent registered.** -/
theorem no_relock_iff {s₀ : State α} {as : List (Label α)} (h0 : (system L α).init s₀)
    (hr : (system L α).run s₀ as = some s) :
    (∀ s₁, (system L α).Passes s₀ as s₁ → ∀ t, ¬ Relocks L s₁ t) ↔ (system L α).RunOk (RegisteredInReset L) s₀ as := by
  refine System.passes_iff_runOk (I := fun s => LockInv L s ∧ NoAppend s) (P := fun s => ∀ t, ¬ Relocks L s t)
    (fun s h => h.1.not_relocks h.2) (fun s a s' h hok hs => ⟨lockInv_step h.1 hs, noAppend_step h.1 h.2 hok hs⟩)
    (fun s a s' h hok hs => relocks_of_not_registered h.1 hok hs) ⟨lockInv_init h0, fun t x hx => ?_⟩ hr
  obtain ⟨-, -, -, -, -, -, -, hsub, -, -⟩ := h0
  rw [hsub] at hx
  cases hx

/-- **The grab thread locks `mtx_` again**: its first sample comes from an element mutex of the walk. -/
theorem relock : ∃ s, (system sampleLayout Nat).Reachable s ∧ Relocks sampleLayout s 0 := by
  have hrun : ((system sampleLayout Nat).run startState (contendedWalk ++ [goOn 0 0])).map
      (fun s => owners s.mem sampleLayout.mtx == some 0 && match s.sub 0 with | .append _ => true | _ => false) =
      some true := by decide
  obtain ⟨s, hs, hx⟩ := Option.map_eq_some_iff.1 hrun
  obtain ⟨ho, ha⟩ := Bool.and_eq_true_iff.1 hx
  refine ⟨s, System.Reachable.run (.init startState_init) _ hs, beq_iff_eq.1 ho, ?_⟩
  unfold LocksMtx
  cases hsub : s.sub 0 with
  | append x => trivial
  | _ => rw [hsub] at ha; cases ha

/-- The grab thread registers first. -/
def registeredWalk : List (Label Nat) :=
  [.contend 0 5, goOn 0 0, goOn 0 0, goOn 0 0, goOn 0 0, .contend 1 10, goOn 1 0, goOn 1 0, goOn 1 0, .reset 0,
    goOn 0 0,
    goOn 0 0, goOn 0 0, goOn 0 0, goOn 0 0, goOn 0 0, goOn 0 0, goOn 1 0, goOn 0 0, goOn 0 20, goOn 0 0, goOn 0 0,
    goOn 0 0]

theorem no_relock_iff_registeredWalk : ∃ s, (system sampleLayout Nat).run startState registeredWalk = some s ∧
    s.agents = [0, 1] ∧ (s.links.toList s.fresh (s.element 0)).map s.object = [⟨0, 20⟩] ∧
    ((∀ s₁, (system sampleLayout Nat).Passes startState registeredWalk s₁ → ∀ t, ¬ Relocks sampleLayout s₁ t) ↔
      (system sampleLayout Nat).RunOk (RegisteredInReset sampleLayout) startState registeredWalk) := by
  have hrun : ((system sampleLayout Nat).run startState registeredWalk).map (fun s =>
      (s.agents, (s.links.toList s.fresh (s.element 0)).map s.object)) = some ([0, 1], [⟨0, 20⟩]) := by decide
  obtain ⟨s, hs, hx⟩ := Option.map_eq_some_iff.1 hrun
  obtain ⟨ha, he⟩ := Prod.mk.inj hx
  exact ⟨s, hs, ha, he, no_relock_iff startState_init hs⟩

end CombinerHook
end ContentionProf
