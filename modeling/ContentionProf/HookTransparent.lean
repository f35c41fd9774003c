import ContentionProf.Completion
import ContentionProf.HookOwner
import ContentionProf.Mutexes
import Mathlib.Algebra.BigOperators.Ring.List
/-!
# HookTransparent — the hooks lock and unlock what they are called for (`contention.cpp`)

Seen from outside, a call of a hook is a call of the real function: what the hooks do besides, and when, changes nothing
about who gets which mutex and what a call returns, and it takes a few steps only.
-/
namespace ContentionProf
namespace Hook

variable {recursive : Addr → Bool} {s s' : State} {t : Thread} {m : Addr}

/-! ## The calls that have had no effect yet -/

/-- The call of the real function that a thread inside a hook has yet to make. -/
def Pc.opens : Pc → List (Mutexes.Call Addr)
  | .bypassLock m     => [.lock m]
  | .waiting m _ _ _  => [.lock m]
  | .rmLoad m         => [.unlock m]
  | .copyDuration m   => [.unlock m]
  | .copyRange m _    => [.unlock m]
  | .invalidate m _   => [.unlock m]
  | .clear m _        => [.unlock m]
  | .realUnlock m _ _ => [.unlock m]
  | _                 => []

def Ctl.opens (c : Ctl) : List (Mutexes.Call Addr) := c.pc.opens ++ c.pending.map .lock

/-- What the program sees: who owns which mutex, and which calls are under way. -/
def plain (s : State) : Mutexes.State Thread Addr where
  owner m := (s.mem.mutexes m).owner
  count m := (s.mem.mutexes m).count
  calls t := (s.ctl t).opens

/-- What the next step of a thread inside a hook does to the mutexes; a lock returns what the real one did. -/
def Pc.effects (t : Thread) (res : Nat) : Pc → List (Mutexes.Label Thread Addr)
  | .bypassLock m     => if res = 0 then [.acquire t m] else [.fail t m]
  | .waiting m _ _ _  => if res = 0 then [.acquire t m] else [.fail t m]
  | .realUnlock m _ _ => [.release t m]
  | _                 => []

/-- **The calls that the program makes in a step, and what becomes of them.** -/
def moves (recursive : Addr → Bool) (s : State) : Label → List (Mutexes.Label Thread Addr)
  | .lock t m     =>
    if s.mem.cp && !(s.ctl t).inside && !s.mem.busy recursive t m then [.call t (.lock m), .acquire t m]
    else [.call t (.lock m)]
  | .unlock t m _ => [.call t (.unlock m)]
  | .go t i       => (s.ctl t).pc.effects t i.res
  | _             => []

/-- The mutex whose real lock the thread is in. -/
def Pc.locks : Pc → Option Addr
  | .bypassLock m    => some m
  | .waiting m _ _ _ => some m
  | _                => none

/-- How many steps of its own a thread has left in a hook, at most. -/
def Pc.left : Pc → Nat
  | .idle                => 0
  | .bypassLock _        => 1
  | .waiting _ _ _ _     => 6
  | .addLoad _ _ _       => 5
  | .addDesired _ _ _ _  => 4
  | .addCas _ _ _ _ _    => 3
  | .storeDuration _ _ _ => 2
  | .storeRange _ _      => 1
  | .rmLoad _            => 7
  | .copyDuration _      => 6
  | .copyRange _ _       => 5
  | .invalidate _ _      => 4
  | .clear _ _           => 3
  | .realUnlock _ _ _    => 2
  | .submit _ _ _ _      => 1

/-- The same with the calls that wait for `is_collectable`. -/
def Ctl.left (c : Ctl) : Nat := c.pc.left + 7 * c.pending.length

/-- A step of the thread inside a hook. -/
def Label.goes (t : Thread) : Label → Nat
  | .go u _ => if u = t then 1 else 0
  | _       => 0

/-- A call of a hook by the thread. -/
def Label.calls (t : Thread) : Label → Nat
  | .lock u _     => if u = t then 1 else 0
  | .unlock u _ _ => if u = t then 1 else 0
  | _             => 0

/-! ## One step -/

theorem busy_plain : Mutexes.busy recursive (plain s) t m = s.mem.busy recursive t m := by
  unfold Mutexes.busy Mem.busy
  rw [show (plain s).owner m = (s.mem.mutexes m).owner from rfl]
  cases (s.mem.mutexes m).owner with
  | none => rfl
  | some u => simp only [beq_eq_decide]

theorem calls_setCtl {c : Ctl} {mem : Mem} (u : Thread) :
    ((s.setCtl t c mem).ctl u).opens = ((plain s).setCalls t c.opens).calls u := by
  rw [Mutexes.calls_setCalls, State.setCtl_ctl]
  split <;> rfl

/-- A step that leaves the mutexes alone. -/
theorem plain_setCtl {c : Ctl} {mem : Mem} (ho : ∀ k, (mem.mutexes k).owner = (s.mem.mutexes k).owner)
    (hn : ∀ k, (mem.mutexes k).count = (s.mem.mutexes k).count) :
    plain (s.setCtl t c mem) = (plain s).setCalls t c.opens :=
  Mutexes.State.ext (funext ho) (funext hn) (funext calls_setCtl)

theorem plain_setCtl_mutex {c : Ctl} {mem : Mem} {o : Option Thread} {n : Nat}
    (ho : ∀ k, (mem.mutexes k).owner = if k = m then o else (s.mem.mutexes k).owner)
    (hn : ∀ k, (mem.mutexes k).count = if k = m then n else (s.mem.mutexes k).count) :
    plain (s.setCtl t c mem) = ((plain s).setCalls t c.opens).setMutex m o n := by
  refine Mutexes.State.ext (funext (fun k => (ho k).trans ?_)) (funext (fun k => (hn k).trans ?_)) (funext calls_setCtl)
  · show _ = Function.update (plain s).owner m o k
    rw [Function.update_apply]; rfl
  · show _ = Function.update (plain s).count m n k
    rw [Function.update_apply]; rfl

/-- A step between two places with the same calls open. -/
theorem plain_quiet {c : Ctl} {mem : Mem} (ho : ∀ k, (mem.mutexes k).owner = (s.mem.mutexes k).owner)
    (hn : ∀ k, (mem.mutexes k).count = (s.mem.mutexes k).count) (hc : c.opens = (s.ctl t).opens) :
    plain (s.setCtl t c mem) = plain s := by
  rw [plain_setCtl ho hn, hc]
  refine Mutexes.State.ext rfl rfl (funext (fun u => ?_))
  rw [Mutexes.calls_setCalls]
  split
  · rename_i hu; rw [hu]; rfl
  · rfl

theorem setCalls_setCalls {p : Mutexes.State Thread Addr} {l l' : List (Mutexes.Call Addr)} :
    (p.setCalls t l).setCalls t l' = p.setCalls t l' := by
  refine Mutexes.State.ext rfl rfl (funext (fun u => ?_))
  rw [Mutexes.calls_setCalls, Mutexes.calls_setCalls, Mutexes.calls_setCalls]
  split <;> rfl

theorem setCalls_eq {l : List (Mutexes.Call Addr)} (h : (s.ctl t).opens = l) : (plain s).setCalls t l = plain s := by
  refine Mutexes.State.ext rfl rfl (funext (fun u => ?_))
  rw [Mutexes.calls_setCalls]
  split
  · rename_i hu; rw [hu]; exact h.symm
  · rfl

/-- **The lock of a mutex that is not busy.** -/
theorem run_acquire {l : List (Mutexes.Call Addr)} {c : Ctl} {mem : Mem} {p : Mutexes.State Thread Addr}
    (hb : s.mem.busy recursive t m = false) (hp : p = (plain s).setCalls t (.lock m :: l)) (hc : c.opens = l)
    (ho : ∀ k, (mem.mutexes k).owner = if k = m then some t else (s.mem.mutexes k).owner)
    (hn : ∀ k, (mem.mutexes k).count = if k = m then (s.mem.mutexes m).count + 1 else (s.mem.mutexes k).count) :
    (Mutexes.system recursive).run p [.acquire t m] = some (plain (s.setCtl t c mem)) := by
  have hcalls : p.calls t = .lock m :: l := by rw [hp, Mutexes.calls_setCalls, if_pos rfl]
  have hbusy : Mutexes.busy recursive p t m = false := by rw [hp]; exact busy_plain.trans hb
  have hs : Mutexes.step recursive p (.acquire t m) =
      some ((p.setCalls t l).setMutex m (some t) (p.count m + 1)) := by
    rw [Mutexes.step, hcalls, if_pos ⟨rfl, hbusy⟩]; rfl
  rw [System.run_cons, show (Mutexes.system recursive).step p (.acquire t m) = _ from hs, Option.bind_some,
    System.run_nil, plain_setCtl_mutex ho hn, hc, hp, setCalls_setCalls]
  rfl

theorem run_fail {l : List (Mutexes.Call Addr)} {c : Ctl} (hop : (s.ctl t).opens = .lock m :: l) (hc : c.opens = l) :
    (Mutexes.system recursive).run (plain s) [.fail t m] = some (plain (s.setCtl t c s.mem)) := by
  have hcalls : (plain s).calls t = .lock m :: l := hop
  have hs : Mutexes.step recursive (plain s) (.fail t m) = some ((plain s).setCalls t l) := by
    rw [Mutexes.step, hcalls]; exact if_pos rfl
  rw [System.run_cons, show (Mutexes.system recursive).step (plain s) (.fail t m) = _ from hs, Option.bind_some,
    System.run_nil, plain_setCtl (fun _ => rfl) (fun _ => rfl), hc]

/-- **The unlock by the owner.** -/
theorem run_release {l : List (Mutexes.Call Addr)} {c : Ctl} {mem : Mem} (hop : (s.ctl t).opens = .unlock m :: l)
    (how : (s.mem.mutexes m).owner = some t) (hc : c.opens = l) (hmem : mem.mutexes = (s.mem.release m).mutexes) :
    (Mutexes.system recursive).run (plain s) [.release t m] = some (plain (s.setCtl t c mem)) := by
  have hcalls : (plain s).calls t = .unlock m :: l := hop
  have hs : Mutexes.step recursive (plain s) (.release t m) =
      some (((plain s).setCalls t l).setMutex m (if (s.mem.mutexes m).count ≤ 1 then none else some t)
        ((s.mem.mutexes m).count - 1)) := by
    rw [Mutexes.step, hcalls, if_pos ⟨rfl, how⟩]; rfl
  rw [System.run_cons, show (Mutexes.system recursive).step (plain s) (.release t m) = _ from hs, Option.bind_some,
    System.run_nil, ← hc]
  refine congrArg some (plain_setCtl_mutex (fun k => ?_) (fun k => ?_)).symm
  · rw [hmem, Mem.release_mutexes, how]
    split <;> rfl
  · rw [hmem, Mem.release_mutexes]
    split <;> rfl

/-- A call that has had its effect when the step ends. -/
theorem run_call {c : Mutexes.Call Addr} {ls : List (Mutexes.Label Thread Addr)}
    (h : ∀ k, c = .unlock k → (s.mem.mutexes k).owner = some t) :
    (Mutexes.system recursive).run (plain s) (.call t c :: ls) =
      (Mutexes.system recursive).run ((plain s).setCalls t (c :: (s.ctl t).opens)) ls := by
  have hs : Mutexes.step recursive (plain s) (.call t c) = some ((plain s).setCalls t (c :: (s.ctl t).opens)) := by
    cases c with
    | lock k => rfl
    | unlock k => rw [Mutexes.step, if_pos (show (plain s).owner k = some t from h k rfl)]; rfl
  rw [System.run_cons, show (Mutexes.system recursive).step (plain s) (.call t c) = _ from hs, Option.bind_some]

/-- A call that is under way when the step ends. -/
theorem run_open {c : Mutexes.Call Addr} {c' : Ctl} {mem : Mem}
    (h : ∀ k, c = .unlock k → (s.mem.mutexes k).owner = some t) (hop : c'.opens = c :: (s.ctl t).opens)
    (ho : ∀ k, (mem.mutexes k).owner = (s.mem.mutexes k).owner)
    (hn : ∀ k, (mem.mutexes k).count = (s.mem.mutexes k).count) :
    (Mutexes.system recursive).run (plain s) [.call t c] = some (plain (s.setCtl t c' mem)) := by
  rw [run_call h, System.run_nil, plain_setCtl ho hn, hop]

theorem acquire_owner_count {mem : Mem} {b : Bool} {r : U64} (k : Addr) :
    ((mem.acquire t m b r).mutexes k).owner = (if k = m then some t else (mem.mutexes k).owner) ∧
      ((mem.acquire t m b r).mutexes k).count = if k = m then (mem.mutexes m).count + 1 else (mem.mutexes k).count := by
  rw [Mem.acquire_mutexes]
  split <;> exact ⟨rfl, rfl⟩

/-- A call of lock that returned: it was under way, or it is called and returns in one step. -/
theorem run_acquires {l : List (Mutexes.Call Addr)} {c : Ctl} {mem : Mem} {b : Bool} {r : U64}
    {p : Mutexes.State Thread Addr} (hb : s.mem.busy recursive t m = false)
    (hp : p = (plain s).setCalls t (.lock m :: l)) (hc : c.opens = l)
    (ho : ∀ k, (mem.mutexes k).owner = ((s.mem.acquire t m b r).mutexes k).owner)
    (hn : ∀ k, (mem.mutexes k).count = ((s.mem.acquire t m b r).mutexes k).count) :
    (Mutexes.system recursive).run p [.acquire t m] = some (plain (s.setCtl t c mem)) :=
  run_acquire hb hp hc (fun k => (ho k).trans (acquire_owner_count k).1)
    (fun k => (hn k).trans (acquire_owner_count k).2)

/-- A step on a slot, on the thread's list or to another place of the hook. -/
theorem run_quiet {i : Input} {c : Ctl} {mem : Mem} (he : (s.ctl t).pc.effects t i.res = [])
    (hop : c.opens = (s.ctl t).opens) (ho : ∀ k, (mem.mutexes k).owner = (s.mem.mutexes k).owner)
    (hn : ∀ k, (mem.mutexes k).count = (s.mem.mutexes k).count) :
    (Mutexes.system recursive).run (plain s) (moves recursive s (.go t i)) = some (plain (s.setCtl t c mem)) := by
  rw [show moves recursive s (.go t i) = [] from he, System.run_nil, plain_quiet ho hn hop]

/-- The real lock of a hook, and what the hook does next to it. -/
theorem run_locked {i : Input} {c : Ctl} {mem : Mem} {b : Bool} {r : U64}
    (he : (s.ctl t).pc.effects t i.res = [.acquire t m]) (hb : s.mem.busy recursive t m = false)
    (hop : (s.ctl t).opens = .lock m :: c.opens)
    (ho : ∀ k, (mem.mutexes k).owner = ((s.mem.acquire t m b r).mutexes k).owner)
    (hn : ∀ k, (mem.mutexes k).count = ((s.mem.acquire t m b r).mutexes k).count) :
    (Mutexes.system recursive).run (plain s) (moves recursive s (.go t i)) = some (plain (s.setCtl t c mem)) := by
  rw [show moves recursive s (.go t i) = [.acquire t m] from he]
  exact run_acquires hb (setCalls_eq hop).symm rfl ho hn

@[simp] theorem claim_count (s : Mem) (t : Thread) (m n : Addr) (d : U64) :
    ((s.claim t m d).mutexes n).count = (s.mutexes n).count := by simp [Mem.claim]

@[simp] theorem fillDuration_count (s : Mem) (m n : Addr) (w : U64) :
    ((s.fillDuration m w).mutexes n).count = (s.mutexes n).count := by simp [Mem.fillDuration]

@[simp] theorem fillTls_count (s : Mem) (t : Thread) (m n : Addr) (k : Nat) (r w : U64) :
    ((s.fillTls t m k r w).mutexes n).count = (s.mutexes n).count := by simp [Mem.fillTls]

/-- **A step of the hooks is what the real functions do.** -/
theorem Step.run_moves {l : Label} (h : Step recursive s l s') (how : OwnerUnlocks s l) (hown : OwnOk s) :
    (Mutexes.system recursive).run (plain s) (moves recursive s l) = some (plain s') := by
  have own : ∀ {t : Thread} {m : Addr} {pc : Pc}, (s.ctl t).pc = pc → pc.owns = some m →
      (s.mem.mutexes m).owner = some t := fun hpc hp => hown _ _ (by rw [hpc]; exact hp)
  have hopens : ∀ {t : Thread} {pc : Pc}, (s.ctl t).pc = pc →
      (s.ctl t).opens = pc.opens ++ (s.ctl t).pending.map .lock := fun hpc => by rw [Ctl.opens, hpc]
  -- a step of a hook that leaves the open call open
  have quiet : ∀ {t : Thread} {i : Input} {pc : Pc} {c : Ctl} {mem : Mem}, (s.ctl t).pc = pc →
      pc.effects t i.res = [] → c.opens = pc.opens ++ (s.ctl t).pending.map .lock →
      (∀ k, (mem.mutexes k).owner = (s.mem.mutexes k).owner) →
      (∀ k, (mem.mutexes k).count = (s.mem.mutexes k).count) →
      (Mutexes.system recursive).run (plain s) (moves recursive s (.go t i)) = some (plain (s.setCtl t c mem)) :=
    fun hpc he hop ho hn => run_quiet (by rw [hpc]; exact he) (hop.trans (hopens hpc).symm) ho hn
  cases h with
  | start => rfl
  | stop => rfl
  | @lockBypass t m hpc hb =>
    have hm : moves recursive s (.lock t m) = [.call t (.lock m)] :=
      if_neg (by rcases hb with h | h <;> simp [h])
    rw [hm]
    exact run_open (fun _ h => by cases h) (by rw [hopens hpc]; rfl) (fun _ => rfl) (fun _ => rfl)
  | @lockBusy t m hpc hcp hin hb =>
    have hm : moves recursive s (.lock t m) = [.call t (.lock m)] := if_neg (by simp [hb])
    rw [hm]
    refine run_open (fun _ h => by cases h) ?_ (fun _ => rfl) (fun _ => rfl)
    rw [hopens hpc, Ctl.opens, hpc]; rfl
  | @lockFree t m hpc hcp hin hb =>
    have hm : moves recursive s (.lock t m) = [.call t (.lock m), .acquire t m] := if_pos (by simp [hcp, hin, hb])
    rw [hm, run_call (fun _ h => by cases h)]
    exact run_acquires hb rfl (hopens hpc).symm (fun _ => rfl) (fun _ => rfl)
  | collected hpc hin hpd => exact quiet hpc rfl (by rw [hpd]; rfl) (fun _ => rfl) (fun _ => rfl)
  | @bypassFail t m i hpc hres =>
    rw [show moves recursive s (.go t i) = [.fail t m] by rw [moves, hpc]; exact if_neg hres]
    exact run_fail (hopens hpc) rfl
  | bypassDone hpc hres hb =>
    exact run_locked (by rw [hpc]; exact if_pos hres) hb (hopens hpc) (fun _ => rfl) (fun _ => rfl)
  | @waitFail t m r k ns i hpc hres =>
    rw [show moves recursive s (.go t i) = [.fail t m] by rw [moves, hpc]; exact if_neg hres]
    exact run_fail (hopens hpc) rfl
  | waitUnsampled hpc hres hb =>
    exact run_locked (by rw [hpc]; exact if_pos hres) hb (hopens hpc) (fun _ => rfl) (fun _ => rfl)
  | waitTls hpc hres hb hr =>
    exact run_locked (by rw [hpc]; exact if_pos hres) hb (hopens hpc) (fun _ => by simp; rfl) (fun _ => by simp)
  | waitMap hpc hres hb hr =>
    exact run_locked (by rw [hpc]; exact if_pos hres) hb (hopens hpc) (fun _ => rfl) (fun _ => rfl)
  | addTake hpc => exact quiet hpc rfl rfl (fun _ => rfl) (fun _ => rfl)
  | addSkip hpc => exact quiet hpc rfl rfl (fun _ => rfl) (fun _ => rfl)
  | addDesired hpc => exact quiet hpc rfl rfl (fun _ => rfl) (fun _ => rfl)
  | casOk hpc => exact quiet hpc rfl rfl (fun _ => by simp) (fun _ => by simp)
  | casFail hpc => exact quiet hpc rfl rfl (fun _ => rfl) (fun _ => rfl)
  | storeDuration hpc => exact quiet hpc rfl rfl (fun _ => by simp) (fun _ => by simp)
  | storeRange hpc => exact quiet hpc rfl rfl (fun _ => rfl) (fun _ => rfl)
  | unlockBypass hpc =>
    exact run_open (fun _ h => by cases h; exact how) (by rw [hopens hpc]; rfl) (fun _ => rfl) (fun _ => rfl)
  | unlockValid hpc =>
    exact run_open (fun _ h => by cases h; exact how) (by rw [hopens hpc]; rfl) (fun _ => rfl) (fun _ => rfl)
  | unlockInvalid hpc =>
    exact run_open (fun _ h => by cases h; exact how) (by rw [hopens hpc]; rfl) (fun _ => rfl) (fun _ => rfl)
  | unlockMiss hpc =>
    exact run_open (fun _ h => by cases h; exact how) (by rw [hopens hpc]; rfl) (fun _ => rfl) (fun _ => rfl)
  | rmHit hpc => exact quiet hpc rfl rfl (fun _ => rfl) (fun _ => rfl)
  | rmMiss hpc => exact quiet hpc rfl rfl (fun _ => rfl) (fun _ => rfl)
  | copyDuration hpc => exact quiet hpc rfl rfl (fun _ => rfl) (fun _ => rfl)
  | copyRange hpc => exact quiet hpc rfl rfl (fun _ => rfl) (fun _ => rfl)
  | invalidate hpc => exact quiet hpc rfl rfl (fun _ => rfl) (fun _ => rfl)
  | clear hpc => exact quiet hpc rfl rfl (fun _ => rfl) (fun _ => rfl)
  | @unlockDone t m saved i hpc =>
    rw [show moves recursive s (.go t i) = [.release t m] by rw [moves, hpc]; rfl]
    exact run_release (hopens hpc) (own hpc rfl) rfl rfl
  | @unlockSubmit t m saved ns i hpc hns =>
    rw [show moves recursive s (.go t i) = [.release t m] by rw [moves, hpc]; rfl]
    exact run_release (hopens hpc) (own hpc rfl) rfl rfl
  | foreignDone hpc hf => exact absurd (own hpc rfl) hf
  | foreignSubmit hpc hns hf => exact absurd (own hpc rfl) hf
  | submit hpc => exact quiet hpc rfl rfl (fun _ => rfl) (fun _ => rfl)
  | @endSubmit t hpc =>
    have hq : plain (s.setCtl t { s.ctl t with inside := false } s.mem) = plain s :=
      plain_quiet (fun _ => rfl) (fun _ => rfl) rfl
    exact congrArg some hq.symm

/-! ## Whole runs -/

theorem Label.goes_of_ne {l : Label} (h : l.thread ≠ some t) : l.goes t = 0 := by
  cases l with
  | go u i => exact if_neg (fun hu => h (congrArg some hu))
  | _ => rfl

/-- **A step inside a hook leaves fewer**, and no call adds more than seven. -/
theorem Step.left_le {l : Label} (h : Step recursive s l s') (t : Thread) :
    l.goes t + (s'.ctl t).left ≤ (s.ctl t).left + 7 * l.calls t := by
  by_cases hl : l.thread = some t
  · cases h with
    | start => cases hl
    | stop => cases hl
    | lockBusy hpc => cases hl; simp [Label.goes, Label.calls, Ctl.left]; omega
    | collected hpc hin hpd => cases hl; simp [Label.goes, Label.calls, Ctl.left, Pc.left, hpc, hpd]; omega
    | endSubmit hpc => cases hl; simp [Label.goes, Label.calls, Ctl.left]
    | _ hpc => cases hl; simp [Label.goes, Label.calls, Ctl.left, Pc.left, State.setPc, hpc] <;> omega
  · rw [h.ctl_other hl, Label.goes_of_ne hl]
    omega

/-- **A thread inside a hook can go on unless the real lock waits.** -/
theorem go_eq_none {i : Input} (hpc : (s.ctl t).pc ≠ .idle) :
    (system recursive).step s (.go t i) = none ↔
      i.res = 0 ∧ ∃ m, (s.ctl t).pc.locks = some m ∧ Mutexes.busy recursive (plain s) t m = true := by
  show advance recursive s t i = none ↔ _
  simp only [busy_plain, advance]
  cases hp : (s.ctl t).pc with
  | idle => exact absurd hp hpc
  | bypassLock m =>
    by_cases hres : i.res = 0 <;> by_cases hb : s.mem.busy recursive t m = true <;> simp [Pc.locks, hres, hb]
  | waiting m r k ns =>
    by_cases hres : i.res = 0 <;> by_cases hb : s.mem.busy recursive t m = true <;> simp [Pc.locks, hres, hb]
    split
    · simp
    · split <;> simp
  | addLoad m r ns => simp only; split <;> simp [Pc.locks]
  | addCas m r ns e d => simp only; split <;> simp [Pc.locks]
  | rmLoad m => simp only; split <;> simp [Pc.locks]
  | realUnlock m saved ns => simp only; split <;> simp [Pc.locks]
  | _ => simp [Pc.locks]

/-- **The hooks lock and unlock what they are called for**: a run of the program with the hooks, under any interleaving
and with any starts and stops of the profiler, is a run of the real functions.  Every lock that returned 0 is unlocked
or held, and every call has had one effect or none yet.  A thread inside a hook waits only where the real lock does,
and it takes seven steps of its own for a call at most. -/
theorem hooks_transparent {ls : List Label} {s : State} (h : (system recursive).run initState ls = some s) :
    (Mutexes.system recursive).run (Mutexes.initState Thread Addr)
        ((system recursive).image (moves recursive) initState ls) = some (plain s) ∧
      Mutexes.Inv recursive (plain s) ∧
      Mutexes.Accounts (plain s) ((system recursive).image (moves recursive) initState ls) ∧
      (∀ t i, (s.ctl t).pc ≠ .idle →
        ((system recursive).step s (.go t i) = none ↔
          i.res = 0 ∧ ∃ m, (s.ctl t).pc.locks = some m ∧ Mutexes.busy recursive (plain s) t m = true)) ∧
      ∀ t, (ls.map (Label.goes t)).sum + (s.ctl t).left ≤ 7 * (ls.map (Label.calls t)).sum := by
  have hown : OwnOk initState := fun t m hm => by cases hm
  have hrun : (Mutexes.system recursive).run (plain initState)
      ((system recursive).image (moves recursive) initState ls) = some (plain s) :=
    System.run_image (I := OwnOk) (fun s l s' ho hst =>
      ⟨ownOk_step ho (step_cases hst).1 (step_cases hst).2, (step_cases hst).1.run_moves (step_cases hst).2 ho⟩) hown h
  obtain ⟨hacc, hinv⟩ := Mutexes.accounts_run Mutexes.accounts_init Mutexes.inv_init hrun
  refine ⟨hrun, hinv, hacc, fun t i hpc => go_eq_none hpc, fun t => ?_⟩
  have hleft : (ls.map (Label.goes t)).sum + (s.ctl t).left ≤
      (initState.ctl t).left + (ls.map (fun l => 7 * l.calls t)).sum :=
    System.run_measure (I := fun _ => True) (fun s l s' _ hst => ⟨trivial, (step_cases hst).1.left_le t⟩) trivial h
  have hstart : (initState.ctl t).left = 0 := rfl
  rw [List.sum_map_mul_left] at hleft
  omega

theorem hooks_transparent_contended :
    ∃ s, (system (fun _ => false)).run initState (.start :: contendedLock 1 5 16) = some s ∧
      Mutexes.Accounts (plain s) [.call 0 (.lock 5), .acquire 0 5, .call 1 (.lock 5), .call 0 (.unlock 5),
        .release 0 5, .acquire 1 5] := by
  refine ⟨_, rfl, ?_⟩
  have hrun : (system (fun _ => false)).run initState (.start :: contendedLock 1 5 16) = some _ := rfl
  exact (hooks_transparent hrun).2.2.1

end Hook
end ContentionProf
