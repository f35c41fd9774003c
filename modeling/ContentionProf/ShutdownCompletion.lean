import ContentionProf.Completion
import ContentionProf.Shutdown
/-!
# ShutdownCompletion — when `~Collector` can return

Once `stop_` is set, a dump thread between lines 283 and 291 leaves with the mutex.  The destructor then returns only if
the grab thread has passed line 216 already.
-/
namespace ContentionProf
namespace Shutdown

variable {α : Type} {s s' : State α}

/-- The grab thread needs `dump_thread_mutex_` no more. -/
def GrabPc.passed : GrabPc α → Bool
  | .joinDump => true
  | .exited   => true
  | _         => false

/-- The grab thread has left its loop. -/
def GrabPc.final : GrabPc α → Bool
  | .finalLock   => true
  | .setStop     => true
  | .finalSignal => true
  | .finalUnlock => true
  | .joinDump    => true
  | .exited      => true
  | _            => false

/-- The grab thread is between the lock and the unlock of `sleep_mutex_`. -/
def GrabPc.sleeps : GrabPc α → Bool
  | .sleepWait   => true
  | .sleepUnlock => true
  | _            => false

/-- The dump thread leaves, or has left, by line 292 if `stop_` is set. -/
def DumpPc.breaks : DumpPc α → Bool
  | .waitTest => true
  | .stopTest => true
  | .exited   => true
  | _         => false

/-- **The destructor hangs**: the dump thread has the mutex and leaves with it, and the grab thread needs it. -/
structure Doomed (s : State α) : Prop where
  stop : s.stop = true
  owner : s.owner = some .dump
  dump : s.dump.breaks = true
  grab : s.grab.passed = false

/-! ## What holds in every state -/

structure Order (s : State α) : Prop where
  mutex : Inv s ∨ Lost s
  sleeps : s.sleepOwner = some .grab ↔ s.grab.sleeps = true
  created : s.dump = .notCreated → s.grab = .create
  stop : s.stop = true ↔ s.dtor = .joinGrab ∨ s.dtor = .done
  final : s.grab.final = true → s.stop = true
  gone : s.dump = .exited → s.stop = true
  exited : s.grab = .exited → s.dump = .exited
  done : s.dtor = .done → s.grab = .exited

/-- What a step of the grab thread does besides `grabStep_effect`. -/
structure GrabMoved (s s' : State α) : Prop where
  dtor : s'.dtor = s.dtor
  stop : s'.stop = s.stop ∨ s.grab.final = true ∧ s'.stop = true
  final : s'.grab.final = true → s.grab.final = true ∨ s.stop = true
  before : s.grab ≠ .exited
  passed : s'.grab.passed = true → s.grab.passed = true ∨ s.grab.holds = true
  exited : s'.grab = .exited → s'.dump = .exited
  sleeps : (s'.sleepOwner = s.sleepOwner ∧ s'.grab.sleeps = s.grab.sleeps) ∨
    (s.sleepOwner = none ∧ s'.sleepOwner = some .grab ∧ s'.grab.sleeps = true) ∨
    (s.grab.sleeps = true ∧ s'.sleepOwner = none ∧ s'.grab.sleeps = false)

theorem grabMoved {r : Round α} (hs : grabStep s r = some s') : GrabMoved s s' := by
  cases hp : s.grab <;> simp only [grabStep, hp] at hs
  case exited => cases hs
  case loopTest =>
    cases hs
    refine ⟨rfl, .inl rfl, fun hf => .inr ?_, (fun he => by rw [hp] at he; cases he), fun hq => .inl ?_,
      fun he => ?_, .inl ⟨rfl, ?_⟩⟩
    all_goals cases hst : s.stop <;> simp_all [GrabPc.final, GrabPc.sleeps, GrabPc.passed]
  all_goals
    (try split at hs) <;> cases hs <;> constructor <;>
    simp_all [GrabPc.final, GrabPc.sleeps, GrabPc.passed, GrabPc.holds]

theorem order_init (h : (system α).init s) : Order s := by
  obtain ⟨hst, ho, hsl, hg, hd, hdt⟩ := id h
  refine ⟨.inl ⟨ownerInv_init h, fun _ => hd⟩, ?_, fun _ => hg, ?_, ?_, ?_, ?_, ?_⟩
  · rw [hsl, hg]; exact iff_of_false nofun nofun
  · rw [hst, hdt]; exact iff_of_false nofun (fun h => by rcases h with h | h <;> cases h)
  · rw [hg]; exact nofun
  · rw [hd]; exact nofun
  · rw [hg]; exact nofun
  · rw [hdt]; exact nofun

theorem mutex_step {l : Label α} (h : Inv s ∨ Lost s) (hs : step s l = some s') : Inv s' ∨ Lost s' := by
  rcases h with h | h
  · by_cases hok : NoBreak s l
    · exact .inl (inv_step h hok hs)
    · cases l with
      | dump => exact .inr (lost_of_break h hok hs)
      | _ => exact absurd trivial hok
  · exact .inr (lost_step h hs)

theorem Order.grab {r : Round α} (h : Order s) (hs : grabStep s r = some s') : Order s' := by
  obtain ⟨hdt, hst, hf, hb, -, he, hsl⟩ := grabMoved hs
  obtain ⟨-, hd, -⟩ := grabStep_effect hs
  have hstop : s'.stop = s.stop := hst.elim id (fun hst => hst.2.trans (h.final hst.1).symm)
  refine ⟨mutex_step (l := .grab r) h.mutex hs, ?_, fun hn => ?_, ?_, fun hf' => ?_, fun hg => ?_, he, fun hdn => ?_⟩
  · rcases hsl with ⟨ho, hh⟩ | ⟨-, ho, hh⟩ | ⟨-, ho, hh⟩
    · rw [ho, hh]; exact h.sleeps
    · exact iff_of_true ho hh
    · rw [ho, hh]; exact iff_of_false nofun nofun
  · rcases hd with hd | ⟨-, hd⟩
    · have hc := h.created (hd ▸ hn)
      simp only [grabStep, hc] at hs
      cases hs
      cases hn
    · rw [hd] at hn; cases hn
  · rw [hstop, hdt]; exact h.stop
  · rw [hstop]; exact (hf hf').elim h.final id
  · rw [hstop]
    rcases hd with hd | ⟨-, hd⟩
    · exact h.gone (hd ▸ hg)
    · rw [hd] at hg; cases hg
  · exact absurd (h.done (hdt ▸ hdn)) hb

/-- What a step of the dump thread does besides `dumpStep_effect`. -/
theorem dumpMoved (hs : dumpStep s = some s') : s'.sleepOwner = s.sleepOwner ∧ s'.stop = s.stop ∧ s'.dtor = s.dtor ∧
    s'.dump ≠ .notCreated ∧ (s'.dump = .exited → s.stop = true) := by
  cases hp : s.dump <;> simp only [dumpStep, hp] at hs
  case notCreated => cases hs
  case exited => cases hs
  all_goals
    (try split at hs) <;> cases hs <;> refine ⟨rfl, rfl, rfl, ?_, ?_⟩ <;> simp_all

theorem Order.dump (h : Order s) (hs : dumpStep s = some s') : Order s' := by
  obtain ⟨hg, -, hne, -⟩ := dumpStep_effect hs
  obtain ⟨hsl, hst, hdt, hn, hgone⟩ := dumpMoved hs
  refine ⟨mutex_step (l := .dump) h.mutex hs, ?_, fun hd => absurd hd hn, ?_, ?_, ?_, fun he => ?_, ?_⟩
  · rw [hsl, hg]; exact h.sleeps
  · rw [hst, hdt]; exact h.stop
  · rw [hst, hg]; exact h.final
  · rw [hst]; exact hgone
  · exact absurd (h.exited (hg ▸ he)) hne
  · rw [hdt, hg]; exact h.done

theorem Order.dtor (h : Order s) (hs : dtorStep s = some s') : Order s' := by
  have hm := mutex_step (l := .dtor) h.mutex hs
  unfold dtorStep at hs
  cases hd : s.dtor <;> rw [hd] at hs <;> dsimp only at hs
  case running => cases hs
  case done => cases hs
  case setStop =>
    cases hs
    exact ⟨hm, h.sleeps, h.created, iff_of_true rfl (.inl rfl), fun _ => rfl, fun _ => rfl, h.exited, nofun⟩
  case joinGrab =>
    split at hs <;> cases hs
    rename_i hg
    have hst := h.stop.2 (.inl hd)
    exact ⟨hm, h.sleeps, h.created, iff_of_true hst (.inr rfl), h.final, h.gone, h.exited, fun _ => hg⟩

/-- The waker takes or gives back `sleep_mutex_`. -/
theorem Order.waker {o : Option Sleeper} (h : Order s)
    (hm : Inv { s with sleepOwner := o } ∨ Lost { s with sleepOwner := o }) (hold : s.sleepOwner ≠ some .grab)
    (hnew : o ≠ some .grab) : Order { s with sleepOwner := o } where
  mutex := hm
  sleeps := iff_of_false hnew (fun hx => hold (h.sleeps.2 hx))
  created := h.created
  stop := h.stop
  final := h.final
  gone := h.gone
  exited := h.exited
  done := h.done

theorem order_step {l : Label α} (h : Order s) (hs : step s l = some s') : Order s' := by
  have hm := mutex_step h.mutex hs
  cases l with
  | grab r => exact h.grab hs
  | dump => exact h.dump hs
  | dtor => exact h.dtor hs
  | destroy =>
    simp only [step] at hs
    split at hs <;> cases hs
    rename_i hd
    have hst : ¬ s.stop = true := fun hst => by
      have hx := h.stop.1 hst
      rw [hd] at hx
      rcases hx with hx | hx <;> cases hx
    have hno : ¬ (DtorPc.setStop = .joinGrab ∨ DtorPc.setStop = .done) := fun hx => by
      rcases hx with hx | hx <;> cases hx
    exact ⟨hm, h.sleeps, h.created, iff_of_false hst hno, h.final, h.gone, h.exited,
      fun hx => by cases hx⟩
  | wakerLock =>
    simp only [step] at hs
    split at hs <;> cases hs
    rename_i ho
    exact h.waker hm (fun hx => by rw [ho] at hx; cases hx) (fun hx => by cases hx)
  | wakerUnlock =>
    simp only [step] at hs
    split at hs <;> cases hs
    rename_i ho
    exact h.waker hm (fun hx => by rw [ho] at hx; cases hx) (fun hx => by cases hx)

theorem order_reachable (h : (system α).Reachable s) : Order s :=
  h.invariant (fun _ => order_init) (fun _ _ _ h _ hs => order_step h hs)

/-! ## Doomed for ever -/

/-- Who owns the mutex when the dump thread does not, or has not left with it. -/
theorem Order.grabs (h : Order s) : s.grab.holds = true → s.owner = some .grab := by
  intro hg
  rcases h.mutex with hi | hl
  · exact hi.owner.grabs.2 hg
  · rw [hl.grab] at hg; cases hg

theorem Order.dumps (h : Order s) : s.owner = some .dump → s.dump.holds = true ∨ s.dump = .exited := by
  intro ho
  rcases h.mutex with hi | hl
  · exact .inl (hi.owner.dumps.1 ho)
  · exact .inr hl.dump

theorem stop_step {l : Label α} (hs : step s l = some s') (hst : s.stop = true) : s'.stop = true := by
  cases l with
  | grab r => exact (grabMoved hs).stop.elim (fun h => h.trans hst) And.right
  | dump => exact (dumpMoved hs).2.1.trans hst
  | dtor =>
    simp only [step, dtorStep] at hs
    split at hs
    · cases hs
    · cases hs; rfl
    · split at hs <;> cases hs; exact hst
    · cases hs
  | _ =>
    simp only [step] at hs
    split at hs <;> cases hs
    exact hst

theorem doomed_step {l : Label α} (h : Order s) (hd : Doomed s) (hs : step s l = some s') : Doomed s' := by
  have hstop := stop_step hs hd.stop
  have hno : s.grab.holds = false := Bool.eq_false_iff.2 fun hg => by
    have ho := (h.grabs hg).symm.trans hd.owner
    cases ho
  cases l with
  | grab r =>
    obtain ⟨-, hdump, hown⟩ := grabStep_effect hs
    have hcreated : s.grab ≠ .create := by
      rcases h.mutex with hi | hl
      · intro hc
        have hb := hd.dump
        rw [hi.created hc] at hb
        cases hb
      · exact hl.created
    refine ⟨hstop, ?_, ?_, Bool.eq_false_iff.2 fun hp => ?_⟩
    · rcases hown with ⟨ho, -⟩ | ⟨hn, -⟩ | ⟨hg, -⟩
      · exact ho.trans hd.owner
      · rw [hd.owner] at hn; cases hn
      · rw [hno] at hg; cases hg
    · rw [hdump.resolve_right (fun hc => hcreated hc.1)]; exact hd.dump
    · rcases (grabMoved hs).passed hp with hp | hg
      · rw [hd.grab] at hp; cases hp
      · rw [hno] at hg; cases hg
  | dump =>
    have hs : dumpStep s = some s' := hs
    have hb := hd.dump
    have hkeep : s'.owner = s.owner ∧ s'.grab = s.grab ∧ s'.dump.breaks = true := by
      cases hp : s.dump with
      | waitTest => simp only [dumpStep, hp, hd.stop] at hs; cases hs; exact ⟨rfl, rfl, rfl⟩
      | stopTest => simp only [dumpStep, hp, hd.stop] at hs; cases hs; exact ⟨rfl, rfl, rfl⟩
      | exited => simp only [dumpStep, hp] at hs; cases hs
      | _ => rw [hp] at hb; cases hb
    exact ⟨hstop, hkeep.1.trans hd.owner, hkeep.2.2, by rw [hkeep.2.1]; exact hd.grab⟩
  | _ =>
    obtain ⟨ho, hg, hdp⟩ := step_frame hs (fun _ hl => by cases hl) (fun hl => by cases hl)
    exact ⟨hstop, ho.trans hd.owner, by rw [hdp]; exact hd.dump, by rw [hg]; exact hd.grab⟩

/-- **A doomed destructor never returns.** -/
theorem doomed_run (h : Order s) (hd : Doomed s) (as : List (Label α)) (hr : (system α).run s as = some s') :
    s'.dtor ≠ .done := by
  induction as generalizing s with
  | nil =>
    cases hr
    intro hdone
    have hg := hd.grab
    rw [h.done hdone] at hg
    cases hg
  | cons a as ih =>
    rw [System.run_cons] at hr
    obtain ⟨s₁, hs, hr⟩ := Option.bind_eq_some_iff.1 hr
    exact ih (order_step h hs) (doomed_step h hd hs) hr

/-! ## The way out -/

/-- The steps that are left once `stop_` is set. -/
def GrabPc.left : GrabPc α → Nat
  | .create      => 7
  | .loopTest    => 6
  | .round       => 8
  | .pushLock _  => 11
  | .push _      => 10
  | .pushSignal  => 9
  | .pushUnlock  => 8
  | .sleepTest   => 7
  | .sleepLock   => 10
  | .sleepWait   => 9
  | .sleeping    => 8
  | .sleepUnlock => 7
  | .finalLock   => 5
  | .setStop     => 4
  | .finalSignal => 3
  | .finalUnlock => 2
  | .joinDump    => 1
  | .exited      => 0

/-- Before `stop_` is set, a dump thread that has just locked the mutex goes the long way. -/
def DumpPc.left (stop : Bool) : DumpPc α → Nat
  | .notCreated => 1
  | .loopTest   => 1
  | .lock       => 3
  | .waitTest   => if stop then 2 else 6
  | .wait       => 4
  | .waiting    => 3
  | .stopTest   => if stop then 1 else 5
  | .take       => 4
  | .unlock _   => 3
  | .dumpTest _ => 2
  | .exited     => 0

def DtorPc.left : DtorPc → Nat
  | .running  => 3
  | .setStop  => 2
  | .joinGrab => 1
  | .done     => 0

def Sleeper.left : Option Sleeper → Nat
  | some .waker => 1
  | _           => 0

def left (s : State α) : Nat := s.dtor.left + s.grab.left + s.dump.left s.stop + Sleeper.left s.sleepOwner

theorem GrabPc.holds_of_locks {g : GrabPc α} (h : g.locks = true) : g.holds = false := by
  cases g <;> first | rfl | cases h

theorem GrabPc.holds_of_passed {g : GrabPc α} (h : g.passed = true) : g.holds = false := by
  cases g <;> first | rfl | cases h

/-- Who waits for `dump_thread_mutex_` does not have it. -/
theorem Order.free (h : Order s) (hl : s.grab.locks = true) (ho : s.owner ≠ some .dump) : s.owner = none := by
  cases hown : s.owner with
  | none => rfl
  | some p =>
    cases p with
    | dump => exact absurd hown ho
    | grab =>
      rcases h.mutex with hi | hlost
      · have hh := hi.owner.grabs.1 hown
        rw [GrabPc.holds_of_locks hl] at hh
        cases hh
      · rw [hlost.owner] at hown; cases hown

/-- **The grab thread goes on towards its end** once `stop_` is set, unless the dump thread has the mutex. -/
theorem grab_goes (h : Order s) (hst : s.stop = true) (hp : s.grab.passed = false) (ho : s.owner ≠ some .dump) :
    ∃ l s', step s l = some s' ∧ left s' < left s ∧ s'.owner ≠ some .dump := by
  -- a round of the grab thread that collects nothing
  let r : Round α := ⟨[], false⟩
  have hgo : (∃ s', grabStep s r = some s' ∧ s'.grab.left < s.grab.left ∧ s'.dump.left true ≤ s.dump.left true ∧
      Sleeper.left s'.sleepOwner ≤ Sleeper.left s.sleepOwner ∧ s'.owner ≠ some .dump) →
      ∃ l s', step s l = some s' ∧ left s' < left s ∧ s'.owner ≠ some .dump := by
    rintro ⟨s', hs, hg, hd, hsl, ho'⟩
    refine ⟨.grab r, s', hs, ?_, ho'⟩
    have hdt := (grabMoved hs).dtor
    have hst' := stop_step (l := .grab r) hs hst
    simp only [left, hst, hst', hdt]
    omega
  have hwake : s.sleepOwner = some .waker → ∃ l s', step s l = some s' ∧ left s' < left s ∧ s'.owner ≠ some .dump := by
    intro hw
    refine ⟨.wakerUnlock, { s with sleepOwner := none }, by simp only [step, hw], ?_, ho⟩
    simp only [left, hw, Sleeper.left]
    omega
  have hsleep : s.grab.sleeps = false → s.sleepOwner = none ∨ s.sleepOwner = some .waker := by
    intro hno
    cases hown : s.sleepOwner with
    | none => exact .inl rfl
    | some p =>
      cases p with
      | waker => exact .inr rfl
      | grab => rw [h.sleeps.1 hown] at hno; cases hno
  have hfree : s.grab.locks = true → s.owner = none := fun hl => h.free hl ho
  have hcreated : s.grab = .create → s.dump = .notCreated := by
    intro hc
    rcases h.mutex with hi | hl
    · exact hi.created hc
    · exact absurd hc hl.created
  cases hg : s.grab with simp only [grabStep, hg] at hgo hsleep hfree
  | joinDump => rw [hg] at hp; cases hp
  | exited => rw [hg] at hp; cases hp
  | create =>
    refine hgo ⟨_, rfl, by simp [GrabPc.left], ?_, Nat.le_refl _, ho⟩
    rw [hcreated hg]
    exact Nat.le_refl 1
  | loopTest => exact hgo ⟨_, rfl, by simp [hst, GrabPc.left], Nat.le_refl _, Nat.le_refl _, ho⟩
  | pushLock b =>
    rw [hfree rfl] at hgo
    exact hgo ⟨_, rfl, by simp [GrabPc.left], Nat.le_refl _, Nat.le_refl _, fun ho => by cases ho⟩
  | finalLock =>
    rw [hfree rfl] at hgo
    exact hgo ⟨_, rfl, by simp [GrabPc.left], Nat.le_refl _, Nat.le_refl _, fun ho => by cases ho⟩
  | sleepLock =>
    rcases hsleep rfl with hn | hw
    · rw [hn] at hgo
      exact hgo ⟨_, rfl, by simp [GrabPc.left], Nat.le_refl _, Nat.le_refl _, ho⟩
    · exact hwake hw
  | sleeping =>
    rcases hsleep rfl with hn | hw
    · rw [hn] at hgo
      exact hgo ⟨_, rfl, by simp [GrabPc.left], Nat.le_refl _, Nat.le_refl _, ho⟩
    · exact hwake hw
  | pushUnlock => exact hgo ⟨_, rfl, by simp [GrabPc.left], Nat.le_refl _, Nat.le_refl _, fun ho => by cases ho⟩
  | finalUnlock => exact hgo ⟨_, rfl, by simp [GrabPc.left], Nat.le_refl _, Nat.le_refl _, fun ho => by cases ho⟩
  | setStop => exact hgo ⟨_, rfl, by simp [GrabPc.left], Nat.le_refl _, Nat.le_refl _, ho⟩
  | sleepWait => exact hgo ⟨_, rfl, by simp [GrabPc.left], Nat.le_refl _, Nat.zero_le _, ho⟩
  | sleepUnlock => exact hgo ⟨_, rfl, by simp [GrabPc.left], Nat.le_refl _, Nat.zero_le _, ho⟩
  | _ => exact hgo ⟨_, rfl, by simp [hst, r, GrabPc.left], Nat.le_refl _, Nat.le_refl _, ho⟩

/-- The dump thread goes on unless the grab thread has the mutex. -/
theorem dump_goes (hst : s.stop = true) (hn : s.dump ≠ .notCreated) (he : s.dump ≠ .exited)
    (ho : s.dump.holds = true ∨ s.owner = none) : ∃ s', dumpStep s = some s' ∧ left s' < left s := by
  have hgo : (∃ s', dumpStep s = some s' ∧ s'.dump.left true < s.dump.left true) →
      ∃ s', dumpStep s = some s' ∧ left s' < left s := by
    rintro ⟨s', hs, hd⟩
    obtain ⟨hsl, hst', hdt, -⟩ := dumpMoved hs
    have hg := (dumpStep_effect hs).1
    refine ⟨s', hs, ?_⟩
    simp only [left, hsl, hst', hdt, hg, hst]
    omega
  refine hgo ?_
  unfold dumpStep
  cases hp : s.dump with rw [hp] at ho
  | notCreated => exact absurd hp hn
  | exited => exact absurd hp he
  | lock => rw [ho.resolve_left nofun]; exact ⟨_, rfl, by simp [DumpPc.left]⟩
  | waiting => rw [ho.resolve_left nofun]; exact ⟨_, rfl, by simp [DumpPc.left]⟩
  | dumpTest rest => rw [hst]; exact ⟨_, rfl, by simp [DumpPc.left]⟩
  | _ => exact ⟨_, rfl, by simp [hst, DumpPc.left]⟩

theorem running_step {l : Label α} (hs : step s l = some s') (hd : s'.dtor = .running) : s.dtor = .running := by
  cases l with
  | grab r => exact (grabMoved hs).dtor.symm.trans hd
  | dump => exact (dumpMoved hs).2.2.1.symm.trans hd
  | destroy => simp only [step] at hs; split at hs <;> cases hs; cases hd
  | dtor =>
    simp only [step, dtorStep] at hs
    split at hs
    · cases hs
    · cases hs; cases hd
    · split at hs <;> cases hs; cases hd
    · cases hs
  | _ => simp only [step] at hs; split at hs <;> cases hs; exact hd

/-- Before `stop_` is set, a dump thread that would leave with the mutex is let through. -/
theorem goes_before (h : Order s) (hd : s.dtor = .setStop) :
    ∃ l s', step s l = some s' ∧ ¬ Doomed s' ∧ left s' < left s := by
  have hst : s.stop = false := Bool.eq_false_iff.2 fun hst => by
    have hx := h.stop.1 hst
    rw [hd] at hx
    rcases hx with hx | hx <;> cases hx
  by_cases hb : s.dump.breaks = true
  · have hgo : ∃ s', dumpStep s = some s' ∧ s'.dump.left false < s.dump.left false := by
      unfold dumpStep
      cases hp : s.dump with rw [hp] at hb
      | waitTest =>
        refine ⟨_, rfl, ?_⟩
        dsimp only
        split <;> simp [DumpPc.left]
      | stopTest => exact ⟨_, rfl, by simp [hst, DumpPc.left]⟩
      | exited => have hx := h.gone hp; rw [hst] at hx; cases hx
      | _ => cases hb
    obtain ⟨s', hs, hlt⟩ := hgo
    obtain ⟨hsl, hst', hdt, -⟩ := dumpMoved hs
    have hg := (dumpStep_effect hs).1
    refine ⟨.dump, s', hs, fun hdoom => ?_, ?_⟩
    · have hx := hst'.symm.trans hdoom.stop
      rw [hst] at hx
      cases hx
    · simp only [left, hsl, hst', hdt, hg, hst]
      omega
  · refine ⟨.dtor, { s with dtor := .joinGrab, stop := true }, by simp only [step, dtorStep, hd],
      fun hdoom => hb hdoom.dump, ?_⟩
    have hle : s.dump.left true ≤ s.dump.left s.stop := by
      rw [hst]
      cases s.dump <;> simp [DumpPc.left]
    simp only [left, hd, DtorPc.left]
    omega

/-- A dump thread that has passed line 291, or is about to wait, unlocks the mutex. -/
theorem breaks_unlocking (hs : dumpStep s = some s') (hh : s.dump.holds = true) (hb : s.dump.breaks = false) :
    s'.dump.breaks = false := by
  cases hp : s.dump with rw [hp] at hh hb
  | wait => simp only [dumpStep, hp] at hs; cases hs; rfl
  | take => simp only [dumpStep, hp] at hs; cases hs; rfl
  | unlock b => simp only [dumpStep, hp] at hs; cases hs; rfl
  | waitTest => cases hb
  | stopTest => cases hb
  | _ => cases hh

/-- **A destructor that is not doomed goes on.** -/
theorem goes_on (h : Order s) (hn : ¬ Doomed s) (hr : s.dtor ≠ .running) (hd : s.dtor ≠ .done) :
    ∃ l s', step s l = some s' ∧ ¬ Doomed s' ∧ left s' < left s := by
  cases hdt : s.dtor with
  | running => exact absurd hdt hr
  | done => exact absurd hdt hd
  | setStop => exact goes_before h hdt
  | joinGrab =>
    have hst : s.stop = true := h.stop.2 (.inl hdt)
    cases hp : s.grab.passed with
    | false =>
      by_cases ho : s.owner = some .dump
      · -- the dump thread is on its way to the unlock
        have hb : s.dump.breaks = false := Bool.eq_false_iff.2 fun hb => hn ⟨hst, ho, hb, hp⟩
        have he : s.dump ≠ .exited := fun he => by rw [he] at hb; cases hb
        have hh := (h.dumps ho).resolve_right he
        obtain ⟨s', hs, hlt⟩ := dump_goes hst (fun hc => by rw [hc] at hh; cases hh) he (.inl hh)
        refine ⟨.dump, s', hs, fun hdoom => ?_, hlt⟩
        have hb' := hdoom.dump
        rw [breaks_unlocking hs hh hb] at hb'
        cases hb'
      · obtain ⟨l, s', hs, hlt, ho'⟩ := grab_goes h hst hp ho
        exact ⟨l, s', hs, fun hdoom => ho' hdoom.owner, hlt⟩
    | true =>
      have hpass : ∀ {s' : State α}, s'.grab.passed = true → ¬ Doomed s' := fun hp' hdoom => by
        have hx := hp'.symm.trans hdoom.grab
        cases hx
      by_cases he : s.dump = .exited
      · cases hg : s.grab with
        | joinDump =>
          refine ⟨.grab ⟨[], false⟩, { s with grab := .exited }, by simp only [step, grabStep, hg, he], hpass rfl, ?_⟩
          simp only [left, hg, GrabPc.left]
          omega
        | exited =>
          refine ⟨.dtor, { s with dtor := .done }, by simp only [step, dtorStep, hdt, hg], hpass (by rw [hg]; rfl), ?_⟩
          simp only [left, hdt, DtorPc.left]
          omega
        | _ => rw [hg] at hp; cases hp
      · have hc : s.dump ≠ .notCreated := fun hc => by rw [h.created hc] at hp; cases hp
        have ho : s.dump.holds = true ∨ s.owner = none := by
          rcases h.mutex with hi | hl
          · cases hown : s.owner with
            | none => exact .inr rfl
            | some p =>
              cases p with
              | dump => exact .inl (hi.owner.dumps.1 hown)
              | grab =>
                have hh := hi.owner.grabs.1 hown
                rw [GrabPc.holds_of_passed hp] at hh
                cases hh
          · exact absurd hl.dump he
        obtain ⟨s', hs, hlt⟩ := dump_goes hst hc he ho
        exact ⟨.dump, s', hs, hpass (by rw [(dumpStep_effect hs).1]; exact hp), hlt⟩

theorem left_le (s : State α) (hd : s.dtor ≠ .running) : left s ≤ 20 := by
  have h₁ : s.dtor.left ≤ 2 := by cases hx : s.dtor <;> first | exact absurd hx hd | decide
  have h₂ : s.grab.left ≤ 11 := by cases s.grab <;> simp [GrabPc.left]
  have h₃ : s.dump.left s.stop ≤ 6 := by cases s.dump <;> cases s.stop <;> simp [DumpPc.left]
  have h₄ : Sleeper.left s.sleepOwner ≤ 1 := by
    cases s.sleepOwner with
    | none => exact Nat.zero_le 1
    | some p => cases p <;> simp [Sleeper.left]
  simp only [left]
  omega

/-- **When `~Collector` returns**: a destructor under way never returns if `stop_` is set, the dump thread has the mutex
and is on its way to line 292 or gone, and the grab thread still needs the mutex; otherwise twenty steps can end it. -/
theorem returns_iff (hr : (system α).Reachable s) (hd : s.dtor ≠ .running) :
    (Doomed s → ∀ as s', (system α).run s as = some s' → s'.dtor ≠ .done) ∧
    (¬ Doomed s → ∃ as s', (system α).run s as = some s' ∧ s'.dtor = .done ∧ as.length ≤ 20) := by
  have h := order_reachable hr
  refine ⟨fun hdoom as s' hrun => doomed_run h hdoom as hrun, fun hn => ?_⟩
  let I (s : State α) : Prop := Order s ∧ ¬ Doomed s ∧ s.dtor ≠ .running
  have hgo : ∀ s, I s → ¬ s.dtor = .done →
      ∃ a s', True ∧ (system α).step s a = some s' ∧ I s' ∧ left s' < left s := by
    rintro s ⟨h, hn, hd⟩ hdone
    obtain ⟨l, s', hs, hn', hlt⟩ := goes_on h hn hd hdone
    exact ⟨l, s', trivial, hs, ⟨order_step h hs, hn', fun hx => hd (running_step hs hx)⟩, hlt⟩
  obtain ⟨as, s', hrun, -, hdone, hlen, -⟩ := System.ends hgo ⟨h, hn, hd⟩
  exact ⟨as, s', hrun, hdone, Nat.le_trans hlen (left_le s hd)⟩

/-- The dump thread has locked the mutex when the destructor sets `stop_`. -/
def lockedRun : List (Label Nat) := [.grab ⟨[], false⟩, .dump, .dump, .destroy, .dtor]

theorem returns_iff_lockedRun : ∃ s, (system Nat).run (initState [1, 2]) lockedRun = some s ∧ s.dtor = .joinGrab ∧
    ∀ as s', (system Nat).run s as = some s' → s'.dtor ≠ .done := by
  refine ⟨⟨true, some .dump, none, [1, 2], .loopTest, .waitTest, .joinGrab⟩, rfl, rfl, ?_⟩
  have hr := System.Reachable.run (.init (init_initState [1, 2])) lockedRun rfl
  exact (returns_iff hr (fun h => by cases h)).1 ⟨rfl, rfl, rfl, rfl⟩

end Shutdown
end ContentionProf
