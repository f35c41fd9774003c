import ContentionProf.Run
/-!
# Shutdown — stopping the collector (`collector.cpp`)

`~Collector` sets `stop_` and joins the grab thread, which sets `stop_` again and joins the dump thread.  A step is one
lock, unlock, condition wait or wake-up, or one read or write of `stop_`, with the work next to it.  A thread in a
condition wait may wake up at any time, so a signal adds no behaviour.
-/
namespace ContentionProf
namespace Shutdown

/-- Where the grab thread stands; `batch` is what the round collected and did not drop. -/
inductive GrabPc (α : Type)
  /-- Line 119. -/
  | create
  /-- Line 131. -/
  | loopTest
  /-- Lines 132–185. -/
  | round
  /-- Line 188. -/
  | pushLock (batch : List α)
  /-- Line 189. -/
  | push (batch : List α)
  /-- Line 190. -/
  | pushSignal
  /-- Line 191. -/
  | pushUnlock
  /-- Line 205. -/
  | sleepTest
  /-- Line 207. -/
  | sleepLock
  /-- Line 208, before the wait. -/
  | sleepWait
  /-- Line 208, in the wait. -/
  | sleeping
  /-- Line 209. -/
  | sleepUnlock
  /-- Line 213. -/
  | finalLock
  /-- Line 214. -/
  | setStop
  /-- Line 215. -/
  | finalSignal
  /-- Line 216. -/
  | finalUnlock
  /-- Line 217. -/
  | joinDump
  | exited

/-- Where the dump thread stands. -/
inductive DumpPc (α : Type)
  | notCreated
  /-- Line 279. -/
  | loopTest
  /-- Line 283. -/
  | lock
  /-- Line 285. -/
  | waitTest
  /-- Line 288, before the wait. -/
  | wait
  /-- Line 288, in the wait or awake and about to lock the mutex again. -/
  | waiting
  /-- Line 291. -/
  | stopTest
  /-- Lines 294–295. -/
  | take
  /-- Line 296. -/
  | unlock (batch : List α)
  /-- Line 300, then lines 301–306 for the next sample. -/
  | dumpTest (rest : List α)
  | exited

/-- Where the thread that destroys the collector stands. -/
inductive DtorPc
  | running
  /-- Line 105. -/
  | setStop
  /-- Line 106. -/
  | joinGrab
  | done

/-- A thread that takes `dump_thread_mutex_`. -/
inductive Party
  | grab
  | dump
deriving DecidableEq

/-- A thread that takes `sleep_mutex_`: the grab thread, or any other one in `wakeup_grab_thread`. -/
inductive Sleeper
  | grab
  | waker
deriving DecidableEq

structure State (α : Type) where
  stop : Bool
  owner : Option Party
  sleepOwner : Option Sleeper
  dumpRoot : List α
  grab : GrabPc α
  dump : DumpPc α
  dtor : DtorPc

/-- What a step of the grab thread reads besides `stop_`: the samples of the round, and whether it was a short one. -/
structure Round (α : Type) where
  batch : List α
  early : Bool

inductive Label (α : Type)
  | destroy
  | dtor
  | grab (r : Round α)
  | dump
  | wakerLock
  | wakerUnlock

variable {α : Type}

def dtorStep (s : State α) : Option (State α) :=
  match s.dtor with
  | .running  => none
  | .setStop  => some { s with dtor := .joinGrab, stop := true }
  | .joinGrab => match s.grab with
    | .exited => some { s with dtor := .done }
    | _       => none
  | .done     => none

def grabStep (s : State α) (r : Round α) : Option (State α) :=
  match s.grab with
  | .create       => some { s with grab := .loopTest, dump := .loopTest }
  | .loopTest     => some { s with grab := if s.stop then .finalLock else .round }
  | .round        => some { s with grab := if r.batch.isEmpty then .sleepTest else .pushLock r.batch }
  | .pushLock b   => match s.owner with
    | none   => some { s with grab := .push b, owner := some .grab }
    | some _ => none
  | .push b       => some { s with grab := .pushSignal, dumpRoot := s.dumpRoot ++ b }
  | .pushSignal   => some { s with grab := .pushUnlock }
  | .pushUnlock   => some { s with grab := .sleepTest, owner := none }
  | .sleepTest    => some { s with grab := if !s.stop && r.early then .sleepLock else .loopTest }
  | .sleepLock    => match s.sleepOwner with
    | none   => some { s with grab := .sleepWait, sleepOwner := some .grab }
    | some _ => none
  | .sleepWait    => some { s with grab := .sleeping, sleepOwner := none }
  | .sleeping     => match s.sleepOwner with
    | none   => some { s with grab := .sleepUnlock, sleepOwner := some .grab }
    | some _ => none
  | .sleepUnlock  => some { s with grab := .loopTest, sleepOwner := none }
  | .finalLock    => match s.owner with
    | none   => some { s with grab := .setStop, owner := some .grab }
    | some _ => none
  | .setStop      => some { s with grab := .finalSignal, stop := true }
  | .finalSignal  => some { s with grab := .finalUnlock }
  | .finalUnlock  => some { s with grab := .joinDump, owner := none }
  | .joinDump     => match s.dump with
    | .exited => some { s with grab := .exited }
    | _       => none
  | .exited       => none

def dumpStep (s : State α) : Option (State α) :=
  match s.dump with
  | .notCreated    => none
  | .loopTest      => some { s with dump := if s.stop then .exited else .lock }
  | .lock          => match s.owner with
    | none   => some { s with dump := .waitTest, owner := some .dump }
    | some _ => none
  | .waitTest      => some { s with dump := if !s.stop && s.dumpRoot.isEmpty then .wait else .stopTest }
  | .wait          => some { s with dump := .waiting, owner := none }
  | .waiting       => match s.owner with
    | none   => some { s with dump := .waitTest, owner := some .dump }
    | some _ => none
  -- the `break` of line 292 leaves the outer loop
  | .stopTest      => some { s with dump := if s.stop then .exited else .take }
  | .take          => some { s with dump := .unlock s.dumpRoot, dumpRoot := [] }
  | .unlock b      => some { s with dump := .dumpTest b, owner := none }
  | .dumpTest rest => match s.stop, rest with
    | false, _ :: ps => some { s with dump := .dumpTest ps }
    | _, _           => some { s with dump := .loopTest }
  | .exited        => none

def step (s : State α) : Label α → Option (State α)
  | .destroy     => match s.dtor with
    | .running => some { s with dtor := .setStop }
    | _        => none
  | .dtor        => dtorStep s
  | .grab r      => grabStep s r
  | .dump        => dumpStep s
  | .wakerLock   => match s.sleepOwner with
    | none   => some { s with sleepOwner := some .waker }
    | some _ => none
  | .wakerUnlock => match s.sleepOwner with
    | some .waker => some { s with sleepOwner := none }
    | _           => none

/-- The collector as constructed, with any backlog: the grab thread runs, the dump thread does not yet. -/
def system (α : Type) : System (State α) (Label α) where
  init s := s.stop = false ∧ s.owner = none ∧ s.sleepOwner = none ∧ s.grab = .create ∧ s.dump = .notCreated ∧
    s.dtor = .running
  step := step

/-! ## Who owns the mutex -/

/-- The grab thread is between the lock and the unlock of `dump_thread_mutex_`. -/
def GrabPc.holds : GrabPc α → Bool
  | .push _      => true
  | .pushSignal  => true
  | .pushUnlock  => true
  | .setStop     => true
  | .finalSignal => true
  | .finalUnlock => true
  | _            => false

/-- The dump thread is between the lock and the unlock of `dump_thread_mutex_`. -/
def DumpPc.holds : DumpPc α → Bool
  | .waitTest => true
  | .wait     => true
  | .stopTest => true
  | .take     => true
  | .unlock _ => true
  | _         => false

/-- The grab thread is at line 188 or 213. -/
def GrabPc.locks : GrabPc α → Bool
  | .pushLock _ => true
  | .finalLock  => true
  | _           => false

/-- **The branch of line 292 is not taken**: the dump thread does not find `stop_` set at line 291. -/
def NoBreak (s : State α) : Label α → Prop
  | .dump => match s.dump with
    | .stopTest => s.stop = false
    | _         => True
  | _     => True

/-- The owner of the mutex is the thread that stands between its lock and its unlock. -/
structure OwnerInv (s : State α) : Prop where
  grabs : s.owner = some .grab ↔ s.grab.holds = true
  dumps : s.owner = some .dump ↔ s.dump.holds = true

/-- The dump thread is gone and the mutex is its own. -/
structure Abandoned (s : State α) : Prop where
  dump : s.dump = .exited
  owner : s.owner = some .dump

/-- The grab thread waits for a mutex whose owner has exited. -/
def GrabStuck (s : State α) : Prop := s.grab.locks = true ∧ ∃ p, s.owner = some p ∧
  match p with
  | .grab => s.grab = .exited
  | .dump => s.dump = .exited

theorem ownerInv_init {s : State α} (h : (system α).init s) : OwnerInv s := by
  obtain ⟨-, ho, -, hg, hd, -⟩ := h
  constructor
  · rw [ho, hg]; simp [GrabPc.holds]
  · rw [ho, hd]; simp [DumpPc.holds]

theorem OwnerInv.abandoned {s : State α} (h : OwnerInv s) : ¬ Abandoned s := by
  rintro ⟨hd, ho⟩
  have := h.dumps.1 ho
  rw [hd] at this
  cases this

theorem GrabStuck.abandoned {s : State α} (h : GrabStuck s) : Abandoned s := by
  obtain ⟨hl, p, ho, hp⟩ := h
  cases p with
  | grab => rw [hp] at hl; cases hl
  | dump => exact ⟨hp, ho⟩

/-! ## Steps -/

/-- **What a step of the grab thread does to the mutex**: nothing, or it locks it, or unlocks it. -/
theorem grabStep_effect {s s' : State α} {r : Round α} (hs : grabStep s r = some s') :
    s'.grab ≠ .create ∧ (s'.dump = s.dump ∨ s.grab = .create ∧ s'.dump = .loopTest) ∧
      ((s'.owner = s.owner ∧ s'.grab.holds = s.grab.holds) ∨
        (s.owner = none ∧ s'.owner = some .grab ∧ s'.grab.holds = true) ∨
        (s.grab.holds = true ∧ s'.owner = none ∧ s'.grab.holds = false)) := by
  cases hp : s.grab <;> simp only [grabStep, hp] at hs
  case create => cases hs; exact ⟨nofun, .inr ⟨rfl, rfl⟩, .inl ⟨rfl, rfl⟩⟩
  case loopTest => cases hs; refine ⟨?_, .inl rfl, .inl ⟨rfl, ?_⟩⟩ <;> dsimp only <;> split <;> first | rfl | nofun
  case round => cases hs; refine ⟨?_, .inl rfl, .inl ⟨rfl, ?_⟩⟩ <;> dsimp only <;> split <;> first | rfl | nofun
  case sleepTest => cases hs; refine ⟨?_, .inl rfl, .inl ⟨rfl, ?_⟩⟩ <;> dsimp only <;> split <;> first | rfl | nofun
  case pushLock b =>
    split at hs
    · rename_i ho; cases hs; exact ⟨nofun, .inl rfl, .inr (.inl ⟨ho, rfl, rfl⟩)⟩
    · cases hs
  case finalLock =>
    split at hs
    · rename_i ho; cases hs; exact ⟨nofun, .inl rfl, .inr (.inl ⟨ho, rfl, rfl⟩)⟩
    · cases hs
  case pushUnlock => cases hs; exact ⟨nofun, .inl rfl, .inr (.inr ⟨rfl, rfl, rfl⟩)⟩
  case finalUnlock => cases hs; exact ⟨nofun, .inl rfl, .inr (.inr ⟨rfl, rfl, rfl⟩)⟩
  case sleepLock =>
    split at hs
    · cases hs; exact ⟨nofun, .inl rfl, .inl ⟨rfl, rfl⟩⟩
    · cases hs
  case sleeping =>
    split at hs
    · cases hs; exact ⟨nofun, .inl rfl, .inl ⟨rfl, rfl⟩⟩
    · cases hs
  case joinDump =>
    split at hs
    · cases hs; exact ⟨nofun, .inl rfl, .inl ⟨rfl, rfl⟩⟩
    · cases hs
  case exited => cases hs
  all_goals
    cases hs
    exact ⟨nofun, .inl rfl, .inl ⟨rfl, rfl⟩⟩

/-- **What a step of the dump thread does to the mutex**: nothing, or it locks it, or unlocks it, or it exits at line
292. -/
theorem dumpStep_effect {s s' : State α} (hs : dumpStep s = some s') :
    s'.grab = s.grab ∧ s.dump ≠ .notCreated ∧ s.dump ≠ .exited ∧
      ((s'.owner = s.owner ∧ s'.dump.holds = s.dump.holds ∧ NoBreak s .dump) ∨
        (s.owner = none ∧ s'.owner = some .dump ∧ s'.dump.holds = true ∧ NoBreak s .dump) ∨
        (s.dump.holds = true ∧ s'.owner = none ∧ s'.dump.holds = false ∧ NoBreak s .dump) ∨
        (s.dump.holds = true ∧ s'.owner = s.owner ∧ s'.dump = .exited ∧ ¬ NoBreak s .dump)) := by
  cases hp : s.dump <;> simp only [dumpStep, hp] at hs
  case notCreated => cases hs
  case loopTest =>
    cases hs
    exact ⟨rfl, nofun, nofun, .inl ⟨rfl, by dsimp only; split <;> rfl, by simp only [NoBreak, hp]⟩⟩
  case waitTest =>
    cases hs
    exact ⟨rfl, nofun, nofun, .inl ⟨rfl, by dsimp only; split <;> rfl, by simp only [NoBreak, hp]⟩⟩
  case lock =>
    split at hs
    · rename_i ho
      cases hs
      exact ⟨rfl, nofun, nofun, .inr (.inl ⟨ho, rfl, rfl, by simp only [NoBreak, hp]⟩)⟩
    · cases hs
  case waiting =>
    split at hs
    · rename_i ho
      cases hs
      exact ⟨rfl, nofun, nofun, .inr (.inl ⟨ho, rfl, rfl, by simp only [NoBreak, hp]⟩)⟩
    · cases hs
  case wait => cases hs; exact ⟨rfl, nofun, nofun, .inr (.inr (.inl ⟨rfl, rfl, rfl, by simp only [NoBreak, hp]⟩))⟩
  case unlock b => cases hs; exact ⟨rfl, nofun, nofun, .inr (.inr (.inl ⟨rfl, rfl, rfl, by simp only [NoBreak, hp]⟩))⟩
  case stopTest =>
    cases hst : s.stop <;> rw [hst] at hs <;> cases hs
    · exact ⟨rfl, nofun, nofun, .inl ⟨rfl, rfl, by simp only [NoBreak, hp, hst]⟩⟩
    · exact ⟨rfl, nofun, nofun, .inr (.inr (.inr ⟨rfl, rfl, rfl, by simp only [NoBreak, hp, hst]; decide⟩))⟩
  case take => cases hs; exact ⟨rfl, nofun, nofun, .inl ⟨rfl, rfl, by simp only [NoBreak, hp]⟩⟩
  case dumpTest rest =>
    split at hs
    · cases hs; exact ⟨rfl, nofun, nofun, .inl ⟨rfl, rfl, by simp only [NoBreak, hp]⟩⟩
    · cases hs; exact ⟨rfl, nofun, nofun, .inl ⟨rfl, rfl, by simp only [NoBreak, hp]⟩⟩
  case exited => cases hs

/-- The destructor and the wakers leave the mutex, the grab thread and the dump thread alone. -/
theorem step_frame {s s' : State α} {l : Label α} (hs : step s l = some s') (hg : ∀ r, l ≠ .grab r) (hd : l ≠ .dump) :
    s'.owner = s.owner ∧ s'.grab = s.grab ∧ s'.dump = s.dump := by
  cases l with
  | grab r => exact absurd rfl (hg r)
  | dump => exact absurd rfl hd
  | dtor =>
    simp only [step, dtorStep] at hs
    split at hs
    · cases hs
    · cases hs; exact ⟨rfl, rfl, rfl⟩
    · split at hs
      · cases hs; exact ⟨rfl, rfl, rfl⟩
      · cases hs
    · cases hs
  | _ =>
    simp only [step] at hs
    split at hs
    · cases hs; exact ⟨rfl, rfl, rfl⟩
    · cases hs

theorem OwnerInv.grab {s s' : State α} {r : Round α} (h : OwnerInv s) (hc : s.grab = .create → s.dump = .notCreated)
    (hs : grabStep s r = some s') : OwnerInv s' := by
  obtain ⟨-, hd, he⟩ := grabStep_effect hs
  have hd : s'.dump.holds = s.dump.holds := by
    rcases hd with hd | ⟨hcr, hd⟩
    · rw [hd]
    · rw [hd, hc hcr]; rfl
  have hdump := h.dumps
  have hgrab := h.grabs
  rw [← hd] at hdump
  rcases he with ⟨ho, hh⟩ | ⟨hn, ho, hh⟩ | ⟨hp, ho, hh⟩
  · rw [← ho] at hdump hgrab
    exact ⟨by rw [hh]; exact hgrab, hdump⟩
  · rw [hn] at hdump
    exact ⟨by simp [ho, hh], by rw [← hdump, ho]; simp⟩
  · rw [hgrab.2 hp] at hdump
    exact ⟨by simp [ho, hh], by rw [← hdump, ho]; simp⟩

theorem OwnerInv.dump {s s' : State α} (h : OwnerInv s) (hok : NoBreak s .dump) (hs : dumpStep s = some s') :
    OwnerInv s' := by
  obtain ⟨hg, -, -, he⟩ := dumpStep_effect hs
  have hdump := h.dumps
  have hgrab := h.grabs
  rw [← hg] at hgrab
  rcases he with ⟨ho, hh, -⟩ | ⟨hn, ho, hh, -⟩ | ⟨hp, ho, hh, -⟩ | ⟨-, -, -, hb⟩
  · rw [← ho] at hdump hgrab
    exact ⟨hgrab, by rw [hh]; exact hdump⟩
  · rw [hn] at hgrab
    exact ⟨by rw [← hgrab, ho]; simp, by simp [ho, hh]⟩
  · rw [hdump.2 hp] at hgrab
    exact ⟨by rw [← hgrab, ho]; simp, by simp [ho, hh]⟩
  · exact absurd hok hb

/-- What every step keeps, line 292 apart. -/
structure Inv (s : State α) : Prop where
  owner : OwnerInv s
  created : s.grab = .create → s.dump = .notCreated

theorem inv_step {s s' : State α} {l : Label α} (h : Inv s) (hok : NoBreak s l) (hs : step s l = some s') : Inv s' := by
  cases l with
  | grab r => exact ⟨h.owner.grab h.created hs, fun hc => absurd hc (grabStep_effect hs).1⟩
  | dump =>
    obtain ⟨hg, hd, -⟩ := dumpStep_effect hs
    exact ⟨h.owner.dump hok hs, fun hc => absurd (h.created (hg ▸ hc)) hd⟩
  | _ =>
    obtain ⟨ho, hg, hd⟩ := step_frame hs nofun nofun
    refine ⟨⟨?_, ?_⟩, ?_⟩
    · rw [ho, hg]; exact h.owner.grabs
    · rw [ho, hd]; exact h.owner.dumps
    · rw [hg, hd]; exact h.created

/-! ## After line 292 -/

/-- The mutex stays with the thread that is gone. -/
structure Lost (s : State α) : Prop extends Abandoned s where
  grab : s.grab.holds = false
  created : s.grab ≠ .create

theorem lost_of_break {s s' : State α} (h : Inv s) (hok : ¬ NoBreak s .dump) (hs : dumpStep s = some s') : Lost s' := by
  obtain ⟨hg, hn, -, ⟨-, -, hb⟩ | ⟨-, -, -, hb⟩ | ⟨-, -, -, hb⟩ | ⟨hh, ho, hd, -⟩⟩ := dumpStep_effect hs
  · exact absurd hb hok
  · exact absurd hb hok
  · exact absurd hb hok
  · have how := h.owner.dumps.2 hh
    refine ⟨⟨hd, ho.trans how⟩, ?_, fun hc => hn (h.created (hg ▸ hc))⟩
    rw [hg]
    cases hgh : s.grab.holds with
    | false => rfl
    | true =>
      have := h.owner.grabs.2 hgh
      rw [how] at this
      cases this

theorem lost_step {s s' : State α} {l : Label α} (h : Lost s) (hs : step s l = some s') : Lost s' := by
  have ho := h.owner
  cases l with
  | grab r =>
    obtain ⟨hne, hd | ⟨hc, -⟩, ⟨ho', hh⟩ | ⟨hn, -⟩ | ⟨hp, -⟩⟩ := grabStep_effect hs
    · exact ⟨⟨hd.trans h.dump, ho'.trans ho⟩, hh.trans h.grab, hne⟩
    · rw [hn] at ho; cases ho
    · rw [h.grab] at hp; cases hp
    all_goals exact absurd hc h.created
  | dump => exact absurd h.dump (dumpStep_effect hs).2.2.1
  | _ =>
    obtain ⟨ho', hg, hd⟩ := step_frame hs nofun nofun
    exact ⟨⟨hd.trans h.dump, ho'.trans ho⟩, by rw [hg]; exact h.grab, by rw [hg]; exact h.created⟩

theorem lost_run {s s' : State α} (h : Lost s) : ∀ (as : List (Label α)), (system α).run s as = some s' → Lost s' := by
  intro as
  induction as generalizing s with
  | nil => intro hr; cases hr; exact h
  | cons a as ih =>
    intro hr
    rw [System.run_cons] at hr
    obtain ⟨s₁, hs, hr'⟩ := Option.bind_eq_some_iff.1 hr
    exact ih (lost_step h hs) hr'

/-- From a state in order, a run either keeps the order or takes the branch of line 292 and loses the mutex. -/
theorem inv_or_lost {s s' : State α} (h : Inv s) : ∀ (as : List (Label α)), (system α).run s as = some s' →
    ((system α).RunOk NoBreak s as ∧ Inv s') ∨ (¬ (system α).RunOk NoBreak s as ∧ Lost s') := by
  intro as
  induction as generalizing s with
  | nil => intro hr; cases hr; exact .inl ⟨trivial, h⟩
  | cons a as ih =>
    intro hr
    rw [System.run_cons] at hr
    obtain ⟨s₁, hs, hr'⟩ := Option.bind_eq_some_iff.1 hr
    by_cases hok : NoBreak s a
    · rcases ih (inv_step h hok hs) hr' with ⟨hrun, hi⟩ | ⟨hrun, hl⟩
      · exact .inl ⟨⟨hok, fun s₂ h₂ => by rw [hs] at h₂; cases h₂; exact hrun⟩, hi⟩
      · exact .inr ⟨fun hn => hrun (hn.2 s₁ hs), hl⟩
    · refine .inr ⟨fun hn => hok hn.1, lost_run ?_ as hr'⟩
      cases a with
      | dump => exact lost_of_break h hok hs
      | _ => exact absurd trivial hok

/-- **The dump thread never exits while it owns `dump_thread_mutex_`, and the grab thread never waits for a mutex whose
owner has exited, exactly in the runs that do not take the branch of line 292.** -/
theorem exits_unlocked_iff {s₀ s : State α} {as : List (Label α)} (h0 : (system α).init s₀)
    (hr : (system α).run s₀ as = some s) :
    (¬ Abandoned s ∧ ¬ GrabStuck s) ↔ (system α).RunOk NoBreak s₀ as := by
  obtain ⟨-, -, -, hg, hd, -⟩ := id h0
  have hi : Inv s₀ := ⟨ownerInv_init h0, fun _ => hd⟩
  rcases inv_or_lost hi as hr with ⟨hrun, hi'⟩ | ⟨hrun, hl⟩
  · exact ⟨fun _ => hrun, fun _ => ⟨hi'.owner.abandoned, fun hst => hi'.owner.abandoned hst.abandoned⟩⟩
  · exact ⟨fun h => absurd hl.toAbandoned h.1, fun hok => absurd hok hrun⟩

/-! ## A shutdown that hangs -/

/-- The dump thread has passed line 279 when the destructor sets `stop_`. -/
def hangRun : List (Label Nat) :=
  [.grab ⟨[], false⟩, .dump, .destroy, .dtor, .dump, .dump, .dump, .grab ⟨[], false⟩]

def initState (backlog : List α) : State α := ⟨false, none, none, backlog, .create, .notCreated, .running⟩

theorem init_initState (backlog : List α) : (system α).init (initState backlog) := ⟨rfl, rfl, rfl, rfl, rfl, rfl⟩

/-- Nothing leads out of line 213 once the mutex is lost. -/
theorem finalLock_of_lost {s s' : State α} (h : Lost s) (hg : s.grab = .finalLock) : ∀ (as : List (Label α)),
    (system α).run s as = some s' → s'.grab = .finalLock := by
  intro as
  induction as generalizing s with
  | nil => intro hr; cases hr; exact hg
  | cons a as ih =>
    intro hr
    rw [System.run_cons] at hr
    obtain ⟨s₁, hs, hr'⟩ := Option.bind_eq_some_iff.1 hr
    have hs : step s a = some s₁ := hs
    refine ih (lost_step h hs) ?_ hr'
    cases a with
    | grab r =>
      have hs : grabStep s r = some s₁ := hs
      simp only [grabStep, hg, h.owner] at hs
      cases hs
    | dump => exact ((dumpStep_effect hs).1).trans hg
    | _ => exact ((step_frame hs nofun nofun).2.1).trans hg

/-- **The dump thread exits with the mutex, and `~Collector` waits for ever** for a grab thread stuck at line 213. -/
theorem join_blocked_for_ever : ∃ s, (system Nat).Reachable s ∧ s.dtor = .joinGrab ∧ Abandoned s ∧ GrabStuck s ∧
    ∀ as s', (system Nat).run s as = some s' → s'.grab = .finalLock := by
  refine ⟨⟨true, some .dump, none, [], .finalLock, .exited, .joinGrab⟩, ?_, rfl, ⟨rfl, rfl⟩, ⟨rfl, .dump, rfl, rfl⟩, ?_⟩
  · exact System.Reachable.run (.init (init_initState [])) hangRun rfl
  · intro as s' hr
    exact finalLock_of_lost ⟨⟨rfl, rfl⟩, rfl, fun hc => by cases hc⟩ rfl as hr

/-- The dump thread is in its first round when `stop_` is set, and leaves at line 279. -/
def cleanRun : List (Label Nat) :=
  [.grab ⟨[], false⟩, .dump, .dump, .dump, .dump, .dump, .dump, .destroy, .dtor, .dump, .dump,
    .grab ⟨[], false⟩, .grab ⟨[], false⟩, .grab ⟨[], false⟩, .grab ⟨[], false⟩, .grab ⟨[], false⟩, .grab ⟨[], false⟩,
    .dtor]

theorem exits_unlocked_cleanRun : ∃ s, (system Nat).run (initState [1, 2]) cleanRun = some s ∧ s.dtor = .done ∧
    ((¬ Abandoned s ∧ ¬ GrabStuck s) ↔ (system Nat).RunOk NoBreak (initState [1, 2]) cleanRun) :=
  ⟨_, rfl, rfl, exits_unlocked_iff (init_initState [1, 2]) rfl⟩

end Shutdown
end ContentionProf
