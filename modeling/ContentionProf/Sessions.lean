import ContentionProf.Run
import ContentionProf.Places
import ContentionProf.Common
/-!
# Sessions — starting and stopping the profiler (`profiler.cpp`, `collector.h`)

`contention_profiler_start`, `contention_profiler_stop` and `SampledContention::dump_and_destroy` test `g_cp` without
the mutex and again under it.  A step is one such test, a lock or unlock of `g_cp_mutex`, one assignment, or the
beginning or the end of a profiler's method.
-/
namespace ContentionProf
namespace Sessions

/-- A `ContentionProfiler*`, numbered as they are allocated. -/
abbrev Prof := Nat

/-- What a call of `dump_and_destroy` did with its sample. -/
inductive Outcome
  | profiler (p : Prof)
  | destroyed
deriving DecidableEq

/-- Where a thread stands; `got` is what `dump_and_destroy` did so far (ghost). -/
inductive Pc (σ : Type)
  | idle
  /-- `contention_profiler_start`, line 79. -/
  | start
  /-- Line 82. -/
  | startNew
  /-- Line 84. -/
  | startLock (ctx : Prof)
  /-- Line 85. -/
  | startCheck (ctx : Prof)
  /-- Line 86. -/
  | startUnlockBusy (ctx : Prof)
  /-- Line 87, the destructor of `ctx`. -/
  | startFree (ctx : Prof)
  /-- Line 89. -/
  | startSet (ctx : Prof)
  /-- Line 90. -/
  | startBump
  /-- Line 91. -/
  | startUnlock
  /-- `contention_profiler_stop`, line 98. -/
  | stop
  /-- Line 99. -/
  | stopLock
  /-- Line 100. -/
  | stopCheck
  /-- Line 101. -/
  | stopTake
  /-- Line 102. -/
  | stopClear (ctx : Prof)
  /-- Line 103. -/
  | stopUnlock (ctx : Prof)
  /-- Line 105. -/
  | stopInit (ctx : Prof)
  /-- Line 106. -/
  | stopDelete (ctx : Prof)
  /-- Line 109. -/
  | stopUnlockFree
  /-- `dump_and_destroy`, line 82. -/
  | dump (x : σ)
  /-- Line 83. -/
  | dumpLock (x : σ)
  /-- Line 84. -/
  | dumpCheck (x : σ)
  /-- Line 85, where `g_cp` is read. -/
  | dumpCall (x : σ)
  /-- Line 85, inside the method. -/
  | dumping (x : σ) (p : Prof)
  /-- Line 86. -/
  | dumpUnlock (x : σ) (got : List Outcome)
  /-- Line 89. -/
  | dumpUnlockFree (x : σ)
  /-- Line 91. -/
  | destroy (x : σ) (got : List Outcome)

/-- One `delete` of a profiler: by a stop, or by a start that installed nothing. -/
structure Deletion where
  profiler : Prof
  stop : Bool
deriving DecidableEq

structure State (σ : Type) where
  cp : Option Prof
  cpVersion : Nat
  /-- The owner of `g_cp_mutex`. -/
  owner : Option Thread
  pc : Thread → Pc σ
  /-- The profilers allocated (ghost). -/
  allocated : Nat
  /-- The profilers a start installed, the last one first (ghost). -/
  installed : List Prof
  /-- (ghost) -/
  deleted : List Deletion
  /-- The calls of `dump_and_destroy` that returned (ghost). -/
  dumped : List (σ × List Outcome)

inductive Label (σ : Type)
  /-- With a file name that is not null. -/
  | start (t : Thread)
  | stop (t : Thread)
  | dump (t : Thread) (x : σ)
  | go (t : Thread)

variable {σ : Type}

namespace State

variable (s : State σ)

def setPc (t : Thread) (pc : Pc σ) : State σ := { s with pc := Function.update s.pc t pc }

/-- `pthread_mutex_lock`. -/
def lock (t : Thread) (pc : Pc σ) : Option (State σ) :=
  match s.owner with
  | none   => some ({ s with owner := some t }.setPc t pc)
  | some _ => none

/-- `pthread_mutex_unlock`. -/
def unlock (t : Thread) (pc : Pc σ) : State σ := { s with owner := none }.setPc t pc

def delete (p : Prof) (stop : Bool) : State σ := { s with deleted := ⟨p, stop⟩ :: s.deleted }

def finishDump (t : Thread) (x : σ) (got : List Outcome) : State σ :=
  { s with dumped := (x, got) :: s.dumped }.setPc t .idle

end State

def advance (s : State σ) (t : Thread) : Option (State σ) :=
  match s.pc t with
  | .idle                => none
  | .start               => some (s.setPc t (if s.cp.isSome then .idle else .startNew))
  | .startNew            => some ({ s with allocated := s.allocated + 1 }.setPc t (.startLock s.allocated))
  | .startLock ctx       => s.lock t (.startCheck ctx)
  | .startCheck ctx      => some (s.setPc t (if s.cp.isSome then .startUnlockBusy ctx else .startSet ctx))
  | .startUnlockBusy ctx => some (s.unlock t (.startFree ctx))
  | .startFree ctx       => some ((s.delete ctx false).setPc t .idle)
  | .startSet ctx        => some ({ s with cp := some ctx, installed := ctx :: s.installed }.setPc t .startBump)
  | .startBump           => some ({ s with cpVersion := s.cpVersion + 1 }.setPc t .startUnlock)
  | .startUnlock         => some (s.unlock t .idle)
  | .stop                => some (s.setPc t (if s.cp.isSome then .stopLock else .idle))
  | .stopLock            => s.lock t .stopCheck
  | .stopCheck           => some (s.setPc t (if s.cp.isSome then .stopTake else .stopUnlockFree))
  | .stopTake            => s.cp.map (fun p => s.setPc t (.stopClear p))
  | .stopClear ctx       => some ({ s with cp := none }.setPc t (.stopUnlock ctx))
  | .stopUnlock ctx      => some (s.unlock t (.stopInit ctx))
  | .stopInit ctx        => some (s.setPc t (.stopDelete ctx))
  | .stopDelete ctx      => some ((s.delete ctx true).setPc t .idle)
  | .stopUnlockFree      => some (s.unlock t .idle)
  | .dump x              => some (s.setPc t (if s.cp.isSome then .dumpLock x else .destroy x []))
  | .dumpLock x          => s.lock t (.dumpCheck x)
  | .dumpCheck x         => some (s.setPc t (if s.cp.isSome then .dumpCall x else .dumpUnlockFree x))
  | .dumpCall x          => s.cp.map (fun p => s.setPc t (.dumping x p))
  | .dumping x p         => some (s.setPc t (.dumpUnlock x [.profiler p]))
  | .dumpUnlock x got    => some ((s.unlock t .idle).finishDump t x got)
  | .dumpUnlockFree x    => some (s.unlock t (.destroy x []))
  | .destroy x got       => some (s.finishDump t x (got ++ [.destroyed]))

def Pc.isIdle : Pc σ → Bool
  | .idle => true
  | _     => false

def step (s : State σ) : Label σ → Option (State σ)
  | .start t  => if (s.pc t).isIdle then some (s.setPc t .start) else none
  | .stop t   => if (s.pc t).isIdle then some (s.setPc t .stop) else none
  | .dump t x => if (s.pc t).isIdle then some (s.setPc t (.dump x)) else none
  | .go t     => advance s t

def initState (σ : Type) : State σ := ⟨none, 0, none, fun _ => .idle, 0, [], [], []⟩

def system (σ : Type) : System (State σ) (Label σ) where
  init s := s = initState σ
  step := step

/-! ## What a thread has in its hands -/

/-- The thread is between its lock and its unlock of `g_cp_mutex`. -/
def Pc.holds : Pc σ → Bool
  | .startCheck _      => true
  | .startUnlockBusy _ => true
  | .startSet _        => true
  | .startBump         => true
  | .startUnlock       => true
  | .stopCheck         => true
  | .stopTake          => true
  | .stopClear _       => true
  | .stopUnlock _      => true
  | .stopUnlockFree    => true
  | .dumpCheck _       => true
  | .dumpCall _        => true
  | .dumping _ _       => true
  | .dumpUnlock _ _    => true
  | .dumpUnlockFree _  => true
  | _                  => false

/-- The profiler a start has made and not installed. -/
def Pc.made : Pc σ → List Prof
  | .startLock p       => [p]
  | .startCheck p      => [p]
  | .startUnlockBusy p => [p]
  | .startFree p       => [p]
  | .startSet p        => [p]
  | _                  => []

/-- The profiler a stop has taken from `g_cp` and not yet deleted. -/
def Pc.taken : Pc σ → List Prof
  | .stopUnlock p => [p]
  | .stopInit p   => [p]
  | .stopDelete p => [p]
  | _             => []

/-- The profiler whose method the thread is in, or calls next. -/
def Pc.calls : Pc σ → Option Prof
  | .startFree p  => some p
  | .dumping _ p  => some p
  | .stopInit p   => some p
  | .stopDelete p => some p
  | _             => none

/-- The next step reads the object `g_cp` points to, or takes it. -/
def Pc.needsProfiler : Pc σ → Bool
  | .stopTake   => true
  | .dumpCall _ => true
  | _           => false

/-! ## The invariant -/

/-- Where a profiler can be. -/
inductive Place
  | named
  | deleted
  | made (t : Thread)
  | taken (t : Thread)
deriving DecidableEq

def content (s : State σ) : Place → List Prof
  | .named   => s.cp.toList
  | .deleted => s.deleted.map Deletion.profiler
  | .made t  => (s.pc t).made
  | .taken t => (s.pc t).taken

/-- What a thread's place says about `g_cp` and about the sample. -/
def PcOk (s : State σ) : Pc σ → Prop
  | .startSet _       => s.cp = none
  | .startBump        => s.cp ≠ none
  | .stopTake         => s.cp ≠ none
  | .stopClear p      => s.cp = some p
  | .dumpCall _       => s.cp ≠ none
  | .dumping _ p      => s.cp = some p
  | .dumpUnlock _ got => ∃ p, got = [.profiler p]
  | .destroy _ got    => got = []
  | _                 => True

/-- A version that is one behind: between lines 89 and 90. -/
def Pc.behind : Pc σ → Nat
  | .startBump => 1
  | _          => 0

def behind (s : State σ) : Nat :=
  match s.owner with
  | some t => (s.pc t).behind
  | none   => 0

structure Inv (s : State σ) : Prop where
  owner : ∀ t, s.owner = some t ↔ (s.pc t).holds = true
  places : Partition (content s)
  allocated : ∀ p, p < s.allocated ↔ Placed (content s) p
  installedLt : ∀ p ∈ s.installed, p < s.allocated
  installedNodup : s.installed.Nodup
  named : ∀ p, s.cp = some p → p ∈ s.installed
  taken : ∀ t, ∀ p ∈ (s.pc t).taken, p ∈ s.installed
  made : ∀ t, ∀ p ∈ (s.pc t).made, p ∉ s.installed
  deleted : ∀ d ∈ s.deleted, d.stop = true ↔ d.profiler ∈ s.installed
  version : s.cpVersion + behind s = s.installed.length
  pc : ∀ t, PcOk s (s.pc t)
  dumped : ∀ e ∈ s.dumped, e.2.length = 1

end Sessions
end ContentionProf
