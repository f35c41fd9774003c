import ContentionProf.Blocks
import ContentionProf.Common
import ContentionProf.Run
/-!
# ThreadExit — functions to call when a thread exits (`common/thread_local.cpp`)

One thread registers and cancels; then it exits, and the destructor of the thread's `ThreadExitHelper` calls what is
registered.  The slot of the thread is null while a destructor runs, so what an exit function registers goes into a new
helper, for which there is another round of destructors, up to a limit.  A process that exits has one round
(`helper_exit_global`).
-/
namespace ContentionProf
namespace ThreadExit

/-- `ThreadExitHelper::Pair`. -/
structure Pair where
  fn : U64
  arg : U64
deriving DecidableEq

/-- A pair in `fns_`; `id` counts the calls of `thread_atexit` (ghost). -/
structure Registration where
  id : Nat
  pair : Pair
deriving DecidableEq

inductive Errno
  | einval
  | enomem
deriving DecidableEq

/-- The `fns_` of a helper, the back last. -/
abbrev ThreadExitHelper := List Registration

namespace ThreadExitHelper

/-- `add`; `memory` says whether the vector could grow. -/
def add (fns : ThreadExitHelper) (r : Registration) (memory : Bool) : ThreadExitHelper × Option Errno :=
  if memory then (fns ++ [r], none) else (fns, some .enomem)

/-- `remove`: the first pair that is equal, and those right behind it that are. -/
def remove (fns : ThreadExitHelper) (p : Pair) : ThreadExitHelper := Blocks.eraseBlock (fun r => r.pair == p) fns

end ThreadExitHelper

/-- `thread_atexit` with what `thread_atexit_key` holds, the new value and the error. -/
def threadAtexit (helper : Option ThreadExitHelper) (r : Registration) (memory : Bool) :
    Option ThreadExitHelper × Option Errno :=
  if r.pair.fn = 0 then (helper, some .einval)
  else
    -- `get_or_new_thread_exit_helper`
    let out := ThreadExitHelper.add (helper.getD []) r memory
    (some out.1, out.2)

/-- `thread_atexit_cancel`. -/
def threadAtexitCancel (helper : Option ThreadExitHelper) (p : Pair) : Option ThreadExitHelper :=
  if p.fn = 0 then helper else helper.map (fun fns => ThreadExitHelper.remove fns p)

inductive Phase
  | body
  | exiting
  | exited
deriving DecidableEq

/-- What happens, for the specification (ghost). -/
inductive Event
  | registered (r : Registration)
  | cancelled (p : Pair)
  | called (r : Registration)
deriving DecidableEq

structure State where
  /-- The value of `thread_atexit_key`. -/
  helper : Option ThreadExitHelper
  phase : Phase
  /-- The `fns_` of the helper that is being deleted. -/
  running : ThreadExitHelper
  /-- The rounds of destructors begun. -/
  rounds : Nat
  /-- The calls of `thread_atexit` (ghost). -/
  ncalls : Nat
  /-- The oldest first (ghost). -/
  trace : List Event
deriving DecidableEq

inductive Label
  | atexit (p : Pair) (memory : Bool)
  | cancel (p : Pair)
  /-- The thread, or the process, exits. -/
  | exit
  /-- Lines 27–29. -/
  | call
  /-- The destructor is done. -/
  | next
deriving DecidableEq

namespace State

variable (s : State)

/-- What is registered in the thread's slot. -/
def registrations : ThreadExitHelper := s.helper.getD []

/-- Another round of destructors, if the slot is not null. -/
def round (iterations : Nat) : State :=
  match s.helper with
  | none     => { s with phase := .exited }
  | some fns =>
    if s.rounds < iterations then
      { s with helper := none, phase := .exiting, running := fns, rounds := s.rounds + 1 }
    else { s with phase := .exited }

/-- `thread_atexit`. -/
def atexit (p : Pair) (memory : Bool) : State :=
  let r : Registration := ⟨s.ncalls, p⟩
  let out := threadAtexit s.helper r memory
  { s with
    helper := out.1
    ncalls := s.ncalls + 1
    trace := if out.2 = none then s.trace ++ [.registered r] else s.trace }

/-- `thread_atexit_cancel`. -/
def cancel (p : Pair) : State :=
  { s with
    helper := threadAtexitCancel s.helper p
    trace := if p.fn = 0 then s.trace else s.trace ++ [.cancelled p] }

/-- `back.first(back.second)`. -/
def call (r : Registration) : State := { s with running := s.running.dropLast, trace := s.trace ++ [.called r] }

end State

/-- `iterations` is `PTHREAD_DESTRUCTOR_ITERATIONS`, or 1 where the process exits. -/
def step (iterations : Nat) (s : State) : Label → Option State
  | .atexit p memory => if s.phase = .exited then none else some (s.atexit p memory)
  | .cancel p        => if s.phase = .exited then none else some (s.cancel p)
  | .exit            => if s.phase = .body then some (s.round iterations) else none
  | .call            => if s.phase = .exiting then s.running.getLast?.map s.call else none
  | .next            => if s.phase = .exiting ∧ s.running = [] then some (s.round iterations) else none

def initState : State := ⟨none, .body, [], 0, 0, []⟩

def system (iterations : Nat) : System State Label where
  init s := s = initState
  step := step iterations

/-! ## What should be called -/

/-- **The registrations whose pair was not cancelled after they were made**, and which were not called, the oldest
first. -/
def pending : List Event → List Registration
  | []                  => []
  | .registered r :: es =>
    if Event.cancelled r.pair ∈ es ∨ Event.called r ∈ es then pending es else r :: pending es
  | .cancelled _ :: es  => pending es
  | .called _ :: es     => pending es

/-- Every call was one of the latest registration that was pending. -/
def CallsLatest (es : List Event) : Prop :=
  ∀ before r after, es = before ++ .called r :: after → (pending before).getLast? = some r

/-- What the thread will call when nothing more is registered or cancelled, in this order. -/
def State.toCall (iterations : Nat) (s : State) : List Registration :=
  s.running.reverse ++ if s.rounds < iterations then s.registrations.reverse else []

/-- **All calls were right, and what will be called is what is pending, the latest first.** -/
structure Right (iterations : Nat) (s : State) : Prop where
  calls : CallsLatest s.trace
  toCall : s.toCall iterations = (pending s.trace).reverse

/-- A call of `thread_atexit` or `thread_atexit_cancel` that does what it should: a registration, if one is made, while
no older one is waiting in a helper that is being deleted and with a round of destructors to come; a cancellation of
registrations that are neighbours, and none of them in a helper that is being deleted. -/
def Orderly (iterations : Nat) (s : State) : Label → Prop
  | .atexit p memory => p.fn = 0 ∨ memory = false ∨ s.running = [] ∧ s.rounds < iterations
  | .cancel p        => p.fn = 0 ∨ (∀ r ∈ s.running, r.pair ≠ p) ∧ Blocks.Adjacent
      (fun r => r.pair == p) s.registrations
  | _                => True

instance (iterations : Nat) (s : State) : (l : Label) → Decidable (Orderly iterations s l)
  | .atexit _ _ => inferInstanceAs (Decidable (_ ∨ _ ∨ _))
  | .cancel _   => inferInstanceAs (Decidable (_ ∨ _))
  | .exit       => inferInstanceAs (Decidable True)
  | .call       => inferInstanceAs (Decidable True)
  | .next       => inferInstanceAs (Decidable True)

/-! ### `pending`, one event at a time -/

variable {es : List Event} {r : Registration} {p : Pair}

theorem pending_registered : pending (es ++ [.registered r]) = pending es ++ [r] := by
  induction es with
  | nil => simp [pending]
  | cons e es ih =>
    cases e with
    | registered r' =>
      simp only [List.cons_append, pending, List.mem_append, List.mem_singleton, reduceCtorEq, or_false, ih]
      split
      · rfl
      · rfl
    | cancelled p => exact ih
    | called r' => exact ih

theorem pending_cancelled : pending (es ++ [.cancelled p]) = (pending es).filter (fun r => !(r.pair == p)) := by
  induction es with
  | nil => rfl
  | cons e es ih =>
    cases e with
    | registered r =>
      simp only [List.cons_append, pending, List.mem_append, List.mem_singleton, Event.cancelled.injEq, reduceCtorEq,
        or_false, ih]
      by_cases hp : r.pair = p
      · simp [hp]
        split <;> simp [hp]
      · simp [hp]
        split <;> simp [hp]
    | cancelled p => exact ih
    | called r' => exact ih

theorem pending_called : pending (es ++ [.called r]) = (pending es).filter (fun r' => !(r' == r)) := by
  induction es with
  | nil => rfl
  | cons e es ih =>
    cases e with
    | registered r' =>
      simp only [List.cons_append, pending, List.mem_append, List.mem_singleton, Event.called.injEq, reduceCtorEq,
        or_false, ih]
      by_cases hr : r' = r
      · simp [hr]
        split <;> simp
      · simp [hr]
        split <;> simp [hr]
    | cancelled p => exact ih
    | called r' => exact ih

end ThreadExit
end ContentionProf
