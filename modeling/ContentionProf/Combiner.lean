import ContentionProf.Run
import ContentionProf.Common
/-!
# Combiner — the reducer and its agents (`common/combiner.h`, `common/reducer.h`)

A step is one section protected by an agent's element mutex, or one piece of a section protected by `mtx_`: the walk of
`reset_all_agents` takes the global result, then the agents one by one, and other threads move in between.  A value is
a list and the operation is concatenation, with the empty list as identity.

A thread's agent is known by its thread: the thread that exits takes its agent with it.
-/
namespace ContentionProf
namespace Combiner

/-- Where a thread stands; `node` counts the agents walked. -/
inductive Pc (α : Type)
  | idle
  /-- `get_or_create_tls_agent`, lines 202–205. -/
  | append (v : α)
  /-- `operator<<`, `element.modify`. -/
  | modify (v : α)
  /-- `reset_all_agents`, line 159. -/
  | reset
  /-- Lines 162–165. -/
  | exchange (node : Nat) (tmp : List α)
  /-- `commit_and_erase`, line 174. -/
  | commit
  /-- Line 175. -/
  | load
  /-- Lines 176–177. -/
  | erase (val : List α)

structure State (α : Type) where
  /-- The owner of `mtx_`. -/
  mtx : Option Thread
  globalResult : List α
  /-- `agents_`, from the head. -/
  agents : List Thread
  /-- `value_` of the thread's agent, also while there is none. -/
  element : Thread → List α
  /-- The agent's `combiner` is set. -/
  combiner : Thread → Bool
  pc : Thread → Pc α
  /-- What the resets returned, the first one first (ghost). -/
  results : List (List α)
  /-- The calls of `operator<<` (ghost). -/
  log : List (Thread × α)

inductive Label (α : Type)
  /-- `operator<<`. -/
  | submit (t : Thread) (v : α)
  | reset (t : Thread)
  /-- `~Agent`, when the thread exits. -/
  | exit (t : Thread)
  | go (t : Thread)

variable {α β : Type}

namespace State

variable (s : State α)

def setPc (t : Thread) (pc : Pc α) : State α := { s with pc := Function.update s.pc t pc }

def setElement (t : Thread) (l : List α) : State α := { s with element := Function.update s.element t l }

/-- `Agent::reset`. -/
def agentReset (t : Thread) : State α := { s.setElement t [] with combiner := Function.update s.combiner t true }

end State

/-- `operator<<` up to the first lock: an agent without combiner is reset. -/
def submit (s : State α) (t : Thread) (v : α) : State α :=
  let s := { s with log := s.log ++ [(t, v)] }
  if s.combiner t then s.setPc t (.modify v) else (s.agentReset t).setPc t (.append v)

/-- The next step of a thread inside a call. -/
def advance (s : State α) (t : Thread) : Option (State α) :=
  match s.pc t with
  | .idle              => none
  | .append v          => match s.mtx with
    | none   => some ({ s with agents := s.agents ++ [t] }.setPc t (.modify v))
    | some _ => none
  | .modify v          => some ((s.setElement t (s.element t ++ [v])).setPc t .idle)
  | .reset             => match s.mtx with
    | none   => some ({ s with mtx := some t, globalResult := [] }.setPc t (.exchange 0 s.globalResult))
    | some _ => none
  | .exchange node tmp => match s.agents[node]? with
    | some u => some ((s.setElement u []).setPc t (.exchange (node + 1) (tmp ++ s.element u)))
    | none   => some ({ s with mtx := none, results := s.results ++ [tmp] }.setPc t .idle)
  | .commit            => match s.mtx with
    | none   => some ({ s with mtx := some t }.setPc t .load)
    | some _ => none
  | .load              => some (s.setPc t (.erase (s.element t)))
  | .erase val         =>
    some ({ s with
      mtx := none
      globalResult := s.globalResult ++ val
      agents := s.agents.erase t
      combiner := Function.update s.combiner t false }.setPc t .idle)

def Pc.isIdle : Pc α → Bool
  | .idle => true
  | _     => false

def step (s : State α) : Label α → Option (State α)
  | .submit t v => if (s.pc t).isIdle then some (submit s t v) else none
  | .reset t    => if (s.pc t).isIdle then some (s.setPc t .reset) else none
  | .exit t     => if (s.pc t).isIdle && s.combiner t then some (s.setPc t .commit) else none
  | .go t       => advance s t

/-- A reducer as constructed; an agent that was never reset holds anything. -/
def system (α : Type) : System (State α) (Label α) where
  init s := s.mtx = none ∧ s.globalResult = [] ∧ s.agents = [] ∧ s.combiner = (fun _ => false) ∧
    s.pc = (fun _ => .idle) ∧ s.results = [] ∧ s.log = []
  step := step

/-- What a reset under way has taken. -/
def Pc.tmp : Pc α → List α
  | .exchange _ tmp => tmp
  | _               => []

/-- The value of an `operator<<` under way. -/
def Pc.pending : Pc α → List α
  | .append v => [v]
  | .modify v => [v]
  | _         => []

namespace State

variable (s : State α)

/-- What the reset that owns `mtx_` has taken. -/
def inHand : List α :=
  match s.mtx with
  | some t => (s.pc t).tmp
  | none   => []

/-- **Everything the reducer was given and has**: what the resets returned, what one has taken so far, the global
result and the listed agents. -/
def total : List α := s.results.flatten ++ s.inHand ++ s.globalResult ++ s.agents.flatMap s.element

end State

/-! ## The values are moved, never read -/

def Pc.map (f : α → β) : Pc α → Pc β
  | .idle              => .idle
  | .append v          => .append (f v)
  | .modify v          => .modify (f v)
  | .reset             => .reset
  | .exchange node tmp => .exchange node (tmp.map f)
  | .commit            => .commit
  | .load              => .load
  | .erase val         => .erase (val.map f)

def State.map (f : α → β) (s : State α) : State β where
  mtx := s.mtx
  globalResult := s.globalResult.map f
  agents := s.agents
  element := List.map f ∘ s.element
  combiner := s.combiner
  pc := Pc.map f ∘ s.pc
  results := s.results.map (List.map f)
  log := s.log.map (Prod.map id f)

def Label.map (f : α → β) : Label α → Label β
  | .submit t v => .submit t (f v)
  | .reset t    => .reset t
  | .exit t     => .exit t
  | .go t       => .go t

@[simp] theorem isIdle_map (f : α → β) (pc : Pc α) : (pc.map f).isIdle = pc.isIdle := by cases pc <;> rfl

@[simp] theorem tmp_map (f : α → β) (pc : Pc α) : (pc.map f).tmp = pc.tmp.map f := by cases pc <;> rfl

@[simp] theorem pending_map (f : α → β) (pc : Pc α) : (pc.map f).pending = pc.pending.map f := by cases pc <;> rfl

theorem inHand_map (f : α → β) (s : State α) : (s.map f).inHand = s.inHand.map f := by
  unfold State.inHand State.map
  cases s.mtx with
  | none => rfl
  | some t => exact tmp_map f (s.pc t)

theorem total_map (f : α → β) (s : State α) : (s.map f).total = s.total.map f := by
  simp only [State.total, inHand_map, List.map_append]
  simp [State.map, List.map_flatten, List.map_flatMap, Function.comp_def]

theorem submit_map (f : α → β) (s : State α) (t : Thread) (v : α) :
    submit (s.map f) t (f v) = (submit s t v).map f := by
  unfold submit
  by_cases hc : s.combiner t <;>
    simp [State.map, hc, State.setPc, State.agentReset, State.setElement, Function.comp_update, Pc.map]

theorem advance_map (f : α → β) (s : State α) (t : Thread) :
    advance (s.map f) t = (advance s t).map (State.map f) := by
  unfold advance
  have hpc : (s.map f).pc t = (s.pc t).map f := rfl
  rw [hpc]
  cases s.pc t with
  | idle => rfl
  | append v =>
    cases hm : s.mtx <;> simp [State.map, hm, Pc.map, State.setPc, Function.comp_update]
  | modify v => simp [State.map, Pc.map, State.setPc, State.setElement, Function.comp_update]
  | reset => cases hm : s.mtx <;> simp [State.map, hm, Pc.map, State.setPc, Function.comp_update]
  | exchange node tmp =>
    cases hn : s.agents[node]? <;>
      simp [State.map, hn, Pc.map, State.setPc, State.setElement, Function.comp_update]
  | commit => cases hm : s.mtx <;> simp [State.map, hm, Pc.map, State.setPc, Function.comp_update]
  | load => simp [State.map, Pc.map, State.setPc, Function.comp_update]
  | erase val => simp [State.map, Pc.map, State.setPc, Function.comp_update]

/-- **A step does the same whatever the values are.** -/
theorem step_map (f : α → β) (s : State α) (a : Label α) : step (s.map f) (a.map f) = (step s a).map (State.map f) := by
  cases a with
  | submit t v =>
    simp only [step, Label.map]
    rw [submit_map, show (s.map f).pc t = (s.pc t).map f from rfl, isIdle_map]
    split <;> rfl
  | reset t =>
    simp only [step, Label.map]
    rw [show (s.map f).pc t = (s.pc t).map f from rfl, isIdle_map]
    split
    · simp [State.map, Pc.map, State.setPc, Function.comp_update]
    · rfl
  | exit t =>
    simp only [step, Label.map]
    rw [show (s.map f).pc t = (s.pc t).map f from rfl, isIdle_map, show (s.map f).combiner t = s.combiner t from rfl]
    split
    · simp [State.map, Pc.map, State.setPc, Function.comp_update]
    · rfl
  | go t => exact advance_map f s t

end Combiner
end ContentionProf
