import ContentionProf.Common
import ContentionProf.LinkedList
import ContentionProf.Run
/-!
# SamplerCollector — the samplers and the thread that runs them (`common/sampler.cpp`, `common/reducer.h`)

Threads create and destroy the samplers of their reducers; the collector is a reducer of its own, whose elements are
lists of samplers, and its thread takes the lists and goes through them.  A reducer has no lock, so no two calls of
`get_sampler` and the destructor are made on one at a time; `stop_` is never set.  A section under a mutex that no
other step reads half-way is one step; the links are assigned as the code assigns them.
-/
namespace ContentionProf
namespace SamplerCollector

/-- A node of a list of samplers. -/
inductive Node
  | root
  | sampler (x : Nat)
  deriving DecidableEq

/-- `CombineSampler`. -/
def combine (h : Links Node) (s1 s2 : Option Nat) : Links Node × Option Nat := h.combine .sampler s1 s2

/-- A `Reducer` with a sampler. -/
abbrev Var := Nat

/-- Who owns a mutex. -/
inductive Party
  | user (t : Thread)
  | sampling
deriving DecidableEq

/-- Where a thread stands, in a call on a reducer or at its exit. -/
inductive Pc
  | idle
  /-- `schedule`, `get_or_create_tls_agent`. -/
  | agent (r : Var) (x : Nat)
  /-- `agents_.Append`. -/
  | append (r : Var) (x : Nat)
  /-- `element.modify`. -/
  | modify (r : Var) (x : Nat)
  /-- `Sampler::destroy`, `mtx_.lock()`. -/
  | lock (r : Var) (x : Nat)
  /-- `used_ = false`. -/
  | store (r : Var) (x : Nat)
  /-- `mtx_.unlock()`. -/
  | unlock (r : Var) (x : Nat)
  /-- `commit_and_erase`, the lock. -/
  | commit
  /-- `element.load`. -/
  | load
  /-- The combination and `remove_from_list`. -/
  | erase (val : Option Nat)
deriving DecidableEq

/-- Where the sampling thread stands in `run`; `p` is `saved_next`. -/
inductive RunPc
  /-- `reset_all_agents`, the lock. -/
  | reset
  /-- `element.exchange`. -/
  | exchange (node : Nat) (tmp : Option Nat)
  /-- `op_(tmp, prev)`. -/
  | combine (node : Nat) (tmp prev : Option Nat)
  /-- `if (s) s->insert_before_as_list(&root)`. -/
  | splice (s : Option Nat)
  /-- The loop's condition and `saved_next`. -/
  | loop (p : Node)
  /-- `mtx_.lock()`. -/
  | lock (x : Nat) (p : Node)
  /-- `if (!s->used_)`. -/
  | check (x : Nat) (p : Node)
  /-- `take_sample`. -/
  | sample (x : Nat) (p : Node)
  /-- `mtx_.unlock()` behind it. -/
  | sampled (x : Nat) (p : Node)
  /-- `mtx_.unlock()` of a sampler that is not used. -/
  | unlock (x : Nat) (p : Node)
  /-- `remove_from_list`. -/
  | remove (x : Nat) (p : Node)
  /-- `delete s`. -/
  | delete (x : Nat) (p : Node)
  /-- The pass is done. -/
  | sleep
deriving DecidableEq

structure State where
  links : Links Node
  used : Nat → Bool
  /-- The owner of a sampler's `mtx_`. -/
  mtx : Nat → Option Party
  /-- `_reducer`. -/
  owner : Nat → Var
  /-- The samplers are numbered in the order in which they are made. -/
  created : Nat
  /-- `sampler_`. -/
  samplerOf : Var → Option Nat
  /-- The reducer is not destroyed. -/
  alive : Var → Bool
  /-- The thread in a call on the reducer. -/
  busy : Var → Option Thread
  pc : Thread → Pc
  /-- The owner of the combiner's `mtx_`. -/
  combinerMtx : Option Party
  globalResult : Option Nat
  agents : List Thread
  /-- `value_` of the thread's agent, also while there is none. -/
  element : Thread → Option Nat
  /-- The agent's `combiner` is not null. -/
  combiner : Thread → Bool
  run : RunPc
  /-- Combined into an element (ghost). -/
  scheduled : List Nat
  /-- `destroy` has returned (ghost). -/
  destroyed : List Nat
  /-- Deleted (ghost). -/
  deleted : List Nat
  /-- Scheduled and destroyed when the round began (ghost). -/
  due : List Nat
  /-- The links when the pass began (ghost). -/
  begun : Links Node
  /-- The samplers visited in the pass, and whether they were used (ghost). -/
  visited : List (Nat × Bool)

inductive Label
  | getSampler (t : Thread) (r : Var)
  /-- `get_or_create_tls_agent`. -/
  | agent (t : Thread)
  /-- `~Reducer`. -/
  | destroy (t : Thread) (r : Var)
  /-- `~Agent`, when the thread exits. -/
  | exit (t : Thread)
  /-- The next step of a thread. -/
  | user (t : Thread)
  /-- The next step of the sampling thread. -/
  | run
deriving DecidableEq

namespace State

variable (s : State)

def setPc (t : Thread) (pc : Pc) : State := { s with pc := Function.update s.pc t pc }

def setMtx (x : Nat) (o : Option Party) : State := { s with mtx := Function.update s.mtx x o }

def setElement (t : Thread) (v : Option Nat) : State := { s with element := Function.update s.element t v }

def setBusy (r : Var) (o : Option Thread) : State := { s with busy := Function.update s.busy r o }

/-- Line 103: a sampler of the reducer, which has taken its first sample. -/
def newSampler (r : Var) : State :=
  { s with
    links := s.links.construct (.sampler s.created)
    used := Function.update s.used s.created true
    mtx := Function.update s.mtx s.created none
    owner := Function.update s.owner s.created r
    samplerOf := Function.update s.samplerOf r (some s.created)
    created := s.created + 1 }

/-- The reducer is gone. -/
def dropVar (r : Var) : State :=
  { s with samplerOf := Function.update s.samplerOf r none, alive := Function.update s.alive r false }

/-- `element.modify`, and the call on the reducer returns. -/
def schedule (t : Thread) (r : Var) (x : Nat) : State :=
  let c := combine s.links (s.element t) (some x)
  { s with
    links := c.1
    element := Function.update s.element t c.2
    busy := Function.update s.busy r none
    pc := Function.update s.pc t .idle
    scheduled := s.scheduled ++ [x] }

/-- `remove_from_list`, the end of `commit_and_erase`. -/
def erase (t : Thread) (val : Option Nat) : State :=
  let c := combine s.links s.globalResult val
  { s with
    links := c.1
    globalResult := c.2
    combinerMtx := none
    agents := s.agents.erase t
    combiner := Function.update s.combiner t false
    pc := Function.update s.pc t .idle }

end State

/-- `get_sampler`, up to `schedule`. -/
def getSampler (s : State) (t : Thread) (r : Var) : Option State :=
  if s.pc t = .idle ∧ s.alive r = true ∧ s.busy r = none then
    match s.samplerOf r with
    | some _ => some s
    | none   => some (((s.newSampler r).setBusy r (some t)).setPc t (.agent r s.created))
  else none

/-- `~Reducer`, up to the lock. -/
def destroyVar (s : State) (t : Thread) (r : Var) : Option State :=
  if s.pc t = .idle ∧ s.alive r = true ∧ s.busy r = none then
    match s.samplerOf r with
    | some x => some ((s.setBusy r (some t)).setPc t (.lock r x))
    | none   => some (s.dropVar r)
  else none

/-- `get_or_create_tls_agent`, up to the lock; a thread without an agent gets one, as `new` throws where it fails. -/
def getAgent (s : State) (t : Thread) : Option State :=
  match s.pc t with
  | .agent r x =>
    if s.combiner t then some (s.setPc t (.modify r x))
    else some ({ s.setElement t none with combiner := Function.update s.combiner t true }.setPc t (.append r x))
  | _          => none

/-- The next step of a thread. -/
def userStep (s : State) (t : Thread) : Option State :=
  match s.pc t with
  | .append r x => match s.combinerMtx with
    | none   => some ({ s with agents := s.agents ++ [t] }.setPc t (.modify r x))
    | some _ => none
  | .modify r x => some (s.schedule t r x)
  | .lock r x   => match s.mtx x with
    | none   => some ((s.setMtx x (some (.user t))).setPc t (.store r x))
    | some _ => none
  | .store r x  => some ({ s with used := Function.update s.used x false }.setPc t (.unlock r x))
  | .unlock r x =>
    some (({ (s.setMtx x none).dropVar r with destroyed := s.destroyed ++ [x] }.setBusy r none).setPc t .idle)
  | .commit     => match s.combinerMtx with
    | none   => some ({ s with combinerMtx := some (.user t) }.setPc t .load)
    | some _ => none
  | .load       => some (s.setPc t (.erase (s.element t)))
  | .erase val  => some (s.erase t val)
  | _           => none

/-- The next step of `run`. -/
def runStep (s : State) : Option State :=
  match s.run with
  | .reset                 => match s.combinerMtx with
    | none   => some { s with
        combinerMtx := some .sampling
        globalResult := none
        run := .exchange 0 s.globalResult
        due := s.scheduled.filter (fun x => x ∈ s.destroyed) }
    | some _ => none
  | .exchange node tmp     => match s.agents[node]? with
    | some u => some { s.setElement u none with run := .combine node tmp (s.element u) }
    | none   => some { s with combinerMtx := none, run := .splice tmp }
  | .combine node tmp prev =>
    let c := combine s.links tmp prev
    some { s with links := c.1, run := .exchange (node + 1) c.2 }
  | .splice none           =>
    some { s with begun := s.links, visited := [], run := .loop (s.links.next .root) }
  | .splice (some a)       =>
    let h := s.links.insertBeforeAsList (.sampler a) .root
    some { s with links := h, begun := h, visited := [], run := .loop (h.next .root) }
  | .loop .root            => some { s with run := .sleep }
  | .loop (.sampler x)     => some { s with run := .lock x (s.links.next (.sampler x)) }
  | .lock x p              => match s.mtx x with
    | none   => some { s.setMtx x (some .sampling) with run := .check x p }
    | some _ => none
  | .check x p             => some { s with run := if s.used x then .sample x p else .unlock x p }
  | .sample x p            => some { s with visited := s.visited ++ [(x, true)], run := .sampled x p }
  | .sampled x p           => some { s.setMtx x none with run := .loop p }
  | .unlock x p            => some { s.setMtx x none with run := .remove x p }
  | .remove x p            => some { s with links := s.links.removeFromList (.sampler x), run := .delete x p }
  | .delete x p            =>
    some { s with deleted := s.deleted ++ [x], visited := s.visited ++ [(x, false)], run := .loop p }
  | .sleep                 => some { s with run := .reset }

def step (s : State) : Label → Option State
  | .getSampler t r => getSampler s t r
  | .agent t        => getAgent s t
  | .destroy t r    => destroyVar s t r
  | .exit t         => if s.pc t = .idle ∧ s.combiner t = true then some (s.setPc t .commit) else none
  | .user t         => userStep s t
  | .run            => runStep s

/-- `run` has constructed its root; there are no samplers yet. -/
def system : System State Label where
  init s := s.links.SelfLinked .root ∧ s.created = 0 ∧ s.samplerOf = (fun _ => none) ∧ s.busy = (fun _ => none) ∧
    s.pc = (fun _ => .idle) ∧ s.combinerMtx = none ∧ s.globalResult = none ∧ s.agents = [] ∧
    s.combiner = (fun _ => false) ∧ s.run = .reset ∧ s.scheduled = [] ∧ s.destroyed = [] ∧
    s.deleted = [] ∧ s.due = [] ∧ s.visited = []
  step := step

/-! ## Where the parties stand -/

/-- The call on a reducer that a thread is in, and the sampler it is about. -/
def Pc.call : Pc → Option (Var × Nat)
  | .agent r x  => some (r, x)
  | .append r x => some (r, x)
  | .modify r x => some (r, x)
  | .lock r x   => some (r, x)
  | .store r x  => some (r, x)
  | .unlock r x => some (r, x)
  | _           => none

/-- The sampler that a thread has not scheduled yet. -/
def Pc.held : Pc → Option Nat
  | .agent _ x  => some x
  | .append _ x => some x
  | .modify _ x => some x
  | _           => none

/-- The sampler whose mutex a thread owns. -/
def Pc.locked : Pc → Option Nat
  | .store _ x  => some x
  | .unlock _ x => some x
  | _           => none

def Pc.hasMtx : Pc → Bool
  | .load    => true
  | .erase _ => true
  | _        => false

def RunPc.hasMtx : RunPc → Bool
  | .exchange _ _  => true
  | .combine _ _ _ => true
  | _              => false

/-- What `reset_all_agents` has taken, and what it returned. -/
def RunPc.tmp : RunPc → Option Nat
  | .exchange _ tmp  => tmp
  | .combine _ tmp _ => tmp
  | .splice tmp      => tmp
  | _                => none

def RunPc.prev : RunPc → Option Nat
  | .combine _ _ prev => prev
  | _                 => none

/-- The sampler that the pass is at. -/
def RunPc.current : RunPc → Option Nat
  | .lock x _    => some x
  | .check x _   => some x
  | .sample x _  => some x
  | .sampled x _ => some x
  | .unlock x _  => some x
  | .remove x _  => some x
  | .delete x _  => some x
  | _            => none

/-- The sampler whose mutex the sampling thread owns. -/
def RunPc.locked : RunPc → Option Nat
  | .check x _   => some x
  | .sample x _  => some x
  | .sampled x _ => some x
  | .unlock x _  => some x
  | _            => none

/-- The sampler that was found unused. -/
def RunPc.gone : RunPc → Option Nat
  | .unlock x _ => some x
  | .remove x _ => some x
  | .delete x _ => some x
  | _           => none

/-- The sampler that is in no list any more and not deleted. -/
def RunPc.hand : RunPc → Option Nat
  | .delete x _ => some x
  | _           => none

end SamplerCollector
end ContentionProf
