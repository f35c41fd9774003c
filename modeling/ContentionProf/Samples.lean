import ContentionProf.LinkedList
import ContentionProf.Collector
import ContentionProf.PoolCalls
import ContentionProf.SessionsOwner
import ContentionProf.Profiler
/-!
# Samples — the `SampledContention` objects, from the pool through the collector and back

The whole way of an object with its links: `submit_contention` takes it from the pool, the reducer and the two threads
of the collector splice it from list to list, and a profiler or whoever destroys it gives it back.  The pool and the
sessions are those of `Pool` and `Sessions`; the mutexes run no callbacks, `stop_` is never set, and `process` leaves
the vector as it is.  A section under a mutex that no other step reads half-way is one step; the links are assigned as
the code assigns them.
-/
namespace ContentionProf
namespace Samples

/-- A `SampledContention*`. -/
abbrev Obj := Pool.Obj

/-- The `LinkNode<Collected>` that is no sample: `tmp_root` and `root` of the grab thread, `dump_root_`, and `root` of
the dump thread. -/
inductive Root
  | tmpRoot
  | root
  | dumpRoot
  | dumpLocal
deriving DecidableEq

inductive Node
  | obj (x : Obj)
  | root (r : Root)
deriving DecidableEq

structure Config where
  pool : Pool.Config
  /-- `FLAGS_collector_max_pending_samples`. -/
  maxPendingSamples : Int
  /-- `preprocessor()`. -/
  preprocessor : Obj → Collector.Prep
  grabThread : Thread
  dumpThread : Thread

/-- Where a worker stands, in `submit_contention` or at its exit. -/
inductive Pc
  | idle
  /-- `get_object`. -/
  | get
  /-- `Collected::submit`. -/
  | submit (x : Obj)
  /-- `get_or_create_tls_agent`, lines 202–205. -/
  | append (x : Obj)
  /-- `element.modify`. -/
  | modify (x : Obj)
  /-- `commit_and_erase`, line 174. -/
  | commit
  /-- Line 175. -/
  | load
  /-- Lines 176–177. -/
  | erase (val : Option Obj)

/-- Where the grab thread stands; `it` is what is left of `prep_map`, `i` the index in the vector. -/
inductive GrabPc
  /-- Lines 133–135. -/
  | clear
  /-- Line 137: `reset_all_agents`, lines 159–161. -/
  | reset
  /-- Line 163. -/
  | exchange (node : Nat) (tmp : Option Obj)
  /-- Line 164. -/
  | combine (node : Nat) (tmp prev : Option Obj)
  /-- Lines 138–142. -/
  | head (head : Option Obj)
  /-- Line 145. -/
  | sort (p : Node)
  /-- Line 155. -/
  | preps (it : List Collector.Prep)
  /-- Line 165. -/
  | samples (k : Collector.Prep) (i : Nat) (it : List Collector.Prep)
  /-- Lines 185–187. -/
  | push
  /-- Lines 188–191. -/
  | publish (head : Obj)
  /-- Lines 194–212. -/
  | sleep

/-- Where the dump thread stands; `p` is its loop variable. -/
inductive DumpPc
  /-- Lines 283–296. -/
  | wait
  /-- Line 298. -/
  | take (head : Obj)
  /-- Line 300. -/
  | loop (p : Node)
  /-- Line 304. -/
  | call (x : Obj) (p : Node)
  /-- Inside `dump_and_destroy`, and line 305. -/
  | calling (x : Obj) (p : Node)

/-- Where a thread stands in a method of a profiler. -/
inductive ProfPc
  | none
  /-- `dump_and_destroy`, line 53. -/
  | merged
  /-- `flush_to_disk`, line 60. -/
  | flush
  | returned
deriving DecidableEq

/-- `hash_set`, and what the loop of `flush_to_disk` has still to walk. -/
structure HashSet where
  members : List Obj
  walk : Option (List Obj)

structure State where
  links : Links Node
  pool : Pool.State
  sessions : Sessions.State Obj
  /-- The owner of the combiner's `mtx_`. -/
  mtx : Option Thread
  globalResult : Option Obj
  agents : List Thread
  /-- `value_` of the thread's agent, also while there is none. -/
  element : Thread → Option Obj
  combiner : Thread → Bool
  pc : Thread → Pc
  grab : GrabPc
  prepMap : Collector.PreprocessorMap Obj
  grabCount : Int
  dropCount : Int
  dumpCount : Int
  dump : DumpPc
  prof : Thread → ProfPc
  sets : Sessions.Prof → HashSet
  /-- What `get_object` returned (ghost). -/
  gets : List Obj
  /-- What `destroy` was called for (ghost). -/
  returns : List Obj

/-- What the steps read: whether the sample is late, whether `malloc` and `add_block` succeed and the object is valid,
and the order in which a set is walked. -/
inductive Label
  | contend (t : Thread)
  /-- The next step of a `get_object` or a `return_object`. -/
  | pool (t : Thread) (addBlock valid : Bool)
  | submit (t : Thread) (late malloc : Bool)
  | worker (t : Thread)
  /-- `~Agent`, when the thread exits. -/
  | exit (t : Thread)
  /-- `delete_local_pool`, when the thread exits. -/
  | poolExit (t : Thread) (malloc : Bool)
  | grab (malloc : Bool)
  | dump
  | start (t : Thread)
  | stop (t : Thread)
  /-- The next step of a start, a stop or a `dump_and_destroy`. -/
  | session (t : Thread) (malloc : Bool)
  /-- The next step of a profiler's method. -/
  | profiler (t : Thread) (order : List Obj) (malloc : Bool)

/-- `CombineCollected`, on the links and on `s1`. -/
def combine (h : Links Node) (s1 s2 : Option Obj) : Links Node × Option Obj :=
  match s2, s1 with
  | none, s1        => (h, s1)
  | some b, none    => (h, some b)
  | some b, some a  => (h.insertBeforeAsList (.obj a) (.obj b), some a)

namespace State

variable (s : State)

def setPc (t : Thread) (pc : Pc) : State := { s with pc := Function.update s.pc t pc }

def setElement (t : Thread) (v : Option Obj) : State := { s with element := Function.update s.element t v }

def setProf (t : Thread) (pc : ProfPc) : State := { s with prof := Function.update s.prof t pc }

def setSet (p : Sessions.Prof) (h : HashSet) : State := { s with sets := Function.update s.sets p h }

/-- `Agent::reset`. -/
def agentReset (t : Thread) : State := { s.setElement t none with combiner := Function.update s.combiner t true }

end State

/-- The thread is in no call of the pool. -/
def State.ready (s : State) (t : Thread) : Bool := (s.pool.thr t).pc = .idle

def Pc.isIdle : Pc → Bool
  | .idle => true
  | _     => false

def Pc.getting : Pc → Bool
  | .get => true
  | _    => false

/-- A worker between two calls. -/
def State.free (c : Config) (s : State) (t : Thread) : Bool :=
  (s.pc t).isIdle && (s.sessions.pc t).isIdle && s.ready t && t != c.grabThread && t != c.dumpThread

/-- What a step of the pool has handed out. -/
def obtained (p p' : Pool.State) : Option Obj := if p.live.length < p'.live.length then p'.live.head? else none

/-- A step of the pool: an object that it makes is constructed, and one that it hands out goes to the worker, who does
not live through a null pointer. -/
def poolStep (c : Config) (s : State) (t : Thread) (l : Pool.Label) : Option State :=
  (Pool.step c.pool s.pool l).bind (fun p =>
    match obtained s.pool p with
    | some x => some ({ s with
        pool := p
        links := if x.index < (s.pool.thr x.thread).itemCount x.block then s.links else s.links.construct (.obj x)
        gets := x :: s.gets }.setPc t (.submit x))
    | none   => if (s.pc t).getting && (p.thr t).pc = .idle then none else some { s with pool := p })

/-- `destroy()` on any thread; what is not handed out is given back as well, and counted. -/
def destroy (c : Config) (s : State) (t : Thread) (x : Obj) (malloc : Bool) : Option State :=
  if x ∈ s.pool.live then
    (Pool.step c.pool s.pool (.ret t x malloc)).map (fun p => { s with pool := p, returns := x :: s.returns })
  else some { s with returns := x :: s.returns }

/-- `Collected::submit`, and `operator<<` up to the first lock. -/
def submit (c : Config) (s : State) (t : Thread) (late malloc : Bool) : Option State :=
  match s.pc t with
  | .submit x =>
    if late then destroy c (s.setPc t .idle) t x malloc
    else if s.combiner t then some (s.setPc t (.modify x))
    else some ((s.agentReset t).setPc t (.append x))
  | _         => none

/-- The next step of a worker in the reducer. -/
def worker (s : State) (t : Thread) : Option State :=
  match s.pc t with
  | .append x  => match s.mtx with
    | none   => some ({ s with agents := s.agents ++ [t] }.setPc t (.modify x))
    | some _ => none
  | .modify x  =>
    let r := combine s.links (s.element t) (some x)
    some (({ s with links := r.1 }.setElement t r.2).setPc t .idle)
  | .commit    => match s.mtx with
    | none   => some ({ s with mtx := some t }.setPc t .load)
    | some _ => none
  | .load      => some (s.setPc t (.erase (s.element t)))
  | .erase val =>
    let r := combine s.links s.globalResult val
    some ({ s with
      links := r.1
      globalResult := r.2
      mtx := none
      agents := s.agents.erase t
      combiner := Function.update s.combiner t false }.setPc t .idle)
  | _          => none

/-- `grab_thread`, the next step. -/
def grabStep (c : Config) (s : State) (malloc : Bool) : Option State :=
  match s.grab with
  | .clear                 => some { s with prepMap := Collector.clearVectors s.prepMap, grab := .reset }
  | .reset                 => match s.mtx with
    | none   => some { s with mtx := some c.grabThread, globalResult := none, grab := .exchange 0 s.globalResult }
    | some _ => none
  | .exchange node tmp     => match s.agents[node]? with
    | some u => some { s.setElement u none with grab := .combine node tmp (s.element u) }
    | none   => some { s with mtx := none, grab := .head tmp }
  | .combine node tmp prev =>
    let r := combine s.links tmp prev
    some { s with links := r.1, grab := .exchange (node + 1) r.2 }
  | .head none             => some { s with grab := .sleep }
  | .head (some a)         =>
    let h := (s.links.construct (.root .tmpRoot)).insertBeforeAsList (.obj a) (.root .tmpRoot)
    some { s with links := h, grab := .sort (h.next (.root .tmpRoot)) }
  | .sort (.obj x)         =>
    some { s with
      links := s.links.removeFromList (.obj x)
      prepMap := OrderedMap.alter [] (· ++ [x]) s.prepMap (c.preprocessor x)
      grab := .sort (s.links.next (.obj x)) }
  | .sort (.root r)        =>
    if r = .tmpRoot then
      some { s with links := s.links.construct (.root .root), grab := .preps (s.prepMap.map Prod.fst) }
    else none
  | .preps []              => some { s with grab := .push }
  | .preps (k :: it)       => some { s with grab := .samples k 0 it }
  | .samples k i it        => match (OrderedMap.find [] s.prepMap k)[i]? with
    | none   => some { s with grab := .preps it }
    | some x =>
      let s := { s with grabCount := s.grabCount + 1, grab := .samples k (i + 1) it }
      if s.dropCount + s.dumpCount + c.maxPendingSamples ≤ s.grabCount then
        destroy c { s with dropCount := s.dropCount + 1 } c.grabThread x malloc
      else some { s with links := s.links.insertBefore (.obj x) (.root .root) }
  | .push                  => match s.links.next (.root .root) with
    | .root r => if r = .root then some { s with grab := .sleep } else none
    | .obj a  => some { s with links := s.links.removeFromList (.root .root), grab := .publish a }
  | .publish a             =>
    some { s with links := s.links.insertBeforeAsList (.obj a) (.root .dumpRoot), grab := .sleep }
  | .sleep                 => some { s with grab := .clear }

/-- `dump_thread`, the next step. -/
def dumpStep (c : Config) (s : State) : Option State :=
  match s.dump with
  | .wait            => match s.links.next (.root .dumpRoot) with
    | .root _ => none
    | .obj a  => some { s with links := s.links.removeFromList (.root .dumpRoot), dump := .take a }
  | .take a          =>
    let h := s.links.insertBeforeAsList (.obj a) (.root .dumpLocal)
    some { s with links := h, dump := .loop (h.next (.root .dumpLocal)) }
  | .loop (.root r)  => if r = .dumpLocal then some { s with dump := .wait } else none
  | .loop (.obj x)   =>
    some { s with links := s.links.removeFromList (.obj x), dump := .call x (s.links.next (.obj x)) }
  | .call x p        =>
    (Sessions.step s.sessions (.dump c.dumpThread x)).map (fun f => { s with sessions := f, dump := .calling x p })
  | .calling _ p     =>
    if (s.sessions.pc c.dumpThread).isIdle then some { s with dumpCount := s.dumpCount + 1, dump := .loop p } else none

/-- The next step of a start, a stop or a `dump_and_destroy`; a profiler's method has returned before the step after
it. -/
def session (c : Config) (s : State) (t : Thread) (malloc : Bool) : Option State :=
  let go (s : State) : Option State := (Sessions.step s.sessions (.go t)).map (fun f => { s with sessions := f })
  match s.sessions.pc t with
  | .dumping _ _  => if s.prof t = .returned then go (s.setProf t .none) else none
  | .stopDelete _ => if s.prof t = .returned then go (s.setProf t .none) else none
  | .destroy x _  => (destroy c s t x malloc).bind go
  | _             => go s

/-- The next step of `flush_to_disk`. -/
def flush (c : Config) (s : State) (t : Thread) (p : Sessions.Prof) (malloc : Bool) : Option State :=
  match (s.sets p).walk with
  | some (x :: rest) => destroy c (s.setSet p ⟨(s.sets p).members, some rest⟩) t x malloc
  | some []          => some ((s.setSet p ⟨[], none⟩).setProf t .returned)
  | none             => none

/-- `flush_to_disk` is called. -/
def beginFlush (s : State) (t : Thread) (p : Sessions.Prof) (order : List Obj) : Option State :=
  if order.Perm (s.sets p).members then some ((s.setSet p ⟨(s.sets p).members, some order⟩).setProf t .flush) else none

/-- The next step of a profiler's `dump_and_destroy` or destructor. -/
def profiler (c : Config) (s : State) (t : Thread) (order : List Obj) (malloc : Bool) : Option State :=
  match s.sessions.pc t, s.prof t with
  | .dumping x p, .none   =>
    if x ∈ (s.sets p).members then destroy c (s.setProf t .merged) t x malloc
    else some ((s.setSet p ⟨(s.sets p).members ++ [x], (s.sets p).walk⟩).setProf t .merged)
  | .dumping _ p, .merged =>
    if Profiler.maxCachedContentions < (s.sets p).members.length then beginFlush s t p order
    else some (s.setProf t .returned)
  | .stopDelete p, .none  => beginFlush s t p order
  | .dumping _ p, .flush  => flush c s t p malloc
  | .stopDelete p, .flush => flush c s t p malloc
  | _, _                  => none

def step (c : Config) (s : State) : Label → Option State
  | .contend t                => if s.free c t then poolStep c (s.setPc t .get) t (.get t) else none
  | .pool t addBlock valid    => poolStep c s t (.go t ⟨false, addBlock, valid, false⟩)
  | .submit t late malloc     => if s.ready t then submit c s t late malloc else none
  | .worker t                 => if s.ready t then worker s t else none
  | .exit t                   => if s.free c t && s.combiner t then some (s.setPc t .commit) else none
  | .poolExit t malloc        =>
    if s.free c t then (Pool.step c.pool s.pool (.exit t malloc)).map (fun p => { s with pool := p }) else none
  | .grab malloc              => if s.ready c.grabThread then grabStep c s malloc else none
  | .dump                     => if s.ready c.dumpThread then dumpStep c s else none
  | .start t                  =>
    if s.free c t then (Sessions.step s.sessions (.start t)).map (fun f => { s with sessions := f }) else none
  | .stop t                   =>
    if s.free c t then (Sessions.step s.sessions (.stop t)).map (fun f => { s with sessions := f }) else none
  | .session t malloc         => if s.ready t then session c s t malloc else none
  | .profiler t order malloc  => if s.ready t then profiler c s t order malloc else none

/-- A collector that has started: only the roots that are constructed are linked. -/
def system (c : Config) : System State Label where
  init s := s.links.SelfLinked (.root .dumpRoot) ∧ s.links.SelfLinked (.root .dumpLocal) ∧
    s.pool = Pool.initState ∧ s.sessions = Sessions.initState Obj ∧ s.mtx = none ∧ s.globalResult = none ∧
    s.agents = [] ∧ s.combiner = (fun _ => false) ∧ s.pc = (fun _ => .idle) ∧ s.grab = .clear ∧ s.prepMap = [] ∧
    s.grabCount = 0 ∧ s.dropCount = 0 ∧ s.dumpCount = 0 ∧ s.dump = .wait ∧ s.prof = (fun _ => .none) ∧
    s.sets = (fun _ => ⟨[], none⟩) ∧ s.gets = [] ∧ s.returns = []
  step := step c

end Samples
end ContentionProf
