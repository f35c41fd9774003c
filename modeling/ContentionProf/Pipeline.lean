import ContentionProf.Collector
import ContentionProf.CombinerOrder
import ContentionProf.SessionsOwner
/-!
# Pipeline — the way of a sample from `submit` to the profiler

The reducer, the grab thread, the dump thread and the sessions together: a worker submits a sample to the reducer, the
grab thread takes what a reset returns, the dump thread calls `dump_and_destroy`, and meanwhile threads start and stop
the profiler.  A sample remembers which profiler `g_cp` named when it was submitted; no step reads that.
-/
namespace ContentionProf
namespace Pipeline

/-- A `SampledContention` that was submitted; all it carries here is ghost. -/
structure Sample where
  id : Nat
  thread : Thread
  /-- What `g_cp` was at `Collected::submit`. -/
  session : Option Sessions.Prof
deriving DecidableEq

structure Config where
  maxPendingSamples : Int
  expectedPerSecond : Flag
  grabThread : Thread
  dumpThread : Thread

/-- `&g_cp_sl`. -/
def gCpSl : Collector.Limit := 1

/-- `COLLECTOR_GRAB_INTERVAL_US`. -/
def collectorGrabIntervalUs : U64 := 100000

/-- Every sample has the speed limit `g_cp_sl` and no preprocessor. -/
def Config.collector (c : Config) : Collector.Config Sample :=
  ⟨c.maxPendingSamples, c.expectedPerSecond, fun _ => some gCpSl, fun _ => 0⟩

structure State where
  reducer : Combiner.State Sample
  collector : Collector.State Sample
  sessions : Sessions.State Sample
  /-- The results of `reset` that the grab thread has walked. -/
  fetched : Nat
  /-- The dump thread has called `dump_and_destroy` for the sample it is at. -/
  called : Bool
  nsamples : Nat

inductive Label
  | start (t : Thread)
  | stop (t : Thread)
  /-- The next step of a start, a stop or a `dump_and_destroy`. -/
  | session (t : Thread)
  /-- `Collected::submit`, called from `submit_contention`. -/
  | submit (t : Thread) (cpuTimeUs : U64)
  | reducer (t : Thread)
  | exit (t : Thread)
  | collectable (monotonicUs : U64)
  /-- Line 137. -/
  | reset
  | grab (monotonicUs gettimeofdayUs : U64)
  /-- Line 304. -/
  | dumpCall
  | dump

/-- `Collected::submit`: a late sample is destroyed. -/
def submit (s : State) (t : Thread) (cpuTimeUs : U64) : Option State :=
  let x : Sample := ⟨s.nsamples, t, s.sessions.cp⟩
  if cpuTimeUs < s.collector.lastActiveCpuwideUs + collectorGrabIntervalUs * 2 then
    (Combiner.step s.reducer (.submit t x)).map (fun r => { s with reducer := r, nsamples := s.nsamples + 1 })
  else some { s with nsamples := s.nsamples + 1 }

/-- The grab thread: `reset` has returned when it goes on from line 137. -/
def grab (c : Config) (s : State) (monotonicUs gettimeofdayUs : U64) : Option State :=
  match s.collector.grab with
  | .reset =>
    s.reducer.results[s.fetched]?.bind (fun batch =>
      (Collector.grabStep c.collector s.collector ⟨batch, id, monotonicUs, gettimeofdayUs⟩).map
        (fun x => { s with collector := x, fetched := s.fetched + 1 }))
  | _      =>
    (Collector.grabStep c.collector s.collector ⟨[], id, monotonicUs, gettimeofdayUs⟩).map
      (fun x => { s with collector := x })

def dumpCall (c : Config) (s : State) : Option State :=
  match s.collector.dump with
  | .dump x _ =>
    if s.called then none
    else (Sessions.step s.sessions (.dump c.dumpThread x)).map (fun y => { s with sessions := y, called := true })
  | _         => none

/-- The dump thread: `dump_and_destroy` has returned when it goes on from line 304. -/
def dump (c : Config) (s : State) : Option State :=
  match s.collector.dump with
  | .dump _ _ =>
    if s.called && (s.sessions.pc c.dumpThread).isIdle then
      (Collector.dumpStep s.collector).map (fun x => { s with collector := x, called := false })
    else none
  | _         => (Collector.dumpStep s.collector).map (fun x => { s with collector := x })

def atReset : Collector.GrabPc Sample → Bool
  | .reset => true
  | _      => false

def step (c : Config) (s : State) : Label → Option State
  | .start t        => (Sessions.step s.sessions (.start t)).map (fun x => { s with sessions := x })
  | .stop t         => (Sessions.step s.sessions (.stop t)).map (fun x => { s with sessions := x })
  | .session t      => (Sessions.step s.sessions (.go t)).map (fun x => { s with sessions := x })
  | .submit t us    => submit s t us
  | .reducer t      => (Combiner.step s.reducer (.go t)).map (fun r => { s with reducer := r })
  | .exit t         => (Combiner.step s.reducer (.exit t)).map (fun r => { s with reducer := r })
  | .collectable us =>
    (Collector.step c.collector s.collector (.collectable gCpSl us)).map (fun x => { s with collector := x })
  | .reset          =>
    if atReset s.collector.grab && s.reducer.results.length == s.fetched then
      (Combiner.step s.reducer (.reset c.grabThread)).map (fun r => { s with reducer := r })
    else none
  | .grab us tod    => grab c s us tod
  | .dumpCall       => dumpCall c s
  | .dump           => dump c s

def system (c : Config) : System State Label where
  init s := (Combiner.system Sample).init s.reducer ∧ (∃ us, s.collector = Collector.initState Sample us) ∧
    s.sessions = Sessions.initState Sample ∧ s.fetched = 0 ∧ s.called = false ∧ s.nsamples = 0
  step := step c

/-! ## Where a sample is -/

/-- The reducer has the sample: a call of `operator<<` is under way with it, an agent or the global result holds it, a
reset has taken it, or it is in a result that the grab thread has not walked. -/
inductive InReducer (s : Combiner.State Sample) (fetched : Nat) (x : Sample) : Prop
  | pending (t : Thread) (h : x ∈ (s.pc t).pending)
  | element (t : Thread) (ht : t ∈ s.agents) (h : x ∈ s.element t)
  | globalResult (h : x ∈ s.globalResult)
  | tmp (t : Thread) (h : x ∈ (s.pc t).tmp)
  | result (batch : List Sample) (hb : batch ∈ s.results.drop fetched) (h : x ∈ batch)

/-- What the grab thread has walked to neither its `root` nor line 178; the vectors before the one it is at are done. -/
def grabbed (m : Collector.PreprocessorMap Sample) : Collector.GrabPc Sample → List Sample
  | .preps it       => it.flatMap (OrderedMap.find [] m)
  | .samples l it   => l ++ it.flatMap (OrderedMap.find [] m)
  | .count p l it   => p :: l ++ it.flatMap (OrderedMap.find [] m)
  | .compare p l it => p :: l ++ it.flatMap (OrderedMap.find [] m)
  | .drop p l it    => p :: l ++ it.flatMap (OrderedMap.find [] m)
  | .insert p l it  => p :: l ++ it.flatMap (OrderedMap.find [] m)
  | _               => []

/-- The sample of a `dump_and_destroy` that has not come to line 85 or 91. -/
def undecided : Sessions.Pc Sample → Option Sample
  | .dump x      => some x
  | .dumpLock x  => some x
  | .dumpCheck x => some x
  | .dumpCall x  => some x
  | _            => none

/-- What the dump thread has. -/
def dumping (c : Config) (s : State) : List Sample :=
  match s.collector.dump with
  | .wait     => []
  | .ring l   => l
  | .dump x l => if s.called && (undecided (s.sessions.pc c.dumpThread)).isNone then l else x :: l
  | .count l  => l

/-- **The sample is in the collector**: submitted, and neither destroyed nor handed to a profiler. -/
inductive InCollector (c : Config) (s : State) (x : Sample) : Prop
  | reducer (h : InReducer s.reducer s.fetched x)
  | grabbed (h : x ∈ grabbed s.collector.prepMap s.collector.grab)
  | root (h : x ∈ s.collector.root)
  | dumpRoot (h : x ∈ s.collector.dumpRoot)
  | dumping (h : x ∈ dumping c s)

/-- **The sample was handed to the profiler**, from line 85 of `dump_and_destroy` on. -/
inductive Handed (s : State) (x : Sample) (p : Sessions.Prof) : Prop
  | call (t : Thread) (h : s.sessions.pc t = .dumping x p)
  | unlock (t : Thread) (got : List Sessions.Outcome) (h : s.sessions.pc t = .dumpUnlock x got) (hp : .profiler p ∈ got)
  | done (got : List Sessions.Outcome) (h : (x, got) ∈ s.sessions.dumped) (hp : .profiler p ∈ got)

/-- **Every profiler received samples of its own session only.** -/
def SessionsApart (s : State) : Prop := ∀ x p, Handed s x p → x.session = some p

/-- **A profiler is installed only when the collector is empty**: no sample is there at line 89 of a start. -/
def NoneLeft (c : Config) (s : State) : Label → Prop
  | .session t => (∃ ctx, s.sessions.pc t = .startSet ctx) → ∀ x, ¬ InCollector c s x
  | _          => True

end Pipeline
end ContentionProf
