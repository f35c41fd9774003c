import ContentionProf.Run
import ContentionProf.OrderedMap
import ContentionProf.SpeedLimit
import Mathlib.Data.BitVec
/-!
# Collector — the grab thread and the dump thread (`collector.cpp`)

A sample that is grabbed is counted for its speed limit and in `grab_count_`, then dropped or put into a ring that the
dump thread takes over.  A step is one access to what the two threads share, with the thread's own work next to it; a
ring is the list of its members.  `stop_` is never set here (see `Shutdown`).

`grab_count_`, `drop_count_` and `dump_count_` are `int64_t` and do not overflow; the counts in the maps are `size_t`.
-/
namespace ContentionProf
namespace Collector

/-- A `CollectorSpeedLimit*`. -/
abbrev Limit := Nat

/-- `&g_null_speed_limit`. -/
def gNullSpeedLimit : Limit := 0

/-- A `CollectorPreprocessor*`; 0 is `nullptr`. -/
abbrev Prep := Nat

/-- The flags, and what the virtual functions of a sample return. -/
structure Config (σ : Type) where
  /-- `FLAGS_collector_max_pending_samples`. -/
  maxPendingSamples : Int
  /-- `FLAGS_collector_expected_per_second`. -/
  expectedPerSecond : Flag
  speedLimit : σ → Option Limit
  preprocessor : σ → Prep

/-- `std::map<CollectorSpeedLimit*, size_t>`. -/
abbrev GrabMap := List (Limit × U64)

/-- `std::map<CollectorPreprocessor*, std::vector<Collected*>>`. -/
abbrev PreprocessorMap (σ : Type) := List (Prep × List σ)

/-- Where the grab thread stands; `list` is what is left of the vector it walks, `it` the keys after it. -/
inductive GrabPc (σ : Type)
  /-- Lines 134–139. -/
  | reset
  /-- Line 155, the next entry of `prep_map`. -/
  | preps (it : List Prep)
  /-- Line 165: between two samples. -/
  | samples (list : List σ) (it : List Prep)
  /-- Line 174. -/
  | count (p : σ) (list : List σ) (it : List Prep)
  /-- Line 176. -/
  | compare (p : σ) (list : List σ) (it : List Prep)
  /-- Lines 177–178. -/
  | drop (p : σ) (list : List σ) (it : List Prep)
  /-- Line 180. -/
  | insert (p : σ) (list : List σ) (it : List Prep)
  /-- Lines 185–192. -/
  | push
  /-- Lines 194–197. -/
  | interval
  /-- Line 199, the next entry of `grab_count_map`. -/
  | limits (it : List Limit) (intervalUs : U64)
  /-- Lines 205–211. -/
  | sleep

/-- Where the dump thread stands; `ring` is its local ring. -/
inductive DumpPc (σ : Type)
  /-- Lines 283–298. -/
  | wait
  /-- Line 300. -/
  | ring (ring : List σ)
  /-- Line 304. -/
  | dump (p : σ) (ring : List σ)
  /-- Line 305. -/
  | count (ring : List σ)

/-- What the rate control counts (ghost). -/
inductive Event
  | grabbed (limit : Limit)
  /-- `update_speed_limit` with this `round_grab_count`. -/
  | updated (limit : Limit) (roundGrabCount : U64)

structure State (σ : Type) where
  grabCount : Int
  dropCount : Int
  dumpCount : Int
  grabCountMap : GrabMap
  lastGrabCountMap : GrabMap
  prepMap : PreprocessorMap σ
  /-- `root` of the grab thread. -/
  root : List σ
  dumpRoot : List σ
  lastActiveCpuwideUs : U64
  lastBeforeUpdateSl : U64
  limits : Limit → CollectorSpeedLimit
  grab : GrabPc σ
  dump : DumpPc σ
  /-- `round` of the dump thread. -/
  round : U64
  /-- Passed to `destroy` at line 178, the last one first (ghost). -/
  dropped : List σ
  /-- Put into `root` at line 180, the last one first (ghost). -/
  accepted : List σ
  /-- Passed to `dump_and_destroy`, with the round, the last one first (ghost). -/
  dumped : List (σ × U64)
  /-- The last one first (ghost). -/
  events : List Event

/-- What a step of the grab thread reads: what `reset` returns, what `process` leaves in its vector, and the clocks. -/
structure Input (σ : Type) where
  batch : List σ
  process : List σ → List σ
  monotonicUs : U64
  gettimeofdayUs : U64

inductive Label (σ : Type)
  | grab (i : Input σ)
  | dump
  /-- `is_collectable_before_first_time_grabbed` on any thread. -/
  | collectable (limit : Limit) (monotonicUs : U64)

variable {σ : Type}

/-- Lines 168–172. -/
def Config.limitOf (c : Config σ) (p : σ) : Limit := (c.speedLimit p).getD gNullSpeedLimit

/-- Lines 135–137. -/
def clearVectors (m : PreprocessorMap σ) : PreprocessorMap σ := m.map (fun e => (e.1, []))

/-- Lines 146–153. -/
def Config.group (c : Config σ) (m : PreprocessorMap σ) (batch : List σ) : PreprocessorMap σ :=
  batch.foldl (fun m p => OrderedMap.alter [] (· ++ [p]) m (c.preprocessor p)) m

/-- `grab_thread`, the next step. -/
def grabStep (c : Config σ) (s : State σ) (i : Input σ) : Option (State σ) :=
  match s.grab with
  | .reset             =>
    let m := clearVectors s.prepMap
    if i.batch.isEmpty then some { s with prepMap := m, grab := .interval }
    else
      let m := c.group m i.batch
      some { s with prepMap := m, grab := .preps (m.map Prod.fst) }
  | .preps []          => some { s with grab := .push }
  | .preps (k :: it)   =>
    let list := OrderedMap.find [] s.prepMap k
    if list.isEmpty then some { s with grab := .preps it }
    else
      let list := if k = 0 then list else i.process list
      some { s with prepMap := OrderedMap.alter [] (fun _ => list) s.prepMap k, grab := .samples list it }
  | .samples [] it     => some { s with grab := .preps it }
  | .samples (p :: list) it =>
    some { s with
      grabCountMap := OrderedMap.alter 0 (· + 1) s.grabCountMap (c.limitOf p)
      events := .grabbed (c.limitOf p) :: s.events
      grab := .count p list it }
  | .count p list it   => some { s with grabCount := s.grabCount + 1, grab := .compare p list it }
  | .compare p list it =>
    some { s with grab :=
      if s.dropCount + s.dumpCount + c.maxPendingSamples ≤ s.grabCount then .drop p list it else .insert p list it }
  | .drop p list it    =>
    some { s with dropCount := s.dropCount + 1, dropped := p :: s.dropped, grab := .samples list it }
  | .insert p list it  =>
    some { s with root := s.root ++ [p], accepted := p :: s.accepted, grab := .samples list it }
  | .push              => some { s with dumpRoot := s.dumpRoot ++ s.root, root := [], grab := .interval }
  | .interval          =>
    some { s with
      lastBeforeUpdateSl := i.monotonicUs
      grab := .limits (s.grabCountMap.map Prod.fst) (i.monotonicUs - s.lastBeforeUpdateSl) }
  | .limits [] _       => some { s with lastActiveCpuwideUs := i.monotonicUs, grab := .sleep }
  | .limits (l :: it) intervalUs =>
    let lastGrabCount := OrderedMap.find 0 s.lastGrabCountMap l
    let curGrabCount := OrderedMap.find 0 s.grabCountMap l
    (updateSpeedLimit c.expectedPerSecond i.gettimeofdayUs (s.limits l) lastGrabCount curGrabCount intervalUs).map
      (fun r => { s with
        limits := Function.update s.limits l r.1
        lastGrabCountMap := OrderedMap.alter 0 (fun _ => r.2) s.lastGrabCountMap l
        events := .updated l (curGrabCount - lastGrabCount) :: s.events
        grab := .limits it intervalUs })
  | .sleep             => some { s with lastActiveCpuwideUs := i.monotonicUs, grab := .reset }

/-- `dump_thread`, the next step: it waits while `dump_root_` is empty. -/
def dumpStep (s : State σ) : Option (State σ) :=
  match s.dump with
  | .wait           =>
    if s.dumpRoot.isEmpty then none else some { s with dumpRoot := [], round := s.round + 1, dump := .ring s.dumpRoot }
  | .ring []        => some { s with dump := .wait }
  | .ring (p :: l)  => some { s with dump := .dump p l }
  | .dump p l       => some { s with dumped := (p, s.round) :: s.dumped, dump := .count l }
  | .count l        => some { s with dumpCount := s.dumpCount + 1, dump := .ring l }

def step (c : Config σ) (s : State σ) : Label σ → Option (State σ)
  | .grab i           => grabStep c s i
  | .dump             => dumpStep s
  | .collectable l us =>
    let sl := (isCollectableBeforeFirstTimeGrabbed c.expectedPerSecond (s.limits l) us).1
    some { s with limits := Function.update s.limits l sl }

/-- A collector that has started at this time. -/
def initState (σ : Type) (startUs : U64) : State σ :=
  ⟨0, 0, 0, [], [], [], [], [], startUs, startUs, fun _ => .new, .reset, .wait, 0, [], [], [], []⟩

def system (c : Config σ) : System (State σ) (Label σ) where
  init s := ∃ startUs, s = initState σ startUs
  step := step c

/-! ## What is counted -/

/-- The samples accepted and not yet counted as dumped that the dump thread has. -/
def DumpPc.pending : DumpPc σ → Nat
  | .wait     => 0
  | .ring l   => l.length
  | .dump _ l => l.length + 1
  | .count l  => l.length + 1

/-- **Accepted and not yet counted as dumped.** -/
def State.pending (s : State σ) : Nat := s.root.length + s.dumpRoot.length + s.dump.pending

/-- Counted in `grab_count_map`, not yet in `grab_count_`. -/
def GrabPc.uncounted : GrabPc σ → Nat
  | .count .. => 1
  | _         => 0

/-- Counted in `grab_count_`, neither dropped nor accepted. -/
def GrabPc.undecided : GrabPc σ → Nat
  | .compare .. => 1
  | .drop ..    => 1
  | .insert ..  => 1
  | _           => 0

/-- The grab thread is not at work on a sample. -/
def GrabPc.BetweenSamples (g : GrabPc σ) : Prop := g.uncounted = 0 ∧ g.undecided = 0

/-- **The samples of a limit grabbed since its last update**, in a list of events with the last one first. -/
def sinceUpdate (l : Limit) : List Event → Nat
  | []                 => 0
  | .grabbed k :: es   => (if k = l then 1 else 0) + sinceUpdate l es
  | .updated k _ :: es => if k = l then 0 else sinceUpdate l es

/-- All the samples grabbed. -/
def grabs : List Event → Nat
  | []                 => 0
  | .grabbed _ :: es   => grabs es + 1
  | .updated _ _ :: es => grabs es

end Collector
end ContentionProf
