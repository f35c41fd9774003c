import ContentionProf.CombinerOrder
import ContentionProf.HookCalls
import ContentionProf.RingLists
/-!
# CombinerHook — the combiner with hooked mutexes (`common/combiner.h`, `contention.cpp`)

`mtx_` and the element mutexes are taken through the hooks, so an unlock that finds a record runs `submit_contention` on
the same thread, which calls `operator<<` on the same combiner before the unlock returns.  A thread therefore stands in
two places: in `reset_all_agents` or in its exit (`Main`), and in a submission that interrupts it (`Sub`).  Inside a
submission `tls_inside_lock` is set and the locks are the real ones.

What a protected section does to a value is part of the step that takes its lock.  A value is a pointer: copying one
copies no list, and `CombineCollected` splices the second ring into the first, under every pointer to it.
-/
namespace ContentionProf
namespace CombinerHook

open Hook (Mem LockInput UnlockInput pthreadMutexLockImpl pthreadMutexUnlockImpl owners)

/-- Where the mutexes lie. -/
structure Layout where
  mtx : Addr
  element : Thread → Addr
  ne : ∀ t, element t ≠ mtx

/-- A `SampledContention`, with the thread that submits it (ghost). -/
structure Sample (α : Type) where
  thread : Thread
  data : α
deriving DecidableEq

/-- The address of a sample, or null. -/
abbrev Pointer := Option Nat

/-- `busy`: `pthread_mutex_trylock` has answered `EBUSY`. -/
inductive Main
  | idle
  /-- `reset_all_agents`, lines 159–161. -/
  | resetLock (busy : Bool)
  /-- Line 162. -/
  | walk (node : Nat) (tmp : Pointer)
  /-- Line 163, `exchange`. -/
  | exchangeLock (node : Nat) (tmp : Pointer) (u : Thread) (busy : Bool)
  | exchangeUnlock (node : Nat) (tmp prev : Pointer) (u : Thread)
  /-- Line 164. -/
  | combine (node : Nat) (tmp prev : Pointer)
  /-- The end of `reset_all_agents`. -/
  | resetUnlock (tmp : Pointer)
  /-- `commit_and_erase`, line 174. -/
  | commitLock (busy : Bool)
  /-- Line 175, `load`. -/
  | loadLock (busy : Bool)
  | loadUnlock (val : Pointer)
  /-- Lines 176–177. -/
  | erase (val : Pointer)
  /-- The end of `commit_and_erase`. -/
  | commitUnlock
  /-- Line 105. -/
  | clear

/-- `submit_contention`, from `Collected::submit` on. -/
inductive Sub
  | none
  /-- `Collected::submit`. -/
  | submit (x : Nat)
  /-- `get_or_create_tls_agent`, lines 203–204. -/
  | append (x : Nat)
  /-- `element.modify`. -/
  | modifyLock (x : Nat)
  | modifyUnlock

structure State (α : Type) where
  mem : Mem
  /-- The samples in memory. -/
  object : Nat → Sample α
  /-- What `get_object` hands out next. -/
  fresh : Nat
  /-- The samples as `LinkNode`s. -/
  links : Links Nat
  globalResult : Pointer
  agents : List Thread
  element : Thread → Pointer
  combiner : Thread → Bool
  main : Thread → Main
  sub : Thread → Sub
  /-- What the resets returned (ghost). -/
  results : List Pointer
  /-- The samples that `Collected::submit` did not drop (ghost). -/
  log : List Nat

/-- What a step reads: the clocks, the value of `is_collectable`, the sample the hook makes, and whether
`Collected::submit` drops it. -/
structure Input (α : Type) where
  startNs : U64
  nowNs : U64
  range : U64
  data : α
  late : Bool

inductive Label (α : Type)
  /-- The unlock of any other mutex finds a record. -/
  | contend (t : Thread) (data : α)
  | reset (t : Thread)
  | exit (t : Thread)
  | go (t : Thread) (i : Input α)

variable {α : Type}

def Sub.isNone : Sub → Bool
  | .none => true
  | _     => false

/-- At `Collected::submit`. -/
def Sub.isSubmit : Sub → Bool
  | .submit _ => true
  | _         => false

def Main.isIdle : Main → Bool
  | .idle => true
  | _     => false

namespace State

variable (s : State α)

def setMain (t : Thread) (p : Main) : State α := { s with main := Function.update s.main t p }

def setSub (t : Thread) (q : Sub) : State α := { s with sub := Function.update s.sub t q }

def setElement (t : Thread) (value : Pointer) : State α := { s with element := Function.update s.element t value }

/-- `submit_contention` up to `Collected::submit`: a new sample, linked to itself. -/
def makeSample (t : Thread) (data : α) : State α :=
  { s with
    object := Function.update s.object s.fresh ⟨t, data⟩
    fresh := s.fresh + 1
    links := s.links.construct s.fresh }.setSub t (.submit s.fresh)

end State

/-- The hooked lock: after `EBUSY` the thread is at `waiting`, with the mutex at `locked`. -/
def lock (s : State α) (t : Thread) (m : Addr) (busy : Bool) (i : Input α) (waiting : Main)
    (locked : State α → State α) : Option (State α) :=
  if !busy && s.mem.cp && s.mem.busy (fun _ => false) t m then some (s.setMain t waiting)
  else (pthreadMutexLockImpl (fun _ => false) s.mem t m ⟨busy, i.range, 0, i.startNs, i.nowNs⟩).map
    (fun mem => locked { s with mem := mem })

/-- The hooked unlock: it may run `submit_contention` before the caller goes on. -/
def unlock (s : State α) (t : Thread) (m : Addr) (i : Input α) : State α :=
  let mem := pthreadMutexUnlockImpl s.mem t m ⟨i.startNs, i.nowNs⟩
  match mem.log.head?.bind Hook.Unlocked.submitted with
  | some _ => { s with mem := mem }.makeSample t i.data
  | none   => { s with mem := mem }

/-- `real_pthread_mutex_lock_func`. -/
def realLock (s : State α) (t : Thread) (m : Addr) : Option (State α) :=
  if s.mem.busy (fun _ => false) t m then none else some { s with mem := s.mem.acquire t m false 0 }

/-- `real_pthread_mutex_unlock_func`. -/
def realUnlock (s : State α) (m : Addr) : State α := { s with mem := s.mem.release m }

/-- The next step of `submit_contention`. -/
def subStep (L : Layout) (s : State α) (t : Thread) (i : Input α) : Option (State α) :=
  match s.sub t with
  | .none         => none
  | .submit x     =>
    if i.late then some (s.setSub t .none)
    else if s.combiner t then some ({ s with log := s.log ++ [x] }.setSub t (.modifyLock x))
    else (realLock s t (L.element t)).map (fun s =>
      (realUnlock { s with log := s.log ++ [x], combiner := Function.update s.combiner t true } (L.element t)
        |>.setElement t none).setSub t (.append x))
  | .append x     => (realLock s t L.mtx).map (fun s =>
    (realUnlock { s with agents := s.agents ++ [t] } L.mtx).setSub t (.modifyLock x))
  | .modifyLock x => (realLock s t (L.element t)).map (fun s =>
    let (links, value) := s.links.combine id (s.element t) (some x)
    ({ s with links := links }.setElement t value).setSub t .modifyUnlock)
  | .modifyUnlock => some ((realUnlock s (L.element t)).setSub t .none)

/-- The next step of `reset_all_agents` or of the exit. -/
def mainStep (L : Layout) (s : State α) (t : Thread) (i : Input α) : Option (State α) :=
  match s.main t with
  | .idle                           => none
  | .resetLock busy                 => lock s t L.mtx busy i (.resetLock true) (fun s =>
    { s with globalResult := none }.setMain t (.walk 0 s.globalResult))
  | .walk node tmp                  => match s.agents[node]? with
    | some u => some (s.setMain t (.exchangeLock node tmp u false))
    | none   => some (s.setMain t (.resetUnlock tmp))
  | .exchangeLock node tmp u busy   => lock s t (L.element u) busy i (.exchangeLock node tmp u true) (fun s =>
    (s.setElement u none).setMain t (.exchangeUnlock node tmp (s.element u) u))
  | .exchangeUnlock node tmp prev u => some (unlock (s.setMain t (.combine node tmp prev)) t (L.element u) i)
  | .combine node tmp prev          =>
    let (links, tmp) := s.links.combine id tmp prev
    some ({ s with links := links }.setMain t (.walk (node + 1) tmp))
  | .resetUnlock tmp                =>
    some (unlock ({ s with results := s.results ++ [tmp] }.setMain t .idle) t L.mtx i)
  | .commitLock busy                => lock s t L.mtx busy i (.commitLock true) (fun s => s.setMain t (.loadLock false))
  | .loadLock busy                  => lock s t (L.element t) busy i (.loadLock true) (fun s =>
    s.setMain t (.loadUnlock (s.element t)))
  | .loadUnlock val                 => some (unlock (s.setMain t (.erase val)) t (L.element t) i)
  | .erase val                      =>
    let (links, value) := s.links.combine id s.globalResult val
    some ({ s with links := links, globalResult := value, agents := s.agents.erase t }.setMain t .commitUnlock)
  | .commitUnlock                   => some (unlock (s.setMain t .clear) t L.mtx i)
  | .clear                          => some ({ s with combiner := Function.update s.combiner t false }.setMain t .idle)

def step (L : Layout) (s : State α) : Label α → Option (State α)
  | .contend t data => if (s.main t).isIdle && (s.sub t).isNone then some (s.makeSample t data) else none
  | .reset t        => if (s.main t).isIdle && (s.sub t).isNone then some (s.setMain t (.resetLock false)) else none
  | .exit t         =>
    if (s.main t).isIdle && (s.sub t).isNone && s.combiner t then some (s.setMain t (.commitLock false)) else none
  | .go t i         => if (s.sub t).isNone then mainStep L s t i else subStep L s t i

/-- Every mutex is free and no call under way; the records of the hooks, and who is registered, are arbitrary. -/
def system (L : Layout) (α : Type) : System (State α) (Label α) where
  init s := (∀ m, owners s.mem m = none) ∧ Hook.Single s.mem ∧ s.globalResult = none ∧ s.agents.Nodup ∧
    (∀ t, s.combiner t = true ↔ t ∈ s.agents) ∧ (∀ t ∈ s.agents, s.element t = none) ∧ (∀ t, s.main t = .idle) ∧
    (∀ t, s.sub t = .none) ∧ s.results = [] ∧ s.log = []
  step := step L

/-! ## Pieces of runs -/

/-- `mtx_` at 4096, the element mutexes between the multiples of 64. -/
def sampleLayout : Layout where
  mtx := 4096#64
  element t := BitVec.ofNat 64 (64 * t + 32)
  ne t := by
    intro h
    have h := congrArg BitVec.toNat h
    rw [BitVec.toNat_ofNat] at h
    have hm : (4096#64).toNat = 4096 := rfl
    omega

/-- The profiler runs and nobody is registered. -/
def startState : State Nat :=
  { mem := ⟨true, 1, fun _ => ⟨0, .zero, 0⟩, fun _ => ⟨none, 0, .unrecorded⟩, fun _ => .empty, 1, []⟩
    object := fun _ => ⟨0, 0⟩
    fresh := 0
    links := ⟨id, id⟩
    globalResult := none
    agents := []
    element := fun _ => none
    combiner := fun _ => false
    main := fun _ => .idle
    sub := fun _ => .none
    results := []
    log := [] }

theorem startState_init : (system sampleLayout Nat).init startState :=
  ⟨fun _ => rfl, fun _ => rfl, rfl, List.nodup_nil, fun _ => iff_of_false nofun List.not_mem_nil, nofun, fun _ => rfl,
    fun _ => rfl, rfl, rfl⟩

/-- The thread goes on; what it locks after `EBUSY` is sampled, and the hook makes sample `data`. -/
def goOn (t : Thread) (data : Nat) : Label Nat := .go t ⟨5, 9, 16, data, false⟩

/-- Worker 1 registers and adds a sample, still holding its element mutex; thread 0 walks the agents and waits for it;
the worker unlocks, and thread 0 exchanges the element and unlocks. -/
def contendedWalk : List (Label Nat) :=
  [.contend 1 10, goOn 1 0, goOn 1 0, goOn 1 0, .reset 0, goOn 0 0, goOn 0 0, goOn 0 0, goOn 1 0, goOn 0 0, goOn 0 20]

end CombinerHook
end ContentionProf
