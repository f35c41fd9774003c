import ContentionProf.Run
import ContentionProf.Hook
/-!
# HookStep — the hooks, one slot access at a time (`contention.cpp`)

Any number of threads call the two hooks; a step is one load, CAS, field copy or store on a slot of `g_mutex_map`, one
operation on a mutex, or one start or stop of the profiler, with the thread-local work next to it.  `is_collectable`
may itself lock and unlock (`wakeup_grab_thread`), so a lock call that met `EBUSY` is *pending* until it returns, and
`submit_contention` runs with `tls_inside_lock` set, where the locks it takes are released again before it returns.

The hooks let any thread unlock any mutex (`hookSystem`); what holds of programs that unlock only what they have locked
is said of `system`.
-/
namespace ContentionProf
namespace Hook

/-- Where a thread stands inside `pthread_mutex_lock_impl` or `pthread_mutex_unlock_impl`. -/
inductive Pc
  | idle
  /-- Line 118: the real lock, without a record. -/
  | bypassLock (m : Addr)
  /-- Lines 141, 145, 148: the real lock after `EBUSY`; `csite` is the entry of the thread's list. -/
  | waiting (m : Addr) (range : U64) (csite : Option Nat) (startNs : U64)
  /-- Lines 73–74. -/
  | addLoad (m : Addr) (range startNs : U64)
  /-- Line 75, which reads `g_cp_version` again. -/
  | addDesired (m : Addr) (range startNs expected : U64)
  /-- Line 76. -/
  | addCas (m : Addr) (range startNs expected desired : U64)
  /-- Line 156, on a slot. -/
  | storeDuration (m : Addr) (range startNs : U64)
  /-- Line 157, on a slot. -/
  | storeRange (m : Addr) (range : U64)
  /-- Line 86. -/
  | rmLoad (m : Addr)
  /-- Line 90, first field. -/
  | copyDuration (m : Addr)
  /-- Line 90, second field. -/
  | copyRange (m : Addr) (saved : Site)
  /-- Line 91. -/
  | invalidate (m : Addr) (saved : Site)
  /-- Line 92. -/
  | clear (m : Addr) (saved : Site)
  /-- Line 189. -/
  | realUnlock (m : Addr) (saved : Site) (startNs : U64)
  /-- Lines 192–194. -/
  | submit (m : Addr) (acq : Acq) (saved : Site) (startNs : U64)
deriving DecidableEq

/-- A thread's control: `inside` is `tls_inside_lock`, `pending` the lock calls waiting for `is_collectable`, `inner`
the mutexes taken inside `submit_contention`. -/
structure Ctl where
  pc : Pc
  inside : Bool
  pending : List Addr
  inner : List Addr
deriving DecidableEq

def Ctl.start : Ctl := ⟨.idle, false, [], []⟩

structure State where
  mem : Mem
  ctl : Thread → Ctl

/-- What a thread reads on its next step: the clock, the value of `is_collectable`, the real lock's return code. -/
structure Input where
  nowNs : U64
  range : U64
  res : Nat
deriving DecidableEq

inductive Label
  | start
  | stop
  | lock (t : Thread) (m : Addr)
  | unlock (t : Thread) (m : Addr) (nowNs : U64)
  | go (t : Thread) (i : Input)
  | endSubmit (t : Thread)
deriving DecidableEq

namespace State

variable (s : State)

def setCtl (t : Thread) (c : Ctl) (mem : Mem) : State := ⟨mem, Function.update s.ctl t c⟩

def setPc (t : Thread) (pc : Pc) (mem : Mem) : State := s.setCtl t { s.ctl t with pc := pc } mem

@[simp] theorem setCtl_mem (t : Thread) (c : Ctl) (mem : Mem) : (s.setCtl t c mem).mem = mem := rfl
@[simp] theorem setPc_mem (t : Thread) (pc : Pc) (mem : Mem) : (s.setPc t pc mem).mem = mem := rfl

theorem setCtl_ctl (t u : Thread) (c : Ctl) (mem : Mem) :
    (s.setCtl t c mem).ctl u = if u = t then c else s.ctl u := Function.update_apply ..

theorem setPc_ctl (t u : Thread) (pc : Pc) (mem : Mem) :
    (s.setPc t pc mem).ctl u = if u = t then { s.ctl t with pc := pc } else s.ctl u := Function.update_apply ..

@[simp] theorem setCtl_ctl_self (t : Thread) (c : Ctl) (mem : Mem) : (s.setCtl t c mem).ctl t = c := by
  rw [setCtl_ctl, if_pos rfl]

@[simp] theorem setPc_pc_self (t : Thread) (pc : Pc) (mem : Mem) : ((s.setPc t pc mem).ctl t).pc = pc := by
  rw [setPc_ctl, if_pos rfl]

theorem setCtl_ctl_of_ne {t u : Thread} (h : u ≠ t) (c : Ctl) (mem : Mem) : (s.setCtl t c mem).ctl u = s.ctl u := by
  rw [setCtl_ctl, if_neg h]

end State

/-- Lines 117–124. -/
def lockCall (recursive : Addr → Bool) (s : State) (t : Thread) (m : Addr) : Option State :=
  let c := s.ctl t
  if c.pc ≠ .idle then none
  else if !s.mem.cp || c.inside then some (s.setPc t (.bypassLock m) s.mem)
  else if s.mem.busy recursive t m then some (s.setCtl t { c with pending := m :: c.pending } s.mem)
  else some (s.setPc t .idle (s.mem.acquire t m false 0))

/-- Lines 166–184; inside `submit_contention` only for a lock taken there. -/
def unlockCall (s : State) (t : Thread) (m : Addr) (nowNs : U64) : Option State :=
  let c := s.ctl t
  if c.pc ≠ .idle ∨ (c.inside ∧ m ∉ c.inner) then none
  else if !s.mem.cp || c.inside then
    some (s.setCtl t { c with pc := .realUnlock m .zero 0, inner := c.inner.erase m } s.mem)
  else
    match (s.mem.tls t).find m with
    | some k =>
      let cs := ((s.mem.tls t).list k).csite
      let mem := s.mem.setTls t ((s.mem.tls t).remove k)
      if isContentionSiteValid cs then some (s.setPc t (.realUnlock m cs nowNs) mem)
      else some (s.setPc t (.realUnlock m .zero 0) mem)
    | none   => some (s.setPc t (.rmLoad m) s.mem)

/-- The next step of a thread that is inside a hook, or whose topmost pending `is_collectable` returns. -/
def advance (recursive : Addr → Bool) (s : State) (t : Thread) (i : Input) : Option State :=
  let c := s.ctl t
  let mem := s.mem
  match c.pc with
  | .idle =>
    match c.pending with
    | []      => none
    | m :: ms =>
      if c.inside then none
      else
        let p := ((mem.tls t).refresh mem.cpVersion).append m i.range
        some (s.setCtl t { c with pc := .waiting m i.range p.2 i.nowNs, pending := ms } (mem.setTls t p.1))
  | .bypassLock m =>
    if i.res ≠ 0 then some (s.setPc t .idle mem)
    else if mem.busy recursive t m then none
    else some (s.setCtl t { c with pc := .idle, inner := if c.inside then m :: c.inner else c.inner }
      (mem.acquire t m false 0))
  | .waiting m range csite startNs =>
    if i.res ≠ 0 then some (s.setPc t .idle mem)
    else if mem.busy recursive t m then none
    else if range = 0 then some (s.setPc t .idle (mem.acquire t m true range))
    else
      match csite with
      | some k => some (s.setPc t .idle ((mem.acquire t m true range).fillTls t m k range (i.nowNs - startNs)))
      | none   => some (s.setPc t (.addLoad m range startNs) (mem.acquire t m true range))
  | .addLoad m range startNs =>
    let expected := (mem.map (mapIndex m)).versionedMutex
    if takeable mem.cpVersion expected then some (s.setPc t (.addDesired m range startNs expected) mem)
    else some (s.setPc t .idle mem)
  | .addDesired m range startNs expected =>
    some (s.setPc t (.addCas m range startNs expected (versioned mem.cpVersion m)) mem)
  | .addCas m range startNs expected desired =>
    if (mem.map (mapIndex m)).versionedMutex = expected then
      some (s.setPc t (.storeDuration m range startNs) (mem.claim t m desired))
    else some (s.setPc t .idle mem)
  | .storeDuration m range startNs =>
    some (s.setPc t (.storeRange m range) (mem.fillDuration m (i.nowNs - startNs)))
  | .storeRange m range => some (s.setPc t .idle (mem.fillRange m range))
  | .rmLoad m =>
    if namesMutex (mem.map (mapIndex m)).versionedMutex m then some (s.setPc t (.copyDuration m) mem)
    else some (s.setPc t (.realUnlock m .zero 0) mem)
  | .copyDuration m =>
    some (s.setPc t (.copyRange m { Site.zero with durationNs := (mem.map (mapIndex m)).csite.durationNs }) mem)
  | .copyRange m saved =>
    let cs := (mem.map (mapIndex m)).csite
    some (s.setPc t (.invalidate m { saved with samplingRange := cs.samplingRange, acq := cs.acq }) mem)
  | .invalidate m saved => some (s.setPc t (.clear m saved) (mem.invalidate m))
  | .clear m saved => some (s.setPc t (.realUnlock m saved i.nowNs) (mem.clear m))
  | .realUnlock m saved startNs =>
    if startNs = 0 then
      some (s.setPc t .idle ((realUnlock mem t m).logUnlocked
        ⟨t, m, (mem.mutexes m).acq, mem.cpVersion, none, startNs, i.nowNs⟩))
    else some (s.setPc t (.submit m (mem.mutexes m).acq saved startNs) (realUnlock mem t m))
  | .submit m acq saved startNs =>
    let site := { saved with durationNs := saved.durationNs + (i.nowNs - startNs) }
    some (s.setCtl t { c with pc := .idle, inside := true }
      (mem.logUnlocked ⟨t, m, acq, mem.cpVersion, some site, startNs, i.nowNs⟩))

/-- Line 108, once everything taken inside is released. -/
def endSubmit (s : State) (t : Thread) : Option State :=
  let c := s.ctl t
  if c.pc = .idle ∧ c.inside ∧ c.inner = [] then some (s.setCtl t { c with inside := false } s.mem) else none

def hookStep (recursive : Addr → Bool) (s : State) : Label → Option State
  | .start           => if s.mem.cp then none
      else some { s with mem := { s.mem with cp := true, cpVersion := s.mem.cpVersion + 1 } }
  | .stop            => if s.mem.cp then some { s with mem := { s.mem with cp := false } } else none
  | .lock t m        => lockCall recursive s t m
  | .unlock t m now  => unlockCall s t m now
  | .go t i          => advance recursive s t i
  | .endSubmit t     => endSubmit s t

/-- An unlock is called by the thread that owns the mutex. -/
def OwnerUnlocks (s : State) : Label → Prop
  | .unlock t m _ => (s.mem.mutexes m).owner = some t
  | _             => True

instance (s : State) : (l : Label) → Decidable (OwnerUnlocks s l)
  | .unlock t m _ => inferInstanceAs (Decidable ((s.mem.mutexes m).owner = some t))
  | .start        => .isTrue trivial
  | .stop         => .isTrue trivial
  | .lock _ _     => .isTrue trivial
  | .go _ _       => .isTrue trivial
  | .endSubmit _  => .isTrue trivial

/-- A step of a program that unlocks only what it has locked. -/
def step (recursive : Addr → Bool) (s : State) (l : Label) : Option State :=
  if OwnerUnlocks s l then hookStep recursive s l else none

/-- The program as it starts: no profiler, both stores empty, every mutex free. -/
def initMem : Mem :=
  { cp := false
    cpVersion := 0
    map := fun _ => ⟨0, .zero, 0⟩
    mutexes := fun _ => ⟨none, 0, .unrecorded⟩
    tls := fun _ => .empty
    nacq := 1
    log := [] }

def initState : State := ⟨initMem, fun _ => .start⟩

/-- Any thread unlocks any mutex. -/
def hookSystem (recursive : Addr → Bool) : System State Label where
  init s := s = initState
  step := hookStep recursive

def system (recursive : Addr → Bool) : System State Label where
  init s := s = initState
  step := step recursive

/-! ## Pieces of runs -/

/-- Thread 0 holds `m` while thread `t` calls lock, samples with `range` and waits; then 0 unlocks and `t` acquires. -/
def contendedLock (t : Thread) (m : Addr) (range : U64) : List Label :=
  [.lock 0 m, .lock t m, .go t ⟨1, range, 0⟩, .unlock 0 m 1, .go 0 ⟨1, 0, 0⟩, .go 0 ⟨1, 0, 0⟩, .go t ⟨5, 0, 0⟩]

/-- Three unsampled contended locks fill the thread's list; the fourth, of `m`, goes to the map. -/
def mapLock (t : Thread) (a b c m : Addr) : List Label :=
  contendedLock t a 0 ++ contendedLock t b 0 ++ contendedLock t c 0 ++ contendedLock t m 16 ++
    List.replicate 5 (.go t ⟨7, 0, 0⟩)

end Hook
end ContentionProf
