import ContentionProf.Run
import ContentionProf.Places
import ContentionProf.Common
/-!
# Pool — the object pool (`object_pool_inl.h`)

A step is one access to `free_chunks_`, under its mutex or without it, with the thread-local work next to it.  The
unlock in `push_free_chunk` may run the library's own hook (`Input.hook`): then `submit_contention` takes an object from
the pool on the same thread before `push_free_chunk` returns.  Local pools and blocks belong to the thread that made
them and are numbered there; an object is a place in a block.

A `FreeChunk` is the list of its `ptrs`, the last one first.
-/
namespace ContentionProf
namespace Pool

/-- `free_chunk_item_count()` and `BLOCK_ITEM_COUNT`. -/
structure Config where
  freeChunkItemCount : Nat
  blockItemCount : Nat
  freeChunkItemCount_pos : 0 < freeChunkItemCount
  blockItemCount_pos : 0 < blockItemCount

structure Obj where
  thread : Thread
  block : Nat
  index : Nat
deriving DecidableEq

structure LocalPool where
  curBlock : Option Nat
  curFree : List Obj
deriving DecidableEq

/-- What is done once `push_free_chunk` has returned: the rest of `return_object`, or the rest of `~LocalPool`. -/
inductive After
  | ret (x : Obj) (pool : Nat)
  | delete (pool : Nat)
deriving DecidableEq

def After.pool : After → Nat
  | .ret _ p  => p
  | .delete p => p

/-- Where a thread stands.  `nest` is the push whose unlock called `get_object`. -/
inductive Pc
  | idle
  /-- Line 377. -/
  | popTest (nest : Option After)
  /-- Lines 380–389. -/
  | pop (nest : Option After)
  /-- Lines 147–163. -/
  | build (nest : Option After)
  /-- Lines 402–404. -/
  | push (after : After)
  /-- `submit_contention`, with its object. -/
  | submit (after : After) (x : Obj)
deriving DecidableEq

/-- What belongs to one thread: `local_pool_`, its local pools and blocks, and the local pools its exit deletes. -/
structure Local where
  localPool : Option Nat
  pools : Nat → LocalPool
  npools : Nat
  atexit : List Nat
  itemCount : Nat → Nat
  nblocks : Nat
  pc : Pc

structure State where
  thr : Thread → Local
  /-- The back of `free_chunks_` first. -/
  freeChunks : List (List Obj)
  /-- Handed out and not given back (ghost). -/
  live : List Obj
  /-- Dropped because `push_free_chunk` failed (ghost). -/
  lost : List Obj
  /-- A `malloc` has failed (ghost). -/
  failed : Bool
  /-- `--free_count` was executed at 0 (ghost). -/
  underflow : Bool

/-- What a step reads: whether the hook fires at the unlock, whether `add_block` succeeds, whether the object is valid,
and whether `submit` destroys the sample at once. -/
structure Input where
  hook : Bool
  addBlock : Bool
  valid : Bool
  late : Bool
deriving DecidableEq

inductive Label
  | get (t : Thread)
  | ret (t : Thread) (x : Obj) (malloc : Bool)
  | clear (t : Thread) (malloc : Bool)
  /-- The next exit function of the thread, `delete_local_pool`. -/
  | exit (t : Thread) (malloc : Bool)
  | go (t : Thread) (i : Input)
deriving DecidableEq

namespace Local

def setPool (c : Local) (p : Nat) (f : LocalPool) : Local := { c with pools := Function.update c.pools p f }

def setFree (c : Local) (p : Nat) (l : List Obj) : Local := c.setPool p { c.pools p with curFree := l }

/-- `get_or_new_local_pool`. -/
def getOrNewLocalPool (c : Local) : Local × Nat :=
  match c.localPool with
  | some p => (c, p)
  | none   =>
    ({ c.setPool c.npools ⟨none, []⟩ with
        localPool := some c.npools, npools := c.npools + 1, atexit := c.npools :: c.atexit }, c.npools)

end Local

namespace State

variable (s : State)

def setThr (t : Thread) (c : Local) : State := { s with thr := Function.update s.thr t c }

/-- `get` returns an object: to the caller, or to `submit_contention`. -/
def got (t : Thread) (c : Local) (x : Obj) : Option After → State
  | none       => { s.setThr t { c with pc := .idle } with live := x :: s.live }
  | some after => s.setThr t { c with pc := .submit after x }

/-- `get` returns `nullptr`; `submit_contention` would write through it. -/
def gotNull (t : Thread) (c : Local) : Option After → Option State
  | none   => some (s.setThr t { c with pc := .idle })
  | some _ => none

/-- `get_object` up to the first look at `free_chunks_`. -/
def getObject (t : Thread) (nest : Option After) : State :=
  let (c, p) := (s.thr t).getOrNewLocalPool
  match (c.pools p).curFree with
  | x :: xs => s.got t (c.setFree p xs) x nest
  | []      => s.setThr t { c with pc := .popTest nest }

/-- The rest of `return_object` or of `~LocalPool`, after the chunk was pushed. -/
def finish (t : Thread) (c : Local) : After → State
  | .ret x p  => s.setThr t { c.setFree p [x] with pc := .idle }
  | .delete p => s.setThr t { c.setPool p ⟨none, []⟩ with pc := .idle, localPool := none }

/-- `~LocalPool` up to the lock in `push_free_chunk`. -/
def deleteLocalPool (t : Thread) (c : Local) (p : Nat) (malloc : Bool) : State :=
  if (c.pools p).curFree = [] then s.finish t c (.delete p)
  else if malloc then s.setThr t { c with pc := .push (.delete p) }
  else { s.finish t c (.delete p) with lost := (c.pools p).curFree ++ s.lost, failed := true }

/-- `LocalPool::return_object` where the list is not full. -/
def putBack (t : Thread) (c : Local) (p : Nat) (x : Obj) : State := s.setThr t (c.setFree p (x :: (c.pools p).curFree))

end State

/-- `get_object`. -/
def get (s : State) (t : Thread) : Option State := if (s.thr t).pc = .idle then some (s.getObject t none) else none

/-- `return_object`; only an object that is handed out is given back. -/
def returnObject (g : Config) (s : State) (t : Thread) (x : Obj) (malloc : Bool) : Option State :=
  if (s.thr t).pc ≠ .idle ∨ x ∉ s.live then none
  else
    let (c, p) := (s.thr t).getOrNewLocalPool
    let s := { s with live := s.live.erase x }
    if (c.pools p).curFree.length < g.freeChunkItemCount then some (s.putBack t c p x)
    else if malloc then some (s.setThr t { c with pc := .push (.ret x p) })
    else some { s.setThr t c with lost := x :: s.lost, failed := true }

/-- `clear_objects`. -/
def clearObjects (s : State) (t : Thread) (malloc : Bool) : Option State :=
  let c := s.thr t
  if c.pc ≠ .idle then none
  else
    match c.localPool with
    | none   => some s
    | some p => some (s.deleteLocalPool t { c with localPool := none, atexit := c.atexit.erase p } p malloc)

def threadExit (s : State) (t : Thread) (malloc : Bool) : Option State :=
  let c := s.thr t
  if c.pc ≠ .idle then none
  else
    match c.atexit with
    | []      => none
    | p :: ps => some (s.deleteLocalPool t { c with atexit := ps } p malloc)

/-- The lock, `push_back` and unlock of `push_free_chunk`.  When the hook fires and `local_pool_` is the pool whose list
was copied, `get_object` still finds the whole list there; a pool that `local_pool_` does not name is not read again. -/
def pushFreeChunk (s : State) (t : Thread) (after : After) (hook : Bool) : State :=
  let c := s.thr t
  let s := { s with freeChunks := (c.pools after.pool).curFree :: s.freeChunks }
  if !hook then s.finish t c after
  else if c.localPool = some after.pool then s.getObject t (some after)
  else (s.setThr t (c.setFree after.pool [])).getObject t (some after)

/-- A new object at the next place of a block. -/
def construct (s : State) (t : Thread) (c : Local) (b : Nat) (nest : Option After) (valid : Bool) : Option State :=
  if valid then
    some (s.got t { c with itemCount := Function.update c.itemCount b (c.itemCount b + 1) } ⟨t, b, c.itemCount b⟩ nest)
  else s.gotNull t c nest

/-- The next step of a thread inside a call. -/
def advance (g : Config) (s : State) (t : Thread) (i : Input) : Option State :=
  let c := s.thr t
  match c.pc with
  | .idle           => none
  | .popTest nest   => some (s.setThr t { c with pc := if s.freeChunks.isEmpty then .build nest else .pop nest })
  | .pop nest       =>
    match c.localPool, s.freeChunks with
    | none, _              => none
    | some _, []           => some (s.setThr t { c with pc := .build nest })
    | some _, [] :: _      => some { s with underflow := true }
    | some p, (x :: xs) :: rest => some ({ s with freeChunks := rest }.got t (c.setFree p xs) x nest)
  | .build nest     =>
    match c.localPool with
    | none   => none
    | some p =>
      match (c.pools p).curBlock with
      | some b =>
        if c.itemCount b < g.blockItemCount then construct s t c b nest i.valid
        else if i.addBlock then
          construct s t { c.setPool p { c.pools p with curBlock := some c.nblocks } with nblocks := c.nblocks + 1 }
            c.nblocks nest i.valid
        else s.gotNull t (c.setPool p { c.pools p with curBlock := none }) nest
      | none   =>
        if i.addBlock then
          construct s t { c.setPool p { c.pools p with curBlock := some c.nblocks } with nblocks := c.nblocks + 1 }
            c.nblocks nest i.valid
        else s.gotNull t (c.setPool p { c.pools p with curBlock := none }) nest
  | .push after     => some (pushFreeChunk s t after i.hook)
  | .submit after x =>
    if i.late then
      match c.localPool with
      | none   => none
      | some q =>
        if (c.pools q).curFree.length < g.freeChunkItemCount then
          some ((s.putBack t c q x).finish t ((s.putBack t c q x).thr t) after)
        else none
    else some { s.finish t c after with live := x :: s.live }

def step (g : Config) (s : State) : Label → Option State
  | .get t            => get s t
  | .ret t x malloc   => returnObject g s t x malloc
  | .clear t malloc   => clearObjects s t malloc
  | .exit t malloc    => threadExit s t malloc
  | .go t i           => advance g s t i

def Local.start : Local := ⟨none, fun _ => ⟨none, []⟩, 0, [], fun _ => 0, 0, .idle⟩

def initState : State := ⟨fun _ => .start, [], [], [], false, false⟩

def system (g : Config) : System State Label where
  init s := s = initState
  step := step g

end Pool
end ContentionProf
