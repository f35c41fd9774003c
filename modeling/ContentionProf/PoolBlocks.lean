import ContentionProf.Run
import ContentionProf.Common
import Mathlib.Data.List.Nodup
/-!
# PoolBlocks — the blocks of the object pool (`object_pool_inl.h`)

`add_block` takes a slot of the last block group with one `fetch_add` and gives it back with one `fetch_sub` when the
group is full; `add_block_group` makes a new last group under `block_group_mutex_`.  A step is one atomic operation, or
one access of the critical section.  An allocation that fails throws: `new Block()` ends the call, and
`new BlockGroup()` ends it with `block_group_mutex_` locked, which nobody unlocks any more.
-/
namespace ContentionProf
namespace PoolBlocks

/-- `OP_GROUP_BLOCK_COUNT` and `OP_MAX_BLOCK_GROUP_COUNT`, both 65536 in lines 53–55. -/
structure Config where
  groupBlockCount : Nat
  maxBlockGroupCount : Nat

/-- A `Block*`, numbered as they are allocated. -/
abbrev Block := Nat

/-- A `BlockGroup*`, numbered as they are allocated. -/
abbrev GroupPtr := Nat

structure BlockGroup where
  blockCount : Nat
  blocks : Nat → Option Block
  /-- The slots that `fetch_add` has handed out (ghost). -/
  reserved : Nat
  /-- The threads between a `fetch_add` that found the group full and their `fetch_sub` (ghost). -/
  overshooters : List Thread

/-- `BlockGroup()`. -/
def BlockGroup.new : BlockGroup := ⟨0, fun _ => none, 0, []⟩

/-- Where a thread stands: the locals `new_block`, `group_count`, `g` and `block_index`. -/
inductive Pc
  | idle
  /-- Line 311. -/
  | load (b : Block)
  /-- Line 313, the load of the group. -/
  | loadGroup (b : Block) (groupCount : Nat)
  /-- Line 314. -/
  | fetchAdd (b : Block) (groupCount : Nat) (g : GroupPtr)
  /-- Lines 316–318. -/
  | store (b : Block) (groupCount : Nat) (g : GroupPtr) (blockIndex : Nat)
  /-- Line 320. -/
  | fetchSub (b : Block) (groupCount : Nat) (g : GroupPtr)
  /-- `add_block_group`, line 329. -/
  | groupLock (b : Block) (oldGroupCount : Nat)
  /-- Lines 330–336. -/
  | groupCheck (b : Block) (oldGroupCount : Nat)
  /-- Line 338. -/
  | groupStore (b : Block) (groupCount : Nat) (bg : GroupPtr)
  /-- Line 339. -/
  | groupBump (b : Block) (groupCount : Nat)
  /-- Lines 332 and 342, with what is returned. -/
  | groupUnlock (b : Block) (again : Bool)

/-- An `add_block` that succeeded. -/
structure Added where
  index : Nat
  block : Block
deriving DecidableEq

structure State where
  groupCount : Nat
  blockGroups : Nat → Option GroupPtr
  heap : GroupPtr → BlockGroup
  /-- The groups allocated. -/
  created : Nat
  /-- The thread between the lock and the unlock of `block_group_mutex_`. -/
  owner : Option Thread
  /-- `block_group_mutex_` was locked by a call that has ended. -/
  abandoned : Bool
  pc : Thread → Pc
  nblocks : Nat
  /-- (ghost) -/
  added : List Added
  /-- The slot stores (ghost). -/
  stores : List (GroupPtr × Nat)

inductive Label
  /-- `alloc`: the allocation does not throw. -/
  | addBlock (t : Thread) (alloc : Bool)
  | go (t : Thread) (alloc : Bool)

namespace State

variable (s : State)

def setPc (t : Thread) (pc : Pc) : State := { s with pc := Function.update s.pc t pc }

def setGroup (g : GroupPtr) (bg : BlockGroup) : State := { s with heap := Function.update s.heap g bg }

end State

namespace BlockGroup

variable (g : BlockGroup)

/-- A `fetch_add` that found a free slot. -/
def reserve : BlockGroup := { g with blockCount := g.blockCount + 1, reserved := g.reserved + 1 }

/-- A `fetch_add` that found none. -/
def overshoot (t : Thread) : BlockGroup :=
  { g with blockCount := g.blockCount + 1, overshooters := t :: g.overshooters }

/-- `fetch_sub`. -/
def giveBack (t : Thread) : BlockGroup :=
  { g with blockCount := g.blockCount - 1, overshooters := g.overshooters.erase t }

def fill (i : Nat) (b : Block) : BlockGroup := { g with blocks := Function.update g.blocks i (some b) }

end BlockGroup

def advance (c : Config) (s : State) (t : Thread) (alloc : Bool) : Option State :=
  match s.pc t with
  | .idle               => none
  | .load b             =>
    some (s.setPc t (if 1 ≤ s.groupCount then .loadGroup b s.groupCount else .groupLock b s.groupCount))
  | .loadGroup b n      => (s.blockGroups (n - 1)).map (fun g => s.setPc t (.fetchAdd b n g))
  | .fetchAdd b n g     =>
    let blockIndex := (s.heap g).blockCount
    if blockIndex < c.groupBlockCount then
      some ((s.setGroup g (s.heap g).reserve).setPc t (.store b n g blockIndex))
    else some ((s.setGroup g ((s.heap g).overshoot t)).setPc t (.fetchSub b n g))
  | .store b n g i      =>
    some ({ s.setGroup g ((s.heap g).fill i b) with
      added := ⟨(n - 1) * c.groupBlockCount + i, b⟩ :: s.added
      stores := (g, i) :: s.stores }.setPc t .idle)
  | .fetchSub b n g     => some ((s.setGroup g ((s.heap g).giveBack t)).setPc t (.groupLock b n))
  | .groupLock b n      =>
    if s.owner = none && !s.abandoned then some ({ s with owner := some t }.setPc t (.groupCheck b n)) else none
  | .groupCheck b n     =>
    if s.groupCount ≠ n then some (s.setPc t (.groupUnlock b true))
    else if s.groupCount < c.maxBlockGroupCount then
      if alloc then
        some ({ s.setGroup s.created .new with created := s.created + 1 }.setPc t (.groupStore b n s.created))
      -- line 336 throws, and lines 337-343 are skipped
      else some ({ s with owner := none, abandoned := true }.setPc t .idle)
    else some (s.setPc t (.groupUnlock b false))
  | .groupStore b n bg  =>
    some ({ s with blockGroups := Function.update s.blockGroups n (some bg) }.setPc t (.groupBump b n))
  | .groupBump b n      => some ({ s with groupCount := n + 1 }.setPc t (.groupUnlock b true))
  | .groupUnlock b more => some ({ s with owner := none }.setPc t (if more then .load b else .idle))

def Pc.isIdle : Pc → Bool
  | .idle => true
  | _     => false

def step (c : Config) (s : State) : Label → Option State
  | .addBlock t alloc =>
    if (s.pc t).isIdle then
      if alloc then some ({ s with nblocks := s.nblocks + 1 }.setPc t (.load s.nblocks)) else some s
    else none
  | .go t alloc       => advance c s t alloc

def initState : State := ⟨0, fun _ => none, fun _ => .new, 0, none, false, fun _ => .idle, 0, [], []⟩

def system (c : Config) : System State Label where
  init s := s = initState
  step := step c

/-! ## The invariant -/

/-- A group counts its slots and its overshoots apart: while one is under way every slot is taken. -/
structure BlockGroup.Ok (c : Config) (g : BlockGroup) : Prop where
  count : g.blockCount = g.reserved + g.overshooters.length
  reserved_le : g.reserved ≤ c.groupBlockCount
  full : g.overshooters ≠ [] → g.reserved = c.groupBlockCount
  nodup : g.overshooters.Nodup
  taken : ∀ i, g.blocks i ≠ none → i < g.reserved

/-- In the critical section. -/
def Pc.holds : Pc → Bool
  | .groupCheck ..  => true
  | .groupStore ..  => true
  | .groupBump ..   => true
  | .groupUnlock .. => true
  | _               => false

/-- A group that is allocated and not yet counted. -/
def Pc.pending : Pc → Nat
  | .groupStore .. => 1
  | .groupBump ..  => 1
  | _              => 0

def pending (s : State) : Nat :=
  match s.owner with
  | some t => (s.pc t).pending
  | none   => 0

/-- The group the thread has overshot. -/
def Pc.overshot : Pc → Option GroupPtr
  | .fetchSub _ _ g => some g
  | _               => none

/-- The slot the thread has reserved and not filled. -/
def Pc.slot : Pc → Option (GroupPtr × Nat)
  | .store _ _ g i => some (g, i)
  | _              => none

def PcOk (c : Config) (s : State) : Pc → Prop
  | .loadGroup _ n    => 1 ≤ n ∧ n ≤ s.groupCount
  | .fetchAdd _ n g   => 1 ≤ n ∧ n ≤ s.groupCount ∧ g = n - 1
  | .store _ n g i    => 1 ≤ n ∧ n ≤ s.groupCount ∧ g = n - 1 ∧ i < c.groupBlockCount
  | .fetchSub _ n g   => 1 ≤ n ∧ n ≤ s.groupCount ∧ g = n - 1
  | .groupStore _ n g => n = s.groupCount ∧ n < c.maxBlockGroupCount ∧ g = n
  | .groupBump _ n    => n = s.groupCount ∧ n < c.maxBlockGroupCount ∧ s.blockGroups n = some n
  | _                 => True

structure Inv (c : Config) (s : State) : Prop where
  owner : ∀ t, s.owner = some t ↔ (s.pc t).holds = true
  bound : s.groupCount ≤ c.maxBlockGroupCount
  created : s.created = s.groupCount + pending s
  groups : ∀ i, i < s.groupCount → s.blockGroups i = some i
  fresh : ∀ g, s.groupCount ≤ g → s.heap g = .new
  group : ∀ g, (s.heap g).Ok c
  overshooters : ∀ g t, t ∈ (s.heap g).overshooters ↔ (s.pc t).overshot = some g
  slot : ∀ t g i, (s.pc t).slot = some (g, i) → i < (s.heap g).reserved ∧ (s.heap g).blocks i = none
  slotOne : ∀ t u g i, (s.pc t).slot = some (g, i) → (s.pc u).slot = some (g, i) → t = u
  storesNodup : s.stores.Nodup
  stores : ∀ g i, (g, i) ∈ s.stores ↔ (s.heap g).blocks i ≠ none
  added : ∀ a ∈ s.added, a.index < s.groupCount * c.groupBlockCount ∧
    (s.heap (a.index / c.groupBlockCount)).blocks (a.index % c.groupBlockCount) = some a.block
  addedNodup : (s.added.map Added.index).Nodup
  pc : ∀ t, PcOk c s (s.pc t)

end PoolBlocks
end ContentionProf
