import ContentionProf.Run
import ContentionProf.Common
/-!
# AgentGroup — ids and cells of combiners (`common/agent_group.h`, `common/combiner.h`)

Combiners of one `Agent` type share the ids, and every thread has one cell for each id, in blocks it allocates as it
goes.  A step is one section under `mtx_` with the thread-local work before it; a combiner is destroyed while no
`operator<<` on it is under way, and none starts later.

This is the coarse model: `clear_all_agents` is one step, and the exit of a thread that comes too late for it goes no
further.  What an exit and a destruction do to each other half-way is in `AgentExit`, which takes both apart.

A value is a list and the operation is concatenation.  What a cell holds before its first use is arbitrary.
-/
namespace ContentionProf
namespace AgentGroup

/-- `ELEMENT_PER_BLOCK`, and what `ElementTp()` is. -/
structure Config (α : Type) where
  elementPerBlock : Nat
  elementTp : List α
  elementPerBlock_pos : 0 < elementPerBlock

/-- A `ThreadBlock*`, numbered as they are allocated. -/
abbrev BlockPtr := Nat

/-- An `AgentCombiner*`, numbered as they are constructed. -/
abbrev Comb := Nat

/-- An `Agent*`. -/
structure Cell where
  block : BlockPtr
  offset : Nat
deriving DecidableEq

structure Agent (α : Type) where
  combiner : Option Comb
  element : List α

structure Combiner (α : Type) where
  /-- `id_`; -1 is `none`. -/
  id : Option Nat
  agents : List Cell
  globalResult : List α
  /-- Constructed, and its destructor has not begun. -/
  live : Bool

def Combiner.unused (α : Type) : Combiner α := ⟨none, [], [], false⟩

/-! ## The block table of a thread -/

/-- `tls_blocks_`. -/
abbrev Table := Option (List (Option BlockPtr))

/-- `get_tls_agent`. -/
def getTlsAgent (n : Nat) (tlsBlocks : Table) (id : Nat) : Option Cell :=
  match tlsBlocks with
  | none   => none
  | some l =>
    let blockId := id / n
    if blockId < l.length then l[blockId]?.join.map (fun b => ⟨b, id - blockId * n⟩) else none

/-- `tls_blocks_->resize(k)`, when it grows. -/
def resize (l : List (Option BlockPtr)) (k : Nat) : List (Option BlockPtr) := l ++ List.replicate (k - l.length) none

/-- `get_or_create_tls_agent`: the cell, the table, and whether the block is the new one, `fresh`. -/
def getOrCreateTlsAgent (n : Nat) (tlsBlocks : Table) (fresh : BlockPtr) (id : Nat) :
    Cell × List (Option BlockPtr) × Bool :=
  let l := tlsBlocks.getD []
  let blockId := id / n
  let l := if l.length ≤ blockId then resize l (max (blockId + 1) 32) else l
  match l[blockId]?.join with
  | some b => (⟨b, id - blockId * n⟩, l, false)
  | none   => (⟨fresh, id - blockId * n⟩, l.set blockId (some fresh), true)

/-- The agents `destroy_tls_blocks` destroys, in order: block by block, each array from its end. -/
def cellsOf (n : Nat) (tlsBlocks : Table) : List Cell :=
  (tlsBlocks.getD []).flatMap (fun b => match b with
    | none   => []
    | some b => (List.range n).reverse.map (fun o => ⟨b, o⟩))

/-! ## The system -/

/-- Where a thread stands. -/
inductive Pc (α : Type)
  | idle
  /-- `AgentCombiner::get_or_create_tls_agent`, lines 202–205. -/
  | append (c : Comb) (a : Cell) (v : α)
  /-- `operator<<`, `element.modify`. -/
  | modify (c : Comb) (a : Cell) (v : α)
  /-- `destroy_tls_blocks`, with the agents left. -/
  | exit (left : List Cell)
  /-- `~Agent`, past the test of line 103. -/
  | commit (c : Comb) (a : Cell) (left : List Cell)
  /-- `~AgentCombiner`, line 141. -/
  | destroyAgent (c : Comb)

structure State (α : Type) where
  agentKinds : Nat
  /-- The back of `free_ids_` first. -/
  freeIds : List Nat
  combiners : Comb → Combiner α
  ncombiners : Nat
  tls : Thread → Table
  mem : Cell → Agent α
  nblocks : Nat
  pc : Thread → Pc α
  /-- The threads inside an `operator<<` on the combiner. -/
  users : Comb → List Thread
  /-- The calls of `operator<<` (ghost). -/
  log : List (Comb × α)

inductive Label (α : Type)
  | construct (t : Thread)
  | destroy (t : Thread) (c : Comb)
  /-- `operator<<`; `raw` is what a new block holds. -/
  | submit (t : Thread) (c : Comb) (v : α) (raw : Nat → List α)
  | exit (t : Thread)
  | go (t : Thread)

variable {α : Type}

namespace State

variable (s : State α)

def setPc (t : Thread) (pc : Pc α) : State α := { s with pc := Function.update s.pc t pc }

def setCombiner (c : Comb) (x : Combiner α) : State α := { s with combiners := Function.update s.combiners c x }

def setAgent (a : Cell) (x : Agent α) : State α := { s with mem := Function.update s.mem a x }

/-- `create_new_agent`. -/
def createNewAgent : State α × Nat :=
  match s.freeIds with
  | id :: ids => ({ s with freeIds := ids }, id)
  | []        => ({ s with agentKinds := s.agentKinds + 1 }, s.agentKinds)

/-- The first lines of `AgentCombiner::get_or_create_tls_agent`: the cell of `id`, found or made. -/
def findAgent (n : Nat) (t : Thread) (id : Nat) (raw : Nat → List α) : State α × Cell :=
  match getTlsAgent n (s.tls t) id with
  | some a => (s, a)
  | none   =>
    let r := getOrCreateTlsAgent n (s.tls t) s.nblocks id
    let s := { s with tls := Function.update s.tls t (some r.2.1) }
    if r.2.2 then
      ({ s with
          nblocks := s.nblocks + 1
          mem := fun a => if a.block = s.nblocks then ⟨none, raw a.offset⟩ else s.mem a }, r.1)
    else (s, r.1)

/-- `clear_all_agents`, as one step. -/
def clearAllAgents (cfg : Config α) (c : Comb) : State α :=
  { s.setCombiner c { s.combiners c with agents := [], live := false } with
    mem := fun a => if a ∈ (s.combiners c).agents then ⟨none, cfg.elementTp⟩ else s.mem a }

/-- `commit_and_erase`, and line 105: nobody reads the agent's `combiner` in between. -/
def commitAndErase (c : Comb) (a : Cell) : State α :=
  (s.setCombiner c { s.combiners c with
    globalResult := (s.combiners c).globalResult ++ (s.mem a).element
    agents := (s.combiners c).agents.erase a }).setAgent a { s.mem a with combiner := none }

/-- `combine_agents`. -/
def combineAgents (c : Comb) : List α :=
  (s.combiners c).globalResult ++ (s.combiners c).agents.flatMap (fun a => (s.mem a).element)

end State

/-- `AgentCombiner::AgentCombiner`. -/
def construct (s : State α) : State α :=
  let r := s.createNewAgent
  { r.1.setCombiner s.ncombiners ⟨some r.2, [], [], true⟩ with ncombiners := s.ncombiners + 1 }

/-- `operator<<` up to the first lock. -/
def submit (cfg : Config α) (s : State α) (t : Thread) (c : Comb) (id : Nat) (v : α) (raw : Nat → List α) : State α :=
  let r := s.findAgent cfg.elementPerBlock t id raw
  let s := { r.1 with users := Function.update r.1.users c (t :: r.1.users c), log := (c, v) :: r.1.log }
  if (s.mem r.2).combiner.isSome then s.setPc t (.modify c r.2 v)
  else (s.setAgent r.2 ⟨some c, []⟩).setPc t (.append c r.2 v)

def advance (s : State α) (t : Thread) : Option (State α) :=
  match s.pc t with
  | .idle              => none
  | .append c a v      =>
    some ((s.setCombiner c { s.combiners c with agents := (s.combiners c).agents ++ [a] }).setPc t (.modify c a v))
  | .modify c a v      =>
    some ({ s.setAgent a { s.mem a with element := (s.mem a).element ++ [v] } with
      users := Function.update s.users c ((s.users c).filter (· ≠ t)) }.setPc t .idle)
  | .exit []           => some ({ s with tls := Function.update s.tls t none }.setPc t .idle)
  | .exit (a :: left)  =>
    match (s.mem a).combiner with
    | some c => some (s.setPc t (.commit c a left))
    | none   => some (s.setPc t (.exit left))
  | .commit c a left   =>
    if (s.combiners c).live then some ((s.commitAndErase c a).setPc t (.exit left)) else none
  | .destroyAgent c    =>
    match (s.combiners c).id with
    | some id =>
      some ({ s.setCombiner c { s.combiners c with id := none } with
        freeIds := if id < s.agentKinds then id :: s.freeIds else s.freeIds }.setPc t .idle)
    | none    => none

def Pc.isIdle : Pc α → Bool
  | .idle => true
  | _     => false

def step (cfg : Config α) (s : State α) : Label α → Option (State α)
  | .construct t      => if (s.pc t).isIdle then some (construct s) else none
  | .destroy t c      =>
    if (s.pc t).isIdle && (s.combiners c).live && (s.users c).isEmpty then
      some ((s.clearAllAgents cfg c).setPc t (.destroyAgent c))
    else none
  | .submit t c v raw =>
    if (s.pc t).isIdle && (s.combiners c).live then
      (s.combiners c).id.map (fun id => submit cfg s t c id v raw)
    else none
  | .exit t           =>
    if (s.pc t).isIdle then some (s.setPc t (.exit (cellsOf cfg.elementPerBlock (s.tls t)))) else none
  | .go t             => advance s t

def initState (α : Type) : State α :=
  ⟨0, [], fun _ => .unused α, 0, fun _ => none, fun _ => ⟨none, []⟩, 0, fun _ => .idle, fun _ => [], []⟩

def system (cfg : Config α) : System (State α) (Label α) where
  init s := s = initState α
  step := step cfg

/-! ## The invariant -/

/-- The combiner an `operator<<` of the thread is for. -/
def Pc.uses : Pc α → Option Comb
  | .append c _ _ => some c
  | .modify c _ _ => some c
  | _             => none

/-- The block of the table at this place. -/
def blockAt (tlsBlocks : Table) (k : Nat) : Option BlockPtr := tlsBlocks.bind (fun l => l[k]?.join)

/-- The cell is in a block of the thread. -/
def Owned (n : Nat) (s : State α) (t : Thread) (a : Cell) : Prop :=
  a.offset < n ∧ ∃ k, blockAt (s.tls t) k = some a.block

/-- What a thread in a call knows of its cell; an exiting thread has no combiner left in the cells behind it. -/
def PcOk (n : Nat) (s : State α) (t : Thread) : Pc α → Prop
  | .idle            => True
  | .append c a v    => (s.combiners c).live = true ∧
      (∃ id, (s.combiners c).id = some id ∧ getTlsAgent n (s.tls t) id = some a) ∧ (s.mem a).combiner = some c ∧
      (s.mem a).element = [] ∧ a ∉ (s.combiners c).agents ∧ (c, v) ∈ s.log
  | .modify c a v    => (s.combiners c).live = true ∧
      (∃ id, (s.combiners c).id = some id ∧ getTlsAgent n (s.tls t) id = some a) ∧ a ∈ (s.combiners c).agents ∧
      (c, v) ∈ s.log
  | .exit left       => (∀ a, Owned n s t a → (s.mem a).combiner = none ∨ a ∈ left) ∧ ∀ a ∈ left, Owned n s t a
  | .commit c b left => (∀ a, Owned n s t a → (s.mem a).combiner = none ∨ a ∈ b :: left) ∧
      (∀ a ∈ b :: left, Owned n s t a) ∧
      c < s.ncombiners ∧ (∀ d, (s.mem b).combiner = some d → d = c) ∧
      ((s.combiners c).live = true → b ∈ (s.combiners c).agents)
  | .destroyAgent c  => (s.combiners c).live = false ∧ (s.combiners c).id ≠ none

structure Inv (n : Nat) (s : State α) : Prop where
  kinds : ∀ c id, (s.combiners c).id = some id → id < s.agentKinds ∧ id ∉ s.freeIds
  ids : ∀ c d id, (s.combiners c).id = some id → (s.combiners d).id = some id → c = d
  free : s.freeIds.Nodup ∧ ∀ id ∈ s.freeIds, id < s.agentKinds
  live : ∀ c, (s.combiners c).live = true → (s.combiners c).id ≠ none
  unused : ∀ c, s.ncombiners ≤ c → s.combiners c = .unused α
  blocks : ∀ t u k l p, blockAt (s.tls t) k = some p → blockAt (s.tls u) l = some p → t = u ∧ k = l
  fresh : ∀ t k p, blockAt (s.tls t) k = some p → p < s.nblocks
  combiner : ∀ a c, (s.mem a).combiner = some c → (s.combiners c).live = true ∧
    ∃ t id, (s.combiners c).id = some id ∧ getTlsAgent n (s.tls t) id = some a
  listed : ∀ a c, a ∈ (s.combiners c).agents → (s.mem a).combiner = some c
  registered : ∀ a c, (s.mem a).combiner = some c → a ∈ (s.combiners c).agents ∨ ∃ t v, s.pc t = .append c a v
  nodup : ∀ c, (s.combiners c).agents.Nodup
  users : ∀ c t, t ∈ s.users c ↔ (s.pc t).uses = some c
  destroys : ∀ t u c, s.pc t = .destroyAgent c → s.pc u = .destroyAgent c → t = u
  global : ∀ c, (s.combiners c).live = true → ∀ v ∈ (s.combiners c).globalResult, (c, v) ∈ s.log
  element : ∀ a c, a ∈ (s.combiners c).agents → ∀ v ∈ (s.mem a).element, (c, v) ∈ s.log
  pc : ∀ t, PcOk n s t (s.pc t)

end AgentGroup
end ContentionProf
