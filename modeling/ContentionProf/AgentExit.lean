import ContentionProf.AgentCells
/-!
# AgentExit — the exit of a thread beside the destruction of a combiner (`common/combiner.h`)

`~Agent` reads `combiner` without `mtx_` and `clear_all_agents` works on the agents of other threads, so the two are
taken apart here: `~Agent` at the test of line 103, the call of line 104 and the section of `commit_and_erase`,
`clear_all_agents` at lines 110, 111 and 213–214 for each agent, with `mtx_` held all the way.  Everything else is a
step of `AgentGroup`.

A step that would use an agent whose destructor has ended, or a combiner that is destroyed or null, has no defined
outcome: it sets `undefined`, and there the run ends.  Both happen (`exit_meets_destruction`).
-/
namespace ContentionProf
namespace AgentExit

open AgentGroup (Cell Comb Config Label)

/-- Where a thread stands inside a step of `AgentGroup`. -/
inductive Place
  /-- Nowhere: the place is that of `AgentGroup.Pc`. -/
  | whole
  /-- `~Agent`, line 104. -/
  | call (a : Cell) (left : List Cell)
  /-- `clear_all_agents`, line 211, and line 110 for the first agent of the list. -/
  | clear (c : Comb)
  /-- Line 111. -/
  | store (c : Comb) (a : Cell)
  /-- Lines 213–214. -/
  | unlink (c : Comb) (a : Cell)
deriving DecidableEq

structure State (α : Type) where
  group : AgentGroup.State α
  place : Thread → Place
  /-- Who holds `mtx_` in `clear_all_agents`. -/
  mtx : Comb → Option Thread
  /-- The agents whose destructor has ended. -/
  dead : Cell → Bool
  undefined : Bool

variable {α : Type}

namespace State

variable (s : State α)

def goto (t : Thread) (p : Place) (g : AgentGroup.State α) : State α :=
  { s with group := g, place := Function.update s.place t p }

/-- `~Agent` ends. -/
def endAgent (a : Cell) (g : AgentGroup.State α) : State α :=
  { s with group := g, dead := Function.update s.dead a true }

def setMtx (c : Comb) (o : Option Thread) : State α := { s with mtx := Function.update s.mtx c o }

def fail : State α := { s with undefined := true }

/-- A step of the coarse model. -/
def lift (g : Option (AgentGroup.State α)) : Option (State α) := g.map (fun g => { s with group := g })

end State

/-- The destructor of the combiner has returned. -/
def destroyed (g : AgentGroup.State α) (c : Comb) : Bool := !(g.combiners c).live && (g.combiners c).id.isNone

def advance (cfg : Config α) (s : State α) (t : Thread) : Option (State α) :=
  let g := s.group
  match s.place t with
  | .whole       =>
    match g.pc t with
    | .append c _ _     => if (s.mtx c).isSome then none else s.lift (AgentGroup.advance g t)
    | .exit (a :: left) =>
      if (g.mem a).combiner.isSome then some (s.goto t (.call a left) g)
      else some (s.endAgent a (g.setPc t (.exit left)))
    | .commit c a left  =>
      if destroyed g c then some s.fail
      else if (s.mtx c).isSome then none
      else some (s.endAgent a ((g.commitAndErase c a).setPc t (.exit left)))
    | _                 => s.lift (AgentGroup.advance g t)
  | .call a left =>
    match (g.mem a).combiner with
    | some c => some (s.goto t .whole (g.setPc t (.commit c a left)))
    | none   => some s.fail
  | .clear c     =>
    match (g.combiners c).agents with
    | []     => some ((s.goto t .whole g).setMtx c none)
    | a :: _ =>
      if s.dead a then some s.fail
      else some (s.goto t (.store c a) (g.setAgent a { g.mem a with combiner := none }))
  | .store c a   =>
    if s.dead a then some s.fail
    else some (s.goto t (.unlink c a) (g.setAgent a { g.mem a with element := cfg.elementTp }))
  | .unlink c a  =>
    if s.dead a then some s.fail
    else
      let x := g.combiners c
      some (s.goto t (.clear c) (g.setCombiner c { x with agents := x.agents.erase a }))

/-- `~AgentCombiner` up to the lock of line 210. -/
def destroy (s : State α) (t : Thread) (c : Comb) : State α :=
  let g := s.group
  (s.goto t (.clear c) ((g.setCombiner c { g.combiners c with live := false }).setPc t (.destroyAgent c))).setMtx c
    (some t)

def step (cfg : Config α) (s : State α) (l : Label α) : Option (State α) :=
  if s.undefined then none
  else
    match l with
    | .go t        => advance cfg s t
    | .destroy t c =>
      if (s.group.pc t).isIdle && (s.group.combiners c).live && (s.group.users c).isEmpty then some (destroy s t c)
      else none
    | l            => s.lift (AgentGroup.step cfg s.group l)

def initState (α : Type) : State α :=
  ⟨AgentGroup.initState α, fun _ => .whole, fun _ => none, fun _ => false, false⟩

def system (cfg : Config α) : System (State α) (Label α) where
  init s := s = initState α
  step := step cfg

/-! ## Exits that race with a destruction -/

/-- Combiner 0 is destroyed by thread 0, which has set the first agent's pointer to null when thread 1 exits. -/
def exitInWalkRun : List (Label Nat) :=
  [.construct 0, .submit 1 0 7 (fun _ => []), .go 1, .go 1, .destroy 0 0, .go 0, .exit 1, .go 1, .go 1, .go 1, .go 0]

/-- Thread 1 has passed the test of line 103 and read the pointer when the combiner is destroyed. -/
def exitAfterTestRun : List (Label Nat) :=
  [.construct 0, .submit 1 0 7 (fun _ => []), .go 1, .go 1, .exit 1, .go 1, .go 1, .go 1, .destroy 0 0, .go 0, .go 0,
    .go 0, .go 0, .go 0, .go 1]

/-- **An exit beside a destruction has no defined outcome.**  A thread that exits in the middle of `clear_all_agents`
finds the pointer null and leaves its agent in the list, where the walk uses it after its end; a thread that has read
the pointer before goes on to a combiner that is destroyed. -/
theorem exit_meets_destruction :
    (∃ s, (system (⟨2, [9], by decide⟩ : Config Nat)).Reachable s ∧ s.undefined = true ∧
      ∃ a ∈ (s.group.combiners 0).agents, ∀ t i, AgentGroup.getTlsAgent 2 (s.group.tls t) i ≠ some a) ∧
    ∃ s, (system (⟨2, [9], by decide⟩ : Config Nat)).Reachable s ∧ s.undefined = true ∧
      (∃ a left, s.group.pc 1 = .commit 0 a left) ∧ destroyed s.group 0 = true := by
  constructor
  · refine ⟨_, System.Reachable.run (.init rfl) exitInWalkRun rfl, rfl, ⟨0, 0⟩, List.mem_singleton_self _, ?_⟩
    intro t i
    let tls : Thread → AgentGroup.Table :=
      Function.update (fun _ => none) 1 (some (some 0 :: List.replicate 31 none))
    have htls : Function.update tls 1 none t = none := by
      rw [Function.update_idem, Function.update_apply]
      split <;> rfl
    show AgentGroup.getTlsAgent 2 (Function.update tls 1 none t) i ≠ _
    rw [htls]
    exact fun h => by cases h
  · exact ⟨_, System.Reachable.run (.init rfl) exitAfterTestRun rfl, rfl, ⟨_, _, rfl⟩, rfl⟩

end AgentExit
end ContentionProf
