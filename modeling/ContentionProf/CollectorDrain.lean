import ContentionProf.CollectorCounts
import ContentionProf.CollectorOrder
import ContentionProf.Completion
/-!
# CollectorDrain — what is accepted gets dumped (`collector.cpp`)

The dump thread alone can dump all that the grab thread has handed over, in a number of steps that
`FLAGS_collector_max_pending_samples` bounds; the round that the grab thread is in can come to its end and hand over the
rest, whatever the preprocessors do.
-/
namespace ContentionProf
namespace Collector

variable {σ : Type} {c : Config σ} {s s' : State σ} {i : Input σ}

/-! ## What a step leaves alone -/

/-- The dump thread touches nothing of the grab thread. -/
structure SameGrab (s s' : State σ) : Prop where
  grab : s'.grab = s.grab
  root : s'.root = s.root
  accepted : s'.accepted = s.accepted

/-- The accepted samples are somewhere on their way. -/
theorem fifo (h : (system c).Reachable s) :
    s.accepted.reverse = s.dumped.reverse.map Prod.fst ++ s.dump.inHand ++ s.dumpRoot ++ s.root := by
  obtain ⟨t, ht⟩ := System.reachableVia_iff_record.1 h
  exact (ordered_reachable (p := (s, t)) ht).fifo

/-! ## The dump thread -/

/-- The steps that the dump thread has left with its ring. -/
def DumpPc.left : DumpPc σ → Nat
  | .wait     => 0
  | .ring l   => 3 * l.length + 1
  | .dump _ l => 3 * l.length + 3
  | .count l  => 3 * l.length + 2

/-- The dump thread waits, and there is nothing to wait for. -/
def Drained (s : State σ) : Prop := s.dump = .wait ∧ s.dumpRoot = []

/-- The grab thread stands there. -/
def At (g : GrabPc σ) (s : State σ) : Prop := s.grab = g

variable {p : σ} {list : List σ} {it : List Prep}

theorem SameGrab.dumped (h : SameGrab s s') (hd : Drained s') (hr : (system c).Reachable s') :
    s.accepted.reverse = s'.dumped.reverse.map Prod.fst ++ s.root := by
  have hfifo := fifo hr
  rw [hd.1, hd.2, h.accepted, h.root] at hfifo
  rw [hfifo]
  simp [DumpPc.inHand]

end Collector
end ContentionProf
