import ContentionProf.Profiler
/-!
# ProfilerTotals — what a profiler received it holds or has written

Calls of `dump_and_destroy` and `flush_to_disk` in any order, then the destructor or `contention_profiler_stop`.  The
records written and the records held are together the samples received, whenever the flushes came.
-/
namespace ContentionProf
namespace Profiler

/-- `flush_to_disk` at any time: a stream that is not open takes nothing. -/
def flush (s : State) (order : List Ptr) (ending : Bool) : Option State :=
  if order.Perm s.hashSet then
    some { s.flushToDisk order ending with file := if s.init then (s.flushToDisk order ending).file else s.file }
  else none

/-- `~ContentionProfiler`. -/
def destructor (s : State) (order : List Ptr) : Option State := if s.init then flush s order true else some s

/-- Lines 105–106 of `contention_profiler_stop`. -/
def stop (s : State) (order : List Ptr) : Option State := destructor s.initIfNeeded order

/-- A profiler with what went through it: the samples received, with their contents, and the contents of the records
written (ghost). -/
structure Ledger where
  profiler : State
  alive : Bool
  received : List (Ptr × SampledContention)
  written : List SampledContention

inductive Event
  | dump (a : Call)
  | flush (order : List Ptr) (ending : Bool)
  | destruct (order : List Ptr)
  | stop (order : List Ptr)

namespace Ledger

/-- The records of a flush that went in the order `order`. -/
def wrote (l : Ledger) (s : State) (order : List Ptr) : Ledger :=
  { l with profiler := s, written := l.written ++ order.map s.mem }

/-- A sample dumped; the set is empty afterwards only if it was flushed. -/
def dumped (l : Ledger) (a : Call) (s : State) : Ledger :=
  { l with
    profiler := s
    received := (a.ptr, a.sample) :: l.received
    written := l.written ++ if s.hashSet.isEmpty then a.order.map s.mem else [] }

/-- The end of the profiler; one that never opened its file flushes nothing. -/
def ended (l : Ledger) (s : State) (order : List Ptr) : Ledger :=
  { l.wrote s (if s.init then order else []) with alive := false }

end Ledger

def ledgerStep (l : Ledger) (e : Event) : Option Ledger :=
  if l.alive then
    match e with
    | .dump a             => (step l.profiler a).map (l.dumped a)
    | .flush order ending => (flush l.profiler order ending).map (fun s => l.wrote s order)
    | .destruct order     => (destructor l.profiler order).map (fun s => l.ended s order)
    | .stop order         => (stop l.profiler order).map (fun s => l.ended s order)
  else none

def initLedger : Ledger := ⟨initState, true, [], []⟩

def ledgerSystem : System Ledger Event where
  init l := l = initLedger
  step := ledgerStep

def Line.isRecord : Line → Bool
  | .record .. => true
  | _          => false

/-! ## What the calls do -/

section

variable {s s' : State} {a : Call} {order : List Ptr} {ending : Bool}

/-- All that `dump_and_destroy` does with a sample it does not hold. -/
theorem step_effect (hs : step s a = some s') :
    a.ptr ∉ s.hashSet ∧ s'.init = true ∧ s'.mem = Function.update s.mem a.ptr a.sample ∧
      ((s.hashSet.length < maxCachedContentions ∧ s'.hashSet = s.hashSet ++ [a.ptr] ∧ s'.destroyed = s.destroyed ∧
          s'.file = s.initIfNeeded.file) ∨
        (a.order.Perm (s.hashSet ++ [a.ptr]) ∧ s'.hashSet = [] ∧ s'.destroyed = a.order.reverse ++ s.destroyed ∧
          s'.file = s.initIfNeeded.file ++ a.order.map (fun c => (s'.mem c).line))) := by
  have hinit : ∀ s : State, s.initIfNeeded.init = true := by
    intro s
    unfold State.initIfNeeded
    split
    · assumption
    · rfl
  have hdestroyed : ∀ s : State, s.initIfNeeded.destroyed = s.destroyed := by
    intro s
    unfold State.initIfNeeded
    split <;> rfl
  have hfile : ({ s with mem := Function.update s.mem a.ptr a.sample } : State).initIfNeeded.file =
      s.initIfNeeded.file := by
    unfold State.initIfNeeded
    split <;> rfl
  unfold step at hs
  split at hs
  · cases hs
  rename_i hp
  refine ⟨hp, ?_⟩
  unfold dumpAndDestroy at hs
  simp only at hs
  rw [merge_of_not_mem (by rw [initIfNeeded_hashSet]; exact hp)] at hs
  simp only [initIfNeeded_hashSet, initIfNeeded_mem, List.length_append, List.length_singleton] at hs
  split at hs
  · split at hs
    · rename_i hperm
      cases hs
      exact ⟨hinit _, rfl, .inr ⟨hperm, rfl, congrArg (a.order.reverse ++ ·) (hdestroyed _),
        by simp [State.flushToDisk, hfile]⟩⟩
    · cases hs
  · rename_i hroom
    cases hs
    exact ⟨hinit _, rfl, .inl ⟨by omega, rfl, hdestroyed _, hfile⟩⟩

theorem flush_effect (hs : flush s order ending = some s') :
    order.Perm s.hashSet ∧ s'.init = s.init ∧ s'.mem = s.mem ∧ s'.hashSet = [] ∧
      s'.destroyed = order.reverse ++ s.destroyed ∧
      s'.file = if s.init then s.file ++ order.map (fun c => (s.mem c).line) ++ (if ending then [.selfMaps] else [])
        else s.file := by
  unfold flush at hs
  split at hs
  · rename_i hperm
    cases hs
    exact ⟨hperm, rfl, rfl, rfl, rfl, rfl⟩
  · cases hs

end

/-! ## The balance -/

/-- Received is written or held, and what is held was not destroyed. -/
structure Balanced (l : Ledger) : Prop where
  nodup : l.profiler.hashSet.Nodup
  small : l.profiler.hashSet.length ≤ maxCachedContentions
  contents : (l.written ++ l.profiler.records).Perm (l.received.map Prod.snd)
  pointers : ∀ p, (l.received.map Prod.fst).count p = l.profiler.destroyed.count p + l.profiler.hashSet.count p
  lines : l.profiler.file.filter Line.isRecord = l.written.map SampledContention.line
  unopened : l.profiler.init = false → l.profiler.hashSet = [] ∧ l.written = []
  ended : l.alive = false → l.profiler.hashSet = []

theorem filter_isRecord_map {l : List SampledContention} :
    (l.map SampledContention.line).filter Line.isRecord = l.map SampledContention.line :=
  List.filter_eq_self.2 (fun x hx => by
    obtain ⟨c, -, rfl⟩ := List.mem_map.1 hx
    rfl)

section

variable {l l' : Ledger} {s : State}

/-- Opening the file loses no record. -/
theorem Balanced.initIfNeeded_lines (h : Balanced l) :
    l.profiler.initIfNeeded.file.filter Line.isRecord = l.written.map SampledContention.line := by
  unfold State.initIfNeeded
  split
  · exact h.lines
  · rename_i hi
    rw [(h.unopened (by simpa using hi)).2]
    rfl

theorem Balanced.initIfNeeded (h : Balanced l) : Balanced { l with profiler := l.profiler.initIfNeeded } := by
  have hinit : l.profiler.initIfNeeded.init = true := by
    unfold State.initIfNeeded
    split
    · assumption
    · rfl
  have hdestroyed : l.profiler.initIfNeeded.destroyed = l.profiler.destroyed := by
    unfold State.initIfNeeded
    split <;> rfl
  constructor
  case nodup => rw [initIfNeeded_hashSet]; exact h.nodup
  case small => rw [initIfNeeded_hashSet]; exact h.small
  case contents => rw [State.records, initIfNeeded_hashSet, initIfNeeded_mem]; exact h.contents
  case pointers => rw [initIfNeeded_hashSet, hdestroyed]; exact h.pointers
  case lines => exact h.initIfNeeded_lines
  case unopened => intro hi; rw [hinit] at hi; cases hi
  case ended => rw [initIfNeeded_hashSet]; exact h.ended

/-- **A dump adds its sample, and may write everything.** -/
theorem Balanced.dump {a : Call} (h : Balanced l) (ha : l.alive = true) (hs : step l.profiler a = some s) :
    Balanced (l.dumped a s) := by
  obtain ⟨hp, hinit, hmem, heff⟩ := step_effect hs
  have hkept : l.profiler.hashSet.map s.mem = l.profiler.records := by
    rw [hmem]
    exact List.map_congr_left (fun i hi => Function.update_of_ne (ne_of_mem_of_not_mem hi hp) ..)
  have hnew : s.mem a.ptr = a.sample := by rw [hmem, Function.update_self]
  have hall : (l.profiler.hashSet ++ [a.ptr]).map s.mem = l.profiler.records ++ [a.sample] := by
    rw [List.map_append, hkept, List.map_singleton, hnew]
  have hperm : (l.written ++ (l.profiler.records ++ [a.sample])).Perm (a.sample :: l.received.map Prod.snd) := by
    rw [← List.append_assoc]
    exact (List.perm_append_singleton ..).trans (h.contents.cons a.sample)
  have hptr : ∀ p, (((a.ptr, a.sample) :: l.received).map Prod.fst).count p =
      l.profiler.destroyed.count p + (l.profiler.hashSet ++ [a.ptr]).count p := by
    intro p
    have := h.pointers p
    rw [List.map_cons, List.count_cons, List.count_append, List.count_singleton, this, Nat.add_assoc]
  rcases heff with ⟨hroom, hset, hdes, hfile⟩ | ⟨hord, hset, hdes, hfile⟩
  · have hwritten : (l.dumped a s).written = l.written := by
      have hne : s.hashSet.isEmpty = false := by rw [hset]; simp
      simp [Ledger.dumped, hne]
    refine ⟨?_, ?_, ?_, fun p => ?_, ?_, fun hi => ?_, fun hd => ?_⟩
    · show s.hashSet.Nodup
      rw [hset]
      exact List.nodup_append_comm.1 (List.nodup_cons.2 ⟨hp, h.nodup⟩)
    · show s.hashSet.length ≤ _
      rw [hset, List.length_append]
      exact hroom
    · rw [hwritten]
      show (l.written ++ s.hashSet.map s.mem).Perm _
      rw [hset, hall]
      exact hperm
    · show _ = s.destroyed.count p + s.hashSet.count p
      rw [hset, hdes]
      exact hptr p
    · rw [hwritten]
      show s.file.filter _ = _
      rw [hfile]
      exact h.initIfNeeded_lines
    · exact absurd (hinit.symm.trans hi) nofun
    · exact absurd (ha.symm.trans hd) nofun
  · have hwritten : (l.dumped a s).written = l.written ++ a.order.map s.mem := by
      simp [Ledger.dumped, hset]
    refine ⟨?_, ?_, ?_, fun p => ?_, ?_, fun hi => ?_, fun _ => hset⟩
    · show s.hashSet.Nodup
      rw [hset]
      exact List.nodup_nil
    · show s.hashSet.length ≤ _
      rw [hset]
      exact Nat.zero_le _
    · rw [hwritten]
      show (l.written ++ a.order.map s.mem ++ s.hashSet.map s.mem).Perm _
      rw [hset, List.map_nil, List.append_nil]
      exact ((hord.map s.mem).append_left l.written |>.trans (by rw [hall])).trans hperm
    · show _ = s.destroyed.count p + s.hashSet.count p
      rw [hset, hdes, List.count_append, List.count_reverse, hord.count_eq, List.count_nil]
      have := hptr p
      have hfst : ((l.dumped a s).received.map Prod.fst).count p =
        (((a.ptr, a.sample) :: l.received).map Prod.fst).count p := rfl
      omega
    · rw [hwritten]
      show s.file.filter _ = _
      rw [hfile, List.filter_append, h.initIfNeeded_lines, List.map_append, List.map_map]
      refine congrArg (l.written.map SampledContention.line ++ ·) ?_
      rw [show a.order.map (fun c => (s.mem c).line) = (a.order.map s.mem).map SampledContention.line by
        rw [List.map_map]; rfl, filter_isRecord_map, List.map_map]
    · exact absurd (hinit.symm.trans hi) nofun

/-- **A flush writes what is held.** -/
theorem Balanced.flush {order : List Ptr} {ending : Bool} (h : Balanced l)
    (hs : flush l.profiler order ending = some s) : Balanced (l.wrote s order) := by
  obtain ⟨hord, hinit, hmem, hset, hdes, hfile⟩ := flush_effect hs
  refine ⟨?_, ?_, ?_, fun p => ?_, ?_, fun hi => ?_, fun _ => hset⟩
  · show s.hashSet.Nodup
    rw [hset]
    exact List.nodup_nil
  · show s.hashSet.length ≤ _
    rw [hset]
    exact Nat.zero_le _
  · show (l.written ++ order.map s.mem ++ s.hashSet.map s.mem).Perm _
    rw [hset, hmem, List.map_nil, List.append_nil]
    exact ((hord.map l.profiler.mem).append_left l.written).trans h.contents
  · show _ = s.destroyed.count p + s.hashSet.count p
    rw [hset, hdes, List.count_append, List.count_reverse, hord.count_eq, List.count_nil]
    have := h.pointers p
    have hfst : ((l.wrote s order).received.map Prod.fst).count p = (l.received.map Prod.fst).count p := rfl
    omega
  · show s.file.filter _ = (l.written ++ order.map s.mem).map _
    have hmaps : (if ending then [Line.selfMaps] else []).filter Line.isRecord = [] := by cases ending <;> rfl
    rw [hfile, hmem, List.map_append, List.map_map]
    cases hi : l.profiler.init with
    | true =>
      rw [if_pos rfl, List.filter_append, hmaps, List.append_nil, List.filter_append, h.lines]
      refine congrArg (l.written.map SampledContention.line ++ ·) ?_
      rw [show order.map (fun c => (l.profiler.mem c).line) =
        (order.map l.profiler.mem).map SampledContention.line by rw [List.map_map]; rfl, filter_isRecord_map,
        List.map_map]
    | false =>
      have hnil : order = [] := by
        rw [(h.unopened hi).1] at hord
        exact hord.eq_nil
      rw [if_neg nofun, hnil, List.map_nil, List.append_nil]
      exact h.lines
  · have hi : l.profiler.init = false := hinit.symm.trans hi
    have hnil : order = [] := by
      rw [(h.unopened hi).1] at hord
      exact hord.eq_nil
    exact ⟨hset, by rw [Ledger.wrote, hnil, (h.unopened hi).2]; rfl⟩

/-- The destructor, of a profiler that has opened its file or never held anything. -/
theorem Balanced.destruct {order : List Ptr} (h : Balanced l) (hs : destructor l.profiler order = some s) :
    Balanced (l.ended s order) := by
  unfold destructor at hs
  split at hs
  · rename_i hi
    obtain ⟨-, hinit, -, hset, -, -⟩ := flush_effect hs
    have hb := h.flush hs
    unfold Ledger.ended
    rw [if_pos (hinit.trans hi)]
    exact ⟨hb.nodup, hb.small, hb.contents, hb.pointers, hb.lines, hb.unopened, fun _ => hset⟩
  · rename_i hi
    cases hs
    unfold Ledger.ended
    rw [if_neg hi, Ledger.wrote, List.map_nil, List.append_nil]
    exact ⟨h.nodup, h.small, h.contents, h.pointers, h.lines, h.unopened,
      fun _ => (h.unopened (by simpa using hi)).1⟩

theorem balanced_step {e : Event} (h : Balanced l) (hs : ledgerStep l e = some l') : Balanced l' := by
  unfold ledgerStep at hs
  split at hs
  · rename_i ha
    cases e with
    | dump a =>
      obtain ⟨s, h₁, rfl⟩ := Option.map_eq_some_iff.1 hs
      exact h.dump ha h₁
    | flush order ending =>
      obtain ⟨s, h₁, rfl⟩ := Option.map_eq_some_iff.1 hs
      exact h.flush h₁
    | destruct order =>
      obtain ⟨s, h₁, rfl⟩ := Option.map_eq_some_iff.1 hs
      exact h.destruct h₁
    | stop order =>
      obtain ⟨s, h₁, rfl⟩ := Option.map_eq_some_iff.1 hs
      exact h.initIfNeeded.destruct h₁
  · cases hs

theorem balanced_init : Balanced initLedger where
  nodup := List.nodup_nil
  small := Nat.zero_le _
  contents := .rfl
  pointers _ := rfl
  lines := rfl
  unopened _ := ⟨rfl, rfl⟩
  ended h := nomatch h

theorem balanced_reachable (h : ledgerSystem.Reachable l) : Balanced l :=
  h.invariant (I := Balanced) (fun l h0 => by cases h0; exact balanced_init) (fun _ _ _ h _ hs => balanced_step h hs)

end

/-! ## The totals -/

theorem ofStack_append (l₁ l₂ : List SampledContention) (st : List U64) :
    ofStack (l₁ ++ l₂) st = ofStack l₁ st ++ ofStack l₂ st := List.filter_append ..

/-- **Nothing is lost, nothing is counted twice**: after every call, for every stack, the durations and the counts in
the records written and held add up to those received; the records in the file are the ones written; every sample
received was returned at most once and the set holds those not returned; the set has at most 512 entries; and a
profiler that was stopped or destroyed has written all it received. -/
theorem totals_kept {l : Ledger} (h : ledgerSystem.Reachable l) :
    (∀ st,
      ((ofStack l.written st).map SampledContention.durationNs).sum +
          ((ofStack l.profiler.records st).map SampledContention.durationNs).sum =
        ((ofStack (l.received.map Prod.snd) st).map SampledContention.durationNs).sum ∧
      ((ofStack l.written st).map SampledContention.count).sum +
          ((ofStack l.profiler.records st).map SampledContention.count).sum =
        ((ofStack (l.received.map Prod.snd) st).map SampledContention.count).sum) ∧
    l.profiler.file.filter Line.isRecord = l.written.map SampledContention.line ∧
    (∀ p, l.profiler.destroyed.count p ≤ (l.received.map Prod.fst).count p ∧
      (p ∈ l.profiler.hashSet ↔ l.profiler.destroyed.count p < (l.received.map Prod.fst).count p)) ∧
    l.profiler.hashSet.length ≤ maxCachedContentions ∧
    (l.alive = false → l.written.Perm (l.received.map Prod.snd)) := by
  have hb := balanced_reachable h
  refine ⟨fun st => ?_, hb.lines, fun p => ?_, hb.small, fun hd => ?_⟩
  · have hperm : (ofStack l.written st ++ ofStack l.profiler.records st).Perm
        (ofStack (l.received.map Prod.snd) st) := by
      rw [← ofStack_append]
      exact hb.contents.filter _
    constructor
    · rw [← List.sum_append, ← List.map_append]
      exact (hperm.map _).sum_eq
    · rw [← List.sum_append, ← List.map_append]
      exact (hperm.map _).sum_eq
  · have hp := hb.pointers p
    have hone := List.nodup_iff_count_le_one.1 hb.nodup p
    refine ⟨by omega, ?_⟩
    rw [← List.count_pos_iff]
    omega
  · have hc := hb.contents
    rwa [State.records, hb.ended hd, List.map_nil, List.append_nil] at hc

/-- Three samples of two stacks, one flush after the first, and the stop. -/
def threeSamples : List Event :=
  [.dump ⟨1, ⟨100, 1, [7, 8, 9]⟩, []⟩, .flush [1] false, .dump ⟨1, ⟨50, 2, [7, 8, 9]⟩, []⟩,
    .dump ⟨2, ⟨30, 4, [7, 8, 10]⟩, []⟩, .stop [2, 1]]

theorem totals_kept_threeSamples : ∃ l, ledgerSystem.run initLedger threeSamples = some l ∧ l.alive = false ∧
    l.written.Perm (l.received.map Prod.snd) ∧
    ((ofStack l.written [7, 8, 9]).map SampledContention.durationNs).sum = 150 := by
  have hrun : (ledgerSystem.run initLedger threeSamples).map (fun l => (l.alive,
      ((ofStack l.written [7, 8, 9]).map SampledContention.durationNs).sum)) = some (false, 150) := by decide
  obtain ⟨l, hl, hx⟩ := Option.map_eq_some_iff.1 hrun
  obtain ⟨halive, hsum⟩ := Prod.mk.inj hx
  have hreach : ledgerSystem.Reachable l := System.Reachable.run (.init rfl) _ hl
  exact ⟨l, hl, halive, (totals_kept hreach).2.2.2.2 halive, hsum⟩

end Profiler
end ContentionProf
