import ContentionProf.Run
import ContentionProf.Common
import Mathlib.Data.Rat.Defs
import Mathlib.Data.List.Perm.Basic
import Mathlib.Data.List.Nodup
import Mathlib.Algebra.BigOperators.Group.List.Basic
import Mathlib.Algebra.Order.Ring.Rat
/-!
# Profiler — the records of `ContentionProfiler` (`profiler.cpp`)

`hash_set` holds pointers and compares them as pointers: two samples with the same stack are two records, and the merge
branch of `dump_and_destroy` is for a sample that is dumped twice.  Every 513th sample is written out together with the
others, so the records are aggregated as long as the stacks between two flushes differ.
-/
namespace ContentionProf
namespace Profiler

/-- A `SampledContention*`. -/
abbrev Ptr := Nat

/-- The data of a `SampledContention`; `stack` is `stack[0 .. frames_count)`. -/
structure SampledContention where
  durationNs : Int
  count : ℚ
  stack : List U64
deriving DecidableEq

/-- `MAX_CACHED_CONTENTIONS`. -/
def maxCachedContentions : Nat := 512

/-- `SKIPPED_STACK_FRAMES`. -/
def skippedStackFrames : Nat := 2

inductive Line
  | header
  | record (durationNs : Int) (count : Int) (frames : List U64)
  /-- `Util::get_self_maps()`. -/
  | selfMaps
deriving DecidableEq

/-- The profiler with the samples it points to. -/
structure State where
  /-- `init_`. -/
  init : Bool
  file : List Line
  hashSet : List Ptr
  mem : Ptr → SampledContention
  /-- The calls of `destroy` (ghost). -/
  destroyed : List Ptr
  /-- The samples received since the last flush, the oldest first (ghost). -/
  received : List SampledContention

def SampledContention.line (c : SampledContention) : Line :=
  .record c.durationNs c.count.ceil (c.stack.drop skippedStackFrames)

namespace State

variable (s : State)

/-- `init_if_needed`, where the file can be opened. -/
def initIfNeeded : State := if s.init then s else { s with init := true, file := [.header] }

def destroy (c : Ptr) : State := { s with destroyed := c :: s.destroyed }

/-- `flush_to_disk`; `order` is the order in which the set is walked. -/
def flushToDisk (order : List Ptr) (ending : Bool) : State :=
  { s with
    file := s.file ++ order.map (fun c => (s.mem c).line) ++ if ending then [.selfMaps] else []
    hashSet := []
    destroyed := order.reverse ++ s.destroyed
    received := [] }

/-- Lines 45–52: the sample found is merged with the one passed, and the one passed is destroyed. -/
def merge (c : Ptr) : State :=
  match s.hashSet.find? (· == c) with
  | some i =>
    { s with
      mem := Function.update s.mem i
        { s.mem i with
          durationNs := (s.mem i).durationNs + (s.mem c).durationNs
          count := (s.mem i).count + (s.mem c).count } }.destroy c
  | none   => { s with hashSet := s.hashSet ++ [c] }

end State

/-- `dump_and_destroy`. -/
def dumpAndDestroy (s : State) (c : Ptr) (order : List Ptr) : Option State :=
  let s := { s.initIfNeeded with received := s.received ++ [s.mem c] }.merge c
  if maxCachedContentions < s.hashSet.length then
    if order.Perm s.hashSet then some (s.flushToDisk order false) else none
  else some s

/-- A call of `dump_and_destroy` with a sample of the given contents. -/
structure Call where
  ptr : Ptr
  sample : SampledContention
  order : List Ptr

/-- The samples are live and distinct: none is passed that the profiler still holds. -/
def step (s : State) (a : Call) : Option State :=
  if a.ptr ∈ s.hashSet then none
  else dumpAndDestroy { s with mem := Function.update s.mem a.ptr a.sample } a.ptr a.order

def initState : State := ⟨false, [], [], fun _ => ⟨0, 0, []⟩, [], []⟩

def system : System State Call where
  init s := s = initState
  step := step

/-! ## Aggregation -/

/-- The records of the profiler. -/
def State.records (s : State) : List SampledContention := s.hashSet.map s.mem

def ofStack (l : List SampledContention) (stack : List U64) : List SampledContention :=
  l.filter (fun c => c.stack == stack)

/-- **One record for each stack received since the last flush, with the sums.** -/
structure Aggregated (s : State) : Prop where
  nodup : (s.records.map SampledContention.stack).Nodup
  same : ∀ st, st ∈ s.records.map SampledContention.stack ↔ st ∈ s.received.map SampledContention.stack
  sums : ∀ r ∈ s.records, r.durationNs = ((ofStack s.received r.stack).map SampledContention.durationNs).sum ∧
    r.count = ((ofStack s.received r.stack).map SampledContention.count).sum

/-- The calls since the last flush, when every 513th call flushes. -/
def sinceFlush (as : List Call) : List Call :=
  as.drop ((maxCachedContentions + 1) * (as.length / (maxCachedContentions + 1)))

/-- **The samples between two flushes have different stacks**, the one that makes the profiler flush set aside. -/
def DistinctInBlocks (as : List Call) : Prop :=
  ∀ i j a b, i < j → as[i]? = some a → as[j]? = some b →
    i / (maxCachedContentions + 1) = j / (maxCachedContentions + 1) →
    j % (maxCachedContentions + 1) ≠ maxCachedContentions → a.sample.stack ≠ b.sample.stack

variable {s s' : State}

theorem ofStack_of_nodup : ∀ {l : List SampledContention}, (l.map SampledContention.stack).Nodup →
    ∀ r ∈ l, ofStack l r.stack = [r]
  | c :: l, h, r, hr => by
    obtain ⟨hc, hl⟩ := List.nodup_cons.1 h
    rcases List.mem_cons.1 hr with rfl | hr
    · have hnone : ofStack l r.stack = [] := by
        refine List.filter_eq_nil_iff.2 (fun d hd hb => hc ?_)
        rw [← beq_iff_eq.1 hb]
        exact List.mem_map_of_mem hd
      have hcons : ofStack (r :: l) r.stack = r :: ofStack l r.stack := List.filter_cons_of_pos (beq_self_eq_true _)
      rw [hcons, hnone]
    · have hne : ¬ (c.stack == r.stack) = true := by
        rw [beq_iff_eq]
        intro he
        exact hc (he ▸ List.mem_map_of_mem hr)
      have hcons : ofStack (c :: l) r.stack = ofStack l r.stack := List.filter_cons_of_neg hne
      rw [hcons, ofStack_of_nodup hl r hr]

/-- **Records that are the samples as received are aggregated exactly if their stacks differ.** -/
theorem aggregated_iff (h : s.records = s.received) :
    Aggregated s ↔ (s.received.map SampledContention.stack).Nodup := by
  constructor
  · intro ha
    exact h ▸ ha.nodup
  · intro hn
    refine ⟨h ▸ hn, fun st => by rw [h], fun r hr => ?_⟩
    rw [h] at hr
    rw [ofStack_of_nodup hn r hr]
    simp

/-! ## Every sample is a record of its own -/

/-- After the calls `as`: the records are the samples since the last flush, in the order of the calls. -/
structure Inv (as : List Call) (s : State) : Prop where
  received : s.received = (sinceFlush as).map Call.sample
  records : s.records = s.received

theorem length_sinceFlush (as : List Call) : (sinceFlush as).length = as.length % (maxCachedContentions + 1) := by
  have := Nat.div_add_mod as.length (maxCachedContentions + 1)
  rw [sinceFlush, List.length_drop]
  omega

theorem sinceFlush_append {as : List Call} {a : Call} (h : (sinceFlush as).length < maxCachedContentions) :
    sinceFlush (as ++ [a]) = sinceFlush as ++ [a] := by
  rw [length_sinceFlush] at h
  have hdiv : (as.length + 1) / (maxCachedContentions + 1) = as.length / (maxCachedContentions + 1) := by
    unfold maxCachedContentions at *
    omega
  have hle : (maxCachedContentions + 1) * (as.length / (maxCachedContentions + 1)) ≤ as.length := Nat.mul_div_le _ _
  unfold sinceFlush
  rw [List.length_append, List.length_singleton, hdiv, List.drop_append_of_le_length hle]

theorem sinceFlush_full {as : List Call} {a : Call} (h : (sinceFlush as).length = maxCachedContentions) :
    sinceFlush (as ++ [a]) = [] := by
  rw [length_sinceFlush] at h
  rw [← List.length_eq_zero_iff, length_sinceFlush, List.length_append, List.length_singleton]
  unfold maxCachedContentions at *
  omega

theorem merge_of_not_mem {c : Ptr} (h : c ∉ s.hashSet) : s.merge c = { s with hashSet := s.hashSet ++ [c] } := by
  have hnone : s.hashSet.find? (· == c) = none := by
    rw [List.find?_eq_none]
    intro i hi hb
    exact h (beq_iff_eq.1 hb ▸ hi)
  unfold State.merge
  rw [hnone]

theorem initIfNeeded_hashSet : s.initIfNeeded.hashSet = s.hashSet := by
  unfold State.initIfNeeded; split <;> rfl

theorem initIfNeeded_mem : s.initIfNeeded.mem = s.mem := by
  unfold State.initIfNeeded; split <;> rfl

/-- **What a call does**: the sample becomes a record of its own, and with the 513th all records are flushed. -/
theorem step_cases {a : Call} (hs : step s a = some s') :
    a.ptr ∉ s.hashSet ∧
      ((s.hashSet.length < maxCachedContentions ∧ s'.records = s.records ++ [a.sample] ∧
          s'.received = s.received ++ [a.sample]) ∨
        (maxCachedContentions ≤ s.hashSet.length ∧ s'.records = [] ∧ s'.received = [])) := by
  unfold step at hs
  split at hs
  · cases hs
  rename_i hp
  refine ⟨hp, ?_⟩
  unfold dumpAndDestroy at hs
  simp only at hs
  rw [merge_of_not_mem (by rw [initIfNeeded_hashSet]; exact hp)] at hs
  simp only [initIfNeeded_hashSet, initIfNeeded_mem, List.length_append, List.length_singleton,
    Function.update_self] at hs
  split at hs
  · rename_i hfull
    split at hs
    · cases hs
      exact .inr ⟨by omega, rfl, rfl⟩
    · cases hs
  · rename_i hroom
    cases hs
    refine .inl ⟨by omega, ?_, rfl⟩
    have hold : s.hashSet.map (Function.update s.mem a.ptr a.sample) = s.hashSet.map s.mem :=
      List.map_congr_left (fun i hi => Function.update_of_ne (ne_of_mem_of_not_mem hi hp) ..)
    unfold State.records
    simp only [List.map_append, hold]
    simp

theorem Inv.append {as : List Call} {a : Call} (h : Inv as s) (hs : step s a = some s') : Inv (as ++ [a]) s' := by
  have hlen : s.hashSet.length = (sinceFlush as).length := by
    rw [← List.length_map (f := Call.sample), ← h.received, ← h.records, State.records, List.length_map]
  have hlt := Nat.mod_lt as.length (Nat.succ_pos maxCachedContentions)
  rw [← length_sinceFlush] at hlt
  obtain ⟨-, ⟨hroom, hrec, hr⟩ | ⟨hfull, hrec, hr⟩⟩ := step_cases hs
  · refine ⟨?_, by rw [hrec, hr, h.records]⟩
    rw [hr, h.received, sinceFlush_append (by omega), List.map_append]
    rfl
  · refine ⟨?_, by rw [hrec, hr]⟩
    rw [hr, sinceFlush_full (by omega)]
    rfl

theorem inv_run : ∀ (as : List Call) {s : State}, system.run initState as = some s → Inv as s := by
  intro as
  induction as using List.reverseRecOn with
  | nil =>
    intro s hr
    cases hr
    exact ⟨rfl, rfl⟩
  | append_singleton as a ih =>
    intro s hr
    rw [System.run_append] at hr
    obtain ⟨s₁, h₁, h₂⟩ := Option.bind_eq_some_iff.1 hr
    obtain ⟨s₂, h₃, h₄⟩ := Option.bind_eq_some_iff.1 h₂
    cases h₄
    exact (ih h₁).append h₃

theorem getElem?_sinceFlush {as₁ : List Call} {i : Nat} (as₂ : List Call) (hi : i < (sinceFlush as₁).length) :
    ((sinceFlush as₁).map (fun a => a.sample.stack))[i]? =
      ((as₁ ++ as₂)[(maxCachedContentions + 1) * (as₁.length / (maxCachedContentions + 1)) + i]?).map
        (fun a => a.sample.stack) := by
  have hlt : (maxCachedContentions + 1) * (as₁.length / (maxCachedContentions + 1)) + i < as₁.length := by
    unfold sinceFlush at hi
    rw [List.length_drop] at hi
    omega
  rw [List.getElem?_map, sinceFlush, List.getElem?_drop, List.getElem?_append_left hlt]

/-- The stacks since the last flush of every beginning of the calls differ exactly if they do block by block. -/
theorem nodup_sinceFlush_iff (as : List Call) :
    (∀ as₁ as₂, as = as₁ ++ as₂ → ((sinceFlush as₁).map (fun a => a.sample.stack)).Nodup) ↔ DistinctInBlocks as := by
  constructor
  · intro h i j a b hij ha hb hblock hj heq
    obtain ⟨hjl, -⟩ := List.getElem?_eq_some_iff.1 hb
    -- the calls up to `b`
    have hlen : (as.take (j + 1)).length = j + 1 := by rw [List.length_take]; omega
    have hdiv : (j + 1) / (maxCachedContentions + 1) = j / (maxCachedContentions + 1) := by
      unfold maxCachedContentions at *
      omega
    have hki := Nat.div_add_mod i (maxCachedContentions + 1)
    have hkj := Nat.div_add_mod j (maxCachedContentions + 1)
    have hsince : (sinceFlush (as.take (j + 1))).length = j % (maxCachedContentions + 1) + 1 := by
      rw [length_sinceFlush, hlen]
      unfold maxCachedContentions at *
      omega
    rw [hblock] at hki
    have hn := List.nodup_iff_getElem?_ne_getElem?.1 (h _ _ (List.take_append_drop (j + 1) as).symm)
      (i % (maxCachedContentions + 1)) (j % (maxCachedContentions + 1)) (by omega)
      (by rw [List.length_map, hsince]; omega)
    refine hn ?_
    rw [getElem?_sinceFlush (as.drop (j + 1)) (by omega),
      getElem?_sinceFlush (as.drop (j + 1)) (by omega), List.take_append_drop, hlen, hdiv, hki, hkj, ha, hb]
    exact congrArg some heq
  · rintro h as₁ as₂ rfl
    rw [List.nodup_iff_getElem?_ne_getElem?]
    intro i j hij hj heq
    rw [List.length_map] at hj
    rw [getElem?_sinceFlush as₂ (by omega), getElem?_sinceFlush as₂ hj] at heq
    rw [length_sinceFlush] at hj
    have hmod := Nat.mod_lt as₁.length (Nat.succ_pos maxCachedContentions)
    have hdm := Nat.div_add_mod as₁.length (maxCachedContentions + 1)
    generalize hk : (maxCachedContentions + 1) * (as₁.length / (maxCachedContentions + 1)) = k at heq hdm
    have hkdvd : (maxCachedContentions + 1) ∣ k := ⟨_, hk.symm⟩
    have hjl : k + j < (as₁ ++ as₂).length := by rw [List.length_append]; omega
    have hil : k + i < (as₁ ++ as₂).length := by omega
    rw [List.getElem?_eq_getElem hil, List.getElem?_eq_getElem hjl] at heq
    refine h (k + i) (k + j) _ _ (by omega) (List.getElem?_eq_getElem hil) (List.getElem?_eq_getElem hjl) ?_ ?_
      (Option.some.inj heq)
    · unfold maxCachedContentions at *
      omega
    · unfold maxCachedContentions at *
      omega

/-- **The records are aggregated after every call exactly if the samples between two flushes have different stacks**,
the one that makes the profiler flush set aside. -/
theorem aggregated_calls_iff {as : List Call} (hr : system.run initState as = some s) :
    (∀ s₁, system.Passes initState as s₁ → Aggregated s₁) ↔ DistinctInBlocks as := by
  rw [← nodup_sinceFlush_iff]
  have hone : ∀ {as₁ s₁}, system.run initState as₁ = some s₁ →
      (Aggregated s₁ ↔ ((sinceFlush as₁).map (fun a => a.sample.stack)).Nodup) := by
    intro as₁ s₁ h₁
    have hi := inv_run as₁ h₁
    rw [aggregated_iff hi.records, hi.received, List.map_map]
    rfl
  constructor
  · rintro h as₁ as₂ rfl
    rw [System.run_append] at hr
    obtain ⟨s₁, h₁, -⟩ := Option.bind_eq_some_iff.1 hr
    exact (hone h₁).1 (h s₁ ⟨as₁, as₂, rfl, h₁⟩)
  · rintro h s₁ ⟨as₁, as₂, has, h₁⟩
    exact (hone h₁).2 (h as₁ as₂ has)

/-- Two samples with the same stack. -/
def sameStackCalls : List Call := [⟨1, ⟨100, 1, [7, 8, 9]⟩, []⟩, ⟨2, ⟨50, 2, [7, 8, 9]⟩, []⟩]

/-- **Two records for one stack.** -/
theorem two_records : ∃ s, system.run initState sameStackCalls = some s ∧ s.hashSet = [1, 2] ∧
    s.records.map SampledContention.stack = [[7, 8, 9], [7, 8, 9]] ∧ ¬ Aggregated s := by
  have hrun : (system.run initState sameStackCalls).map
      (fun s => (s.hashSet, s.records.map SampledContention.stack)) = some ([1, 2], [[7, 8, 9], [7, 8, 9]]) := by
    decide
  obtain ⟨s, hs, hx⟩ := Option.map_eq_some_iff.1 hrun
  obtain ⟨hh, hrec⟩ := Prod.mk.inj hx
  refine ⟨s, hs, hh, hrec, fun ha => ?_⟩
  have := ha.nodup
  rw [hrec] at this
  exact absurd this (by decide)

/-- Two samples with different stacks. -/
def twoStacksCalls : List Call := [⟨1, ⟨100, 1, [7, 8, 9]⟩, []⟩, ⟨2, ⟨50, 2, [7, 8, 10]⟩, []⟩]

theorem aggregated_calls_iff_twoStacksCalls : ∃ s, system.run initState twoStacksCalls = some s ∧ s.hashSet = [1, 2] ∧
    ((∀ s₁, system.Passes initState twoStacksCalls s₁ → Aggregated s₁) ↔ DistinctInBlocks twoStacksCalls) := by
  have hrun : (system.run initState twoStacksCalls).map State.hashSet = some [1, 2] := by decide
  obtain ⟨s, hs, hx⟩ := Option.map_eq_some_iff.1 hrun
  exact ⟨s, hs, hx, aggregated_calls_iff hs⟩

end Profiler
end ContentionProf
