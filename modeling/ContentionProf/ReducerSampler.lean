import ContentionProf.BoundedQueue
import ContentionProf.Reducer
/-!
# ReducerSampler — the samples of a reducer and the value of a window (`common/sampler.h`)

The operator without inverse (`VoidOp`) is `none`.  `none` as a result is what `BoundedQueue` means by it, a `NULL` that
is read, or a loop without end.
-/
namespace ContentionProf

structure Sample (T : Type) where
  data : T
  timeUs : Int
  deriving DecidableEq

/-- What the template is given. -/
structure SamplerOps (T : Type) where
  op : T → T → T
  identity : T
  invOp : Option (T → T → T)

structure ReducerSampler (T : Type) where
  windowSize : Int
  q : BoundedQueue (Sample T)

namespace ReducerSampler

variable {T A : Type}

/-- `MAX_SECONDS_LIMIT`. -/
def maxSecondsLimit : Int := 3600

/-- The fields, before the constructor takes its sample. -/
def construct : ReducerSampler T := { windowSize := 1, q := .construct0 }

/-- `set_window_size`, and what it returns. -/
def setWindowSize (s : ReducerSampler T) (windowSize : Int) : ReducerSampler T × Int :=
  if windowSize ≤ 0 ∨ windowSize > maxSecondsLimit then (s, -1)
  else (if windowSize > s.windowSize then { s with windowSize } else s, 0)

/-- `_window_size + 1`. -/
def needed (s : ReducerSampler T) : U64 := BitVec.ofInt 64 s.windowSize + 1

/-- The queue is too small for the window. -/
def grows (s : ReducerSampler T) : Bool := s.needed > s.q.capacity

/-- `new_cap`. -/
def newCap (s : ReducerSampler T) : U64 :=
  let twice := s.q.capacity * 2
  if twice < s.needed then s.needed else twice

/-- The loop that moves the samples, for so many rounds. -/
def moveLoop : Nat → BoundedQueue (Sample T) → BoundedQueue (Sample T) →
    Option (BoundedQueue (Sample T) × BoundedQueue (Sample T))
  | 0, _, _        => none
  | n + 1, q, newQ => do
    let (q, tmp) ← q.popCopy
    match tmp with
    | none     => return (q, newQ)
    | some tmp =>
      let (newQ, _) ← newQ.push tmp
      moveLoop n q newQ

/-- Makes the queue larger: `new_q` ends with the old storage, which its destructor clears. -/
def grow (q : BoundedQueue (Sample T)) (newCap : U64) : Option (BoundedQueue (Sample T)) := do
  let (q, newQ) ← moveLoop (q.count.toNat + 1) q (.construct newCap .ownsStorage)
  let (newQ, q) := newQ.swap q
  let _ ← newQ.clear
  return q

/-- Makes the queue ready for one more sample. -/
def makeReady (s : ReducerSampler T) : Option (BoundedQueue (Sample T)) :=
  if s.grows then grow s.q s.newCap else some s.q

/-- `latest`, and the reducer afterwards. -/
def latest (c : SamplerOps T) (r : Reducer T) (now : Int) : Sample T × Reducer T :=
  match c.invOp with
  | none   =>
    let (data, r) := r.resetAllAgents c.op c.identity
    (⟨data, now⟩, r)
  | some _ => (⟨r.combineAgents c.op, now⟩, r)

/-- `take_sample`. -/
def takeSample (c : SamplerOps T) (s : ReducerSampler T) (r : Reducer T) (malloc : Bool) (now : Int) :
    Option (ReducerSampler T × Reducer T) :=
  if s.grows && !malloc then
    some (s, r)
  else do
    let q ← s.makeReady
    let (latest, r) := latest c r now
    let q ← q.elimPush latest
    return ({ s with q }, r)

/-- The sample behind an address. -/
def deref (q : BoundedQueue (Sample T)) : Option Nat → Option (Sample T)
  | none   => none
  | some n => q.read n

/-- `oldest`. -/
def oldest (q : BoundedQueue (Sample T)) (windowSize : Int) : Option (Option Nat) := do
  let oldest ← q.bottomAt (BitVec.ofInt 64 windowSize)
  return if oldest.isNone then q.top else oldest

/-- The loop over the samples of a window, from index `i` on and for so many rounds. -/
def windowLoop (f : A → T → A) (q : BoundedQueue (Sample T)) (oldest : Option Nat) : Nat → U64 → A → Option A
  | 0, _, _     => none
  | n + 1, i, a => do
    let e ← q.bottomAt i
    if e = oldest then
      return a
    else
      let x ← deref q e
      windowLoop f q oldest n (i + 1) (f a x.data)

/-- `data` of the window whose newest sample is `latest`.  The loop meets `NULL` after the last sample. -/
def windowData (c : SamplerOps T) (q : BoundedQueue (Sample T)) (oldest : Option Nat) (latest : Sample T) : Option T :=
  match c.invOp with
  | none       => windowLoop c.op q oldest (q.count.toNat + 1) 1 latest.data
  | some invOp => (deref q oldest).map (fun o => invOp latest.data o.data)

/-- `get_value`: what it stores in `result`, if it returns true. -/
def getValue (c : SamplerOps T) (s : ReducerSampler T) (windowSize : Int) : Option (Option (Sample T)) :=
  if windowSize ≤ 0 then
    return none
  else if s.q.size ≤ 1 then
    return none
  else do
    let oldest ← oldest s.q windowSize
    let latest ← s.q.bottom
    let x ← deref s.q latest
    let data ← windowData c s.q oldest x
    let o ← deref s.q oldest
    return some ⟨data, x.timeUs - o.timeUs⟩

/-- `get_samples`: the vector afterwards. -/
def getSamples (s : ReducerSampler T) (samples : List T) (windowSize : Int) : Option (List T) :=
  if windowSize ≤ 0 then
    return samples
  else if s.q.size ≤ 1 then
    return samples
  else do
    let oldest ← oldest s.q windowSize
    windowLoop (fun samples data => samples ++ [data]) s.q oldest (s.q.count.toNat + 1) 1 samples

/-! ### Taking a sample -/

variable {c : SamplerOps T} {s : ReducerSampler T} {r : Reducer T} {q q' newQ : BoundedQueue (Sample T)}
  {l m : List (Sample T)} {now : Int} {n : Nat}

/-- **What the queue of a sampler holds**; before the first allocation that succeeds it has no storage. -/
def Contents (q : BoundedQueue (Sample T)) (l : List (Sample T)) : Prop := q = .construct0 ∧ l = [] ∨ q.Holds l

/-- **The sampler between two calls.** -/
structure Ready (s : ReducerSampler T) (l : List (Sample T)) : Prop where
  window_pos : 1 ≤ s.windowSize
  window_le : s.windowSize ≤ maxSecondsLimit
  cap_le : s.q.cap.toNat ≤ 7200
  contents : Contents s.q l

@[simp] theorem setWindowSize_q (s : ReducerSampler T) (w : Int) : (s.setWindowSize w).1.q = s.q := by
  unfold setWindowSize
  split
  · rfl
  · dsimp only
    split <;> rfl

theorem setWindowSize_windowSize (s : ReducerSampler T) (w : Int) :
    (s.setWindowSize w).1.windowSize = if w ≤ 0 ∨ w > maxSecondsLimit then s.windowSize else max w s.windowSize := by
  unfold setWindowSize
  split
  · rfl
  · dsimp only
    split
    · show w = max w s.windowSize
      omega
    · show s.windowSize = max w s.windowSize
      omega

theorem construct_ready : (construct : ReducerSampler T).Ready [] :=
  ⟨le_rfl, by simp [construct, maxSecondsLimit], Nat.zero_le _, .inl ⟨rfl, rfl⟩⟩

theorem Ready.setWindowSize (h : s.Ready l) (w : Int) : (s.setWindowSize w).1.Ready l := by
  have hpos := h.window_pos
  have hle := h.window_le
  refine ⟨?_, ?_, by rw [setWindowSize_q]; exact h.cap_le, by rw [setWindowSize_q]; exact h.contents⟩
  · rw [setWindowSize_windowSize]
    split <;> omega
  · rw [setWindowSize_windowSize]
    split <;> omega

/-- `moveLoop` moves every sample, in order, into a queue with enough room. -/
theorem moveLoop_eq : ∀ {l m : List (Sample T)} {n : Nat} {q newQ : BoundedQueue (Sample T)}, q.Holds l →
    newQ.Holds m → m.length + l.length ≤ newQ.cap.toNat → l.length < n →
    ∃ q' newQ', moveLoop n q newQ = some (q', newQ') ∧ q'.Holds [] ∧ newQ'.Holds (m ++ l) ∧ newQ'.cap = newQ.cap
  | [], m, n + 1, q, newQ, hq, hnew, _, _ => by
    refine ⟨q, newQ, ?_, hq, by rwa [List.append_nil], rfl⟩
    rw [moveLoop, hq.popCopy_nil]
    rfl
  | x :: l, m, n + 1, q, newQ, hq, hnew, hle, hn => by
    rw [List.length_cons] at hle hn
    obtain ⟨q₁, hpop, hq₁, -⟩ := hq.popCopy_cons
    obtain ⟨newQ₁, hpush, hnew₁, hcap⟩ := hnew.push_of_lt (by omega) x
    obtain ⟨q', newQ', hmove, hq', hnew', hcap'⟩ := moveLoop_eq (n := n) hq₁ hnew₁ (by
      rw [List.length_append, List.length_singleton, hcap]
      omega) (by omega)
    refine ⟨q', newQ', ?_, hq', ?_, hcap'.trans hcap⟩
    · rw [moveLoop, hpop, Option.bind_eq_bind, Option.bind_some]
      dsimp only
      rw [hpush, Option.bind_eq_bind, Option.bind_some]
      exact hmove
    · rw [List.append_assoc] at hnew'
      exact hnew'

/-- **Growing keeps what is held, in order.** -/
theorem grow_eq {newCap : U64} (h : Contents q l) (hlen : l.length ≤ newCap.toNat) (hpos : 0 < newCap.toNat)
    (hle : newCap.toNat ≤ 2 ^ 31) :
    ∃ q', grow q newCap = some q' ∧ q'.Holds l ∧ q'.cap.toNat = newCap.toNat := by
  have hnew : (BoundedQueue.construct newCap .ownsStorage : BoundedQueue (Sample T)).Holds [] := .construct hpos hle
  have hcap : (BoundedQueue.construct newCap .ownsStorage : BoundedQueue (Sample T)).cap.toNat = newCap.toNat := by
    show (newCap.setWidth 32).toNat = newCap.toNat
    rw [BitVec.toNat_setWidth, Nat.mod_eq_of_lt (by omega)]
  rcases h with ⟨rfl, rfl⟩ | h
  · exact ⟨_, rfl, hnew, hcap⟩
  · obtain ⟨q', newQ', hmove, hq', hnew', hcap'⟩ := moveLoop_eq (n := q.count.toNat + 1) h hnew
      (by rw [List.length_nil, Nat.zero_add, hcap]; exact hlen) (by rw [h.count_eq]; exact Nat.lt_succ_self _)
    obtain ⟨q'', hclear, -⟩ := hq'.clear
    refine ⟨newQ', ?_, hnew', by rw [hcap', hcap]⟩
    rw [grow, hmove, Option.bind_eq_bind, Option.bind_some]
    dsimp only [BoundedQueue.swap]
    rw [hclear]
    rfl

theorem Ready.needed_toNat (h : s.Ready l) : s.needed.toNat = s.windowSize.toNat + 1 := by
  have hpos := h.window_pos
  have hle := h.window_le
  unfold maxSecondsLimit at hle
  have hw : (BitVec.ofInt 64 s.windowSize).toNat = s.windowSize.toNat := by
    rw [BitVec.toNat_ofInt]
    omega
  rw [needed, BitVec.toNat_add, hw]
  exact Nat.mod_eq_of_lt (by simp; omega)

/-- **A queue grows that has no room for the window and one sample before it.** -/
theorem Ready.grows_iff (h : s.Ready l) : s.grows = true ↔ s.q.cap.toNat < s.windowSize.toNat + 1 := by
  rw [grows, decide_eq_true_iff, gt_iff_lt, BitVec.lt_def, h.needed_toNat, BoundedQueue.capacity_toNat]

theorem Ready.newCap_toNat (h : s.Ready l) : s.newCap.toNat = max (2 * s.q.cap.toNat) (s.windowSize.toNat + 1) := by
  have hc := h.cap_le
  have htwice : (s.q.capacity * 2).toNat = 2 * s.q.cap.toNat := by
    rw [BitVec.toNat_mul, BoundedQueue.capacity_toNat, Nat.mul_comm]
    exact Nat.mod_eq_of_lt (by simp; omega)
  have hn := h.needed_toNat
  unfold newCap
  dsimp only
  split
  · rename_i hlt
    rw [BitVec.lt_def, htwice, hn] at hlt
    rw [hn]
    omega
  · rename_i hlt
    rw [BitVec.lt_def, htwice, hn] at hlt
    rw [htwice]
    omega

theorem Ready.length_le (h : s.Ready l) : l.length ≤ s.q.cap.toNat := by
  rcases h.contents with ⟨-, rfl⟩ | h
  · exact Nat.zero_le _
  · exact h.cyclic.length_le

/-- The capacity after a sample is taken. -/
def capAfter (s : ReducerSampler T) : Nat :=
  if s.grows then max (2 * s.q.cap.toNat) (s.windowSize.toNat + 1) else s.q.cap.toNat

/-- It is decided by the capacity and the window. -/
theorem capAfter_congr {s' : ReducerSampler A} (hw : s.windowSize = s'.windowSize) (hc : s.q.cap = s'.q.cap) :
    s.capAfter = s'.capAfter := by
  have hg : s.grows = s'.grows := by
    rw [grows, grows, needed, needed, BoundedQueue.capacity, BoundedQueue.capacity, hw, hc]
  rw [capAfter, capAfter, hg, hw, hc]

theorem Ready.capAfter_bounds (h : s.Ready l) :
    s.windowSize.toNat + 1 ≤ s.capAfter ∧ s.capAfter ≤ 7200 ∧ s.q.cap.toNat ≤ s.capAfter ∧
      (s.grows = true → s.q.cap.toNat < s.capAfter) := by
  have hpos := h.window_pos
  have hle := h.window_le
  have hc := h.cap_le
  have hg := h.grows_iff
  unfold maxSecondsLimit at hle
  unfold capAfter
  by_cases hgr : s.grows = true
  · have hlt := hg.1 hgr
    rw [if_pos hgr]
    omega
  · have hlt := mt hg.2 hgr
    rw [if_neg hgr]
    refine ⟨by omega, hc, le_rfl, fun hgr' => absurd hgr' hgr⟩

/-- The queue `take_sample` pushes to. -/
theorem Ready.makeReady (h : s.Ready l) : ∃ q, s.makeReady = some q ∧ q.Holds l ∧ q.cap.toNat = s.capAfter := by
  unfold ReducerSampler.makeReady
  have hlen := h.length_le
  obtain ⟨hw, hc, hle, -⟩ := h.capAfter_bounds
  by_cases hgr : s.grows = true
  · have hcap : s.newCap.toNat = s.capAfter := by rw [h.newCap_toNat, capAfter, if_pos hgr]
    rw [if_pos hgr]
    obtain ⟨q, hq, hh, hqc⟩ := grow_eq h.contents (show l.length ≤ s.newCap.toNat by omega) (by omega) (by omega)
    exact ⟨q, hq, hh, hqc.trans hcap⟩
  · have hcap : s.q.cap.toNat = s.capAfter := by rw [capAfter, if_neg hgr]
    rw [if_neg hgr]
    refine ⟨s.q, rfl, ?_, hcap⟩
    rcases h.contents with ⟨hq, -⟩ | hh
    · rw [hq] at hcap
      have h0 : (BoundedQueue.construct0 : BoundedQueue (Sample T)).cap.toNat = 0 := rfl
      omega
    · exact hh

/-- Behind the samples held goes the latest; the oldest makes room in a full queue. -/
theorem elimPush_eq (h : q.Holds l) (x : Sample T) :
    ∃ q', q.elimPush x = some q' ∧ q'.Holds ((if l.length < q.cap.toNat then l else l.tail) ++ [x]) ∧
      q'.cap = q.cap := by
  by_cases hl : l.length < q.cap.toNat
  · rw [if_pos hl]
    exact h.elimPush_of_lt hl x
  · rw [if_neg hl]
    cases l with
    | nil => exact absurd h.cap_pos hl
    | cons y l => exact h.elimPush_of_full hl x

/-- **A sample is taken**, unless the queue has to grow and cannot. -/
theorem Ready.takeSample (c : SamplerOps T) (r : Reducer T) {malloc : Bool} (now : Int) (h : s.Ready l)
    (hok : (s.grows && !malloc) = false) :
    ∃ q', takeSample c s r malloc now = some ({ s with q := q' }, (latest c r now).2) ∧
      q'.cap.toNat = s.capAfter ∧
      q'.Holds ((if l.length < s.capAfter then l else l.tail) ++ [(latest c r now).1]) := by
  obtain ⟨q, hq, hh, hcap⟩ := h.makeReady
  obtain ⟨q', hq', hh', hcap'⟩ := elimPush_eq hh (latest c r now).1
  rw [hcap] at hh'
  refine ⟨q', ?_, by rw [hcap', hcap], hh'⟩
  rw [ReducerSampler.takeSample, if_neg (by rw [hok]; decide), hq, Option.bind_eq_bind, Option.bind_some]
  dsimp only
  rw [hq']
  rfl

theorem takeSample_failed (hgr : s.grows = true) : takeSample c s r false now = some (s, r) := by
  rw [takeSample, hgr]
  rfl

theorem Ready.after (h : s.Ready l) (hq : q.Holds m) (hcap : q.cap.toNat = s.capAfter) : Ready { s with q } m :=
  ⟨h.window_pos, h.window_le, by rw [hcap]; exact h.capAfter_bounds.2.1, .inr hq⟩

/-! ### The value of a window -/

/-- How many samples a window combines: at least the oldest one is left, for the time. -/
def windowLength (l : List (Sample T)) (w : Int) : Nat := min w.toNat (l.length - 1)

/-- **The samples a window combines**, the newest first. -/
def window (l : List (Sample T)) (w : Int) : List (Sample T) := l.reverse.take (windowLength l w)

/-- The combination of the data of samples, from the first one on. -/
def foldData (op : T → T → T) : List (Sample T) → Option T
  | []      => none
  | x :: xs => some (xs.foldl (fun a y => op a y.data) x.data)

/-- The address of a sample, counted from the newest. -/
def fromNewest (q : BoundedQueue (Sample T)) (l : List (Sample T)) (i : Nat) :
    Option Nat := some (q.slot (l.length - 1 - i))

theorem deref_fromNewest {i : Nat} (h : q.Holds l) (hi : i < l.length) :
    deref q (fromNewest q l i) = l.reverse[i]? := by
  rw [fromNewest, deref, h.read_slot (by omega), List.getElem?_eq_getElem (by rwa [List.length_reverse]),
    List.getElem_reverse]

theorem bottomAt_fromNewest {i : U64} (h : q.Holds l) (hi : i.toNat < l.length) :
    q.bottomAt i = some (fromNewest q l i.toNat) := h.bottomAt_of_lt hi

/-- **Different samples have different addresses.** -/
theorem fromNewest_inj {i j : Nat} (h : q.Holds l) (hi : i < l.length) (hj : j < l.length) :
    fromNewest q l i = fromNewest q l j ↔ i = j := by
  rw [fromNewest, fromNewest, Option.some.injEq, h.slot_inj (by omega) (by omega)]
  omega

theorem bottom_fromNewest (h : q.Holds l) (hl : 2 ≤ l.length) : q.bottom = some (fromNewest q l 0) := by
  rcases List.eq_nil_or_concat l with rfl | ⟨l, x, rfl⟩
  · exact absurd hl (by simp)
  · rw [List.concat_eq_append] at h ⊢
    rw [h.bottom_append, fromNewest]
    simp

theorem top_fromNewest (h : q.Holds l) (hl : 2 ≤ l.length) : q.top = fromNewest q l (l.length - 1) := by
  cases l with
  | nil => exact absurd hl (by simp)
  | cons x l =>
    rw [h.top_cons, fromNewest, Nat.sub_self]

/-- **The sample before the window**: the oldest one if the window is larger than the history. -/
theorem oldest_eq {w : Int} (h : q.Holds l) (hl : 2 ≤ l.length) (hw : 1 ≤ w) (hw' : w < 2 ^ 63) :
    oldest q w = some (fromNewest q l (windowLength l w)) := by
  have hwn : (BitVec.ofInt 64 w).toNat = w.toNat := by
    rw [BitVec.toNat_ofInt]
    omega
  unfold oldest windowLength
  by_cases hlt : w.toNat < l.length
  · have hb := bottomAt_fromNewest (i := BitVec.ofInt 64 w) h (by rw [hwn]; exact hlt)
    rw [hb, hwn, min_eq_left (by omega)]
    rfl
  · rw [h.bottomAt_of_le (by rw [hwn]; omega), min_eq_right (by omega), ← top_fromNewest h hl]
    rfl

/-- **The loop ends at the sample before the window**, and has gone through those from `i` on. -/
theorem windowLoop_eq {f : A → T → A} {k : Nat} (h : q.Holds l) (hk : k < l.length) (hlen : l.length < 2 ^ 32) :
    ∀ {n : Nat} {i : U64} {a : A}, i.toNat ≤ k → k < n + i.toNat →
      windowLoop f q (fromNewest q l k) n i a =
        some (((l.reverse.drop i.toNat).take (k - i.toNat)).foldl (fun a x => f a x.data) a)
  | 0, i, a, hi, hn => absurd hn (by omega)
  | n + 1, i, a, hi, hn => by
    have hil : i.toNat < l.length := lt_of_le_of_lt hi hk
    rw [windowLoop, bottomAt_fromNewest h hil, Option.bind_eq_bind, Option.bind_some]
    by_cases heq : i.toNat = k
    · rw [if_pos ((fromNewest_inj h hil hk).2 heq), heq, Nat.sub_self, List.take_zero]
      rfl
    · have hsucc : (i + 1).toNat = i.toNat + 1 := by
        rw [BitVec.toNat_add]
        exact Nat.mod_eq_of_lt (by simp; omega)
      rw [if_neg (fun he => heq ((fromNewest_inj h hil hk).1 he)), deref_fromNewest h hil,
        List.getElem?_eq_getElem (by rwa [List.length_reverse]), Option.bind_eq_bind,
        Option.bind_some, windowLoop_eq h hk hlen (by omega) (by omega), hsucc,
        List.drop_eq_getElem_cons (i := i.toNat) (by rwa [List.length_reverse]),
        show k - i.toNat = k - (i.toNat + 1) + 1 by omega,
        List.take_succ_cons, List.foldl_cons]

theorem getValue_of_short {w : Int} (h : Contents s.q l) (hl : l.length < 2) : getValue c s w = some none := by
  have hsize : s.q.size ≤ 1 := by
    rcases h with ⟨hq, -⟩ | h
    · rw [hq]
      exact (by decide : (0 : U64) ≤ 1)
    · rw [BitVec.le_def, h.size_eq]
      exact Nat.le_of_lt_succ hl
  rw [getValue, if_pos hsize]
  exact ite_self _

theorem Contents.holds (h : Contents q l) (hl : 2 ≤ l.length) : q.Holds l := by
  rcases h with ⟨-, rfl⟩ | h
  · exact absurd hl (by simp)
  · exact h

theorem length_lt (h : q.Holds l) : l.length < 2 ^ 32 :=
  lt_of_le_of_lt (h.cyclic.length_le.trans h.cap_le) (by decide)

theorem windowLength_bounds {w : Int} (hl : 2 ≤ l.length) (hw : 1 ≤ w) :
    1 ≤ windowLength l w ∧ windowLength l w < l.length := by
  unfold windowLength
  omega

/-- **`get_value`**, from the newest sample and the one before the window. -/
theorem getValue_eq {w : Int} {x o : Sample T} (h : Contents s.q l) (hl : 2 ≤ l.length) (hw : 1 ≤ w) (hw' : w < 2 ^ 63)
    (hx : l.reverse[0]? = some x) (ho : l.reverse[windowLength l w]? = some o) :
    getValue c s w =
      (windowData c s.q (fromNewest s.q l (windowLength l w)) x).map (fun d => some ⟨d, x.timeUs - o.timeUs⟩) := by
  have hh := h.holds hl
  obtain ⟨-, hk⟩ := windowLength_bounds hl hw
  have hsize : ¬ s.q.size ≤ 1 := by
    rw [BitVec.le_def, hh.size_eq]
    exact not_le.2 hl
  have hx' : deref s.q (fromNewest s.q l 0) = some x := by
    rw [deref_fromNewest hh (by omega), hx]
  have ho' : deref s.q (fromNewest s.q l (windowLength l w)) = some o := by
    rw [deref_fromNewest hh hk, ho]
  rw [getValue, if_neg (by omega), if_neg hsize, oldest_eq hh hl hw hw', Option.bind_eq_bind, Option.bind_some,
    bottom_fromNewest hh hl, Option.bind_eq_bind, Option.bind_some, hx', Option.bind_eq_bind, Option.bind_some, ho']
  cases windowData c s.q (fromNewest s.q l (windowLength l w)) x <;> rfl

theorem windowData_none {w : Int} {x : Sample T} (hc : c.invOp = none) (h : q.Holds l) (hl : 2 ≤ l.length) (hw : 1 ≤ w)
    (hx : l.reverse[0]? = some x) :
    windowData c q (fromNewest q l (windowLength l w)) x = foldData c.op (window l w) := by
  obtain ⟨hpos, hk⟩ := windowLength_bounds hl hw
  have hone : (1 : U64).toNat = 1 := rfl
  have hcons : l.reverse = x :: l.reverse.drop 1 := by
    have h0 := List.drop_eq_getElem_cons (l := l.reverse) (i := 0) (by rw [List.length_reverse]; omega)
    rw [List.getElem?_eq_getElem (by rw [List.length_reverse]; omega), Option.some.injEq] at hx
    rw [← hx]
    exact h0
  rw [windowData, hc]
  dsimp only
  rw [windowLoop_eq h hk (length_lt h) (by rw [hone]; exact hpos) (by rw [h.count_eq, hone]; omega), hone, window]
  conv_rhs => rw [hcons, show windowLength l w = windowLength l w - 1 + 1 by omega, List.take_succ_cons]
  rfl

/-- With an inverse it is the newest sample's minus the one's before the window. -/
theorem windowData_some {w : Int} {x o : Sample T} {invOp : T → T → T} (hc : c.invOp = some invOp) (h : q.Holds l)
    (hl : 2 ≤ l.length) (hw : 1 ≤ w) (ho : l.reverse[windowLength l w]? = some o) :
    windowData c q (fromNewest q l (windowLength l w)) x = some (invOp x.data o.data) := by
  obtain ⟨-, hk⟩ := windowLength_bounds hl hw
  have ho' : deref q (fromNewest q l (windowLength l w)) = some o := by
    rw [deref_fromNewest h hk, ho]
  rw [windowData, hc]
  dsimp only
  rw [ho', Option.map_some]

/-- **`get_samples` starts behind the newest sample.** -/
theorem getSamples_eq {w : Int} (samples : List T) (h : Contents s.q l) (hl : 2 ≤ l.length) (hw : 1 ≤ w)
    (hw' : w < 2 ^ 63) : getSamples s samples w = some (samples ++ (window l w).tail.map Sample.data) := by
  have hh := h.holds hl
  obtain ⟨hpos, hk⟩ := windowLength_bounds hl hw
  have hsize : ¬ s.q.size ≤ 1 := by
    rw [BitVec.le_def, hh.size_eq]
    exact not_le.2 hl
  have hone : (1 : U64).toNat = 1 := rfl
  have htail : (window l w).tail = (l.reverse.drop 1).take (windowLength l w - 1) := by
    rw [window, ← List.drop_one, List.drop_take]
  have hfold : ∀ (xs : List (Sample T)) (a : List T),
      xs.foldl (fun a x => a ++ [x.data]) a = a ++ xs.map Sample.data := by
    intro xs
    induction xs with
    | nil => intro a; simp
    | cons y xs ih => intro a; rw [List.foldl_cons, ih]; simp
  rw [getSamples, if_neg (by omega), if_neg hsize, oldest_eq hh hl hw hw', Option.bind_eq_bind, Option.bind_some,
    windowLoop_eq hh hk (length_lt hh) (by rw [hone]; exact hpos) (by rw [hh.count_eq, hone]; omega), hone, hfold,
    htail]

/-- The sampler with the data of its samples replaced by their images. -/
def map (f : T → A) (s : ReducerSampler T) : ReducerSampler A :=
  { windowSize := s.windowSize, q := s.q.map (fun x => ⟨f x.data, x.timeUs⟩) }

/-- **What `get_value` combines**, as it appears to an operator that lists its arguments. -/
def combined (s : ReducerSampler T) (windowSize : Int) : Option (Option (Sample (List T))) :=
  getValue ⟨fun a b => a ++ b, [], none⟩ (s.map (fun d => [d])) windowSize

theorem window_map {f : Sample T → Sample A} {w : Int} : window (l.map f) w = (window l w).map f := by
  rw [window, window, windowLength, windowLength, List.length_map, List.map_take, List.map_reverse]

theorem foldData_singletons : ∀ (xs : List (Sample T)) (a : List T),
    (xs.map (fun x => (⟨[x.data], x.timeUs⟩ : Sample (List T)))).foldl (fun a y => a ++ y.data) a =
      a ++ xs.map Sample.data
  | [], a      => by simp
  | x :: xs, a => by
    rw [List.map_cons, List.foldl_cons, foldData_singletons]
    simp

/-- **They are the samples of the window.** -/
theorem combined_eq {w : Int} (h : Contents s.q l) (hl : 2 ≤ l.length) (hw : 1 ≤ w) (hw' : w < 2 ^ 63) :
    ∃ t, combined s w = some (some ⟨(window l w).map Sample.data, t⟩) := by
  have hh := h.holds hl
  have hm : Contents (s.map (fun d => [d])).q (l.map (fun x => (⟨[x.data], x.timeUs⟩ : Sample (List T)))) :=
    .inr (hh.map _)
  have hl' : 2 ≤ (l.map (fun x => (⟨[x.data], x.timeUs⟩ : Sample (List T)))).length := by rwa [List.length_map]
  obtain ⟨hpos, hk⟩ := windowLength_bounds hl' hw
  obtain ⟨x, hx⟩ : ∃ x, (l.map (fun x => (⟨[x.data], x.timeUs⟩ : Sample (List T)))).reverse[0]? = some x :=
    ⟨_, List.getElem?_eq_getElem (by rw [List.length_reverse]; omega)⟩
  obtain ⟨o, ho⟩ := (⟨_, List.getElem?_eq_getElem (by rwa [List.length_reverse])⟩ : ∃ o,
    (l.map (fun x => (⟨[x.data], x.timeUs⟩ : Sample (List T)))).reverse[windowLength _ w]? = some o)
  refine ⟨x.timeUs - o.timeUs, ?_⟩
  rw [combined, getValue_eq hm hl' hw hw' hx ho, windowData_none rfl (hm.holds hl') hl' hw hx, window_map]
  have hne : (window l w).length ≠ 0 := by
    rw [window, List.length_take, List.length_reverse]
    have hb := windowLength_bounds hl hw
    omega
  cases hwin : window l w with
  | nil => exact absurd (by rw [hwin]; rfl) hne
  | cons y ys =>
    rw [List.map_cons, foldData, foldData_singletons]
    rfl

end ReducerSampler
end ContentionProf
