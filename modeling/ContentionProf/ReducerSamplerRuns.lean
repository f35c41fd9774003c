import ContentionProf.ReducerSampler
import ContentionProf.Run
/-!
# ReducerSamplerRuns — runs of a sampler and its reducer

Values are added, threads exit, the window is set and samples are taken, in any order; an allocation fails or not.  The
constructor of the sampler is the first `take`.
-/
namespace ContentionProf
namespace ReducerSampler

structure State (T : Type) where
  reducer : Reducer T
  sampler : ReducerSampler T
  /-- Every sample taken, with the values added since the one before it (ghost). -/
  taken : List (Sample T × Multiset T)
  /-- The values added since the last of them (ghost). -/
  pending : Multiset T

inductive Move (T : Type)
  | add (t : Thread) (value : T)
  | exit (t : Thread)
  | setWindow (windowSize : Int)
  | take (malloc : Bool) (now : Int)

variable {T : Type}

/-- The move's own allocation succeeds. -/
def Move.Allocates : Move T → Prop
  | .take malloc _ => malloc = true
  | _              => True

/-- The values that are added. -/
def Move.values : List (Move T) → Multiset T
  | []                 => 0
  | .add _ value :: as => value ::ₘ values as
  | _ :: as            => values as

def step (c : SamplerOps T) (s : State T) : Move T → Option (State T)
  | .add t value      =>
    some { s with reducer := s.reducer.add c.op c.identity t value, pending := value ::ₘ s.pending }
  | .exit t           => some { s with reducer := s.reducer.exit c.op t }
  | .setWindow w      => some { s with sampler := (s.sampler.setWindowSize w).1 }
  | .take malloc now  => (takeSample c s.sampler s.reducer malloc now).map (fun r =>
    if s.sampler.grows && !malloc then { s with sampler := r.1, reducer := r.2 }
    else { s with
      sampler := r.1
      reducer := r.2
      taken := s.taken ++ [((latest c s.reducer now).1, s.pending)]
      pending := 0 })

def start (c : SamplerOps T) : State T :=
  { reducer := .construct c.identity, sampler := .construct, taken := [], pending := 0 }

def runs (c : SamplerOps T) : System (State T) (Move T) where
  init s := s = start c
  step := step c

variable {op : T → T → T} {e : T} {s s' : State T} {l : List (Sample T)}

/-- **What holds between two moves** of a sampler without inverse. -/
structure Inv (op : T → T → T) (e : T) (s : State T) : Prop where
  held : ∃ l, s.sampler.Ready l ∧ l <:+ s.taken.map Prod.fst
  reducer : s.reducer.Has op e s.pending
  taken : ∀ p ∈ s.taken, Combines op e p.2 p.1.data

theorem inv_start : Inv op e (start ⟨op, e, none⟩) :=
  ⟨⟨[], construct_ready, List.suffix_rfl⟩, Reducer.has_construct, fun _ hp => absurd hp List.not_mem_nil⟩

/-- The reducer is reset by a sample. -/
theorem latest_none (now : Int) {r : Reducer T} {m : Multiset T} (h : r.Has op e m) :
    Combines op e m (latest ⟨op, e, none⟩ r now).1.data ∧ (latest ⟨op, e, none⟩ r now).1.timeUs = now ∧
      (latest ⟨op, e, none⟩ r now).2.Has op e 0 :=
  ⟨h.resetAllAgents.1, rfl, h.resetAllAgents.2⟩

/-- **A `take_sample` that cannot allocate changes nothing.** -/
theorem step_take_failed {c : SamplerOps T} {now : Int} (hg : s.sampler.grows = true) :
    step c s (.take false now) = some s := by
  rw [step, takeSample_failed hg, Option.map_some, hg]
  rfl

/-- **Any other takes one sample.** -/
theorem step_take (c : SamplerOps T) {malloc : Bool} (now : Int) (h : s.sampler.Ready l)
    (hok : (s.sampler.grows && !malloc) = false) :
    ∃ q', step c s (.take malloc now) = some { s with
        sampler := { s.sampler with q := q' }
        reducer := (latest c s.reducer now).2
        taken := s.taken ++ [((latest c s.reducer now).1, s.pending)]
        pending := 0 } ∧
      q'.cap.toNat = s.sampler.capAfter ∧
      q'.Holds ((if l.length < s.sampler.capAfter then l else l.tail) ++ [(latest c s.reducer now).1]) := by
  obtain ⟨q', hq', hcap, hh⟩ := h.takeSample c s.reducer now hok
  refine ⟨q', ?_, hcap, hh⟩
  rw [step, hq', Option.map_some, hok]
  rfl

theorem suffix_keep {m : List (Sample T)} {p : Prop} [Decidable p] (h : l <:+ m) (x : Sample T) :
    (if p then l else l.tail) ++ [x] <:+ m ++ [x] := by
  have hsuf : (if p then l else l.tail) <:+ m := by
    split
    · exact h
    · exact (List.tail_suffix l).trans h
  obtain ⟨pre, rfl⟩ := hsuf
  exact ⟨pre, by rw [List.append_assoc]⟩

/-- **Every move is possible and keeps the invariant.** -/
theorem Inv.step (h : Inv op e s) (a : Move T) : ∃ s', step ⟨op, e, none⟩ s a = some s' ∧ Inv op e s' := by
  obtain ⟨l, hl, hsuf⟩ := h.held
  cases a with
  | add t value => exact ⟨_, rfl, ⟨l, hl, hsuf⟩, h.reducer.add, h.taken⟩
  | exit t => exact ⟨_, rfl, ⟨l, hl, hsuf⟩, h.reducer.exit, h.taken⟩
  | setWindow w => exact ⟨_, rfl, ⟨l, hl.setWindowSize w, hsuf⟩, h.reducer, h.taken⟩
  | take malloc now =>
    cases hok : s.sampler.grows && !malloc with
    | true =>
      rw [Bool.and_eq_true, Bool.not_eq_true'] at hok
      obtain ⟨hg, rfl⟩ := hok
      exact ⟨s, step_take_failed hg, h⟩
    | false =>
      obtain ⟨q', hstep, hcap, hq'⟩ := step_take ⟨op, e, none⟩ now hl hok
      obtain ⟨hdata, -, hreset⟩ := latest_none now h.reducer
      refine ⟨_, hstep, ⟨_, hl.after hq' hcap, ?_⟩, hreset, fun p hp => ?_⟩
      · simp only [List.map_append, List.map_cons, List.map_nil]
        exact suffix_keep hsuf _
      · rcases List.mem_append.1 hp with hp | hp
        · exact h.taken p hp
        · obtain rfl := List.mem_singleton.1 hp
          exact hdata

/-- Every value added is in one of the samples taken, or pending. -/
def State.values (s : State T) : Multiset T := (s.taken.map Prod.snd).sum + s.pending

theorem step_values {c : SamplerOps T} {a : Move T} (hs : step c s a = some s') :
    s'.values = s.values + Move.values [a] := by
  cases a with
  | add t value =>
    cases hs
    simp only [State.values, Move.values, Multiset.add_cons, Multiset.add_zero]
  | exit t =>
    cases hs
    simp [State.values, Move.values]
  | setWindow w =>
    cases hs
    simp [State.values, Move.values]
  | take malloc now =>
    obtain ⟨r, -, rfl⟩ := Option.map_eq_some_iff.1 hs
    split <;> simp [State.values, Move.values]

theorem run_values {c : SamplerOps T} : ∀ {as : List (Move T)} {s : State T}, (runs c).run s as = some s' →
    s'.values = s.values + Move.values as
  | [], s, hr      => by
    cases hr
    simp [Move.values]
  | a :: as, s, hr => by
    rw [System.run_cons] at hr
    obtain ⟨s₁, hs, hr⟩ := Option.bind_eq_some_iff.1 hr
    have hcons : Move.values (a :: as) = Move.values [a] + Move.values as := by
      cases a <;> simp [Move.values]
    rw [run_values hr, step_values (show ReducerSampler.step c s a = some s₁ from hs), hcons, add_assoc]

/-- **The samples and the windows of an operator without inverse.**  Every run goes through; the queue holds the last of
the samples taken; each sample combines what was added since the one before; the next `take_sample` takes what is
pending, unless it cannot allocate and changes nothing; a window combines its samples, the newest first. -/
theorem samples_kept (op : T → T → T) (e : T) (moves : List (Move T)) :
    ∃ s l, (runs ⟨op, e, none⟩).run (start ⟨op, e, none⟩) moves = some s ∧
      Contents s.sampler.q l ∧ l <:+ s.taken.map Prod.fst ∧ (∀ p ∈ s.taken, Combines op e p.2 p.1.data) ∧
      (s.taken.map Prod.snd).sum + s.pending = Move.values moves ∧
      (∀ malloc now, ∃ s', step ⟨op, e, none⟩ s (.take malloc now) = some s' ∧
        if s.sampler.grows && !malloc then s' = s
        else ∃ x l', x.timeUs = now ∧ Combines op e s.pending x.data ∧ s'.taken = s.taken ++ [(x, s.pending)] ∧
          s'.pending = 0 ∧ Contents s'.sampler.q l' ∧
          l' = (if l.length < s'.sampler.q.cap.toNat then l else l.tail) ++ [x] ∧
          l'.length = min (l.length + 1) s'.sampler.q.cap.toNat ∧
          s'.sampler.windowSize + 1 ≤ s'.sampler.q.cap.toNat ∧
          (s.sampler.grows = true → l' = l ++ [x])) ∧
      ∀ w, 1 ≤ w → w < 2 ^ 63 →
        if l.length < 2 then getValue ⟨op, e, none⟩ s.sampler w = some none
        else ∃ newest oldest data, l.reverse[0]? = some newest ∧
          l.reverse[min w.toNat (l.length - 1)]? = some oldest ∧
          foldData op (l.reverse.take (min w.toNat (l.length - 1))) = some data ∧
          getValue ⟨op, e, none⟩ s.sampler w = some (some ⟨data, newest.timeUs - oldest.timeUs⟩) := by
  obtain ⟨s, hrun, h⟩ := System.run_total (S := runs ⟨op, e, none⟩) (I := Inv op e)
    (fun s a h => h.step a) moves inv_start
  obtain ⟨l, hl, hsuf⟩ := h.held
  have hvalues := run_values hrun
  refine ⟨s, l, hrun, hl.contents, hsuf, h.taken, ?_, fun malloc now => ?_, fun w hw hw' => ?_⟩
  · rw [← State.values, hvalues]
    simp [start, State.values]
  · by_cases hok : (s.sampler.grows && !malloc) = true
    · obtain ⟨hg, hm⟩ := Bool.and_eq_true_iff.1 hok
      rw [Bool.not_eq_true'] at hm
      subst hm
      refine ⟨s, step_take_failed hg, ?_⟩
      rw [if_pos hok]
    · obtain ⟨q', hstep, hcap, hq'⟩ := step_take ⟨op, e, none⟩ now hl (Bool.not_eq_true _ ▸ hok)
      obtain ⟨hdata, htime, -⟩ := latest_none now h.reducer
      obtain ⟨hwin, -, hle, hgrow⟩ := hl.capAfter_bounds
      have hlen := hl.length_le
      have hpos := hl.window_pos
      refine ⟨_, hstep, ?_⟩
      rw [if_neg hok]
      refine ⟨_, _, htime, hdata, rfl, rfl, .inr hq', by rw [hcap], ?_, ?_, fun hg => ?_⟩
      · rw [hcap, List.length_append, List.length_singleton]
        split
        · omega
        · rw [List.length_tail]
          omega
      · rw [hcap]
        show s.sampler.windowSize + 1 ≤ _
        omega
      · rw [if_pos (by have := hgrow hg; omega)]
  · by_cases hlen : l.length < 2
    · rw [if_pos hlen]
      exact getValue_of_short hl.contents hlen
    · have hl2 : 2 ≤ l.length := not_lt.1 hlen
      obtain ⟨hpos, hk⟩ := windowLength_bounds hl2 hw
      obtain ⟨newest, hx⟩ : ∃ x, l.reverse[0]? = some x :=
        ⟨_, List.getElem?_eq_getElem (by rw [List.length_reverse]; omega)⟩
      obtain ⟨oldest, ho⟩ : ∃ x, l.reverse[windowLength l w]? = some x :=
        ⟨_, List.getElem?_eq_getElem (by rwa [List.length_reverse])⟩
      have hdata := windowData_none (c := ⟨op, e, none⟩) rfl (hl.contents.holds hl2) hl2 hw hx
      obtain ⟨data, hd⟩ : ∃ d, foldData op (window l w) = some d := by
        cases hwin : window l w with
        | nil =>
          have h0 : (window l w).length = 0 := by rw [hwin]; rfl
          rw [window, List.length_take, List.length_reverse] at h0
          omega
        | cons x xs => exact ⟨_, rfl⟩
      rw [if_neg hlen]
      refine ⟨newest, oldest, data, hx, ho, hd, ?_⟩
      rw [getValue_eq hl.contents hl2 hw hw' hx ho, hdata, hd, Option.map_some]

/-- **`get_samples` never appends what `get_value` combines**: the newest sample is missing. -/
theorem getSamples_ne (op : T → T → T) (e : T) (moves : List (Move T)) (s : State T)
    (hrun : (runs ⟨op, e, none⟩).run (start ⟨op, e, none⟩) moves = some s) (w : Int) (hw : 1 ≤ w) (hw' : w < 2 ^ 63)
    (r : Sample T) (hr : getValue ⟨op, e, none⟩ s.sampler w = some (some r)) (samples : List T) :
    ∃ newest older t, combined s.sampler w = some (some ⟨newest :: older, t⟩) ∧ older.foldl op newest = r.data ∧
      getSamples s.sampler samples w = some (samples ++ older) ∧
      getSamples s.sampler samples w ≠ some (samples ++ newest :: older) := by
  obtain ⟨s', hrun', h⟩ := System.run_total (S := runs ⟨op, e, none⟩) (I := Inv op e) (fun s a h => h.step a) moves
    inv_start
  obtain rfl : s = s' := Option.some.inj (hrun.symm.trans hrun')
  obtain ⟨l, hl, -⟩ := h.held
  have hl2 : 2 ≤ l.length := by
    by_contra hlen
    rw [getValue_of_short hl.contents (not_le.1 hlen)] at hr
    cases hr
  have hh := hl.contents.holds hl2
  obtain ⟨hpos, hk⟩ := windowLength_bounds hl2 hw
  obtain ⟨x, hx⟩ : ∃ x, l.reverse[0]? = some x :=
    ⟨_, List.getElem?_eq_getElem (by rw [List.length_reverse]; omega)⟩
  obtain ⟨o, ho⟩ : ∃ o, l.reverse[windowLength l w]? = some o :=
    ⟨_, List.getElem?_eq_getElem (by rwa [List.length_reverse])⟩
  rw [getValue_eq hl.contents hl2 hw hw' hx ho, windowData_none rfl hh hl2 hw hx] at hr
  obtain ⟨t, ht⟩ := combined_eq hl.contents hl2 hw hw'
  have hsamples := getSamples_eq samples hl.contents hl2 hw hw'
  cases hwin : window l w with
  | nil =>
    rw [hwin] at hr
    cases hr
  | cons y ys =>
    rw [hwin] at hr ht hsamples
    refine ⟨y.data, ys.map Sample.data, t, ht, ?_, hsamples, fun he => ?_⟩
    · simp only [foldData, Option.map_some, Option.some.injEq] at hr
      rw [← hr, List.foldl_map]
    · rw [hsamples, Option.some.injEq, List.append_cancel_left_eq] at he
      exact absurd (congrArg List.length he) (by simp)

/-- A sample before and one behind a value of 5. -/
def twoSamples : List (Move Int) := [.take true 0, .add 0 5, .take true 1000000]

theorem getSamples_ne_twoSamples : ∃ s, (runs ⟨(· + ·), 0, none⟩).run (start ⟨(· + ·), 0, none⟩) twoSamples = some s ∧
    ∃ newest older t, combined s.sampler 1 = some (some ⟨newest :: older, t⟩) ∧ older.foldl (· + ·) newest = (5 : Int) ∧
      getSamples s.sampler [] 1 = some ([] ++ older) ∧ getSamples s.sampler [] 1 ≠ some ([] ++ newest :: older) :=
  ⟨_, rfl, getSamples_ne (· + ·) 0 twoSamples _ rfl 1 (by decide) (by decide) ⟨5, 1000000⟩ (by decide) []⟩

/-- **The window's value is 5, and `get_samples` appends nothing.** -/
theorem twoSamples_empty : ∃ s, (runs ⟨(· + ·), 0, none⟩).run (start ⟨(· + ·), 0, none⟩) twoSamples = some s ∧
    getValue ⟨(· + ·), 0, none⟩ s.sampler 1 = some (some ⟨5, 1000000⟩) ∧
    combined s.sampler 1 = some (some ⟨[5], 1000000⟩) ∧ getSamples s.sampler [] 1 = some [] :=
  ⟨_, rfl, by decide, by decide, by decide⟩

end ReducerSampler
end ContentionProf
