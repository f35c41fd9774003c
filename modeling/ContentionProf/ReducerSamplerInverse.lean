import Mathlib.Tactic.Abel
import ContentionProf.ReducerSamplerRuns
/-!
# ReducerSamplerInverse — the samplers with and without inverse agree

Over a commutative group: the samples of one are increments, those of the other totals, and the difference of two totals
is the sum of the increments between them.
-/
namespace ContentionProf
namespace ReducerSampler

variable {T : Type} [AddCommGroup T]

/-- The sampler that resets the reducer. -/
def adding : SamplerOps T := ⟨fun a b => a + b, 0, none⟩

/-- The sampler that takes snapshots. -/
def inverting : SamplerOps T := ⟨fun a b => a + b, 0, some (fun a b => a - b)⟩

/-- **Increments and totals**, the newest first, taken at the same times. -/
def Telescopes : List (Sample T) → List (Sample T) → Prop
  | [], []         => True
  | x :: l, y :: m => x.timeUs = y.timeUs ∧ (∀ z ∈ m.head?, y.data = z.data + x.data) ∧ Telescopes l m
  | [], _ :: _     => False
  | _ :: _, []     => False

theorem Telescopes.length_eq : ∀ {l m : List (Sample T)}, Telescopes l m → l.length = m.length
  | [], [], _         => rfl
  | _ :: _, _ :: _, h => by rw [List.length_cons, List.length_cons, h.2.2.length_eq]

theorem Telescopes.dropLast : ∀ {l m : List (Sample T)}, Telescopes l m → Telescopes l.dropLast m.dropLast
  | [], [], _                      => trivial
  | [_], [_], _                    => trivial
  | x :: x' :: l, y :: y' :: m, h => by
    refine ⟨h.1, fun z hz => ?_, h.2.2.dropLast⟩
    cases m with
    | nil => cases hz
    | cons w m => exact h.2.1 z hz

/-- **The difference of two totals is the sum of the increments between them.** -/
theorem Telescopes.sub_eq : ∀ {l m : List (Sample T)} {y o : Sample T} {k : Nat}, Telescopes l m → m.head? = some y →
    m[k]? = some o → y.data - o.data = ((l.take k).map Sample.data).sum
  | _, y :: m, _, o, 0, _, hy, ho => by
    cases hy
    cases ho
    simp
  | x :: l, y :: m, _, o, k + 1, h, hy, ho => by
    cases hy
    rw [List.getElem?_cons_succ] at ho
    obtain ⟨z, hz⟩ : ∃ z, m.head? = some z := by
      cases m with
      | nil => cases ho
      | cons z m => exact ⟨z, rfl⟩
    have hsum := h.2.2.sub_eq hz ho
    rw [List.take_succ_cons, List.map_cons, List.sum_cons, ← hsum, h.2.1 z hz]
    abel

theorem Telescopes.time_eq : ∀ {l m : List (Sample T)} {x y : Sample T} {k : Nat}, Telescopes l m → l[k]? = some x →
    m[k]? = some y → x.timeUs = y.timeUs
  | x :: l, y :: m, _, _, 0, h, hx, hy => by
    cases hx
    cases hy
    exact h.1
  | x :: l, y :: m, _, _, k + 1, h, hx, hy => h.2.2.time_eq (k := k) hx hy

/-- The total so far. -/
def total (m : List (Sample T)) : T := (m.head?.map Sample.data).getD 0

/-- **The two samplers side by side.** -/
structure Agree (s₁ s₂ : State T) : Prop where
  window_eq : s₁.sampler.windowSize = s₂.sampler.windowSize
  cap_eq : s₁.sampler.q.cap = s₂.sampler.q.cap
  held : ∃ l m, s₁.sampler.Ready l ∧ s₂.sampler.Ready m ∧ Telescopes l.reverse m.reverse ∧
    ∃ v w, s₁.reducer.Has (fun a b => a + b) 0 v ∧ s₂.reducer.Has (fun a b => a + b) 0 w ∧
      w.sum = total m.reverse + v.sum

theorem agree_start : Agree (start adding : State T) (start inverting) :=
  ⟨rfl, rfl, [], [], construct_ready, construct_ready, trivial, 0, 0, Reducer.has_construct, Reducer.has_construct,
    by simp [total]⟩

theorem foldData_eq_sum : ∀ {l : List (Sample T)}, l ≠ [] →
    foldData (fun a b => a + b) l = some (l.map Sample.data).sum
  | x :: l, _ => by
    have hfold : ∀ (l : List (Sample T)) (a : T), l.foldl (fun a y => a + y.data) a = a + (l.map Sample.data).sum := by
      intro l
      induction l with
      | nil => intro a; simp
      | cons y l ih => intro a; rw [List.foldl_cons, ih, List.map_cons, List.sum_cons, add_assoc]
    rw [foldData, hfold, List.map_cons, List.sum_cons]

/-- **Both windows have the same value.** -/
theorem Agree.getValue_eq {s₁ s₂ : State T} (h : Agree s₁ s₂) {w : Int} (hw : 1 ≤ w) (hw' : w < 2 ^ 63) :
    ∃ v, getValue adding s₁.sampler w = some v ∧ getValue inverting s₂.sampler w = some v := by
  obtain ⟨-, -, l, m, hl, hm, ht, -⟩ := h
  have hlen : l.length = m.length := by simpa using ht.length_eq
  by_cases hlt : l.length < 2
  · exact ⟨none, getValue_of_short hl.contents hlt, getValue_of_short hm.contents (hlen ▸ hlt)⟩
  · have hl2 : 2 ≤ l.length := not_lt.1 hlt
    have hm2 : 2 ≤ m.length := hlen ▸ hl2
    have hwl : windowLength m w = windowLength l w := by rw [windowLength, windowLength, hlen]
    obtain ⟨hpos, hk⟩ := windowLength_bounds hl2 hw
    obtain ⟨x, hx⟩ : ∃ x, l.reverse[0]? = some x :=
      ⟨_, List.getElem?_eq_getElem (by rw [List.length_reverse]; omega)⟩
    obtain ⟨o, ho⟩ : ∃ o, l.reverse[windowLength l w]? = some o :=
      ⟨_, List.getElem?_eq_getElem (by rwa [List.length_reverse])⟩
    obtain ⟨y, hy⟩ : ∃ y, m.reverse[0]? = some y :=
      ⟨_, List.getElem?_eq_getElem (by rw [List.length_reverse]; omega)⟩
    obtain ⟨p, hp⟩ : ∃ p, m.reverse[windowLength m w]? = some p :=
      ⟨_, List.getElem?_eq_getElem (by rw [hwl, List.length_reverse, ← hlen]; exact hk)⟩
    have hne : window l w ≠ [] := by
      intro he
      have h0 : (window l w).length = 0 := by rw [he]; rfl
      rw [window, List.length_take, List.length_reverse] at h0
      omega
    have hsub : y.data - p.data = ((window l w).map Sample.data).sum := by
      rw [hwl] at hp
      rw [window]
      exact ht.sub_eq (by rw [← hy, List.head?_eq_getElem?]) hp
    refine ⟨some ⟨((window l w).map Sample.data).sum, x.timeUs - o.timeUs⟩, ?_, ?_⟩
    · rw [ReducerSampler.getValue_eq hl.contents hl2 hw hw' hx ho,
        windowData_none rfl (hl.contents.holds hl2) hl2 hw hx]
      show Option.map _ (foldData (fun a b => a + b) (window l w)) = _
      rw [foldData_eq_sum hne, Option.map_some]
    · rw [ReducerSampler.getValue_eq hm.contents hm2 hw hw' hy hp,
        windowData_some rfl (hm.contents.holds hm2) hm2 hw hp, Option.map_some, hsub, ht.time_eq hx hy,
        ht.time_eq ho (hwl ▸ hp)]

/-- **A move that both make keeps them side by side.** -/
theorem Agree.step {s₁ s₂ : State T} (h : Agree s₁ s₂) {a : Move T} (ha : a.Allocates) :
    ∃ s₁' s₂', step adding s₁ a = some s₁' ∧ step inverting s₂ a = some s₂' ∧ Agree s₁' s₂' := by
  obtain ⟨hwin, hcap, l, m, hl, hm, ht, v, w, hv, hw, hsum⟩ := h
  cases a with
  | add t value =>
    refine ⟨_, _, rfl, rfl, hwin, hcap, l, m, hl, hm, ht, _, _, hv.add, hw.add, ?_⟩
    rw [Multiset.sum_cons, Multiset.sum_cons, hsum]
    abel
  | exit t => exact ⟨_, _, rfl, rfl, hwin, hcap, l, m, hl, hm, ht, v, w, hv.exit, hw.exit, hsum⟩
  | setWindow n =>
    refine ⟨_, _, rfl, rfl, ?_, ?_, l, m, hl.setWindowSize n, hm.setWindowSize n, ht, v, w, hv, hw, hsum⟩
    · show (s₁.sampler.setWindowSize n).1.windowSize = (s₂.sampler.setWindowSize n).1.windowSize
      rw [setWindowSize_windowSize, setWindowSize_windowSize, hwin]
    · show (s₁.sampler.setWindowSize n).1.q.cap = (s₂.sampler.setWindowSize n).1.q.cap
      rw [setWindowSize_q, setWindowSize_q, hcap]
  | take malloc now =>
    have hok : ∀ b, (b && !malloc) = false := fun b => by rw [show malloc = true from ha, Bool.not_true, Bool.and_false]
    obtain ⟨q₁, h₁, hc₁, hq₁⟩ := step_take adding now hl (hok _)
    obtain ⟨q₂, h₂, hc₂, hq₂⟩ := step_take inverting now hm (hok _)
    have hcap' : s₁.sampler.capAfter = s₂.sampler.capAfter := capAfter_congr hwin hcap
    have hlen : l.length = m.length := by simpa using ht.length_eq
    have hx : (latest adding s₁.reducer now).1.data = v.sum := hv.resetAllAgents.1.eq_sum
    have hy : (latest inverting s₂.reducer now).1.data = w.sum := hw.combineAgents.eq_sum
    refine ⟨_, _, h₁, h₂, hwin, BitVec.eq_of_toNat_eq (by rw [hc₁, hc₂, hcap']), _, _, hl.after hq₁ hc₁,
      hm.after hq₂ hc₂, ?_, 0, w, hv.resetAllAgents.2, hw, ?_⟩
    · rw [List.reverse_append, List.reverse_append, hcap', hlen]
      have hhead : ∀ z ∈ m.reverse.head?, w.sum = z.data + v.sum := by
        intro z hz
        rw [hsum, total, show m.reverse.head? = some z from hz]
        rfl
      split
      · exact ⟨rfl, fun z hz => by rw [hx, hy]; exact hhead z hz, ht⟩
      · refine ⟨rfl, fun z hz => ?_, ?_⟩
        · rw [hx, hy]
          refine hhead z ?_
          rw [← List.dropLast_reverse] at hz
          cases hm : m.reverse with
          | nil => rw [hm] at hz; cases hz
          | cons y t =>
            rw [hm] at hz
            cases t with
            | nil => cases hz
            | cons y' t => exact hz
        · rw [← List.dropLast_reverse, ← List.dropLast_reverse]
          exact ht.dropLast
    · rw [List.reverse_append, Multiset.sum_zero, add_zero]
      exact hy.symm

/-- **Both samplers answer alike**: whatever is added, however the window is set and whenever samples are taken, the
two return the same from `get_value`. -/
theorem getValue_agree (moves : List (Move T)) (halloc : ∀ a ∈ moves, a.Allocates) :
    ∃ s₁ s₂, (runs adding).run (start adding) moves = some s₁ ∧ (runs inverting).run (start inverting) moves = some s₂ ∧
      ∀ w, 1 ≤ w → w < 2 ^ 63 →
        ∃ v, getValue adding s₁.sampler w = some v ∧ getValue inverting s₂.sampler w = some v := by
  have hrun : ∀ (moves : List (Move T)) (s₁ s₂ : State T), (∀ a ∈ moves, a.Allocates) → Agree s₁ s₂ →
      ∃ s₁' s₂', (runs adding).run s₁ moves = some s₁' ∧ (runs inverting).run s₂ moves = some s₂' ∧ Agree s₁' s₂' := by
    intro moves
    induction moves with
    | nil => exact fun s₁ s₂ _ h => ⟨s₁, s₂, rfl, rfl, h⟩
    | cons a moves ih =>
      intro s₁ s₂ halloc h
      obtain ⟨t₁, t₂, h₁, h₂, ht⟩ := h.step (halloc a List.mem_cons_self)
      obtain ⟨s₁', s₂', h₁', h₂', hs⟩ := ih t₁ t₂ (fun a ha => halloc a (List.mem_cons_of_mem _ ha)) ht
      refine ⟨s₁', s₂', ?_, ?_, hs⟩
      · rw [System.run_cons, show (runs adding).step s₁ a = some t₁ from h₁]
        exact h₁'
      · rw [System.run_cons, show (runs inverting).step s₂ a = some t₂ from h₂]
        exact h₂'
  obtain ⟨s₁, s₂, h₁, h₂, h⟩ := hrun moves _ _ halloc agree_start
  exact ⟨s₁, s₂, h₁, h₂, fun w hw hw' => h.getValue_eq hw hw'⟩

/-- Two samples after values of two threads, one of which exits in between. -/
theorem getValue_agree_exit :
    ∃ s₁ s₂, (runs adding).run (start adding)
        [.take true 0, .add 0 (5 : Int), .add 1 7, .exit 1, .take true 1000000] = some s₁ ∧
      (runs inverting).run (start inverting)
        [.take true 0, .add 0 (5 : Int), .add 1 7, .exit 1, .take true 1000000] = some s₂ ∧
      ∀ w, 1 ≤ w → w < 2 ^ 63 →
        ∃ v, getValue adding s₁.sampler w = some v ∧ getValue inverting s₂.sampler w = some v :=
  getValue_agree _ (by simp [Move.Allocates])

end ReducerSampler
end ContentionProf
