import ContentionProf.Selection
import Mathlib.Tactic.FieldSimp
import Mathlib.Tactic.Linarith
/-!
# SelectionMean — the weight of a sample cancels the odds of taking it (`collector.cpp`, `contention.cpp`)

Out of `COLLECTOR_SAMPLING_BASE` remainders of the random word `r` are let through, and `submit_contention` multiplies
by `COLLECTOR_SAMPLING_BASE / r`: the mean over all words is what happened, for every range, of acquisitions that get a
record if they are sampled.  With its list full and its slot taken an acquisition gets none, and submits nothing.
-/
namespace ContentionProf
namespace Selection

open Finset

/-- What `submit_contention` makes of a recorded acquisition with this decision; `none` when nothing is submitted. -/
def Decision.submits (expectedPerSecond : Flag) (d : Decision) (waitNs : U64) : Option Hook.Sample :=
  Hook.submitContention ⟨waitNs, d.range expectedPerSecond, none⟩

/-- The count a decision submits. -/
def Decision.countOf (expectedPerSecond : Flag) (d : Decision) (waitNs : U64) : ℚ :=
  (d.submits expectedPerSecond waitNs).elim 0 Hook.Sample.count

/-- The mask keeps the remainder by `COLLECTOR_SAMPLING_BASE`. -/
theorem mask_toNat (w : U64) : (w &&& (collectorSamplingBase - 1)).toNat = w.toNat % 16384 := by
  rw [BitVec.toNat_and, show (collectorSamplingBase - 1).toNat = 2 ^ 14 - 1 by decide, Nat.and_two_pow_sub_one_eq_mod]

variable {F : Flag} {sl : CollectorSpeedLimit} {us : U64} {r : Nat}

/-- **On a limit that was grabbed, the remainders below the range are let through.** -/
theorem range_eq (us : U64) (hg : sl.everGrabbed = true) (w : U64) :
    (⟨w, sl, us⟩ : Decision).range F = if w.toNat % 16384 < sl.samplingRange.toNat then sl.samplingRange else 0 := by
  simp only [Decision.range, isCollectable, hg, if_true, ge_iff_le, BitVec.le_def, mask_toNat]
  by_cases h : w.toNat % 16384 < sl.samplingRange.toNat
  · rw [if_pos h, if_neg (Nat.not_le.2 h)]
  · rw [if_neg h, if_pos (Nat.not_lt.1 h)]

theorem submits_of_range_zero {d : Decision} {waitNs : U64} (h : d.range F = 0) : d.submits F waitNs = none := by
  rw [Decision.submits, Hook.submitContention, h]
  rfl

theorem ne_zero_of_toNat (hr : sl.samplingRange.toNat = r) (hpos : 1 ≤ r) : sl.samplingRange ≠ 0 := by
  intro h
  rw [h] at hr
  simp at hr
  omega

/-- **An unlock submits what the decision at its lock says**, whatever the limit has become since. -/
theorem submitted_eq {v : Nat} {s : State} (h : (system F v).ReachableVia (InSession F) s) {x : Hook.Unlocked}
    (hx : x ∈ s.hook.mem.log) (hc : x.acq.contended = true) :
    ∃ d, s.decided x.acq.id = some d ∧ x.submitted.bind Hook.submitContention =
      if x.acq.place = .nowhere then none else d.submits F (x.acq.wait + (x.endNs - x.startNs)) := by
  obtain ⟨-, d, hd, hr⟩ := (inv_reachable h).told (.log hx) hc
  obtain ⟨hsome, hfields⟩ := (Hook.session_records (hook_reachable h)).2.2.2.2 x hx
  refine ⟨d, hd, ?_⟩
  cases hs : x.submitted with
  | none =>
    rw [hs] at hsome
    split
    · rfl
    · rename_i hp
      have hzero : x.acq.range = 0 := by
        by_contra hne
        exact absurd (hsome.2 ⟨hc, hne, hp⟩) (by decide)
      rw [submits_of_range_zero (hr ▸ hzero)]
      rfl
  | some cs =>
    rw [hs] at hsome
    obtain ⟨-, hne, hp⟩ := hsome.1 rfl
    obtain ⟨hrange, hdur⟩ := hfields cs hs
    rw [if_neg hp, Option.bind_some, Decision.submits, ← hr, ← hdur, ← hrange]
    rfl

/-- A contended acquisition in the log of a run, and the decision at its lock. -/
def Decided (expectedPerSecond : Flag) (v : Nat) (d : Decision) (x : Hook.Unlocked) : Prop :=
  ∃ s, (system expectedPerSecond v).ReachableVia (InSession expectedPerSecond) s ∧ x ∈ s.hook.mem.log ∧
    x.acq.contended = true ∧ s.decided x.acq.id = some d

/-- The count an unlock submitted. -/
def countSubmitted (x : Hook.Unlocked) : ℚ :=
  (x.submitted.bind Hook.submitContention).elim 0 Hook.Sample.count

/-- For every random word a contended acquisition that drew it on this limit; if it is sampled, it has a record and the
wait is `d`. -/
structure Drawn (expectedPerSecond : Flag) (v : Nat) (sl : CollectorSpeedLimit) (us d : U64)
    (x : U64 → Hook.Unlocked) : Prop where
  decided : ∀ w, Decided expectedPerSecond v ⟨w, sl, us⟩ (x w)
  recorded : ∀ w, (⟨w, sl, us⟩ : Decision).range expectedPerSecond ≠ 0 →
    (x w).acq.place ≠ .nowhere ∧ (x w).acq.wait + ((x w).endNs - (x w).startNs) = d

/-- An acquisition that has a record when it is sampled submits what its decision says. -/
theorem Drawn.submits {v : Nat} {d : U64} {x : U64 → Hook.Unlocked} (h : Drawn F v sl us d x) (w : U64) :
    (x w).submitted.bind Hook.submitContention = (⟨w, sl, us⟩ : Decision).submits F d := by
  obtain ⟨s, hs, hx, hc, hd⟩ := h.decided w
  obtain ⟨e, he, hsub⟩ := submitted_eq hs hx hc
  rw [hd, Option.some.injEq] at he
  subst he
  rw [hsub]
  by_cases hne : (⟨w, sl, us⟩ : Decision).range F = 0
  · rw [submits_of_range_zero hne, submits_of_range_zero hne, ite_self]
  · obtain ⟨hplace, hwait⟩ := h.recorded w hne
    rw [if_neg hplace, hwait]

theorem Drawn.count {v : Nat} {d : U64} {x : U64 → Hook.Unlocked} (h : Drawn F v sl us d x) :
    (fun w => countSubmitted (x w)) = fun w => (⟨w, sl, us⟩ : Decision).countOf F d := by
  funext w
  rw [countSubmitted, h.submits]
  rfl

/-- A limit with range 4096. -/
def quarterLimit : CollectorSpeedLimit := ⟨4096, true, 0, 0⟩

/-- Every decision so far was this one. -/
structure Only (d : Decision) (s : State) : Prop where
  limit : s.limit = d.limit
  latest : ∀ t e, s.latest t = some e → e = d
  decided : ∀ n e, s.decided n = some e → e = d

/-- `is_collectable` returns this range. -/
def Returns (range : U64) (s : Hook.State) : Hook.Label → Prop
  | .go t i => (s.ctl t).pc = .idle → i.range = range ∧ i.res = 0
  | _       => True

instance (range : U64) (s : Hook.State) : (l : Hook.Label) → Decidable (Returns range s l)
  | .go _ _       => inferInstanceAs (Decidable (_ → _))
  | .start        => .isTrue trivial
  | .stop         => .isTrue trivial
  | .lock _ _     => .isTrue trivial
  | .unlock _ _ _ => .isTrue trivial
  | .endSubmit _  => .isTrue trivial

theorem Returns.eq {range : U64} {s : Hook.State} {l : Hook.Label} (h : Returns range s l) (hc : collects s l = true) :
    ∃ t now, l = .go t ⟨now, range, 0⟩ := by
  cases l with
  | go t i =>
    obtain ⟨rfl, hres⟩ := h (of_decide_eq_true hc)
    exact ⟨t, i.nowNs, by rw [← hres]⟩
  | _ => cases hc

theorem Only.hook {d : Decision} {s s' : State} {l : Hook.Label} (h : Only d s) (hs : step F s (.hook l) = some s') :
    Only d s' := by
  simp only [step] at hs
  split at hs
  · cases hs
  obtain ⟨h', -, rfl⟩ := Option.map_eq_some_iff.1 hs
  refine ⟨h.limit, h.latest, fun n e he => ?_⟩
  have he : decidedAfter s l n = some e := he
  cases hacq : acquires s.hook l with
  | none =>
    rw [decidedAfter, hacq] at he
    exact h.decided n e he
  | some t =>
    rw [decidedAfter, hacq] at he
    dsimp only at he
    rw [Function.update_apply] at he
    split at he
    · exact h.latest t e he
    · exact h.decided n e he

theorem Only.sample {d : Decision} {s : State} {t : Thread} {h' : Hook.State} (h : Only d s)
    (hg : d.limit.everGrabbed = true) : Only d { s with
      hook := h'
      limit := (isCollectable F s.limit d.fastRand d.monotonicUs).1
      latest := Function.update s.latest t (some ⟨d.fastRand, s.limit, d.monotonicUs⟩) } where
  limit := by
    show (isCollectable F s.limit d.fastRand d.monotonicUs).1 = d.limit
    rw [h.limit, isCollectable, if_pos hg]
    dsimp only
    split <;> rfl
  latest u e he := by
    have he : Function.update s.latest t (some ⟨d.fastRand, s.limit, d.monotonicUs⟩) u = some e := he
    rw [Function.update_apply] at he
    split at he
    · cases he
      rw [h.limit]
    · exact h.latest u e he
  decided := h.decided

end Selection
end ContentionProf
