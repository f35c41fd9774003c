import ContentionProf.SpeedLimitRange
/-!
# SpeedLimitRuns — where the sampling range goes

Lines 251–257 truncate: a round over target always lowers the range, and one under target raises it only if its quotient
is far enough above the old range.
-/
namespace ContentionProf

open Controller

section

variable {F I R c q w : Nat}

/-- The blend with the weight of a whole second is the new value. -/
theorem exactRange_eq : exactRange F I R c =
    clampTo 16384 (blend 1000000 (min I 1000000) (targetRange F I R c) R) := by
  unfold exactRange
  split
  · rw [Nat.min_eq_left (Nat.le_of_lt ‹_›)]
  · rw [Nat.min_eq_right (Nat.not_lt.1 ‹_›), blend, Nat.sub_self, Nat.mul_zero, Nat.add_zero,
      Nat.mul_div_cancel _ (by decide)]

theorem targetRange_lt_iff (hc : 0 < c) (hR : 0 < R) : targetRange F I R c < R ↔ F * I < 1000000 * c := by
  rw [targetRange, Nat.div_lt_iff_lt_mul (by omega), Nat.mul_comm R]
  exact Nat.mul_lt_mul_right hR

theorem exactRange_lt_iff (hR1 : 1 ≤ R) (hR : R ≤ 16384) (hc : 0 < c) :
    exactRange F I R c < R ↔ 1 < R ∧ 0 < I ∧ F * I < 1000000 * c := by
  rw [exactRange_eq, clampTo_lt_iff hR1 hR, blend_lt_iff (by decide) (Nat.min_le_right ..), targetRange_lt_iff hc hR1]
  simp

theorem lt_exactRange_iff (hR1 : 1 ≤ R) :
    R < exactRange F I R c ↔ R < 16384 ∧ 1000000 ≤ (targetRange F I R c - R) * min I 1000000 := by
  rw [exactRange_eq, lt_clampTo_iff hR1, lt_blend_iff (by decide) (Nat.min_le_right ..)]

theorem targetRange_mul_le (hc : 0 < c) (hover : q * (F * I) ≤ 1000000 * c) : q * targetRange F I R c ≤ R := by
  have hpos : 0 < 1000000 * c := by omega
  refine Nat.le_of_mul_le_mul_right ?_ hpos
  calc q * targetRange F I R c * (1000000 * c) = q * (F * I * R / (1000000 * c) * (1000000 * c)) := Nat.mul_assoc ..
    _ ≤ q * (F * I * R) := Nat.mul_le_mul_left _ (Nat.div_mul_le_self ..)
    _ = q * (F * I) * R := (Nat.mul_assoc ..).symm
    _ ≤ 1000000 * c * R := Nat.mul_le_mul_right _ hover
    _ = R * (1000000 * c) := Nat.mul_comm ..

/-- **A round with `q` times the samples expected takes its share off the range**, down to 1. -/
theorem exactRange_decay (hc : 0 < c) (hover : q * (F * I) ≤ 1000000 * c) (hw : w ≤ min I 1000000) :
    exactRange F I R c = 1 ∨ exactRange F I R c * (q * 1000000) ≤ R * (q * 1000000 - (q - 1) * w) := by
  have hb := blend_decay (targetRange_mul_le (R := R) hc hover) hw (Nat.min_le_right I 1000000)
  rw [exactRange_eq]
  generalize blend 1000000 (min I 1000000) (targetRange F I R c) R = b at hb ⊢
  have hclamp : clampTo 16384 b = 1 ∨ clampTo 16384 b ≤ b := by unfold clampTo; omega
  exact hclamp.imp id (fun hle => Nat.le_trans (Nat.mul_le_mul_right _ hle) hb)

end

variable {s s' : CollectorSpeedLimit × U64} {u : Update}

theorem inRange_reachable (h : limitSystem.ReachableVia Fits s) : InRange s :=
  h.invariant (I := InRange) (fun _ h0 => h0) (fun _ _ _ hi hf hs => inRange_step hi hf hs)

/-- **When the range moves**: a round with samples lowers it exactly when it is over target and took some time, and
raises it exactly when the quotient of lines 251–252 is above the old range by a million over the interval. -/
theorem range_moves_iff (h : limitSystem.ReachableVia Fits s) (hf : Fits s u) (hc : 0 < u.round s)
    (hs : limitSystem.step s u = some s') :
    (s'.1.samplingRange.toNat < s.1.samplingRange.toNat ↔
      1 < s.1.samplingRange.toNat ∧ 0 < microseconds u.intervalUs ∧ u.expected < 1000000 * u.round s) ∧
    (s.1.samplingRange.toNat < s'.1.samplingRange.toNat ↔
      s.1.samplingRange.toNat < 16384 ∧
        1000000 ≤ (u.expected * s.1.samplingRange.toNat / (1000000 * u.round s) - s.1.samplingRange.toNat) *
          min (microseconds u.intervalUs) 1000000) := by
  obtain ⟨hg, hR1, hR⟩ := inRange_reachable h
  obtain ⟨s₁, hs₁, -, hr⟩ := updateSpeedLimit_exact hg hR hc hf
  rw [hs] at hs₁
  cases hs₁
  rw [hr]
  exact ⟨exactRange_lt_iff hR1 hR hc, lt_exactRange_iff hR1⟩

/-- A tenth of the samples expected in a tenth of a second leave a range of 1 where it is. -/
theorem range_moves_iff_stuck :
    let s : CollectorSpeedLimit × U64 := (⟨1, true, 5, 77⟩, 100)
    let u : Update := ⟨1000, 0, 110, 100000⟩
    10 * (1000000 * u.round s) = u.expected ∧ ∃ s', limitSystem.step s u = some s' ∧
      ¬ s.1.samplingRange.toNat < s'.1.samplingRange.toNat ∧ ¬ s'.1.samplingRange.toNat < s.1.samplingRange.toNat := by
  intro s u
  have hinit : limitSystem.ReachableVia Fits s := .init ⟨rfl, by decide, by decide⟩
  have hf : Fits s u := ⟨by decide, by decide, by decide, by decide⟩
  obtain ⟨s', hs'⟩ := Option.isSome_iff_exists.1 (show (limitSystem.step s u).isSome = true by decide)
  obtain ⟨hlower, hraise⟩ := range_moves_iff hinit hf (by decide) hs'
  exact ⟨by decide, s', hs', fun hlt => absurd (hraise.1 hlt).2 (by decide),
    fun hlt => absurd (hlower.1 hlt).1 (by decide)⟩

/-! ## Under load -/

/-- A round of at least `w` microseconds with `q` times the samples expected. -/
structure Overloaded (q w : Nat) (s : CollectorSpeedLimit × U64) (u : Update) : Prop where
  fits : Fits s u
  round : 0 < u.round s
  exceeds : q * u.expected ≤ 1000000 * u.round s
  interval : w ≤ min (microseconds u.intervalUs) 1000000

instance : Decidable (Fits s u) :=
  decidable_of_iff (0 ≤ u.expectedPerSecond.toInt ∧ u.expected < 2 ^ 63 ∧
      u.expected * s.1.samplingRange.toNat < 2 ^ 64 ∧ 1000000 * u.round s < 2 ^ 64)
    ⟨fun h => ⟨h.1, h.2.1, h.2.2.1, h.2.2.2⟩, fun h => ⟨h.flag, h.expected, h.scaled, h.divisor⟩⟩

instance {q w : Nat} : Decidable (Overloaded q w s u) :=
  decidable_of_iff (Fits s u ∧ 0 < u.round s ∧ q * u.expected ≤ 1000000 * u.round s ∧
      w ≤ min (microseconds u.intervalUs) 1000000)
    ⟨fun h => ⟨h.1, h.2.1, h.2.2.1, h.2.2.2⟩, fun h => ⟨h.fits, h.round, h.exceeds, h.interval⟩⟩

theorem overloaded_step {q w : Nat} (h : InRange s) (ho : Overloaded q w s u) (hs : limitSystem.step s u = some s') :
    InRange s' ∧ (s'.1.samplingRange.toNat = 1 ∨
      s'.1.samplingRange.toNat * (q * 1000000) ≤ s.1.samplingRange.toNat * (q * 1000000 - (q - 1) * w)) := by
  obtain ⟨s₁, hs₁, -, hr⟩ := updateSpeedLimit_exact h.1 h.2.2 ho.round ho.fits
  rw [hs] at hs₁
  cases hs₁
  refine ⟨inRange_step h ho.fits hs, ?_⟩
  rw [hr]
  exact exactRange_decay ho.round ho.exceeds ho.interval

/-- **Under sustained load the range falls exponentially to 1**: every round with `q` times the samples expected takes
`(q - 1) / q` of its part of a second off. -/
theorem range_decays {q w : Nat} (h : limitSystem.ReachableVia Fits s) (hq : 0 < q) {us : List Update}
    (hok : limitSystem.RunOk (Overloaded q w) s us) (hr : limitSystem.run s us = some s') :
    s'.1.samplingRange.toNat = 1 ∨ s'.1.samplingRange.toNat * (q * 1000000) ^ us.length ≤
      s.1.samplingRange.toNat * (q * 1000000 - (q - 1) * w) ^ us.length := by
  have hpos : ∀ k, 0 < (q * 1000000) ^ k := fun k => Nat.pow_pos (by omega)
  suffices hall : InRange s → InRange s' ∧ (s'.1.samplingRange.toNat = 1 ∨ s'.1.samplingRange.toNat *
      (q * 1000000) ^ us.length ≤ s.1.samplingRange.toNat * (q * 1000000 - (q - 1) * w) ^ us.length) from
    (hall (inRange_reachable h)).2
  clear h
  induction us generalizing s with
  | nil => cases hr; exact fun hin => ⟨hin, .inr (Nat.le_refl _)⟩
  | cons u us ih =>
    intro hin
    rw [System.run_cons] at hr
    obtain ⟨s₁, hs, hr'⟩ := Option.bind_eq_some_iff.1 hr
    obtain ⟨hin₁, hstep⟩ := overloaded_step hin hok.1 hs
    obtain ⟨hin', hrest⟩ := ih (hok.2 s₁ hs) hr' hin₁
    refine ⟨hin', ?_⟩
    rcases hrest with hone | hrest
    · exact .inl hone
    rcases hstep with hone | hstep
    · -- at 1 it stays
      rw [hone, Nat.one_mul] at hrest
      have hle := Nat.le_trans hrest (Nat.pow_le_pow_left (Nat.sub_le ..) us.length)
      have hlast : s'.1.samplingRange.toNat ≤ 1 := Nat.le_of_mul_le_mul_right (by rwa [Nat.one_mul]) (hpos us.length)
      exact .inl (Nat.le_antisymm hlast hin'.2.1)
    · rw [List.length_cons, Nat.pow_succ, Nat.pow_succ]
      generalize s'.1.samplingRange.toNat = r' at hrest ⊢
      generalize s₁.1.samplingRange.toNat = r₁ at hrest hstep
      refine .inr ?_
      calc r' * ((q * 1000000) ^ us.length * (q * 1000000))
          = r' * (q * 1000000) ^ us.length * (q * 1000000) := (Nat.mul_assoc ..).symm
        _ ≤ r₁ * (q * 1000000 - (q - 1) * w) ^ us.length * (q * 1000000) := Nat.mul_le_mul_right _ hrest
        _ = r₁ * (q * 1000000) * (q * 1000000 - (q - 1) * w) ^ us.length := Nat.mul_right_comm ..
        _ ≤ s.1.samplingRange.toNat * (q * 1000000 - (q - 1) * w) * (q * 1000000 - (q - 1) * w) ^ us.length :=
          Nat.mul_le_mul_right _ hstep
        _ = _ := by rw [Nat.mul_assoc, Nat.mul_comm (q * 1000000 - (q - 1) * w)]

/-- Three rounds of a tenth of a second with twice the samples expected. -/
theorem range_decays_threeRounds :
    let s : CollectorSpeedLimit × U64 := (⟨16384, true, 5, 77⟩, 0)
    let us : List Update := [⟨1000, 0, 200, 100000⟩, ⟨1000, 0, 400, 100000⟩, ⟨1000, 0, 600, 100000⟩]
    ∃ s', limitSystem.run s us = some s' ∧ s'.1.samplingRange = 14045 ∧
      (s'.1.samplingRange.toNat = 1 ∨ s'.1.samplingRange.toNat * 2000000 ^ 3 ≤ 16384 * 1900000 ^ 3) := by
  intro s us
  have hinit : limitSystem.ReachableVia Fits s := .init ⟨rfl, by decide, by decide⟩
  have hval : (limitSystem.run s us).map (fun s => s.1.samplingRange) = some 14045 := by decide
  obtain ⟨s', hs', hx⟩ := Option.map_eq_some_iff.1 hval
  have hok : limitSystem.RunOk (Overloaded 2 100000) s us := by decide
  exact ⟨s', hs', hx, range_decays hinit (by decide) hok hs'⟩

end ContentionProf
