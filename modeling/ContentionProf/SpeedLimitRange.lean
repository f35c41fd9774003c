import ContentionProf.SpeedLimit
import ContentionProf.Controller
import ContentionProf.Run
/-!
# SpeedLimitRange — what the words of `update_speed_limit` amount to

As long as the products fit, the range of a limit already grabbed follows the truncated mean of `Controller`: it stays
in `[1, COLLECTOR_SAMPLING_BASE]` and moves towards the target or not at all.
-/
namespace ContentionProf

open Controller

/-! ## Words as numbers -/

/-- An `int64_t` counted as 0 when negative. -/
def microseconds (us : U64) : Nat := us.toInt.toNat

theorem slt_zero_iff {w : U64} : w.slt 0 = true ↔ w.toInt < 0 := by
  rw [BitVec.slt_eq_decide, decide_eq_true_iff]
  exact Iff.rfl

theorem toNat_of_nonneg {w : U64} (h : 0 ≤ w.toInt) : w.toNat < 2 ^ 63 ∧ w.toInt = w.toNat := by
  have hw := w.isLt
  rw [BitVec.toInt_eq_toNat_cond] at h ⊢
  split at h
  · rename_i h2
    rw [if_pos h2]
    exact ⟨by omega, rfl⟩
  · omega

theorem nonNegative_toNat (us : U64) : (nonNegative us).toNat = microseconds us ∧ microseconds us < 2 ^ 63 := by
  unfold nonNegative microseconds
  split
  · rename_i h
    rw [slt_zero_iff] at h
    constructor
    · rw [Int.toNat_of_nonpos (Int.le_of_lt h)]; rfl
    · rw [Int.toNat_of_nonpos (Int.le_of_lt h)]; decide
  · rename_i h
    obtain ⟨hlt, hint⟩ := toNat_of_nonneg (not_lt.1 (mt slt_zero_iff.2 h))
    rw [hint, Int.toNat_natCast]
    exact ⟨rfl, hlt⟩

theorem slt_iff {w v : U64} (hw : w.toNat < 2 ^ 63) (hv : v.toNat < 2 ^ 63) : w.slt v = true ↔ w.toNat < v.toNat := by
  rw [BitVec.slt_eq_decide, decide_eq_true_iff, BitVec.toInt_eq_toNat_cond, BitVec.toInt_eq_toNat_cond,
    if_pos (by omega), if_pos (by omega)]
  exact Int.ofNat_lt

theorem signExtend_toNat {flag : Flag} (h : 0 ≤ flag.toInt) : (flag.signExtend 64).toNat = flag.toNat := by
  have hmsb : flag.msb = false := by
    rw [BitVec.msb_eq_toInt]
    exact decide_eq_false (not_lt.2 h)
  rw [BitVec.signExtend_eq_setWidth_of_msb_false hmsb, BitVec.toNat_setWidth]
  have := flag.isLt
  exact Nat.mod_eq_of_lt (by omega)

theorem mul_toNat {a b : U64} (h : a.toNat * b.toNat < 2 ^ 64) : (a * b).toNat = a.toNat * b.toNat := by
  rw [BitVec.toNat_mul, Nat.mod_eq_of_lt h]

theorem clampRange_toNat (r : U64) : (clampRange r).toNat = clampTo 16384 r.toNat := by
  have hB : collectorSamplingBase.toNat = 16384 := by decide
  unfold clampRange clampTo
  split
  · rename_i h; rw [h]; rfl
  rename_i h
  have h0 : r.toNat ≠ 0 := fun h0 => h (BitVec.toNat_inj.1 h0)
  split
  · rename_i h
    have h : collectorSamplingBase.toNat < r.toNat := h
    rw [hB] at h ⊢
    omega
  · rename_i h
    have h : ¬ collectorSamplingBase.toNat < r.toNat := h
    rw [hB] at h
    omega

/-! ## A limit already grabbed -/

/-- The quotient of lines 251–252 without wrap-around. -/
def targetRange (F I R c : Nat) : Nat := F * I * R / (1000000 * c)

/-- The new range without wrap-around. -/
def exactRange (F I R c : Nat) : Nat :=
  clampTo 16384 (if I < 1000000 then blend 1000000 I (targetRange F I R c) R else targetRange F I R c)

section

variable {F I R c c' : Nat}

/-- A quotient of a word by at least a million leaves room for the blend. -/
theorem targetRange_le (hfit : F * I * R < 2 ^ 64) : targetRange F I R c * 1000000 < 2 ^ 64 := by
  rcases Nat.eq_zero_or_pos c with rfl | hc
  · simp [targetRange]
  · have h := Nat.div_mul_le_self (F * I * R) (1000000 * c)
    have h1 : targetRange F I R c * 1000000 ≤ targetRange F I R c * (1000000 * c) :=
      Nat.mul_le_mul_left _ (Nat.le_mul_of_pos_right _ hc)
    exact lt_of_le_of_lt (h1.trans h) hfit

/-- **The blended sum fits.** -/
theorem blendedSum_lt (hR : R ≤ 16384) (hfit : F * I * R < 2 ^ 64) (hI : I < 1000000) :
    targetRange F I R c * I + R * (1000000 - I) < 2 ^ 64 := by
  have hn := targetRange_le (c := c) hfit
  rcases le_total (targetRange F I R c) R with h | h
  · have hw := weighted_le (Nat.le_of_lt hI) h le_rfl
    omega
  · have hw := weighted_le (Nat.le_of_lt hI) le_rfl h
    omega

theorem targetRange_le_old (h : F * I ≤ 1000000 * c) : targetRange F I R c ≤ R := by
  refine Nat.div_le_of_le_mul ?_
  exact Nat.mul_le_mul_right _ h

theorem old_le_targetRange (hc : 0 < c) (h : 1000000 * c ≤ F * I) : R ≤ targetRange F I R c := by
  rw [targetRange, Nat.le_div_iff_mul_le (by omega), Nat.mul_comm]
  exact Nat.mul_le_mul_right _ h

theorem exactRange_le (hR1 : 1 ≤ R) (hR : R ≤ 16384) (h : F * I ≤ 1000000 * c) : exactRange F I R c ≤ R := by
  have hn := targetRange_le_old (R := R) h
  refine le_trans (clampTo_mono (?_ : _ ≤ R)) (le_of_eq (clampTo_self hR1 hR))
  split
  · exact blend_le (Nat.le_of_lt ‹_›) hn
  · exact hn

theorem le_exactRange (hR1 : 1 ≤ R) (hR : R ≤ 16384) (hc : 0 < c) (h : 1000000 * c ≤ F * I) :
    R ≤ exactRange F I R c := by
  have hn := old_le_targetRange (R := R) hc h
  refine le_trans (le_of_eq (clampTo_self hR1 hR).symm) (clampTo_mono ?_)
  split
  · exact le_blend (by decide) (Nat.le_of_lt ‹_›) hn
  · exact hn

theorem exactRange_antitone (hc : 0 < c) (h : c ≤ c') : exactRange F I R c' ≤ exactRange F I R c := by
  have hn : targetRange F I R c' ≤ targetRange F I R c :=
    Nat.div_le_div_left (Nat.mul_le_mul_left _ h) (by omega)
  refine clampTo_mono ?_
  split
  · exact blend_mono hn
  · exact hn

end

/-- What a call of `update_speed_limit` reads beside the limit. -/
structure Update where
  expectedPerSecond : Flag
  gettimeofdayUs : U64
  curGrabCount : U64
  intervalUs : U64

/-- One limit with its entry of `last_grab_count_map`, from any range it can have once grabbed. -/
def limitSystem : System (CollectorSpeedLimit × U64) Update where
  init s := s.1.everGrabbed = true ∧ 1 ≤ s.1.samplingRange.toNat ∧ s.1.samplingRange.toNat ≤ 16384
  step s u := updateSpeedLimit u.expectedPerSecond u.gettimeofdayUs s.1 s.2 u.curGrabCount u.intervalUs

/-- `round_grab_count`. -/
def Update.round (s : CollectorSpeedLimit × U64) (u : Update) : Nat := (u.curGrabCount - s.2).toNat

/-- `FLAGS_collector_expected_per_second * interval_us`. -/
def Update.expected (u : Update) : Nat := u.expectedPerSecond.toNat * microseconds u.intervalUs

/-- The two products and the divisor fit. -/
structure Fits (s : CollectorSpeedLimit × U64) (u : Update) : Prop where
  flag : 0 ≤ u.expectedPerSecond.toInt
  expected : u.expected < 2 ^ 63
  scaled : u.expected * s.1.samplingRange.toNat < 2 ^ 64
  divisor : 1000000 * u.round s < 2 ^ 64

/-- The blend of lines 254–255 as one number, and the number the new range is computed from. -/
theorem blendedRange_toNat {new old us : U64} (hus : us.toNat < 2 ^ 63)
    (hfit : us.toNat < 1000000 → new.toNat * us.toNat + old.toNat * (1000000 - us.toNat) < 2 ^ 64) :
    (blendedRange new old us).toNat =
      if us.toNat < 1000000 then blend 1000000 us.toNat new.toNat old.toNat else new.toNat := by
  have hmillion : (1000000 : U64).toNat = 1000000 := rfl
  have hslt : us.slt 1000000 = true ↔ us.toNat < 1000000 := slt_iff hus (by decide)
  unfold blendedRange
  by_cases h : us.toNat < 1000000
  · rw [if_pos (hslt.2 h), if_pos h]
    have hsub : (1000000 - us : U64).toNat = 1000000 - us.toNat := by
      rw [BitVec.toNat_sub_of_le (BitVec.le_def.2 (Nat.le_of_lt h)), hmillion]
    have hf := hfit h
    have h1 : (new * us).toNat = new.toNat * us.toNat := mul_toNat (by omega)
    have h2 : (old * (1000000 - us)).toNat = old.toNat * (1000000 - us.toNat) := by
      rw [mul_toNat (by rw [hsub]; omega), hsub]
    rw [BitVec.toNat_udiv, BitVec.toNat_add, h1, h2, Nat.mod_eq_of_lt hf]
    rfl
  · rw [if_neg (mt hslt.1 h), if_neg h]

section

variable {s s' : CollectorSpeedLimit × U64} {u : Update}

/-- The quotient of lines 251–252 is exact. -/
theorem scaledRange_exact (hc : 0 < u.round s) (hf : Fits s u) :
    ∃ new, scaledRange u.expectedPerSecond (nonNegative u.intervalUs) s.1.samplingRange (u.curGrabCount - s.2) =
    some new ∧
      new.toNat = targetRange u.expectedPerSecond.toNat (microseconds u.intervalUs) s.1.samplingRange.toNat
        (u.round s) := by
  obtain ⟨hus, -⟩ := nonNegative_toNat u.intervalUs
  have hprod : (u.expectedPerSecond.signExtend 64 * nonNegative u.intervalUs).toNat = u.expected := by
    have hexp := hf.expected
    unfold Update.expected at hexp ⊢
    rw [mul_toNat (by rw [signExtend_toNat hf.flag, hus]; omega), signExtend_toNat hf.flag, hus]
  have hscaled : (u.expectedPerSecond.signExtend 64 * nonNegative u.intervalUs * s.1.samplingRange).toNat =
      u.expected * s.1.samplingRange.toNat := by
    rw [mul_toNat (by rw [hprod]; exact hf.scaled), hprod]
  have hdiv : (1000000 * (u.curGrabCount - s.2) : U64).toNat = 1000000 * u.round s := mul_toNat hf.divisor
  have hne : ¬ (1000000 * (u.curGrabCount - s.2) : U64) = 0 := by
    intro h
    rw [h] at hdiv
    have hz : (0 : U64).toNat = 0 := rfl
    omega
  refine ⟨_, if_neg hne, ?_⟩
  rw [BitVec.toNat_udiv, hscaled, hdiv]
  rfl

/-- **An update whose products fit computes the exact range.** -/
theorem updateSpeedLimit_exact (hg : s.1.everGrabbed = true) (hR : s.1.samplingRange.toNat ≤ 16384)
    (hc : 0 < u.round s) (hf : Fits s u) :
    ∃ s', limitSystem.step s u = some s' ∧ s'.1.everGrabbed = true ∧
      s'.1.samplingRange.toNat = exactRange u.expectedPerSecond.toNat (microseconds u.intervalUs)
        s.1.samplingRange.toNat (u.round s) := by
  obtain ⟨hus, hus63⟩ := nonNegative_toNat u.intervalUs
  obtain ⟨new, hnew, hquot⟩ := scaledRange_exact hc hf
  have hround : ¬ u.curGrabCount - s.2 = 0 := by
    intro h
    rw [Update.round, h] at hc
    exact absurd hc (by decide)
  refine ⟨(⟨clampRange (blendedRange new s.1.samplingRange (nonNegative u.intervalUs)), true, s.1.countBeforeGrabbed,
    s.1.firstSampleRealUs⟩, u.curGrabCount), ?_, rfl, ?_⟩
  · show updateSpeedLimit _ _ _ _ _ _ = _
    unfold updateSpeedLimit
    rw [if_neg hround]
    dsimp only
    rw [if_pos hg, hnew]
    rfl
  · show (clampRange _).toNat = _
    rw [clampRange_toNat, blendedRange_toNat (by rw [hus]; exact hus63) (fun hI => ?_), hus, hquot]
    · rfl
    · rw [hus] at hI ⊢
      rw [hquot]
      exact blendedSum_lt hR hf.scaled hI

theorem updateSpeedLimit_of_round_zero (hc : u.round s = 0) : limitSystem.step s u = some s :=
  if_pos (BitVec.eq_of_toNat_eq (show (u.curGrabCount - s.2).toNat = (0 : U64).toNat from hc))

/-- Grabbed, with a range in bounds. -/
def InRange (s : CollectorSpeedLimit × U64) : Prop :=
  s.1.everGrabbed = true ∧ 1 ≤ s.1.samplingRange.toNat ∧ s.1.samplingRange.toNat ≤ 16384

theorem inRange_step (h : InRange s) (hf : Fits s u) (hs : limitSystem.step s u = some s') : InRange s' := by
  obtain ⟨hg, hR1, hR⟩ := h
  rcases Nat.eq_zero_or_pos (u.round s) with hc | hc
  · rw [updateSpeedLimit_of_round_zero hc] at hs
    cases hs
    exact ⟨hg, hR1, hR⟩
  · obtain ⟨s₁, hs₁, hg₁, hr₁⟩ := updateSpeedLimit_exact hg hR hc hf
    rw [hs] at hs₁
    cases hs₁
    exact ⟨hg₁, hr₁ ▸ one_le_clampTo, hr₁ ▸ clampTo_le (by decide)⟩

/-- **Over any run of updates that fit, the range stays in bounds and moves the right way**: no word of an update
wraps, the new range is in `[1, COLLECTOR_SAMPLING_BASE]`, at most the old one at or over target and at least the old
one at or under it, and the more samples the round had, the smaller it is. -/
theorem range_controlled (h : limitSystem.ReachableVia Fits s) :
    InRange s ∧ ∀ u, Fits s u → 0 < u.round s →
      (∃ new, scaledRange u.expectedPerSecond (nonNegative u.intervalUs) s.1.samplingRange (u.curGrabCount - s.2) =
          some new ∧ (microseconds u.intervalUs < 1000000 →
        new.toNat * microseconds u.intervalUs + s.1.samplingRange.toNat * (1000000 - microseconds u.intervalUs) <
          2 ^ 64)) ∧
      ∃ s', limitSystem.step s u = some s' ∧ InRange s' ∧
        (u.expected ≤ 1000000 * u.round s → s'.1.samplingRange.toNat ≤ s.1.samplingRange.toNat) ∧
        (1000000 * u.round s ≤ u.expected → s.1.samplingRange.toNat ≤ s'.1.samplingRange.toNat) ∧
        ∀ u', Fits s u' → u'.expectedPerSecond = u.expectedPerSecond → u'.intervalUs = u.intervalUs →
          u.round s ≤ u'.round s → ∀ s'', limitSystem.step s u' = some s'' →
            s''.1.samplingRange.toNat ≤ s'.1.samplingRange.toNat := by
  have hin : InRange s := h.invariant (I := InRange) (fun _ h0 => h0) (fun _ _ _ hi hf hs => inRange_step hi hf hs)
  obtain ⟨hg, hR1, hR⟩ := hin
  refine ⟨⟨hg, hR1, hR⟩, fun u hf hc => ?_⟩
  obtain ⟨new, hnew, hquot⟩ := scaledRange_exact hc hf
  obtain ⟨s', hs', hg', hr'⟩ := updateSpeedLimit_exact hg hR hc hf
  refine ⟨⟨new, hnew, fun hI => hquot ▸ blendedSum_lt hR hf.scaled hI⟩, s', hs', inRange_step ⟨hg, hR1, hR⟩ hf hs',
    fun ht => hr' ▸ exactRange_le hR1 hR ht, fun ht => hr' ▸ le_exactRange hR1 hR hc ht,
    fun u' hf' hflag hus hle s'' hs'' => ?_⟩
  obtain ⟨s₁, hs₁, -, hr₁⟩ := updateSpeedLimit_exact hg hR (lt_of_lt_of_le hc hle) hf'
  rw [hs''] at hs₁
  cases hs₁
  rw [hr₁, hr', hflag, hus]
  exact exactRange_antitone hc hle

end

/-- 500 expected in half a second at 1000 a second, 2000 seen, at range 8000. -/
theorem range_controlled_halfSecond :
    let s : CollectorSpeedLimit × U64 := (⟨8000, true, 5, 77⟩, 100)
    let u : Update := ⟨1000, 0, 2100, 500000⟩
    InRange s ∧ ∃ s', limitSystem.step s u = some s' ∧ s'.1.samplingRange = 5000 ∧
      s'.1.samplingRange.toNat ≤ s.1.samplingRange.toNat := by
  intro s u
  have hinit : limitSystem.ReachableVia Fits s := .init ⟨rfl, by decide, by decide⟩
  have hf : Fits s u := ⟨by decide, by decide, by decide, by decide⟩
  obtain ⟨hin, hall⟩ := range_controlled hinit
  obtain ⟨-, s', hs', -, hle, -⟩ := hall u hf (by decide)
  have hval : (limitSystem.step s u).map (fun s => s.1.samplingRange) = some 5000 := by decide
  rw [hs'] at hval
  exact ⟨hin, s', hs', Option.some.inj hval, hle (by decide)⟩

end ContentionProf
