import ContentionProf.SpeedLimitRange
/-!
# SpeedLimitClock — the first update of a limit, and the two clocks it reads

The time of the first sample is a reading of the monotonic clock, and the first update subtracts it from a reading of
`gettimeofday`.  The offset between the clocks goes into the range, unless no threshold of the clamp lies in between.
-/
namespace ContentionProf

open Controller

/-- A new limit after calls of `is_collectable_before_first_time_grabbed` at these readings. -/
def sampled (expectedPerSecond : Flag) (readings : List U64) : CollectorSpeedLimit :=
  readings.foldl (fun sl us => (isCollectableBeforeFirstTimeGrabbed expectedPerSecond sl us).1) .new

/-- What the first update takes for the elapsed time: the wall clock, `offset` ahead of the monotonic one, minus the
stored start, or the interval of the round where nothing but 0 is stored. -/
def apparentElapsed (start now offset intervalUs : U64) : Nat :=
  if start = 0 then microseconds intervalUs else microseconds (now + offset - start)

/-- No multiple of the divisor that the clamp tells apart separates the two products. -/
def NoThresholdBetween (divisor x y : Nat) : Prop :=
  ∀ k, 2 ≤ k → k ≤ 16384 → (k * divisor ≤ x ↔ k * divisor ≤ y)

theorem noThresholdBetween_of_eq {divisor x y : Nat} (h : x = y) : NoThresholdBetween divisor x y :=
  fun _ _ _ => by rw [h]

/-! ## The first sample -/

section

variable {flag : Flag} {sl : CollectorSpeedLimit} {us : U64}

theorem isCollectable_everGrabbed (h : sl.everGrabbed = false) :
    (isCollectableBeforeFirstTimeGrabbed flag sl us).1.everGrabbed = false := by
  unfold isCollectableBeforeFirstTimeGrabbed
  rw [h, if_neg (by decide)]
  dsimp only
  split <;> rfl

/-- A later call counts and stores nothing, until the count has come round. -/
theorem isCollectable_later {k : Nat} (flag : Flag) (us : U64) (h : sl.everGrabbed = false)
    (hk : sl.countBeforeGrabbed = BitVec.ofNat 32 k) (h0 : 0 < k) (hlt : k < 2 ^ 32) :
    (isCollectableBeforeFirstTimeGrabbed flag sl us).1.countBeforeGrabbed = BitVec.ofNat 32 (k + 1) ∧
      (isCollectableBeforeFirstTimeGrabbed flag sl us).1.firstSampleRealUs = sl.firstSampleRealUs := by
  have hne : ¬ sl.countBeforeGrabbed = 0 := by
    intro hz
    have htoNat := congrArg BitVec.toNat (hk.symm.trans hz)
    rw [BitVec.toNat_ofNat, Nat.mod_eq_of_lt hlt] at htoNat
    exact Nat.ne_of_gt h0 htoNat
  unfold isCollectableBeforeFirstTimeGrabbed
  rw [h, if_neg (by decide)]
  dsimp only
  rw [if_neg hne]
  refine ⟨?_, rfl⟩
  show sl.countBeforeGrabbed + 1 = _
  rw [hk, BitVec.ofNat_add]
  rfl

end

theorem sampled_everGrabbed (flag : Flag) (readings : List U64) : (sampled flag readings).everGrabbed = false := by
  have keep : ∀ (readings : List U64) (sl : CollectorSpeedLimit), sl.everGrabbed = false →
      (readings.foldl (fun sl us => (isCollectableBeforeFirstTimeGrabbed flag sl us).1) sl).everGrabbed = false := by
    intro readings
    induction readings with
    | nil => intro sl h; exact h
    | cons us readings ih => intro sl h; exact ih _ (isCollectable_everGrabbed h)
  exact keep readings .new rfl

/-- **The stored start is the reading of the first call**, for up to `2 ^ 32` calls. -/
theorem sampled_start {flag : Flag} {first : U64} {rest : List U64} (h : rest.length < 2 ^ 32) :
    (sampled flag (first :: rest)).firstSampleRealUs = first := by
  have keep : ∀ (rest : List U64) (k : Nat) (sl : CollectorSpeedLimit), 0 < k → k + rest.length ≤ 2 ^ 32 →
      sl.everGrabbed = false → sl.countBeforeGrabbed = BitVec.ofNat 32 k →
      (rest.foldl (fun sl us => (isCollectableBeforeFirstTimeGrabbed flag sl us).1) sl).firstSampleRealUs =
        sl.firstSampleRealUs := by
    intro rest
    induction rest with
    | nil => intro k sl _ _ _ _; rfl
    | cons us rest ih =>
      intro k sl h0 hlen hg hk
      rw [List.length_cons] at hlen
      obtain ⟨hcount, hstart⟩ := isCollectable_later flag us hg hk h0 (by omega)
      rw [List.foldl_cons, ih (k + 1) _ (Nat.succ_pos _) (by omega) (isCollectable_everGrabbed hg) hcount, hstart]
  exact keep rest 1 _ Nat.one_pos (by omega) rfl rfl

/-! ## The first update -/

section

variable {flag : Flag} {sl : CollectorSpeedLimit} {now offset c intervalUs : U64}

theorem firstInterval_toNat :
    (firstInterval sl (now + offset) (nonNegative intervalUs)).toNat =
      apparentElapsed sl.firstSampleRealUs now offset intervalUs := by
  unfold firstInterval apparentElapsed
  by_cases h : sl.firstSampleRealUs = 0
  · rw [if_neg (not_not.2 h), if_pos h]
    exact (nonNegative_toNat _).1
  · rw [if_pos h, if_neg h]
    exact (nonNegative_toNat _).1

/-- The range the first update sets, with the wrap-around of its product. -/
theorem firstUpdate_toNat (now offset intervalUs : U64) (hg : sl.everGrabbed = false) (hF : 0 ≤ flag.toInt)
    (hc : c ≠ 0) (hdiv : 1000000 * c.toNat < 2 ^ 64) :
    (updateSpeedLimit flag (now + offset) sl 0 c intervalUs).map (fun p => p.1.samplingRange.toNat) =
      some (clampTo 16384 (flag.toNat * apparentElapsed sl.firstSampleRealUs now offset intervalUs * 16384 % 2 ^ 64 /
        (1000000 * c.toNat))) := by
  have hsub : c - 0 = c := BitVec.sub_zero c
  have hround : ¬ c - 0 = 0 := by rw [hsub]; exact hc
  have hdivisor : (1000000 * (c - 0) : U64).toNat = 1000000 * c.toNat := by rw [hsub]; exact mul_toNat hdiv
  have hne : ¬ (1000000 * (c - 0) : U64) = 0 := by
    intro h
    rw [h] at hdivisor
    have hz : (0 : U64).toNat = 0 := rfl
    have hc0 : c.toNat ≠ 0 := fun h0 => hc (BitVec.eq_of_toNat_eq h0)
    omega
  have hB : collectorSamplingBase.toNat = 16384 := by decide
  unfold updateSpeedLimit
  rw [if_neg hround]
  dsimp only
  rw [hg, if_neg (by decide), firstRange, divide, if_neg hne]
  show some (clampRange _).toNat = _
  rw [clampRange_toNat, BitVec.toNat_udiv, hdivisor, BitVec.toNat_mul, BitVec.toNat_mul, signExtend_toNat hF,
    firstInterval_toNat, hB, Nat.mod_mul_mod]

end

/-- **The first update is right exactly when the clocks' offset crosses no threshold**: the range it sets is the one of
the elapsed time if and only if no multiple of `1000000 * c` from the second to the 16384th lies between the product of
the elapsed time and that of the time that seems to have elapsed. -/
theorem first_range_iff {flag : Flag} {first now offset c intervalUs : U64} {rest : List U64} (hF : 0 < flag.toInt)
    (hc : c ≠ 0) (hdiv : 1000000 * c.toNat < 2 ^ 64) :
    (updateSpeedLimit flag (now + offset) (sampled flag (first :: rest)) 0 c intervalUs).map
        (fun p => p.1.samplingRange.toNat) =
      some (clampTo 16384 (flag.toNat * (now.toNat - first.toNat) * 16384 / (1000000 * c.toNat))) ↔
    NoThresholdBetween (1000000 * c.toNat) (flag.toNat * (now.toNat - first.toNat) * 16384)
      (flag.toNat * apparentElapsed (sampled flag (first :: rest)).firstSampleRealUs now offset intervalUs * 16384 %
        2 ^ 64) := by
  have hd : 0 < 1000000 * c.toNat := by
    have hc0 : c.toNat ≠ 0 := fun h0 => hc (BitVec.eq_of_toNat_eq h0)
    omega
  rw [firstUpdate_toNat now offset intervalUs (sampled_everGrabbed flag _) (Int.le_of_lt hF) hc hdiv, Option.some_inj,
    eq_comm,
    clampTo_eq_iff]
  unfold NoThresholdBetween
  refine forall_congr' (fun k => imp_congr_right (fun _ => imp_congr_right (fun _ => ?_)))
  rw [Nat.le_div_iff_mul_le hd, Nat.le_div_iff_mul_le hd]

/-- One second after the first of 100000 samples, at 1000 a second, with clocks that agree. -/
theorem first_range_iff_sameClock :
    (updateSpeedLimit 1000 (2000000 + 0) (sampled 1000 [1000000]) 0 100000 100000).map
      (fun p => p.1.samplingRange.toNat) = some 163 := by
  have hiff := @first_range_iff 1000 1000000 2000000 0 100000 100000 [] (by decide) (by decide) (by decide)
  exact (hiff.2 (noThresholdBetween_of_eq (by decide))).trans (by decide)

/-- The same with a wall clock that counts from 1970: **the range goes to its upper bound**. -/
theorem first_range_clock_offset :
    (updateSpeedLimit 1000 (2000000 + 1680000000000000) (sampled 1000 [1000000]) 0 100000 100000).map
      (fun p => p.1.samplingRange.toNat) = some 16384 ∧
    clampTo 16384 (1000 * (2000000 - 1000000) * 16384 / (1000000 * 100000)) = 163 := by decide

/-- **With clocks that agree the first update is right**, for up to `2 ^ 32` calls from a reading that is not 0 on. -/
theorem first_range_of_same_clock {flag : Flag} {first now c intervalUs : U64} {rest : List U64} (hF : 0 < flag.toInt)
    (hc : c ≠ 0) (hdiv : 1000000 * c.toNat < 2 ^ 64) (hfirst : first ≠ 0) (hrest : rest.length < 2 ^ 32)
    (hle : first.toNat ≤ now.toNat) (hfit : flag.toNat * (now.toNat - first.toNat) * 16384 < 2 ^ 64) :
    (updateSpeedLimit flag now (sampled flag (first :: rest)) 0 c intervalUs).map (fun p => p.1.samplingRange.toNat) =
      some (clampTo 16384 (flag.toNat * (now.toNat - first.toNat) * 16384 / (1000000 * c.toNat))) := by
  have hsub : (now + 0 - first).toNat = now.toNat - first.toNat := by
    have hadd : now + 0 = now := BitVec.add_zero now
    rw [hadd, BitVec.toNat_sub_of_le (BitVec.le_def.2 hle)]
  have hFpos : 0 < flag.toNat := by
    rcases Nat.eq_zero_or_pos flag.toNat with h0 | h0
    · rw [BitVec.eq_of_toNat_eq (show flag.toNat = (0 : Flag).toNat from h0)] at hF
      exact absurd hF (by decide)
    · exact h0
  have hlt : now.toNat - first.toNat < 2 ^ 63 := by
    have := Nat.le_mul_of_pos_left (now.toNat - first.toNat) hFpos
    omega
  have happ : apparentElapsed first now 0 intervalUs = now.toNat - first.toNat := by
    unfold apparentElapsed microseconds
    rw [if_neg hfirst, BitVec.toInt_eq_toNat_cond, hsub, if_pos (by omega), Int.toNat_natCast]
  have h := firstUpdate_toNat now 0 intervalUs
    (sampled_everGrabbed flag (first :: rest)) (Int.le_of_lt hF) hc hdiv
  rw [sampled_start hrest, happ, Nat.mod_eq_of_lt hfit] at h
  have hadd : now + 0 = now := BitVec.add_zero now
  rw [hadd] at h
  exact h

end ContentionProf
