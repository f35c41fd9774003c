import ContentionProf.Run
import Mathlib.Algebra.Ring.Int.Defs
import Mathlib.Data.List.Count
/-!
# Pacing — how long the grab thread sleeps (`common/time.h`, `collector.cpp`)

A round that took less than `COLLECTOR_GRAB_INTERVAL_US` ends in a wait for the rest of it, whose deadline is a
`timespec` of the real-time clock.  Integers are `int64_t`, and `none` is a signed overflow.
-/
namespace ContentionProf
namespace Pacing

/-- An `int64_t` result. -/
def int64 (n : Int) : Option Int := if -(2 ^ 63) ≤ n ∧ n < 2 ^ 63 then some n else none

structure Timespec where
  tvSec : Int
  tvNsec : Int
  deriving DecidableEq

/-- `timespec_normalize`. -/
def timespecNormalize (tm : Timespec) : Option Timespec :=
  if 1000000000 ≤ tm.tvNsec then do
    let addedSec := tm.tvNsec.tdiv 1000000000
    let tvSec ← int64 (tm.tvSec + addedSec)
    let subtracted ← int64 (addedSec * 1000000000)
    let tvNsec ← int64 (tm.tvNsec - subtracted)
    some ⟨tvSec, tvNsec⟩
  else if tm.tvNsec < 0 then do
    let dividend ← int64 (tm.tvNsec - 999999999)
    let subSec := dividend.tdiv 1000000000
    let tvSec ← int64 (tm.tvSec + subSec)
    let subtracted ← int64 (subSec * 1000000000)
    let tvNsec ← int64 (tm.tvNsec - subtracted)
    some ⟨tvSec, tvNsec⟩
  else some tm

/-- `nanoseconds_from`. -/
def nanosecondsFrom (startTime : Timespec) (nanoseconds : Int) : Option Timespec := do
  let tvNsec ← int64 (startTime.tvNsec + nanoseconds)
  timespecNormalize { startTime with tvNsec := tvNsec }

/-- `microseconds_from_now` at a reading of the real-time clock, through `nanoseconds_from_now`. -/
def microsecondsFromNow (realtime : Timespec) (microseconds : Int) : Option Timespec := do
  let nanoseconds ← int64 (microseconds * 1000)
  nanosecondsFrom realtime nanoseconds

/-- `COLLECTOR_GRAB_INTERVAL_US`. -/
def collectorGrabIntervalUs : Int := 100000

/-- What a round of `grab_thread` reads in lines 203–211. -/
structure Round where
  /-- The monotonic clock at line 203. -/
  nowUs : Int
  /-- `stop_` at line 205. -/
  stop : Bool
  realtime : Timespec
  /-- The wait of line 208 was cut short: by a signal, a spurious wake-up or a jump of the real-time clock. -/
  early : Bool
  /-- The real-time clock when the wait returns. -/
  wokenRealtime : Timespec
  /-- The monotonic clock at line 211. -/
  wokenUs : Int

/-- A wait of line 208: for how long it is meant, when it begins, and the deadline it is given (ghost). -/
structure Wait where
  us : Int
  realtime : Timespec
  abstimespec : Timespec

structure State where
  lastActiveCpuwideUs : Int
  /-- The last one first (ghost). -/
  waits : List Wait

/-- A round of `grab_thread`: lines 132 and 202–211. -/
def round (s : State) (r : Round) : Option State := do
  let abstime ← int64 (s.lastActiveCpuwideUs + collectorGrabIntervalUs)
  if !r.stop && decide (r.nowUs < abstime) then
    let us ← int64 (abstime - r.nowUs)
    let abstimespec ← microsecondsFromNow r.realtime us
    some ⟨r.wokenUs, ⟨us, r.realtime, abstimespec⟩ :: s.waits⟩
  else some { s with lastActiveCpuwideUs := r.wokenUs }

def system : System State Round where
  init s := s.waits = []
  step := round

/-! ## `timespec` -/

/-- A `timespec` that `pthread_cond_timedwait` accepts. -/
def Timespec.Normal (tm : Timespec) : Prop := 0 ≤ tm.tvNsec ∧ tm.tvNsec < 1000000000

/-- In nanoseconds. -/
def Timespec.total (tm : Timespec) : Int := tm.tvSec * 1000000000 + tm.tvNsec

variable {n : Int} {tm tm' : Timespec}

theorem int64_of (h : -(2 ^ 63) ≤ n ∧ n < 2 ^ 63) : int64 n = some n := if_pos h

/-- Both branches: the whole seconds rounded down go over, though C++ rounds towards zero. -/
theorem tdiv_below (n : Int) (h : n < 0) : (n - 999999999).tdiv 1000000000 = n / 1000000000 := by
  have hneg : n - 999999999 = -(999999999 - n) := by omega
  rw [hneg, Int.neg_tdiv, Int.tdiv_eq_ediv_of_nonneg (by omega)]
  omega

/-- **`timespec_normalize` rounds down**, and overflows only where the seconds do or `tv_nsec` is among the smallest. -/
theorem timespecNormalize_eq (hsec : -(2 ^ 63) ≤ tm.tvSec + tm.tvNsec / 1000000000)
    (hsec' : tm.tvSec + tm.tvNsec / 1000000000 < 2 ^ 63) (hnsec : -(2 ^ 63) + 999999999 ≤ tm.tvNsec)
    (hnsec' : tm.tvNsec < 2 ^ 63) :
    timespecNormalize tm = some ⟨tm.tvSec + tm.tvNsec / 1000000000, tm.tvNsec % 1000000000⟩ := by
  have hmod : tm.tvNsec - tm.tvNsec / 1000000000 * 1000000000 = tm.tvNsec % 1000000000 := by omega
  have hsub : int64 (tm.tvNsec / 1000000000 * 1000000000) = some (tm.tvNsec / 1000000000 * 1000000000) :=
    int64_of (by omega)
  have hrest : int64 (tm.tvNsec % 1000000000) = some (tm.tvNsec % 1000000000) := int64_of (by omega)
  unfold timespecNormalize
  split
  · simp only [Int.tdiv_eq_ediv_of_nonneg (show 0 ≤ tm.tvNsec by omega), int64_of ⟨hsec, hsec'⟩, hsub, hmod, hrest,
      Option.bind_eq_bind, Option.bind_some]
  · split
    · simp only [int64_of (show -(2 ^ 63) ≤ tm.tvNsec - 999999999 ∧ tm.tvNsec - 999999999 < 2 ^ 63 by omega),
        tdiv_below tm.tvNsec ‹_›, int64_of ⟨hsec, hsec'⟩, hsub, hmod, hrest, Option.bind_eq_bind, Option.bind_some]
    · rw [Int.ediv_eq_zero_of_lt (by omega) (by omega), Int.emod_eq_of_lt (by omega) (by omega), Int.add_zero]

/-- A `timespec` of now, and one of a later time. -/
theorem nanosecondsFrom_eq (hn : tm.Normal) (hsec : -(2 ^ 62) ≤ tm.tvSec) (hsec' : tm.tvSec < 2 ^ 62)
    (hns : 0 ≤ n) (hns' : n < 2 ^ 62) :
    ∃ tm', nanosecondsFrom tm n = some tm' ∧ tm'.Normal ∧ tm'.total = tm.total + n := by
  obtain ⟨h0, h1⟩ := hn
  refine ⟨⟨tm.tvSec + (tm.tvNsec + n) / 1000000000, (tm.tvNsec + n) % 1000000000⟩, ?_, ⟨?_, ?_⟩, ?_⟩
  · rw [nanosecondsFrom, int64_of (by omega), Option.bind_eq_bind, Option.bind_some]
    exact @timespecNormalize_eq ⟨tm.tvSec, tm.tvNsec + n⟩ (by dsimp only; omega) (by dsimp only; omega)
      (by dsimp only; omega) (by dsimp only; omega)
  · exact Int.emod_nonneg _ (by decide)
  · exact Int.emod_lt_of_pos _ (by decide)
  · unfold Timespec.total
    dsimp only
    omega

/-! ## Rounds -/

variable {s s' : State} {r : Round}

/-- The round waits for the rest of the interval. -/
def Round.waits (r : Round) (s : State) : Prop :=
  r.stop = false ∧ r.nowUs < s.lastActiveCpuwideUs + collectorGrabIntervalUs

/-- The deadline of the round's wait. -/
def Round.deadline (r : Round) (s : State) : Option Timespec :=
  microsecondsFromNow r.realtime (s.lastActiveCpuwideUs + collectorGrabIntervalUs - r.nowUs)

/-- **Clocks**: the monotonic one does not go back, and neither is near the end of its range; a wait that is not cut
short returns when the real-time clock has reached its deadline, and the monotonic one has then gone on as far. -/
structure Clocks (s : State) (r : Round) : Prop where
  worked : s.lastActiveCpuwideUs ≤ r.nowUs
  woken : r.nowUs ≤ r.wokenUs
  started : 0 ≤ s.lastActiveCpuwideUs
  range : r.wokenUs < 2 ^ 62
  normal : r.realtime.Normal
  realtime : -(2 ^ 62) ≤ r.realtime.tvSec
  realtime' : r.realtime.tvSec < 2 ^ 62
  slept : r.waits s → r.early = false → ∀ tm ∈ r.deadline s, tm.total ≤ r.wokenRealtime.total
  together : r.waits s → r.early = false →
    (r.wokenRealtime.total - r.realtime.total) / 1000 ≤ r.wokenUs - r.nowUs

instance : Decidable (r.waits s) :=
  inferInstanceAs (Decidable (r.stop = false ∧ r.nowUs < s.lastActiveCpuwideUs + collectorGrabIntervalUs))

instance : Decidable (Clocks s r) :=
  decidable_of_iff ((s.lastActiveCpuwideUs ≤ r.nowUs ∧ r.nowUs ≤ r.wokenUs ∧ 0 ≤ s.lastActiveCpuwideUs ∧
      r.wokenUs < 2 ^ 62) ∧ ((0 ≤ r.realtime.tvNsec ∧ r.realtime.tvNsec < 1000000000) ∧
      -(2 ^ 62) ≤ r.realtime.tvSec ∧ r.realtime.tvSec < 2 ^ 62) ∧
      (r.waits s → r.early = false → ∀ tm ∈ r.deadline s, tm.total ≤ r.wokenRealtime.total) ∧
      (r.waits s → r.early = false → (r.wokenRealtime.total - r.realtime.total) / 1000 ≤ r.wokenUs - r.nowUs))
    ⟨fun ⟨⟨h₁, h₂, h₃, h₄⟩, ⟨h₅, h₆, h₇⟩, h₈, h₉⟩ => ⟨h₁, h₂, h₃, h₄, h₅, h₆, h₇, h₈, h₉⟩,
      fun ⟨h₁, h₂, h₃, h₄, h₅, h₆, h₇, h₈, h₉⟩ => ⟨⟨h₁, h₂, h₃, h₄⟩, ⟨h₅, h₆, h₇⟩, h₈, h₉⟩⟩

/-- **A wait as it should be**: for at most the interval, and with a deadline that is just so far away. -/
structure Wait.Ok (w : Wait) : Prop where
  pos : 0 < w.us
  le : w.us ≤ collectorGrabIntervalUs
  normal : w.abstimespec.Normal
  deadline : w.abstimespec.total = w.realtime.total + w.us * 1000

/-- The round was neither stopped nor woken. -/
def Round.full (r : Round) : Bool := !r.stop && !r.early

/-- A wait that is not cut short lasts to the end of the interval. -/
theorem Clocks.slept_interval (h : Clocks s r) (hwaits : r.waits s) (hearly : r.early = false)
    (hdeadline : r.deadline s = some tm)
    (htotal : tm.total = r.realtime.total + (s.lastActiveCpuwideUs + collectorGrabIntervalUs - r.nowUs) * 1000) :
    s.lastActiveCpuwideUs + collectorGrabIntervalUs ≤ r.wokenUs := by
  have hreached := h.slept hwaits hearly tm hdeadline
  have hgone := h.together hwaits hearly
  omega

/-- **One round**: nothing overflows, and it takes the interval unless it is cut short. -/
theorem round_ok (h : Clocks s r) : ∃ s', round s r = some s' ∧ s'.lastActiveCpuwideUs = r.wokenUs ∧
    (r.full = true → s.lastActiveCpuwideUs + collectorGrabIntervalUs ≤ s'.lastActiveCpuwideUs) ∧
    ((∀ w ∈ s.waits, w.Ok) → ∀ w ∈ s'.waits, w.Ok) := by
  have hinterval : collectorGrabIntervalUs = 100000 := rfl
  have hw := h.worked
  have hk := h.woken
  have h0 := h.started
  have hr := h.range
  unfold round
  rw [int64_of (by omega), Option.bind_eq_bind, Option.bind_some]
  by_cases hwaits : r.waits s
  · obtain ⟨hstop, hlt⟩ := id hwaits
    obtain ⟨tm, htm, hnormal, htotal⟩ := nanosecondsFrom_eq h.normal h.realtime h.realtime'
      (n := (s.lastActiveCpuwideUs + collectorGrabIntervalUs - r.nowUs) * 1000) (by omega) (by omega)
    have hdeadline : microsecondsFromNow r.realtime (s.lastActiveCpuwideUs + collectorGrabIntervalUs - r.nowUs) =
        some tm := by
      rw [microsecondsFromNow, int64_of (by omega), Option.bind_eq_bind, Option.bind_some, htm]
    rw [if_pos (by rw [hstop, decide_eq_true hlt]; rfl), int64_of (by omega), Option.bind_some, hdeadline,
      Option.bind_eq_bind, Option.bind_some]
    refine ⟨_, rfl, rfl, fun hfull => h.slept_interval hwaits ?_ hdeadline htotal, fun hok w hw => ?_⟩
    · rw [Round.full, hstop] at hfull
      simpa using hfull
    · rcases List.mem_cons.1 hw with rfl | hw
      · exact ⟨by dsimp only; omega, by dsimp only; omega, hnormal, htotal⟩
      · exact hok w hw
  · have hcond : ¬ (!r.stop && decide (r.nowUs < s.lastActiveCpuwideUs + collectorGrabIntervalUs)) = true := by
      rw [Bool.and_eq_true, Bool.not_eq_true', decide_eq_true_iff]
      exact hwaits
    rw [if_neg hcond]
    refine ⟨_, rfl, rfl, fun hfull => ?_, fun hok => hok⟩
    have hstop : r.stop = false := by
      rw [Round.full, Bool.and_eq_true, Bool.not_eq_true'] at hfull
      exact hfull.1
    have hlate : ¬ r.nowUs < s.lastActiveCpuwideUs + collectorGrabIntervalUs := fun hlt => hwaits ⟨hstop, hlt⟩
    show _ ≤ r.wokenUs
    omega

/-- **The grab thread keeps its pace.**  With such clocks no run of rounds overflows; every wait is for 100 ms at most,
with a deadline that `pthread_cond_timedwait` accepts and that is just so far from now; and the rounds that are neither
stopped nor woken early begin at least 100 ms apart. -/
theorem rounds_paced : ∀ {rs : List Round} {s : State}, (∀ w ∈ s.waits, w.Ok) → system.RunOk Clocks s rs →
    ∃ s', system.run s rs = some s' ∧ (∀ w ∈ s'.waits, w.Ok) ∧
      s.lastActiveCpuwideUs + collectorGrabIntervalUs * (rs.countP Round.full : Nat) ≤ s'.lastActiveCpuwideUs
  | [], s, hw, _         => ⟨s, rfl, hw, by simp⟩
  | r :: rs, s, hw, hok => by
    obtain ⟨hclocks, hrest⟩ := hok
    obtain ⟨s₁, hs, hlast, hfull, hwaits⟩ := round_ok hclocks
    obtain ⟨s', hr, hw', hpace⟩ := rounds_paced (hwaits hw) (hrest s₁ hs)
    refine ⟨s', by rw [System.run_cons]; exact Option.bind_eq_some_iff.2 ⟨s₁, hs, hr⟩, hw', ?_⟩
    have hgo : s.lastActiveCpuwideUs ≤ s₁.lastActiveCpuwideUs := by
      rw [hlast]
      exact Int.le_trans hclocks.worked hclocks.woken
    rw [List.countP_cons]
    split
    · rename_i hf
      have hstep := hfull hf
      rw [Int.natCast_add, Int.natCast_one, Int.mul_add, Int.mul_one]
      omega
    · rw [Nat.add_zero]
      omega

/-- Three rounds: one waits across the second, one is woken early, and one has taken too long to wait. -/
def pacedRounds : List Round :=
  [⟨1020000, false, ⟨7, 999999999⟩, false, ⟨8, 80002000⟩, 1100004⟩,
    ⟨1100504, false, ⟨8, 80500000⟩, true, ⟨8, 89995000⟩, 1110000⟩,
    ⟨1300000, false, ⟨8, 280000000⟩, false, ⟨8, 280000000⟩, 1300001⟩]

theorem rounds_paced_pacedRounds : ∃ s', system.run ⟨1000000, []⟩ pacedRounds = some s' ∧
    s'.waits.map Wait.abstimespec = [⟨8, 180000000⟩, ⟨8, 79999999⟩] ∧
    1000000 + collectorGrabIntervalUs * (pacedRounds.countP Round.full : Nat) ≤ s'.lastActiveCpuwideUs := by
  have hok : system.RunOk Clocks ⟨1000000, []⟩ pacedRounds := by decide
  obtain ⟨s', hr, -, hpace⟩ := rounds_paced (s := ⟨1000000, []⟩) (fun _ hw => nomatch hw) hok
  have hwaits : (system.run ⟨1000000, []⟩ pacedRounds).map (fun s => s.waits.map Wait.abstimespec) =
      some [⟨8, 180000000⟩, ⟨8, 79999999⟩] := by decide
  rw [hr] at hwaits
  exact ⟨s', hr, Option.some.inj hwaits, hpace⟩

end Pacing
end ContentionProf
