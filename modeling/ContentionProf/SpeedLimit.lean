import ContentionProf.Common
/-!
# SpeedLimit — how often to sample (`collector.cpp`)

`is_collectable_before_first_time_grabbed` and `Collector::update_speed_limit` on the words they compute with: an
`int64_t` is a word read as signed where the code compares it, and every product and sum wraps.
-/
namespace ContentionProf

/-- `FLAGS_collector_expected_per_second`, an `int32`. -/
abbrev Flag := BitVec 32

structure CollectorSpeedLimit where
  samplingRange : U64
  everGrabbed : Bool
  countBeforeGrabbed : BitVec 32
  firstSampleRealUs : U64
deriving DecidableEq

namespace CollectorSpeedLimit

/-- The constructor. -/
def new : CollectorSpeedLimit := ⟨collectorSamplingBase, false, 0, 0⟩

end CollectorSpeedLimit

/-- `is_collectable_before_first_time_grabbed` at a reading of the monotonic clock, with the range it returns and
whether it wakes the grab thread. -/
def isCollectableBeforeFirstTimeGrabbed (expectedPerSecond : Flag) (sl : CollectorSpeedLimit) (monotonicUs : U64) :
    CollectorSpeedLimit × U64 × Bool :=
  if sl.everGrabbed then (sl, sl.samplingRange, false)
  else
    let beforeAdd := sl.countBeforeGrabbed
    let sl := { sl with countBeforeGrabbed := beforeAdd + 1 }
    if beforeAdd = 0 then ({ sl with firstSampleRealUs := monotonicUs }, sl.samplingRange, false)
    else (sl, sl.samplingRange, expectedPerSecond.sle beforeAdd)

/-- `is_collectable` at a random word and a reading of the monotonic clock, with the range it returns and whether it
wakes the grab thread. -/
def isCollectable (expectedPerSecond : Flag) (sl : CollectorSpeedLimit) (fastRand monotonicUs : U64) :
    CollectorSpeedLimit × U64 × Bool :=
  if sl.everGrabbed then
    let samplingRange := sl.samplingRange
    if fastRand &&& (collectorSamplingBase - 1) ≥ samplingRange then (sl, 0, false) else (sl, samplingRange, false)
  else isCollectableBeforeFirstTimeGrabbed expectedPerSecond sl monotonicUs

/-- `if (interval_us < 0) interval_us = 0`. -/
def nonNegative (us : U64) : U64 := if us.slt 0 then 0 else us

/-- Unsigned division; `none` is the division by zero. -/
def divide (a b : U64) : Option U64 := if b = 0 then none else some (a / b)

/-- Lines 258–262. -/
def clampRange (range : U64) : U64 :=
  if range = 0 then 1 else if range > collectorSamplingBase then collectorSamplingBase else range

/-- Lines 240–246: the interval is replaced by the time since the first sample. -/
def firstInterval (sl : CollectorSpeedLimit) (gettimeofdayUs intervalUs : U64) : U64 :=
  if sl.firstSampleRealUs ≠ 0 then nonNegative (gettimeofdayUs - sl.firstSampleRealUs) else intervalUs

/-- Lines 248–249. -/
def firstRange (expectedPerSecond : Flag) (intervalUs roundGrabCount : U64) : Option U64 :=
  divide (expectedPerSecond.signExtend 64 * intervalUs * collectorSamplingBase) (1000000 * roundGrabCount)

/-- Lines 251–252. -/
def scaledRange (expectedPerSecond : Flag) (intervalUs oldSamplingRange roundGrabCount : U64) : Option U64 :=
  divide (expectedPerSecond.signExtend 64 * intervalUs * oldSamplingRange) (1000000 * roundGrabCount)

/-- Lines 253–256. -/
def blendedRange (newSamplingRange oldSamplingRange intervalUs : U64) : U64 :=
  if intervalUs.slt 1000000 then
    (newSamplingRange * intervalUs + oldSamplingRange * (1000000 - intervalUs)) / 1000000
  else newSamplingRange

/-- `Collector::update_speed_limit`, with the new `*last_grab_count`; `none` is the division by zero. -/
def updateSpeedLimit (expectedPerSecond : Flag) (gettimeofdayUs : U64) (sl : CollectorSpeedLimit)
    (lastGrabCount curGrabCount intervalUs : U64) : Option (CollectorSpeedLimit × U64) :=
  let roundGrabCount := curGrabCount - lastGrabCount
  if roundGrabCount = 0 then some (sl, lastGrabCount)
  else
    let intervalUs := nonNegative intervalUs
    let newSamplingRange :=
      if sl.everGrabbed then
        (scaledRange expectedPerSecond intervalUs sl.samplingRange roundGrabCount).map
          (fun range => blendedRange range sl.samplingRange intervalUs)
      else firstRange expectedPerSecond (firstInterval sl gettimeofdayUs intervalUs) roundGrabCount
    newSamplingRange.map (fun range =>
      ({ sl with samplingRange := clampRange range, everGrabbed := true }, curGrabCount))

end ContentionProf
