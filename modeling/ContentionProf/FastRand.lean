import ContentionProf.Common
/-!
# FastRand — the random numbers of a thread (`common/fast_rand.cpp`)

A `uint64_t` and an `int64_t` are both 64-bit words.  A clock is an input of the call that may read it, and so is the
number of times its loop goes round.
-/
namespace ContentionProf

/-- `FastRandSeed`, the array `s`. -/
structure FastRandSeed where
  s0 : U64
  s1 : U64
  deriving DecidableEq

namespace FastRand

/-- `splitmix64_next`: the value, and the seed afterwards. -/
def splitmix64Next (seed : U64) : U64 × U64 :=
  let seed := seed + 0x9E3779B97F4A7C15#64
  let z := seed
  let z := (z ^^^ (z >>> 30)) * 0xBF58476D1CE4E5B9#64
  let z := (z ^^^ (z >>> 27)) * 0x94D049BB133111EB#64
  (z ^^^ (z >>> 31), seed)

/-- `xorshift128_next`: the word, and the state afterwards. -/
def xorshift128Next (seed : FastRandSeed) : U64 × FastRandSeed :=
  let s1 := seed.s0
  let s0 := seed.s1
  let s1 := s1 ^^^ (s1 <<< 23)
  let seed : FastRandSeed := { s0 := s0, s1 := s1 ^^^ s0 ^^^ (s1 >>> 18) ^^^ (s0 >>> 5) }
  (seed.s1 + s0, seed)

/-- `init_fast_rand_seed`, which reads the clock once. -/
def initFastRandSeed (gettimeofdayUs : U64) : FastRandSeed :=
  let first := splitmix64Next gettimeofdayUs
  let second := splitmix64Next first.2
  { s0 := first.1, s1 := second.1 }

/-- The body of the loop of `fast_rand_impl`: `result`, and the state afterwards. -/
def implBody (div : U64) (seed : FastRandSeed) : U64 × FastRandSeed :=
  let next := xorshift128Next seed
  (next.1 / div, next.2)

/-- The loop, which goes round so many times at most. -/
def implLoop (range div : U64) : Nat → FastRandSeed → Option (U64 × FastRandSeed)
  | 0, seed         =>
    let r := implBody div seed
    if range ≤ r.1 then none else some r
  | again + 1, seed =>
    let r := implBody div seed
    if range ≤ r.1 then implLoop range div again r.2 else some r

/-- `fast_rand_impl`, which no caller gives the range 0; `none` is a loop that has not ended. -/
def fastRandImpl (again : Nat) (range : U64) (seed : FastRandSeed) : Option (U64 × FastRandSeed) :=
  let div := BitVec.allOnes 64 / range
  implLoop range div again seed

/-- `need_init`. -/
def needInit (seed : FastRandSeed) : Bool := seed.s0 = 0 && seed.s1 = 0

/-- `tls_seed_` of a thread, and how often it has been initialised. -/
structure TlsSeed where
  seed : FastRandSeed
  inits : Nat
  deriving DecidableEq

/-- The zeroes that a thread starts with. -/
def TlsSeed.zero : TlsSeed := { seed := { s0 := 0, s1 := 0 }, inits := 0 }

/-- What every call but `fast_rand_less_than(0)` begins with. -/
def TlsSeed.initIfNeeded (gettimeofdayUs : U64) (t : TlsSeed) : TlsSeed :=
  if needInit t.seed then { seed := initFastRandSeed gettimeofdayUs, inits := t.inits + 1 } else t

/-- The result of a function of `tls_seed_`, put back. -/
def TlsSeed.put (t : TlsSeed) (r : U64 × FastRandSeed) : U64 × TlsSeed := (r.1, { t with seed := r.2 })

/-- `fast_rand()`. -/
def fastRand (gettimeofdayUs : U64) (t : TlsSeed) : U64 × TlsSeed :=
  let t := t.initIfNeeded gettimeofdayUs
  t.put (xorshift128Next t.seed)

/-- `fast_rand_less_than`. -/
def fastRandLessThan (again : Nat) (gettimeofdayUs range : U64) (t : TlsSeed) : Option (U64 × TlsSeed) :=
  if range = 0 then
    some (0, t)
  else
    let t := t.initIfNeeded gettimeofdayUs
    (fastRandImpl again range t.seed).map t.put

/-- The end of `fast_rand_in_64` and of `fast_rand_in_u64`, where `min < max`. -/
def drawIn (again : Nat) (min max : U64) (t : TlsSeed) : Option (U64 × TlsSeed) :=
  let range := max - min + 1
  if range = 0 then
    some (t.put (xorshift128Next t.seed))
  else
    (fastRandImpl again range t.seed).map (fun r => t.put (min + r.1, r.2))

/-- `fast_rand_in_64` and `fast_rand_in_u64`, which compare in different ways. -/
def fastRandIn (less : U64 → U64 → Bool) (again : Nat) (gettimeofdayUs min max : U64) (t : TlsSeed) :
    Option (U64 × TlsSeed) :=
  let t := t.initIfNeeded gettimeofdayUs
  if less min max then
    drawIn again min max t
  else if min = max then
    some (min, t)
  else
    drawIn again max min t

/-- `fast_rand_in_64`. -/
def fastRandIn64 : Nat → U64 → U64 → U64 → TlsSeed → Option (U64 × TlsSeed) := fastRandIn BitVec.slt

/-- `fast_rand_in_u64`. -/
def fastRandInU64 : Nat → U64 → U64 → U64 → TlsSeed → Option (U64 × TlsSeed) := fastRandIn BitVec.ult

end FastRand
end ContentionProf
