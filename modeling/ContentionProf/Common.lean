import Mathlib.Data.BitVec
/-!
# Common — machine words and the hash of `Util`

Thread ids are natural numbers, so a run may use any number of threads; an address, a time and a `size_t` are 64-bit
words with the wrap-around arithmetic of `BitVec`.
-/
namespace ContentionProf

abbrev U64 := BitVec 64

abbrev Thread := Nat

/-- An address: `pthread_mutex_t*` read as `uint64_t`. -/
abbrev Addr := U64

/-- `Util::fmix64`. -/
def fmix64 (k : U64) : U64 :=
  let k := k ^^^ (k >>> 33)
  let k := k * 0xff51afd7ed558ccd#64
  let k := k ^^^ (k >>> 33)
  let k := k * 0xc4ceb9fe1a85ec53#64
  k ^^^ (k >>> 33)

/-- `COLLECTOR_SAMPLING_BASE`. -/
def collectorSamplingBase : U64 := 16384#64

end ContentionProf
