import ContentionProf.FastRand
import ContentionProf.Run
import ContentionProf.Scramble
/-!
# FastRandSeeding — a thread's random numbers are seeded once (`common/fast_rand.cpp`)

`splitmix64_next` loses nothing of the seed it adds to, so two values in a row differ and cannot both be 0.
`xorshift128_next` loses nothing of its state, and 0 stays 0, so nothing else becomes 0.
-/
namespace ContentionProf
namespace FastRand

open Scramble

/-- What `splitmix64_next` makes of its sum. -/
def splitmix64Mix (z : U64) : U64 :=
  let z := (z ^^^ (z >>> 30)) * 0xBF58476D1CE4E5B9#64
  let z := (z ^^^ (z >>> 27)) * 0x94D049BB133111EB#64
  z ^^^ (z >>> 31)

theorem splitmix64Mix_injective : Function.Injective splitmix64Mix := by
  have hmul₁ : IsUnit (0xBF58476D1CE4E5B9#64) := .of_mul_eq_one 0x96DE1B173F119089#64 (by decide)
  have hmul₂ : IsUnit (0x94D049BB133111EB#64) := .of_mul_eq_one 0x319642B2D24D8EC3#64 (by decide)
  intro x y h
  have h₁ := hmul₂.mul_left_injective (xor_ushiftRight_injective (by decide) h)
  have h₂ := hmul₁.mul_left_injective (xor_ushiftRight_injective (by decide) h₁)
  exact xor_ushiftRight_injective (by decide) h₂

/-- **A seed from the clock is not all zero.** -/
theorem needInit_initFastRandSeed (gettimeofdayUs : U64) : needInit (initFastRandSeed gettimeofdayUs) = false := by
  rw [← Bool.not_eq_true, needInit, Bool.and_eq_true, decide_eq_true_iff, decide_eq_true_iff]
  rintro ⟨h0, h1⟩
  have hsame : gettimeofdayUs + 0x9E3779B97F4A7C15#64 =
      gettimeofdayUs + 0x9E3779B97F4A7C15#64 + 0x9E3779B97F4A7C15#64 := splitmix64Mix_injective (h0.trans h1.symm)
  exact absurd (left_eq_add.1 hsame) (by decide)

/-- The state after `xorshift128_next`. -/
def advance (seed : FastRandSeed) : FastRandSeed := (xorshift128Next seed).2

theorem advance_injective : Function.Injective advance := by
  rintro ⟨a, b⟩ ⟨c, d⟩ h
  obtain ⟨rfl, hs⟩ := FastRandSeed.mk.inj h
  have hb : ∀ t : U64, t ^^^ b ^^^ t >>> 18 ^^^ b >>> 5 = t ^^^ t >>> 18 ^^^ (b ^^^ b >>> 5) := by
    intro t
    rw [BitVec.xor_assoc t b, BitVec.xor_comm b, ← BitVec.xor_assoc, BitVec.xor_assoc _ b]
  rw [hb, hb, BitVec.xor_left_inj] at hs
  have hac : a = c := xor_shiftLeft_injective (by decide) (xor_ushiftRight_injective (by decide) hs)
  rw [hac]

theorem needInit_advance (seed : FastRandSeed) : needInit (advance seed) = needInit seed := by
  have hzero : ∀ s : FastRandSeed, needInit s = true ↔ s = { s0 := 0, s1 := 0 } := by
    rintro ⟨a, b⟩
    rw [needInit, Bool.and_eq_true, decide_eq_true_iff, decide_eq_true_iff, FastRandSeed.mk.injEq]
  have hfix : advance { s0 := 0, s1 := 0 } = { s0 := 0, s1 := 0 } := by decide
  rw [Bool.eq_iff_iff, hzero, hzero]
  nth_rewrite 1 [← hfix]
  exact advance_injective.eq_iff

theorem needInit_implLoop (range div : U64) : ∀ {again : Nat} {seed : FastRandSeed} {r : U64 × FastRandSeed},
    implLoop range div again seed = some r → needInit r.2 = needInit seed
  | 0, seed, r, h         => by
    rw [implLoop] at h
    by_cases hr : range ≤ (implBody div seed).1
    · rw [if_pos hr] at h
      cases h
    · rw [if_neg hr] at h
      cases h
      exact needInit_advance seed
  | again + 1, seed, r, h => by
    rw [implLoop] at h
    by_cases hr : range ≤ (implBody div seed).1
    · rw [if_pos hr] at h
      exact (needInit_implLoop range div h).trans (needInit_advance seed)
    · rw [if_neg hr] at h
      cases h
      exact needInit_advance seed

/-! ### Runs of calls by any threads -/

/-- A call that uses `tls_seed_`. -/
inductive Call
  | fastRand
  | fastRandLessThan (again : Nat) (range : U64)
  | fastRandIn64 (again : Nat) (min max : U64)
  | fastRandInU64 (again : Nat) (min max : U64)

namespace Call

def apply (gettimeofdayUs : U64) (t : TlsSeed) : Call → Option (U64 × TlsSeed)
  | .fastRand                     => some (FastRand.fastRand gettimeofdayUs t)
  | .fastRandLessThan again range => FastRand.fastRandLessThan again gettimeofdayUs range t
  | .fastRandIn64 again min max   => FastRand.fastRandIn64 again gettimeofdayUs min max t
  | .fastRandInU64 again min max  => FastRand.fastRandInU64 again gettimeofdayUs min max t

/-- Whether the call gets as far as `need_init`. -/
def asks : Call → Bool
  | .fastRandLessThan _ range                               => range ≠ 0
  | .fastRand | .fastRandIn64 _ _ _ | .fastRandInU64 _ _ _ => true

end Call

/-- A call of one thread, at a reading of the clock. -/
structure Move where
  thread : Thread
  gettimeofdayUs : U64
  call : Call

/-- All threads, each with its own `tls_seed_`, which is zero at first. -/
def generators : System (Thread → TlsSeed) Move where
  init s := s = fun _ => .zero
  step s m := (m.call.apply m.gettimeofdayUs (s m.thread)).map (fun r => Function.update s m.thread r.2)

/-- Whether the move is a thread's and gets as far as `need_init`. -/
def Move.asks (m : Move) (t : Thread) : Bool := m.thread = t && m.call.asks

/-- **Initialised once after the first question**, and not before it. -/
structure Seeded (asked : Bool) (t : TlsSeed) : Prop where
  inits : t.inits = if asked then 1 else 0
  needInit : needInit t.seed = !asked

theorem Seeded.initIfNeeded {asked : Bool} {t : TlsSeed} (h : Seeded asked t) (now : U64) :
    Seeded true (t.initIfNeeded now) := by
  rw [TlsSeed.initIfNeeded]
  cases asked with
  | false =>
    rw [if_pos (by rw [h.needInit]; rfl)]
    exact ⟨by rw [h.inits]; rfl, needInit_initFastRandSeed now⟩
  | true =>
    rw [if_neg (by rw [h.needInit]; decide)]
    exact h

/-- A state that is put back with what `need_init` reads unchanged. -/
theorem Seeded.put {asked : Bool} {t : TlsSeed} {r : U64 × FastRandSeed} (h : Seeded asked t)
    (hr : FastRand.needInit r.2 = FastRand.needInit t.seed) : Seeded asked (t.put r).2 :=
  ⟨h.inits, hr.trans h.needInit⟩

theorem Seeded.drawIn {asked : Bool} {t : TlsSeed} (h : Seeded asked t) {again : Nat} {min max : U64}
    {r : U64 × TlsSeed} (hr : FastRand.drawIn again min max t = some r) : Seeded asked r.2 := by
  rw [FastRand.drawIn] at hr
  by_cases h0 : max - min + 1 = 0
  · rw [if_pos h0] at hr
    cases hr
    exact h.put (needInit_advance _)
  · rw [if_neg h0] at hr
    obtain ⟨r', hr', rfl⟩ := Option.map_eq_some_iff.1 hr
    have hkept : FastRand.needInit r'.2 = FastRand.needInit t.seed := needInit_implLoop _ _ hr'
    exact h.put (r := (min + r'.1, r'.2)) hkept

theorem Seeded.fastRandIn {asked : Bool} {t : TlsSeed} (h : Seeded asked t) {less : U64 → U64 → Bool} {again : Nat}
    {now min max : U64} {r : U64 × TlsSeed} (hr : FastRand.fastRandIn less again now min max t = some r) :
    Seeded true r.2 := by
  have hinit := h.initIfNeeded now
  rw [FastRand.fastRandIn] at hr
  by_cases hl : less min max = true
  · rw [if_pos hl] at hr
    exact hinit.drawIn hr
  · rw [if_neg hl] at hr
    by_cases he : min = max
    · rw [if_pos he] at hr
      cases hr
      exact hinit
    · rw [if_neg he] at hr
      exact hinit.drawIn hr

theorem Seeded.fastRandLessThan {asked : Bool} {t : TlsSeed} (h : Seeded asked t) {again : Nat} {now range : U64}
    {r : U64 × TlsSeed} (hr : FastRand.fastRandLessThan again now range t = some r) :
    Seeded (asked || decide (range ≠ 0)) r.2 := by
  rw [FastRand.fastRandLessThan] at hr
  by_cases h0 : range = 0
  · rw [if_pos h0] at hr
    cases hr
    rw [decide_eq_false (not_not.2 h0), Bool.or_false]
    exact h
  · rw [if_neg h0] at hr
    obtain ⟨r', hr', rfl⟩ := Option.map_eq_some_iff.1 hr
    rw [decide_eq_true h0, Bool.or_true]
    exact (h.initIfNeeded now).put (needInit_implLoop _ _ hr')

/-- **One call.** -/
theorem Seeded.apply {asked : Bool} {t : TlsSeed} (h : Seeded asked t) {now : U64} {call : Call} {r : U64 × TlsSeed}
    (hr : call.apply now t = some r) : Seeded (asked || call.asks) r.2 := by
  cases call with
  | fastRand =>
    cases hr
    rw [Call.asks, Bool.or_true]
    exact (h.initIfNeeded now).put (needInit_advance _)
  | fastRandLessThan again range => exact h.fastRandLessThan hr
  | fastRandIn64 again min max =>
    rw [Call.asks, Bool.or_true]
    exact h.fastRandIn hr
  | fastRandInU64 again min max =>
    rw [Call.asks, Bool.or_true]
    exact h.fastRandIn hr

theorem Seeded.step {s s' : Thread → TlsSeed} {m : Move} {asked : Bool} {t : Thread} (h : Seeded asked (s t))
    (hs : generators.step s m = some s') : Seeded (asked || m.asks t) (s' t) := by
  obtain ⟨r, hr, rfl⟩ := Option.map_eq_some_iff.1 hs
  rw [Move.asks]
  by_cases ht : m.thread = t
  · subst ht
    simpa using h.apply hr
  · simpa [ht, Function.update_of_ne (Ne.symm ht)] using h

/-- **Any run**, after moves that asked or did not. -/
theorem Seeded.run {t : Thread} : ∀ {moves : List Move} {s s' : Thread → TlsSeed} {asked : Bool},
    Seeded asked (s t) → generators.run s moves = some s' → Seeded (asked || moves.any (fun m => m.asks t)) (s' t)
  | [], s, s', asked, h, hr         => by
    cases hr
    simpa using h
  | m :: moves, s, s', asked, h, hr => by
    rw [System.run_cons] at hr
    obtain ⟨s₁, hs, hr'⟩ := Option.bind_eq_some_iff.1 hr
    have hlater := (h.step hs).run hr'
    rw [Bool.or_assoc] at hlater
    exact hlater

/-- **No state of a seeded generator is all zero, and a thread's generator is seeded exactly once**: by its first call
that asks, after which `need_init` is false for good, whatever the clock reads. -/
theorem seeded_once :
    (∀ gettimeofdayUs n, needInit (advance^[n] (initFastRandSeed gettimeofdayUs)) = false) ∧
    ∀ (moves : List Move) (s : Thread → TlsSeed), generators.run (fun _ => .zero) moves = some s →
      ∀ t, Seeded (moves.any (fun m => m.asks t)) (s t) := by
  refine ⟨fun now n => ?_, fun moves s hr t => ?_⟩
  · induction n with
    | zero => exact needInit_initFastRandSeed now
    | succ n ih => rw [Function.iterate_succ_apply', needInit_advance, ih]
  · have hzero : Seeded false TlsSeed.zero := ⟨rfl, rfl⟩
    exact hzero.run (s := fun _ => .zero) hr

/-- Two calls of one thread, the first one when the clock makes the first sum wrap to 0. -/
def twice : List Move := [⟨1, 0x61C8864680B583EB#64, .fastRand⟩, ⟨1, 0, .fastRandLessThan 0 1⟩]

theorem seeded_once_twice : ∃ s, generators.run (fun _ => .zero) twice = some s ∧ Seeded true (s 1) ∧
    Seeded false (s 0) :=
  ⟨_, rfl, seeded_once.2 twice _ rfl 1, seeded_once.2 twice _ rfl 0⟩

end FastRand
end ContentionProf
