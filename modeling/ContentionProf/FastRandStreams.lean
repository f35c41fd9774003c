import ContentionProf.FastRandSeeding
import ContentionProf.SelectionMean
import Mathlib.Data.Set.Card
import Mathlib.Dynamics.PeriodicPts.Lemmas
import Mathlib.SetTheory.Cardinal.Finite
/-!
# FastRandStreams — the words of a generator over all its states (`common/fast_rand.cpp`)

`xorshift128_next` permutes the states and returns the sum of the two words of the new one.  The all-zero state is the
one a thread starts in; `fast_rand()` never draws from it but seeds it from the clock.  So over the other states,
however many words were drawn before, every word but 0 is next in `2 ^ 64` of them, and 0 in one less.
-/
namespace ContentionProf
namespace FastRand

open Finset

/-- `tls_seed_` after `n` calls of `fast_rand()`, the `i`-th of which finds the clock at `clock i`. -/
def after (clock : Nat → U64) (t : TlsSeed) : Nat → TlsSeed
  | 0     => t
  | n + 1 => (fastRand (clock n) (after clock t n)).2

/-- The word that `fast_rand()` returns after `n` others. -/
def draw (clock : Nat → U64) (t : TlsSeed) (n : Nat) : U64 := (fastRand (clock n) (after clock t n)).1

/-- A state as its words, the sum in place of the second. -/
def sumEquiv : FastRandSeed ≃ U64 × U64 where
  toFun s := (s.s1 + s.s0, s.s0)
  invFun p := ⟨p.2, p.1 - p.2⟩
  left_inv s := congrArg (FastRandSeed.mk s.s0) (add_sub_cancel_right ..)
  right_inv _ := Prod.ext (sub_add_cancel ..) rfl

instance : Finite FastRandSeed := .of_equiv _ sumEquiv.symm

variable {clock : Nat → U64} {t : TlsSeed}

theorem needInit_iterate (n : Nat) (seed : FastRandSeed) : needInit (advance^[n] seed) = needInit seed := by
  induction n with
  | zero => rfl
  | succ n ih => rw [Function.iterate_succ_apply', needInit_advance, ih]

theorem fastRand_eq (us : U64) (h : needInit t.seed = false) :
    fastRand us t = ((xorshift128Next t.seed).1, { t with seed := advance t.seed }) := by
  rw [fastRand, TlsSeed.initIfNeeded, if_neg (by rw [h]; decide)]
  rfl

/-- A state that is not all zero is only advanced. -/
theorem after_eq (h : needInit t.seed = false) (n : Nat) : after clock t n = { t with seed := advance^[n] t.seed } := by
  induction n with
  | zero => rfl
  | succ n ih =>
    rw [after, ih, fastRand_eq _ (by rw [needInit_iterate]; exact h), Function.iterate_succ_apply']

theorem draw_eq (h : needInit t.seed = false) (n : Nat) :
    draw clock t n = (sumEquiv (advance^[n + 1] t.seed)).1 := by
  rw [draw, after_eq h, fastRand_eq _ (by rw [needInit_iterate]; exact h), Function.iterate_succ_apply']
  rfl

/-- From zeroes the first call seeds the generator. -/
theorem after_zero (n : Nat) :
    (after clock .zero (n + 1)).seed = advance^[n + 1] (initFastRandSeed (clock 0)) := by
  induction n with
  | zero => rfl
  | succ n ih =>
    have hinit : needInit (after clock .zero (n + 1)).seed = false := by
      rw [ih, needInit_iterate]
      exact needInit_initFastRandSeed _
    rw [after, fastRand_eq _ hinit, ih, ← Function.iterate_succ_apply' advance]

theorem iterate_bijective (n : Nat) : Function.Bijective advance^[n] :=
  Finite.injective_iff_bijective.1 (advance_injective.iterate n)

theorem natCard_word : Nat.card U64 = 2 ^ 64 := by
  rw [Nat.card_congr BitVec.equivFin.toEquiv, Nat.card_fin]

/-- The state after `n + 1` steps, as words: nothing but zeroes comes from zeroes. -/
theorem sumEquiv_iterate_eq_zero (n : Nat) (seed : FastRandSeed) :
    sumEquiv (advance^[n] seed) = (0, 0) ↔ needInit seed = true := by
  have hzero : ∀ s : FastRandSeed, sumEquiv s = (0, 0) ↔ needInit s = true := by
    rintro ⟨a, b⟩
    rw [needInit, Bool.and_eq_true, decide_eq_true_iff, decide_eq_true_iff]
    refine ⟨fun h => ?_, ?_⟩
    · obtain ⟨hsum, ha⟩ := Prod.mk.inj h
      obtain rfl : a = 0 := ha
      exact ⟨rfl, (add_zero b).symm.trans hsum⟩
    · rintro ⟨rfl, rfl⟩
      rfl
  rw [hzero, needInit_iterate]

/-- The states other than zero whose next word has a property, as pairs of words. -/
theorem card_draw_eq (inits n : Nat) (P : U64 → Prop) :
    Nat.card {seed // needInit seed = false ∧ P (draw clock ⟨seed, inits⟩ n)} =
      ({p : U64 × U64 | P p.1} \ {(0, 0)}).ncard := by
  let e : FastRandSeed ≃ U64 × U64 := (Equiv.ofBijective _ (iterate_bijective (n + 1))).trans sumEquiv
  have he : ∀ seed, needInit seed = false ∧ P (draw clock ⟨seed, inits⟩ n) ↔
      e seed ∈ {p : U64 × U64 | P p.1} \ {(0, 0)} := by
    intro seed
    have hz : e seed = (0, 0) ↔ needInit seed = true := sumEquiv_iterate_eq_zero (n + 1) seed
    rw [Set.mem_sdiff, Set.mem_singleton_iff, hz, Bool.not_eq_true, and_comm]
    exact and_congr_left (fun h => by rw [draw_eq (t := ⟨seed, inits⟩) h]; rfl)
  rw [Nat.card_congr (e.subtypeEquiv he), ← Nat.card_coe_set_eq]

theorem ncard_fst (P : U64 → Prop) : {p : U64 × U64 | P p.1}.ncard = Nat.card {w // P w} * 2 ^ 64 := by
  have hcard : Nat.card {p : U64 × U64 // P p.1} = Nat.card {w // P w} * 2 ^ 64 := by
    rw [Nat.card_congr Equiv.prodSubtypeFstEquivSubtypeProd, Nat.card_prod, natCard_word]
  exact hcard

/-- **The states whose next word has a property**: `2 ^ 64` for each such word, without the one that is all zero. -/
theorem card_draw (inits n : Nat) {P : U64 → Prop} (h0 : P 0) :
    Nat.card {seed // needInit seed = false ∧ P (draw clock ⟨seed, inits⟩ n)} =
      Nat.card {w // P w} * 2 ^ 64 - 1 := by
  rw [card_draw_eq, Set.ncard_sdiff_singleton_of_mem (show ((0, 0) : U64 × U64) ∈ {p | P p.1} from h0), ncard_fst]

theorem card_draw_of_not (inits n : Nat) {P : U64 → Prop} (h0 : ¬ P 0) :
    Nat.card {seed // needInit seed = false ∧ P (draw clock ⟨seed, inits⟩ n)} = Nat.card {w // P w} * 2 ^ 64 := by
  rw [card_draw_eq, Set.sdiff_singleton_eq_self (show ((0, 0) : U64 × U64) ∉ {p | P p.1} from h0), ncard_fst]

theorem initFastRandSeed_injective : Function.Injective initFastRandSeed := by
  intro a b h
  obtain ⟨h0, -⟩ := FastRandSeed.mk.inj h
  exact add_right_cancel (splitmix64Mix_injective h0)

/-- **Over the states other than zero every word but 0 is next in `2 ^ 64` of them and 0 in one less**, however many
words were drawn before; every stream comes back to its start; and threads that seeded themselves at different times
are never in step. -/
theorem streams_even (clock : Nat → U64) (n : Nat) :
    (∀ inits w, Nat.card {seed // needInit seed = false ∧ draw clock ⟨seed, inits⟩ n = w} =
      if w = 0 then 2 ^ 64 - 1 else 2 ^ 64) ∧
      (∀ t, needInit t.seed = false → ∃ k, 0 < k ∧ after clock t k = t) ∧
      ∀ clock', clock 0 ≠ clock' 0 → (after clock .zero (n + 1)).seed ≠ (after clock' .zero (n + 1)).seed := by
  refine ⟨fun inits w => ?_, fun t ht => ?_, fun clock' hne h => ?_⟩
  · split
    · rename_i hw
      rw [card_draw inits n (P := fun v => v = w) hw.symm, Nat.card_unique, Nat.one_mul]
    · rename_i hw
      rw [card_draw_of_not inits n (P := fun v => v = w) (fun h => hw h.symm), Nat.card_unique, Nat.one_mul]
  · obtain ⟨k, hk, hp⟩ := advance_injective.mem_periodicPts t.seed
    refine ⟨k, hk, ?_⟩
    rw [after_eq ht, show advance^[k] t.seed = t.seed from hp]
  · rw [after_zero, after_zero] at h
    exact hne (initFastRandSeed_injective ((iterate_bijective (n + 1)).1 h))

variable {F : Flag} {sl : CollectorSpeedLimit} {us : U64}

theorem card_words_below {r : Nat} (hr : r ≤ 16384) : Nat.card {w : U64 // w.toNat % 16384 < r} = r * 2 ^ 50 := by
  have hbelow : (range 16384).filter (fun c => c < r) = range r := by
    ext c
    rw [mem_filter, mem_range, mem_range]
    omega
  rw [Nat.card_eq_fintype_card, Fintype.card_subtype, card_words (fun n => n % 16384 < r), card_filter,
    show 2 ^ 64 = 2 ^ 50 * 16384 by norm_num, sum_range_mod (2 ^ 50) 16384 (fun c => if c < r then 1 else 0),
    ← card_filter, hbelow, card_range, smul_eq_mul, Nat.mul_comm]

/-- **A contention is sampled in exactly its share of the generator's states**: `sampling_range` of
`COLLECTOR_SAMPLING_BASE`, but for the all-zero state, which is none of a seeded generator. -/
theorem collectable_share (hg : sl.everGrabbed = true) (hpos : 0 < sl.samplingRange.toNat)
    (hr : sl.samplingRange.toNat ≤ 16384) (inits n : Nat) :
    Nat.card {seed // needInit seed = false ∧ (isCollectable F sl (draw clock ⟨seed, inits⟩ n) us).2.1 ≠ 0} =
      sl.samplingRange.toNat * 2 ^ 114 - 1 := by
  have hiff : ∀ w, (isCollectable F sl w us).2.1 ≠ 0 ↔ w.toNat % 16384 < sl.samplingRange.toNat := by
    intro w
    have hw := Selection.range_eq (F := F) us hg w
    rw [show (isCollectable F sl w us).2.1 = _ from hw]
    split
    · exact iff_of_true (Selection.ne_zero_of_toNat rfl (by omega)) ‹_›
    · exact iff_of_false (fun h => h rfl) ‹_›
  rw [card_draw inits n (P := fun w => (isCollectable F sl w us).2.1 ≠ 0) ((hiff 0).2 hpos),
    Nat.card_congr (Equiv.subtypeEquivRight hiff), card_words_below hr, Nat.mul_assoc, ← Nat.pow_add]

/-- A quarter of the states. -/
theorem collectable_share_quarter :
    Nat.card {seed // needInit seed = false ∧
      (isCollectable 1000 Selection.quarterLimit (draw (fun _ => 0) ⟨seed, 0⟩ 3) 0).2.1 ≠ 0} = 4096 * 2 ^ 114 - 1 :=
  collectable_share (by decide) (by decide) (by decide) 0 3

end FastRand
end ContentionProf
