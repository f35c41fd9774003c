import Mathlib.Data.BitVec
/-!
# Scramble — what a word xored with a shift of itself keeps

A shift is linear, so two words with one image differ by a word that is its own shift, and that is 0.
-/
namespace ContentionProf
namespace Scramble

variable {w k : Nat}

theorem eq_zero_of_eq_ushiftRight (hk : 0 < k) {d : BitVec w} (h : d = d >>> k) : d = 0#w := by
  by_contra hne
  have hpos : 0 < d.toNat := Nat.pos_of_ne_zero (fun h0 => hne (BitVec.eq_of_toNat_eq (by simpa using h0)))
  have hnat := congrArg BitVec.toNat h
  rw [BitVec.toNat_ushiftRight, Nat.shiftRight_eq_div_pow] at hnat
  have hlt : d.toNat / 2 ^ k < d.toNat := Nat.div_lt_self hpos (Nat.one_lt_two_pow (by omega))
  omega

theorem eq_zero_of_eq_shiftLeft (hk : 0 < k) {d : BitVec w} (h : d = d <<< k) : d = 0#w := by
  have hbits : ∀ i, d.getLsbD i = false := by
    intro i
    induction i using Nat.strong_induction_on with
    | h i ih =>
      rw [h, BitVec.getLsbD_shiftLeft]
      by_cases hi : i < k
      · simp [hi]
      · simp [ih (i - k) (by omega)]
  refine BitVec.eq_of_getLsbD_eq (fun i _ => ?_)
  rw [hbits, BitVec.getLsbD_zero]

theorem xor_eq_xor_swap {a b c d : BitVec w} (h : a ^^^ c = b ^^^ d) : a ^^^ b = c ^^^ d := by
  calc a ^^^ b = (a ^^^ c) ^^^ (c ^^^ b) := by rw [BitVec.xor_assoc, ← BitVec.xor_assoc c, BitVec.xor_self,
                                              BitVec.zero_xor]
    _ = (d ^^^ b) ^^^ (b ^^^ c) := by rw [h, BitVec.xor_comm b d, BitVec.xor_comm c b]
    _ = c ^^^ d := by rw [BitVec.xor_assoc, ← BitVec.xor_assoc b, BitVec.xor_self, BitVec.zero_xor, BitVec.xor_comm]

theorem xor_ushiftRight_injective (hk : 0 < k) : Function.Injective (fun x : BitVec w => x ^^^ x >>> k) := by
  intro x y h
  have hd : x ^^^ y = (x ^^^ y) >>> k := by
    rw [BitVec.ushiftRight_xor_distrib]
    exact xor_eq_xor_swap h
  exact BitVec.xor_eq_zero_iff.1 (eq_zero_of_eq_ushiftRight hk hd)

theorem xor_shiftLeft_injective (hk : 0 < k) : Function.Injective (fun x : BitVec w => x ^^^ x <<< k) := by
  intro x y h
  have hd : x ^^^ y = (x ^^^ y) <<< k := by
    rw [BitVec.shiftLeft_xor_distrib]
    exact xor_eq_xor_swap h
  exact BitVec.xor_eq_zero_iff.1 (eq_zero_of_eq_shiftLeft hk hd)

end Scramble
end ContentionProf
