import Mathlib.Algebra.BigOperators.Field
import Mathlib.Algebra.BigOperators.Intervals
import Mathlib.Algebra.Order.Field.Rat
import ContentionProf.Common
/-!
# Words — means over all random words

A generator's word is one of `2 ^ 64`.  When a function of a word depends on its remainder by a divisor of `2 ^ 64`
only, all remainders count alike.
-/
namespace ContentionProf

open Finset

instance : Fintype U64 :=
  .ofEquiv (Fin (2 ^ 64)) { toFun := BitVec.ofFin, invFun := BitVec.toFin, left_inv := fun _ => rfl
                            right_inv := fun _ => rfl }

theorem card_words (P : Nat → Prop) [DecidablePred P] :
    (univ.filter (fun w : U64 => P w.toNat)).card = ((range (2 ^ 64)).filter P).card := by
  refine card_bij (fun w _ => w.toNat) ?_ (fun _ _ _ _ h => BitVec.eq_of_toNat_eq h) ?_
  · intro w hw
    exact mem_filter.2 ⟨mem_range.2 w.isLt, (mem_filter.1 hw).2⟩
  · intro n hn
    obtain ⟨hlt, hP⟩ := mem_filter.1 hn
    have hmod : (BitVec.ofNat 64 n).toNat = n := by rw [BitVec.toNat_ofNat, Nat.mod_eq_of_lt (mem_range.1 hlt)]
    exact ⟨BitVec.ofNat 64 n, mem_filter.2 ⟨mem_univ _, by rwa [hmod]⟩, hmod⟩

/-- **Every remainder occurs alike.** -/
theorem sum_range_mod {M : Type} [AddCommMonoid M] (k m : Nat) (g : Nat → M) :
    ∑ n ∈ range (k * m), g (n % m) = k • ∑ c ∈ range m, g c := by
  induction k with
  | zero => simp
  | succ k ih =>
    have hrow : ∑ c ∈ range m, g ((k * m + c) % m) = ∑ c ∈ range m, g c := by
      refine sum_congr rfl (fun c hc => ?_)
      rw [Nat.mul_comm, Nat.mul_add_mod, Nat.mod_eq_of_lt (mem_range.1 hc)]
    rw [Nat.add_mul, Nat.one_mul, sum_range_add, ih, hrow, succ_nsmul]

variable {f : U64 → ℚ} {k m : Nat}

/-- **The classes of words with one remainder are equally large.** -/
theorem card_class (hkm : 2 ^ 64 = k * m) {c : Nat} (hc : c < m) :
    ((range (2 ^ 64)).filter (fun n => (BitVec.ofNat 64 n).toNat % m = c)).card = k := by
  have hfilter : (range (2 ^ 64)).filter (fun n => (BitVec.ofNat 64 n).toNat % m = c) =
      (range (2 ^ 64)).filter (fun n => n % m = c) := by
    refine filter_congr (fun n hn => ?_)
    rw [BitVec.toNat_ofNat, Nat.mod_eq_of_lt (mem_range.1 hn)]
  rw [hfilter, card_filter, hkm, sum_range_mod k m (fun r => if r = c then 1 else 0), sum_ite_eq' (range m) c,
    if_pos (mem_range.2 hc)]
  simp

end ContentionProf
