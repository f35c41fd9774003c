import Mathlib.Algebra.BigOperators.Fin
import Mathlib.Data.Fin.Tuple.Basic
import Mathlib.Data.Fintype.BigOperators
import Mathlib.Data.Fintype.Pi
/-!
# Rejection — the first accepted of so many words

A word of `W` has an outcome or is rejected.  Words are drawn until one is accepted.  Whatever the number of words
drawn, outcomes that as many words have are the first outcome of as many sequences.
-/
namespace ContentionProf
namespace Rejection

open Finset

variable {W R : Type} [Fintype W] [DecidableEq R]

/-- How many words have an outcome, or are rejected. -/
def weight (accept : W → Option R) (r : Option R) : Nat := (univ.filter (fun w => accept w = r)).card

/-- Of how many sequences of `n` words it is the first outcome; `none` where every word is rejected. -/
def first (accept : W → Option R) (n : Nat) (r : Option R) : Nat :=
  (univ.filter (fun ws : Fin n → W => (List.ofFn ws).findSome? accept = r)).card

/-- How many sequences of `n` words have an outcome. -/
def returned (accept : W → Option R) (n : Nat) : Nat :=
  (univ.filter (fun ws : Fin n → W => ((List.ofFn ws).findSome? accept).isSome)).card

/-- What `first` is for an outcome of one word. -/
def reach (accept : W → Option R) : Nat → Nat
  | 0     => 0
  | n + 1 => Fintype.card W ^ n + weight accept none * reach accept n

variable {accept : W → Option R}

/-- The sequences of one more word, by the first. -/
theorem card_filter_cons (P : List W → Prop) [DecidablePred P] (n : Nat) :
    (univ.filter (fun ws : Fin (n + 1) → W => P (List.ofFn ws))).card =
      ∑ w : W, (univ.filter (fun ws : Fin n → W => P (w :: List.ofFn ws))).card := by
  rw [card_filter, ← (Fin.consEquiv (fun _ => W)).sum_comp, Fintype.sum_prod_type]
  refine sum_congr rfl (fun w _ => ?_)
  rw [card_filter]
  refine sum_congr rfl (fun ws _ => ?_)
  simp [Fin.consEquiv, List.ofFn_succ]

theorem first_zero (r : R) : first accept 0 (some r) = 0 := by simp [first]

/-- One word more: it has the outcome, or it is rejected and the others have it first. -/
theorem first_succ (n : Nat) (r : R) :
    first accept (n + 1) (some r) =
      weight accept (some r) * Fintype.card W ^ n + weight accept none * first accept n (some r) := by
  have hword : ∀ w : W, (univ.filter (fun ws : Fin n → W => (w :: List.ofFn ws).findSome? accept = some r)).card =
      (if accept w = some r then Fintype.card W ^ n else 0) +
        if accept w = none then first accept n (some r) else 0 := by
    intro w
    cases ha : accept w with
    | none => simp [ha, first]
    | some r' => by_cases hr : r' = r <;> simp [ha, hr]
  rw [first, card_filter_cons (fun ws => ws.findSome? accept = some r)]
  simp only [hword, sum_add_distrib, ← sum_filter, sum_const, smul_eq_mul]
  rfl

/-- **An outcome comes first in proportion to its words.** -/
theorem first_eq (r : R) : ∀ n : Nat, first accept n (some r) = weight accept (some r) * reach accept n
  | 0     => by rw [first_zero, reach, Nat.mul_zero]
  | n + 1 => by rw [first_succ, first_eq r n, reach, Nat.mul_add, Nat.mul_left_comm]

/-- **Every outcome of `S` has `k` words**, no other outcome has any. -/
structure Fair (accept : W → Option R) (S : Finset R) (k : Nat) : Prop where
  mem : ∀ {w r}, accept w = some r → r ∈ S
  weight_eq : ∀ r ∈ S, weight accept (some r) = k

variable {S : Finset R} {k : Nat}

omit [Fintype W] [DecidableEq R] in
theorem of_findSome? {P : R → Prop} (h : ∀ {w r}, accept w = some r → P r) {ws : List W} {r : R}
    (hr : ws.findSome? accept = some r) : P r := by
  obtain ⟨w, -, hw⟩ := List.exists_of_findSome?_eq_some hr
  exact h hw

/-- **Then all outcomes are equally likely**: each has its share of the sequences that have an outcome. -/
theorem Fair.returned_eq (h : Fair accept S k) (n : Nat) {r : R} (hr : r ∈ S) :
    returned accept n = S.card * first accept n (some r) := by
  have hmaps : ∀ ws ∈ univ.filter (fun ws : Fin n → W => ((List.ofFn ws).findSome? accept).isSome),
      (List.ofFn ws).findSome? accept ∈ S.map Function.Embedding.some := by
    intro ws hws
    obtain ⟨r', hr'⟩ := Option.isSome_iff_exists.1 (mem_filter.1 hws).2
    rw [hr']
    exact mem_map_of_mem _ (of_findSome? h.mem hr')
  rw [returned, card_eq_sum_card_fiberwise hmaps, sum_map]
  have hfiber : ∀ r' ∈ S, ((univ.filter (fun ws : Fin n → W => ((List.ofFn ws).findSome? accept).isSome)).filter
      (fun ws => (List.ofFn ws).findSome? accept = some r')).card = first accept n (some r) := by
    intro r' hr'
    have hsame : first accept n (some r') = first accept n (some r) := by
      rw [first_eq, first_eq, h.weight_eq r' hr', h.weight_eq r hr]
    rw [← hsame, first, filter_filter]
    refine congrArg card (filter_congr (fun ws _ => ?_))
    constructor
    · exact fun hws => hws.2
    · exact fun hws => ⟨by rw [hws]; rfl, hws⟩
  simp only [Function.Embedding.some_apply]
  rw [sum_congr rfl hfiber, sum_const, smul_eq_mul]

end Rejection
end ContentionProf
