import Mathlib.Data.List.Basic
import Mathlib.Order.Basic
/-!
# Numerals — numbers as text, and back

`Nat.toDigits` writes a number in a base; here is a reader that accepts the digits of the base only, for bases up to
sixteen, and the same with a sign in base ten.
-/
namespace ContentionProf
namespace Numerals

/-- The digit of base `b` that a character stands for. -/
def digitValue (b : Nat) (c : Char) : Option Nat := (List.range b).find? (fun d => d.digitChar == c)

/-- The digits after those that gave `acc`. -/
def readDigits (b : Nat) : Nat → List Char → Option Nat
  | acc, []      => some acc
  | acc, c :: cs => (digitValue b c).bind (fun d => readDigits b (acc * b + d) cs)

/-- A number has a digit. -/
def readNat (b : Nat) (cs : List Char) : Option Nat := if cs = [] then none else readDigits b 0 cs

def signed (n : Int) : List Char := if n < 0 then '-' :: Nat.toDigits 10 n.natAbs else Nat.toDigits 10 n.natAbs

def readSigned : List Char → Option Int
  | '-' :: cs => (readNat 10 cs).map (fun n : Nat => -(n : Int))
  | cs        => (readNat 10 cs).map (fun n : Nat => (n : Int))

variable {b n : Nat} {c : Char}

/-! ### Digits -/

theorem digitChar_inj : ∀ d < 16, ∀ e < 16, d.digitChar = e.digitChar → d = e := by decide

theorem digitValue_digitChar {d : Nat} (hb : b ≤ 16) (hd : d < b) : digitValue b d.digitChar = some d := by
  unfold digitValue
  rw [List.find?_range_eq_some]
  refine ⟨beq_self_eq_true _, List.mem_range.2 hd, fun e he => ?_⟩
  rw [Bool.not_eq_true', beq_eq_false_iff_ne]
  intro h
  exact absurd (digitChar_inj e (by omega) d (by omega) h) (Nat.ne_of_lt he)

theorem digitValue_eq_none (hc : ∀ d < 16, d.digitChar ≠ c) (hb : b ≤ 16) : digitValue b c = none := by
  unfold digitValue
  rw [List.find?_eq_none]
  intro d hd h
  exact hc d (by have := List.mem_range.1 hd; omega) (beq_iff_eq.1 h)

/-- **A numeral consists of digits of its base.** -/
theorem mem_toDigits (hb : 1 < b) : ∀ n, c ∈ Nat.toDigits b n → ∃ d < b, c = d.digitChar := by
  intro n
  induction n using Nat.strongRecOn with
  | _ n ih =>
    intro hc
    by_cases hn : n < b
    · rw [Nat.toDigits_of_lt_base hn, List.mem_singleton] at hc
      exact ⟨n, hn, hc⟩
    · rw [Nat.toDigits_of_base_le hb (Nat.not_lt.1 hn), List.mem_append, List.mem_singleton] at hc
      rcases hc with hc | hc
      · exact ih (n / b) (Nat.div_lt_self (by omega) hb) hc
      · exact ⟨n % b, Nat.mod_lt n (by omega), hc⟩

theorem not_mem_toDigits (hb : 1 < b) (h16 : b ≤ 16) (hc : ∀ d < 16, d.digitChar ≠ c) : c ∉ Nat.toDigits b n := by
  intro hmem
  obtain ⟨d, hd, rfl⟩ := mem_toDigits hb n hmem
  exact hc d (by omega) rfl

/-! ### Round trips -/

theorem readDigits_append (xs ys : List Char) : ∀ acc,
    readDigits b acc (xs ++ ys) = (readDigits b acc xs).bind (fun a => readDigits b a ys) := by
  induction xs with
  | nil => intro acc; rfl
  | cons x xs ih =>
    intro acc
    rw [List.cons_append, readDigits, readDigits, Option.bind_assoc]
    exact Option.bind_congr (fun d _ => ih (acc * b + d))

theorem readDigits_of_mem (hc : digitValue b c = none) : ∀ {cs : List Char} (acc : Nat), c ∈ cs →
    readDigits b acc cs = none
  | x :: cs, acc, hmem => by
    rcases List.mem_cons.1 hmem with rfl | hmem
    · rw [readDigits, hc]
      rfl
    · rw [readDigits]
      cases digitValue b x with
      | none => rfl
      | some d => exact readDigits_of_mem hc _ hmem

theorem readNat_of_mem {cs : List Char} (hc : digitValue b c = none) (hmem : c ∈ cs) : readNat b cs = none := by
  rw [readNat, if_neg (List.ne_nil_of_mem hmem), readDigits_of_mem hc 0 hmem]

theorem readDigits_toDigits (hb : 1 < b) (h16 : b ≤ 16) : ∀ n, readDigits b 0 (Nat.toDigits b n) = some n := by
  intro n
  induction n using Nat.strongRecOn with
  | _ n ih =>
    by_cases hn : n < b
    · rw [Nat.toDigits_of_lt_base hn, readDigits, digitValue_digitChar h16 hn, Option.bind_some, readDigits]
      rw [Nat.zero_mul, Nat.zero_add]
    · have hmod : n % b < b := Nat.mod_lt n (by omega)
      rw [Nat.toDigits_of_base_le hb (Nat.not_lt.1 hn), readDigits_append, ih (n / b) (Nat.div_lt_self (by omega) hb),
        Option.bind_some, readDigits, digitValue_digitChar h16 hmod, Option.bind_some, readDigits]
      rw [Nat.mul_comm, Nat.div_add_mod]

/-- **What is written in a base is read back.** -/
theorem readNat_toDigits (hb : 1 < b) (h16 : b ≤ 16) : readNat b (Nat.toDigits b n) = some n := by
  rw [readNat, if_neg Nat.toDigits_ne_nil, readDigits_toDigits hb h16]

theorem minus_not_digit : ∀ d < 16, d.digitChar ≠ '-' := by decide

theorem readSigned_of_ne_minus {cs : List Char} (h : '-' ∉ cs) :
    readSigned cs = (readNat 10 cs).map (fun n : Nat => (n : Int)) := by
  unfold readSigned
  split
  · exact absurd (List.mem_cons_self ..) h
  · rfl

/-- **A signed number is read back.** -/
theorem readSigned_signed (n : Int) : readSigned (signed n) = some n := by
  unfold signed
  split
  · rename_i hn
    rw [readSigned, readNat_toDigits (by decide) (by decide), Option.map_some]
    congr 1
    omega
  · rename_i hn
    rw [readSigned_of_ne_minus (not_mem_toDigits (by decide) (by decide) minus_not_digit),
      readNat_toDigits (by decide) (by decide), Option.map_some]
    congr 1
    omega

theorem readSigned_inner_minus {xs ys : List Char} (hx : xs ≠ []) : readSigned (xs ++ '-' :: ys) = none := by
  have hnone : ∀ {cs : List Char}, '-' ∈ cs → readNat 10 cs = none :=
    readNat_of_mem (digitValue_eq_none minus_not_digit (by decide))
  cases xs with
  | nil => exact absurd rfl hx
  | cons x xs =>
    unfold readSigned
    split
    · rename_i cs heq
      cases heq
      rw [hnone (by simp)]
      rfl
    · rw [hnone (by simp)]
      rfl

theorem not_mem_signed {c : Char} {n : Int} (hm : c ≠ '-') (hc : ∀ d < 16, d.digitChar ≠ c) : c ∉ signed n := by
  have hd : c ∉ Nat.toDigits 10 n.natAbs := not_mem_toDigits (by decide) (by decide) hc
  unfold signed
  split
  · rw [List.mem_cons, not_or]
    exact ⟨hm, hd⟩
  · exact hd

end Numerals
end ContentionProf
