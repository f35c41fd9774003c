import Mathlib.Data.Nat.Basic
import Mathlib.Order.MinMax
import Mathlib.Tactic.Ring
/-!
# Controller — a clamped rate, moved towards its target by a truncated mean

Natural numbers only: the mean of an old and a new value with weights `w` and `S - w`, truncated, and the clamp to
`[1, B]`.
-/
namespace ContentionProf
namespace Controller

/-- `n` moved into `[1, B]`. -/
def clampTo (B n : Nat) : Nat := max 1 (min n B)

/-- The mean of `n` with weight `w` and `r` with weight `S - w`. -/
def blend (S w n r : Nat) : Nat := (n * w + r * (S - w)) / S

variable {B S w w' n n' r q : Nat}

theorem one_le_clampTo : 1 ≤ clampTo B n := le_max_left ..

theorem clampTo_le (hB : 1 ≤ B) : clampTo B n ≤ B := max_le hB (min_le_right ..)

theorem clampTo_mono (h : n ≤ n') : clampTo B n ≤ clampTo B n' := max_le_max le_rfl (min_le_min h le_rfl)

/-- A value in `[1, B]` is its own clamp. -/
theorem clampTo_self (h1 : 1 ≤ r) (hB : r ≤ B) : clampTo B r = r := by
  rw [clampTo, min_eq_left hB, max_eq_right h1]

/-- **Two clamps agree exactly when no threshold in `[2, B]` separates the values.** -/
theorem clampTo_eq_iff : clampTo B n = clampTo B n' ↔ ∀ k, 2 ≤ k → k ≤ B → (k ≤ n ↔ k ≤ n') := by
  have reach : ∀ {k m : Nat}, 2 ≤ k → k ≤ B → (k ≤ clampTo B m ↔ k ≤ m) := by
    intro k m h2 hB
    unfold clampTo
    omega
  constructor
  · intro h k h2 hB
    rw [← reach h2 hB, h, reach h2 hB]
  · intro h
    have below : ∀ {m m' : Nat}, (∀ k, 2 ≤ k → k ≤ B → (k ≤ m → k ≤ m')) → clampTo B m ≤ clampTo B m' := by
      intro m m' hk
      by_cases h2 : 2 ≤ clampTo B m
      · have hB : clampTo B m ≤ B := by unfold clampTo at h2 ⊢; omega
        exact (reach h2 hB).2 (hk _ h2 hB ((reach h2 hB).1 le_rfl))
      · exact le_trans (by omega) one_le_clampTo
    exact le_antisymm (below (fun k h2 hB => (h k h2 hB).1)) (below (fun k h2 hB => (h k h2 hB).2))

theorem weighted_le (hw : w ≤ S) (hn : n ≤ n') (hr : r ≤ n') : n * w + r * (S - w) ≤ n' * S :=
  calc n * w + r * (S - w) ≤ n' * w + n' * (S - w) :=
        Nat.add_le_add (Nat.mul_le_mul_right _ hn) (Nat.mul_le_mul_right _ hr)
    _ = n' * S := by rw [← Nat.mul_add, Nat.add_sub_cancel' hw]

theorem le_weighted (hw : w ≤ S) (hn : n' ≤ n) (hr : n' ≤ r) : n' * S ≤ n * w + r * (S - w) :=
  calc n' * S = n' * w + n' * (S - w) := by rw [← Nat.mul_add, Nat.add_sub_cancel' hw]
    _ ≤ n * w + r * (S - w) := Nat.add_le_add (Nat.mul_le_mul_right _ hn) (Nat.mul_le_mul_right _ hr)

theorem blend_le (hw : w ≤ S) (h : n ≤ r) : blend S w n r ≤ r :=
  Nat.div_le_of_le_mul ((weighted_le hw h le_rfl).trans (Nat.mul_comm .. ▸ le_rfl))

theorem le_blend (hS : 0 < S) (hw : w ≤ S) (h : r ≤ n) : r ≤ blend S w n r :=
  (Nat.le_div_iff_mul_le hS).2 (le_weighted hw h le_rfl)

theorem blend_mono (h : n ≤ n') : blend S w n r ≤ blend S w n' r :=
  Nat.div_le_div_right (Nat.add_le_add_right (Nat.mul_le_mul_right _ h) _)

theorem blend_lt_iff (hS : 0 < S) (hw : w ≤ S) : blend S w n r < r ↔ 0 < w ∧ n < r := by
  have hsplit : r * S = r * w + r * (S - w) := by rw [← Nat.mul_add, Nat.add_sub_cancel' hw]
  rw [blend, Nat.div_lt_iff_lt_mul hS, hsplit, Nat.add_lt_add_iff_right]
  constructor
  · intro h
    exact ⟨Nat.pos_of_ne_zero (fun h0 => by rw [h0] at h; exact Nat.lt_irrefl _ h), Nat.lt_of_mul_lt_mul_right h⟩
  · rintro ⟨hpos, hlt⟩
    exact Nat.mul_lt_mul_of_pos_right hlt hpos

/-- **The truncated mean rises only by whole steps.** -/
theorem lt_blend_iff (hS : 0 < S) (hw : w ≤ S) : r < blend S w n r ↔ S ≤ (n - r) * w := by
  have hsplit : r * S = r * w + r * (S - w) := by rw [← Nat.mul_add, Nat.add_sub_cancel' hw]
  rw [blend, ← Nat.add_one_le_iff, Nat.le_div_iff_mul_le hS, Nat.add_mul, Nat.one_mul, hsplit, Nat.sub_mul]
  omega

/-- A target `q` times too low takes its share off. -/
theorem blend_decay (hq : q * n ≤ r) (hw' : w' ≤ w) (hw : w ≤ S) :
    blend S w n r * (q * S) ≤ r * (q * S - (q - 1) * w') := by
  have hdiv : blend S w n r * S ≤ n * w + r * (S - w) := Nat.div_mul_le_self ..
  obtain ⟨d, rfl⟩ := Nat.exists_eq_add_of_le hw
  rcases q with - | q
  · simp
  · rw [Nat.add_sub_cancel, Nat.add_sub_cancel_left] at *
    have h1 : (q + 1) * n * w ≤ r * w := Nat.mul_le_mul_right _ hq
    have h2 : q * w' ≤ q * w := Nat.mul_le_mul_left _ hw'
    have h3 : (q + 1) * (w + d) - q * w' = w + (q + 1) * d + (q * w - q * w') := by
      rw [Nat.add_mul, Nat.one_mul, Nat.mul_add, Nat.add_mul, Nat.one_mul]
      omega
    calc blend (w + d) w n r * ((q + 1) * (w + d)) = (q + 1) * (blend (w + d) w n r * (w + d)) := by ring
      _ ≤ (q + 1) * (n * w + r * d) := Nat.mul_le_mul_left _ hdiv
      _ = (q + 1) * n * w + r * ((q + 1) * d) := by ring
      _ ≤ r * w + r * ((q + 1) * d) := Nat.add_le_add_right h1 _
      _ = r * (w + (q + 1) * d) := by ring
      _ ≤ r * ((q + 1) * (w + d) - q * w') := Nat.mul_le_mul_left _ (by omega)

theorem clampTo_lt_iff (h1 : 1 ≤ r) (hB : r ≤ B) : clampTo B n < r ↔ 1 < r ∧ n < r := by
  unfold clampTo
  omega

theorem lt_clampTo_iff (h1 : 1 ≤ r) : r < clampTo B n ↔ r < B ∧ r < n := by
  unfold clampTo
  omega

end Controller
end ContentionProf
