import ContentionProf.Series
import Mathlib.Algebra.BigOperators.Group.List.Basic
/-!
# SeriesTotals — nothing is lost on the way up the rings (`common/series.h`)

With an associative operator that has an identity, what stands before the four indices adds up to all the values since
the day ring was last back at its start.
-/
namespace ContentionProf
namespace Series

variable {T : Type}

/-- **What is not folded yet**: the slots of the four rings before their indices. -/
def unfolded (zero : T) (s : Series T) : List T :=
  (List.range s.nday).map (fun i => s.read zero (day i)) ++ (List.range s.nhour).map (fun i => s.read zero (hour i)) ++
    (List.range s.nminute).map (fun i => s.read zero (minute i)) ++
    (List.range s.nsecond).map (fun i => s.read zero (second i))

variable {s : Series T} {array : Nat → Option T} {base size pos : Nat} {vs : List T}

/-- **The slots before the index hold the values since it was last 0.** -/
theorem Ring.before_index (h : Ring array base size pos vs) {i : Nat} (hi : i < pos) :
    array (base + i) = (vs.drop (vs.length / size * size))[i]? := by
  obtain ⟨start, hc, hpos⟩ := h.cyclic
  have hlt : pos < size := by rw [← hpos]; exact Nat.mod_lt _ (Nat.zero_lt_of_lt hc.start_lt)
  have hlen := length_rtake vs size
  have hle : pos ≤ (vs.rtake size).length := by
    rw [hlen, h.pos_eq]
    exact Nat.le_min.2 ⟨Nat.le_of_lt (Nat.mod_lt _ (by omega)), Nat.mod_le ..⟩
  -- slot `i` holds the value that was written `pos - i` values ago
  have hslot : (start + ((vs.rtake size).length - pos + i)) % size = i := by
    rw [Cyclic.mod_eq hc.start_lt hc.length_le] at hpos
    rw [Cyclic.mod_eq hc.start_lt (by have := hc.length_le; omega)]
    split at hpos <;> split <;> omega
  have hread := hc.slot ((vs.rtake size).length - pos + i) (by have := hc.length_le; omega)
  rw [hslot] at hread
  have hdiv := Nat.div_add_mod' vs.length size
  rw [← h.pos_eq] at hdiv
  rw [hread, hlen, List.rtake, List.getElem?_drop, List.getElem?_drop]
  congr 1
  omega

theorem Ring.unfolded (zero : T) (h : Ring s.array base size pos vs) (slot : Nat → Nat)
    (hslot : ∀ i, slot i = base + i) :
    (List.range pos).map (fun i => s.read zero (slot i)) = vs.drop (vs.length / size * size) := by
  have hlen : pos = (vs.drop (vs.length / size * size)).length := by
    rw [List.length_drop, h.pos_eq]
    have hdiv := Nat.div_add_mod' vs.length size
    omega
  rw [← map_getD zero (vs.drop (vs.length / size * size)), ← hlen]
  refine List.map_congr_left (fun i hi => ?_)
  rw [read, hslot, h.before_index (List.mem_range.1 hi)]

/-! ## Sums of folds -/

section

variable [AddMonoid T]

theorem foldAll_eq_sum (l : List T) : foldAll (· + ·) 0 l = l.sum := by
  cases l with
  | nil => rfl
  | cons x xs => rw [List.sum_eq_foldl, List.foldl_cons, zero_add]; rfl

/-- Whole blocks from a block on. -/
theorem sum_blocks (vs : List T) (n m : Nat) : ∀ k,
    ((List.range k).map (fun b => foldAll (· + ·) 0 ((vs.drop ((m + b) * n)).take n))).sum =
      ((vs.drop (m * n)).take (k * n)).sum
  | 0     => by simp
  | k + 1 => by
    rw [List.range_succ, List.map_append, List.sum_append, sum_blocks vs n m k, List.map_singleton, List.sum_singleton,
      foldAll_eq_sum, Nat.succ_mul, List.take_add, List.sum_append, List.drop_drop, Nat.add_mul]

/-- **The folds of the blocks and what is left add up**, from any block on. -/
theorem sum_folds (vs : List T) (n m : Nat) (hm : m ≤ vs.length / n) :
    ((folds (· + ·) 0 n vs).drop m).sum + (vs.drop (vs.length / n * n)).sum = (vs.drop (m * n)).sum := by
  have hblocks : (folds (· + ·) 0 n vs).drop m =
      (List.range (vs.length / n - m)).map (fun b => foldAll (· + ·) 0 ((vs.drop ((m + b) * n)).take n)) := by
    rw [folds, ← List.map_drop, List.range_eq_range', List.drop_range', Nat.zero_add, Nat.mul_one,
      List.range'_eq_map_range, List.map_map]
    rfl
  have hsplit := List.sum_take_add_sum_drop (vs.drop (m * n)) ((vs.length / n - m) * n)
  rw [hblocks, sum_blocks, ← hsplit, List.drop_drop, ← Nat.add_mul, Nat.add_sub_cancel' hm]

/-- **What is not folded yet is everything since the day ring was last at its start**: for every sequence of values, the
slots before the indices add up to the values after the last whole number of 30 days. -/
theorem unfolded_sum (vs : List T) :
    ((vs.foldl (append (· + ·) 0) construct).unfolded 0).sum = (vs.drop (vs.length / 2592000 * 2592000)).sum := by
  have h := seconds_foldl (· + ·) 0 vs [] construct construct_seconds
  rw [List.nil_append] at h
  generalize vs.foldl (append (· + ·) 0) construct = s at h ⊢
  unfold Series.unfolded
  rw [h.minutes.hours.days.unfolded 0 day (fun _ => rfl),
    h.minutes.hours.hour.unfolded 0 hour (fun _ => rfl),
    h.minutes.minute.unfolded 0 minute (fun _ => rfl),
    h.second.unfolded 0 second (fun i => (Nat.zero_add i).symm)]
  simp only [List.sum_append, length_folds]
  generalize hk : vs.length / 60 / 60 / 24 / 30 * 30 = k
  have hdays : k ≤ vs.length / 60 / 60 / 24 := hk ▸ Nat.div_mul_le_self ..
  have hhours : k * 24 ≤ vs.length / 60 / 60 := (Nat.le_div_iff_mul_le (by decide)).1 hdays
  have hminutes : k * 24 * 60 ≤ vs.length / 60 := (Nat.le_div_iff_mul_le (by decide)).1 hhours
  have hlast : k * 24 * 60 * 60 = vs.length / 2592000 * 2592000 := by
    rw [← hk]
    omega
  have h₁ := sum_folds (folds (· + ·) 0 60 (folds (· + ·) 0 60 vs)) 24 k (by simpa using hdays)
  have h₂ := sum_folds (folds (· + ·) 0 60 vs) 60 (k * 24) (by simpa using hhours)
  have h₃ := sum_folds vs 60 (k * 24 * 60) hminutes
  simp only [length_folds] at h₁ h₂
  rw [h₁, h₂, h₃, hlast]

end

end Series
end ContentionProf
