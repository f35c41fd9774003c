import ContentionProf.FastRand
import ContentionProf.Rejection
import ContentionProf.Words
/-!
# FastRandRange — numbers from a range, and between two bounds (`common/fast_rand.cpp`)

What a call returns is the first accepted of the words it draws.  Between bounds of either kind, and in either order,
every number has as many words: the difference of the bounds may be longer than half of all words, or be all but one.
-/
namespace ContentionProf
namespace FastRand

open Finset Rejection

/-- The next `n` words of a state. -/
def words : FastRandSeed → Nat → List U64
  | _, 0        => []
  | seed, n + 1 => (xorshift128Next seed).1 :: words (xorshift128Next seed).2 n

/-- What the loop of `fast_rand_impl` makes of a word: it is rejected, or it gives the result. -/
def picked (range w : U64) : Option U64 :=
  let result := w / (BitVec.allOnes 64 / range)
  if range ≤ result then none else some result

/-- What the end of `fast_rand_in_64` and of `fast_rand_in_u64` makes of a word. -/
def pickedIn (min max w : U64) : Option U64 :=
  if max - min + 1 = 0 then some w else (picked (max - min + 1) w).map (min + ·)

theorem picked_next (range : U64) (seed : FastRandSeed) :
    picked range (xorshift128Next seed).1 = if range ≤ (implBody (BitVec.allOnes 64 / range) seed).1 then none
      else some (implBody (BitVec.allOnes 64 / range) seed).1 := rfl

theorem implLoop_fst (range : U64) : ∀ (again : Nat) (seed : FastRandSeed),
    (implLoop range (BitVec.allOnes 64 / range) again seed).map Prod.fst =
      (words seed (again + 1)).findSome? (picked range)
  | 0, seed         => by
    rw [implLoop, words, words, List.findSome?_cons, picked_next]
    by_cases h : range ≤ (implBody (BitVec.allOnes 64 / range) seed).1
    · rw [if_pos h, if_pos h]
      rfl
    · rw [if_neg h, if_neg h]
      rfl
  | again + 1, seed => by
    have ih := implLoop_fst range again (xorshift128Next seed).2
    rw [implLoop, words, List.findSome?_cons, picked_next]
    by_cases h : range ≤ (implBody (BitVec.allOnes 64 / range) seed).1
    · rw [if_pos h, if_pos h]
      exact ih
    · rw [if_neg h, if_neg h]
      rfl

/-- **The loop returns the first result that its words give.** -/
theorem fastRandImpl_fst (again : Nat) (range : U64) (seed : FastRandSeed) :
    (fastRandImpl again range seed).map Prod.fst = (words seed (again + 1)).findSome? (picked range) :=
  implLoop_fst range again seed

theorem picked_lt {range w v : U64} (h : picked range w = some v) : v < range := by
  rw [picked] at h
  by_cases hle : range ≤ w / (BitVec.allOnes 64 / range)
  · rw [if_pos hle] at h
    cases h
  · rw [if_neg hle] at h
    cases h
    exact BitVec.not_le.1 hle

theorem div_toNat (range : U64) : (BitVec.allOnes 64 / range).toNat = (2 ^ 64 - 1) / range.toNat := by
  rw [BitVec.toNat_udiv, BitVec.toNat_allOnes]

/-- A number below the range is the result of the words of one block. -/
theorem picked_eq_some {range w v : U64} (hv : v < range) :
    picked range w = some v ↔
      v.toNat * ((2 ^ 64 - 1) / range.toNat) ≤ w.toNat ∧ w.toNat < (v.toNat + 1) * ((2 ^ 64 - 1) / range.toNat) := by
  have hr := BitVec.lt_def.1 hv
  have hpos : 0 < (2 ^ 64 - 1) / range.toNat := Nat.div_pos (by have := range.isLt; omega) (by omega)
  have hdiv : (w / (BitVec.allOnes 64 / range)).toNat = w.toNat / ((2 ^ 64 - 1) / range.toNat) := by
    rw [BitVec.toNat_udiv, div_toNat]
  have hres : picked range w = some v ↔ w / (BitVec.allOnes 64 / range) = v := by
    rw [picked]
    constructor
    · intro h
      by_cases hle : range ≤ w / (BitVec.allOnes 64 / range)
      · rw [if_pos hle] at h
        cases h
      · rw [if_neg hle] at h
        exact Option.some.inj h
    · rintro rfl
      rw [if_neg (BitVec.not_le.2 hv)]
  rw [hres, ← BitVec.toNat_inj, hdiv, Nat.div_eq_iff hpos]
  rw [Nat.succ_mul]
  omega

/-- **Each number below the range has `⌊(2⁶⁴ - 1) / range⌋` words.** -/
theorem weight_picked {range v : U64} (hv : v < range) :
    weight (picked range) (some v) = (2 ^ 64 - 1) / range.toNat := by
  have hend : (v.toNat + 1) * ((2 ^ 64 - 1) / range.toNat) ≤ 2 ^ 64 - 1 :=
    le_trans (Nat.mul_le_mul_right _ (BitVec.lt_def.1 hv)) (Nat.mul_div_le _ _)
  have hblock : (Finset.range (2 ^ 64)).filter (fun n => v.toNat * ((2 ^ 64 - 1) / range.toNat) ≤ n ∧
        n < (v.toNat + 1) * ((2 ^ 64 - 1) / range.toNat)) =
      Ico (v.toNat * ((2 ^ 64 - 1) / range.toNat)) ((v.toNat + 1) * ((2 ^ 64 - 1) / range.toNat)) := by
    ext n
    simp only [mem_filter, mem_range, mem_Ico, and_iff_right_iff_imp]
    omega
  rw [weight, filter_congr (fun w _ => picked_eq_some hv), card_words (fun n => _ ≤ n ∧ n < _), hblock, Nat.card_Ico,
    Nat.succ_mul, Nat.add_sub_cancel_left]

/-! ### The numbers from one bound to another, going up and round the end of the words -/

/-- The numbers from `min` up to `max`. -/
def upTo (min max : U64) : Finset U64 := univ.filter (fun v => v - min ≤ max - min)

theorem mem_upTo {min max v : U64} : v ∈ upTo min max ↔ v - min ≤ max - min := by simp [upTo]

theorem card_upTo (min max : U64) : (upTo min max).card = (max - min).toNat + 1 := by
  have hshift : (upTo min max).card = (univ.filter (fun u : U64 => u.toNat ≤ (max - min).toNat)).card :=
    card_equiv (Equiv.subRight min) (fun v => by simp [mem_upTo, BitVec.le_def])
  have hbelow : (Finset.range (2 ^ 64)).filter (fun n => n ≤ (max - min).toNat) =
      Finset.range ((max - min).toNat + 1) := by
    ext n
    have hlt := (max - min).isLt
    simp only [mem_filter, mem_range]
    omega
  rw [hshift, card_words (fun n => n ≤ (max - min).toNat), hbelow, card_range]

/-- How many words each of so many numbers has. -/
def share (size : Nat) : Nat := if size = 2 ^ 64 then 1 else (2 ^ 64 - 1) / size

theorem size_eq_zero (d : U64) : d + 1 = 0 ↔ d.toNat + 1 = 2 ^ 64 := by
  rw [← BitVec.toNat_inj, BitVec.toNat_add]
  have hlt := d.isLt
  simp
  omega

theorem size_toNat {d : U64} (h : d + 1 ≠ 0) : (d + 1).toNat = d.toNat + 1 := by
  have hne := mt (size_eq_zero d).2 h
  have hlt := d.isLt
  rw [BitVec.toNat_add, Nat.mod_eq_of_lt (by simp; omega)]
  rfl

theorem lt_size {d u : U64} (h : d + 1 ≠ 0) : u < d + 1 ↔ u ≤ d := by
  rw [BitVec.lt_def, BitVec.le_def, size_toNat h, Nat.lt_succ_iff]

/-- **All numbers from `min` up to `max` are equally likely**, also if they are all words. -/
theorem fair_pickedIn (min max : U64) : Fair (pickedIn min max) (upTo min max) (share ((max - min).toNat + 1)) := by
  by_cases hfull : max - min + 1 = 0
  · have hpicked : pickedIn min max = some := by
      funext w
      rw [pickedIn, if_pos hfull]
    rw [hpicked, share, if_pos ((size_eq_zero _).1 hfull)]
    refine ⟨fun {w r} h => mem_upTo.2 ?_, fun r _ => by simp [weight, filter_eq']⟩
    have hlt := (r - min).isLt
    have hall := (size_eq_zero _).1 hfull
    rw [BitVec.le_def]
    omega
  · have hpicked : ∀ w v, pickedIn min max w = some v ↔ picked (max - min + 1) w = some (v - min) := by
      intro w v
      rw [pickedIn, if_neg hfull, Option.map_eq_some_iff]
      constructor
      · rintro ⟨u, hu, rfl⟩
        rw [hu, add_sub_cancel_left]
      · intro hu
        exact ⟨_, hu, add_sub_cancel _ _⟩
    rw [share, if_neg (mt (size_eq_zero _).2 hfull), ← size_toNat hfull]
    refine ⟨fun {w v} h => ?_, fun v hv => ?_⟩
    · exact mem_upTo.2 ((lt_size hfull).1 (picked_lt ((hpicked w v).1 h)))
    · rw [weight, filter_congr (fun w _ => hpicked w v)]
      exact weight_picked ((lt_size hfull).2 (mem_upTo.1 hv))

/-! ### Bounds that are read as numbers -/

/-- **A reading of words as numbers**: a comparison decides their order, and a difference of words is the difference of
the numbers where that is not negative. -/
structure Reads (less : U64 → U64 → Bool) (val : U64 → Int) : Prop where
  less_iff : ∀ a b, less a b = true ↔ val a < val b
  sub_toNat : ∀ {a b}, val a ≤ val b → ((b - a).toNat : Int) = val b - val a

theorem reads_slt : Reads BitVec.slt BitVec.toInt := by
  refine ⟨fun a b => BitVec.slt_iff_toInt_lt, fun {a b} h => ?_⟩
  rw [BitVec.toInt_eq_toNat_cond, BitVec.toInt_eq_toNat_cond] at h ⊢
  rw [BitVec.toNat_sub]
  omega

theorem reads_ult : Reads BitVec.ult (fun w => w.toNat) := by
  refine ⟨fun a b => ?_, fun {a b} h => ?_⟩
  · rw [BitVec.ult, decide_eq_true_iff, Int.ofNat_lt]
  · rw [BitVec.toNat_sub]
    omega

/-- In the closed interval between the smaller and the larger of two numbers. -/
def Between (val : U64 → Int) (min max v : U64) : Prop :=
  Min.min (val min) (val max) ≤ val v ∧ val v ≤ Max.max (val min) (val max)

/-- How many numbers there are. -/
def size (val : U64 → Int) (min max : U64) : Nat := (val max - val min).natAbs + 1

/-- The bounds as they are after the swap. -/
def ends (less : U64 → U64 → Bool) (min max : U64) : U64 × U64 := if less min max then (min, max) else (max, min)

/-- What `fast_rand_in_64` and `fast_rand_in_u64` make of a word, if the bounds differ. -/
def inBounds (less : U64 → U64 → Bool) (min max : U64) : U64 → Option U64 :=
  pickedIn (ends less min max).1 (ends less min max).2

section
variable {less : U64 → U64 → Bool} {val : U64 → Int} {min max v : U64}

theorem Reads.inj (h : Reads less val) {a b : U64} (hab : val a = val b) : a = b := by
  have hsub := h.sub_toNat hab.le
  rw [hab, sub_self, Int.natCast_eq_zero] at hsub
  exact (sub_eq_zero.1 (BitVec.eq_of_toNat_eq hsub)).symm

theorem Reads.mem_upTo (h : Reads less val) (hlt : val min < val max) :
    v ∈ upTo min max ↔ val min ≤ val v ∧ val v ≤ val max := by
  have hsize := h.sub_toNat hlt.le
  rw [FastRand.mem_upTo, BitVec.le_def]
  rcases lt_or_ge (val v) (val min) with hv | hv
  · have hback := h.sub_toNat hv.le
    have hwhole := h.sub_toNat (hv.trans hlt).le
    have hbound := (max - v).isLt
    -- below `min` the difference wraps
    have hwrap : (v - min).toNat + (min - v).toNat = 2 ^ 64 := by
      have hne : v ≠ min := fun he => by rw [he] at hv; exact absurd hv (lt_irrefl _)
      bv_omega
    omega
  · have hup := h.sub_toNat hv
    omega

theorem Reads.ends (h : Reads less val) (hne : min ≠ max) :
    val (ends less min max).1 < val (ends less min max).2 ∧
      val (ends less min max).1 = Min.min (val min) (val max) ∧
      val (ends less min max).2 = Max.max (val min) (val max) := by
  by_cases hl : less min max = true
  · have hlt := (h.less_iff _ _).1 hl
    rw [FastRand.ends, if_pos hl, min_eq_left hlt.le, max_eq_right hlt.le]
    exact ⟨hlt, rfl, rfl⟩
  · have hle := not_lt.1 (mt (h.less_iff _ _).2 hl)
    have hlt := lt_of_le_of_ne hle (fun he => hne (h.inj he.symm))
    rw [FastRand.ends, if_neg hl, min_eq_right hle, max_eq_left hle]
    exact ⟨hlt, rfl, rfl⟩

theorem Reads.between_iff (h : Reads less val) (hne : min ≠ max) :
    Between val min max v ↔ v ∈ upTo (FastRand.ends less min max).1 (FastRand.ends less min max).2 := by
  obtain ⟨hlt, hmin, hmax⟩ := h.ends hne
  rw [h.mem_upTo hlt, hmin, hmax, Between]

theorem Reads.card_eq (h : Reads less val) (hne : min ≠ max) :
    (upTo (FastRand.ends less min max).1 (FastRand.ends less min max).2).card = size val min max := by
  obtain ⟨hlt, hmin, hmax⟩ := h.ends hne
  have hsub := h.sub_toNat hlt.le
  rw [card_upTo, size]
  omega

/-- **Every number between the bounds is equally likely.** -/
theorem Reads.fair (h : Reads less val) (hne : min ≠ max) : Fair (inBounds less min max)
    (upTo (FastRand.ends less min max).1 (FastRand.ends less min max).2) (share (size val min max)) := by
  rw [← h.card_eq hne, card_upTo]
  exact fair_pickedIn _ _

end

theorem drawIn_fst (again : Nat) (min max : U64) (t : TlsSeed) :
    (drawIn again min max t).map Prod.fst = (words t.seed (again + 1)).findSome? (pickedIn min max) := by
  rw [drawIn]
  by_cases hfull : max - min + 1 = 0
  · have hpicked : pickedIn min max (xorshift128Next t.seed).1 = some (xorshift128Next t.seed).1 := by
      rw [pickedIn, if_pos hfull]
    rw [if_pos hfull, words, List.findSome?_cons, hpicked]
    rfl
  · have hpicked : pickedIn min max = Option.map (min + ·) ∘ picked (max - min + 1) := by
      funext w
      rw [pickedIn, if_neg hfull]
      rfl
    rw [if_neg hfull, hpicked, ← List.map_findSome?, ← fastRandImpl_fst, Option.map_map, Option.map_map]
    rfl

/-- `fast_rand_less_than` returns the first result that its words give. -/
theorem fastRandLessThan_fst (again : Nat) (now : U64) {range : U64} (hr : range ≠ 0) (t : TlsSeed) :
    (fastRandLessThan again now range t).map Prod.fst =
      (words (t.initIfNeeded now).seed (again + 1)).findSome? (picked range) := by
  rw [fastRandLessThan, if_neg hr, ← fastRandImpl_fst, Option.map_map]
  rfl

theorem fastRandIn_of_ne (less : U64 → U64 → Bool) (again : Nat) (now : U64) {min max : U64} (t : TlsSeed)
    (hne : min ≠ max) :
    fastRandIn less again now min max t =
      drawIn again (ends less min max).1 (ends less min max).2 (t.initIfNeeded now) := by
  rw [fastRandIn, ends]
  by_cases hl : less min max = true
  · rw [if_pos hl, if_pos hl]
  · rw [if_neg hl, if_neg hl, if_neg hne]

/-- **What `fast_rand_in_64` and `fast_rand_in_u64` are for.**  They return a number between the bounds, which the words
they draw decide: each number has as many words, and is the first outcome of as many sequences of words. -/
structure Uniform (f : Nat → U64 → U64 → U64 → TlsSeed → Option (U64 × TlsSeed)) (less : U64 → U64 → Bool)
    (val : U64 → Int) : Prop where
  between : ∀ {again now min max t r}, f again now min max t = some r → Between val min max r.1
  same : ∀ again now a t, f again now a a t = some (a, t.initIfNeeded now)
  words : ∀ again now {min max} t, min ≠ max → (f again now min max t).map Prod.fst =
    (words (t.initIfNeeded now).seed (again + 1)).findSome? (inBounds less min max)
  weight : ∀ {min max v}, min ≠ max → Between val min max v →
    weight (inBounds less min max) (some v) = share (size val min max)
  returned : ∀ (n : Nat) {min max v}, min ≠ max → Between val min max v →
    returned (inBounds less min max) n = size val min max * first (inBounds less min max) n (some v)

theorem Reads.uniform {less : U64 → U64 → Bool} {val : U64 → Int} (h : Reads less val) :
    Uniform (fastRandIn less) less val := by
  have hsame : ∀ again now a t, fastRandIn less again now a a t = some (a, t.initIfNeeded now) := by
    intro again now a t
    have hl : ¬ less a a = true := fun hl => lt_irrefl _ ((h.less_iff _ _).1 hl)
    rw [fastRandIn, if_neg hl, if_pos rfl]
  have hwords : ∀ again now {min max} t, min ≠ max → (fastRandIn less again now min max t).map Prod.fst =
      (words (t.initIfNeeded now).seed (again + 1)).findSome? (inBounds less min max) := by
    intro again now min max t hne
    rw [fastRandIn_of_ne less again now t hne, drawIn_fst]
    rfl
  refine ⟨fun {again now min max t r} hr => ?_, hsame, hwords, fun hne hv => ?_, fun n _ _ _ hne hv => ?_⟩
  · by_cases hne : min = max
    · subst hne
      rw [hsame] at hr
      cases hr
      exact ⟨min_le_left _ _, le_max_left _ _⟩
    · have hfirst := hwords again now t hne
      rw [hr] at hfirst
      exact (h.between_iff hne).2 (of_findSome? (h.fair hne).mem hfirst.symm)
  · exact (h.fair hne).weight_eq _ ((h.between_iff hne).1 hv)
  · rw [← h.card_eq hne]
    exact (h.fair hne).returned_eq n ((h.between_iff hne).1 hv)

/-- The results of `fast_rand_impl` are the numbers from 0 up to `range - 1`. -/
theorem fair_picked {range : U64} (hr : range ≠ 0) :
    Fair (picked range) (upTo 0 (range - 1)) ((2 ^ 64 - 1) / range.toNat) ∧
      (upTo 0 (range - 1)).card = range.toNat ∧ ∀ v, v < range ↔ v ∈ upTo 0 (range - 1) := by
  have hone : range - 1 + 1 = range := sub_add_cancel _ _
  have hlt : ∀ v, v < range ↔ v ∈ upTo 0 (range - 1) := by
    intro v
    rw [mem_upTo, sub_zero, sub_zero, ← lt_size (by rwa [hone]), hone]
  refine ⟨⟨fun h => (hlt _).1 (picked_lt h), fun v hv => weight_picked ((hlt v).2 hv)⟩, ?_, hlt⟩
  rw [card_upTo, sub_zero, ← size_toNat (by rwa [hone]), hone]

/-- **What `fast_rand_impl` returns is below its range, and the results below the range are equally likely**; so are the
numbers between any bounds, of either kind and in either order. -/
theorem equally_likely :
    (∀ again range seed r, fastRandImpl again range seed = some r → r.1 < range) ∧
    (∀ again range seed, (fastRandImpl again range seed).map Prod.fst =
      (words seed (again + 1)).findSome? (picked range)) ∧
    (∀ range v, v < range → weight (picked range) (some v) = (2 ^ 64 - 1) / range.toNat ∧
      ∀ n, returned (picked range) n = range.toNat * first (picked range) n (some v)) ∧
    Uniform fastRandIn64 BitVec.slt BitVec.toInt ∧ Uniform fastRandInU64 BitVec.ult (fun w => w.toNat) := by
  refine ⟨fun again range seed r hr => ?_, fastRandImpl_fst, fun range v hv => ⟨weight_picked hv, fun n => ?_⟩,
    reads_slt.uniform, reads_ult.uniform⟩
  · have hfirst := fastRandImpl_fst again range seed
    rw [hr] at hfirst
    exact of_findSome? picked_lt hfirst.symm
  · have hr : range ≠ 0 := by
      rintro rfl
      exact absurd hv BitVec.not_lt_zero
    obtain ⟨hfair, hcard, hlt⟩ := fair_picked hr
    rw [← hcard]
    exact hfair.returned_eq n ((hlt v).1 hv)

/-- Four numbers with bounds in the wrong order, and all of them. -/
theorem equally_likely_signed :
    weight (inBounds BitVec.slt 1 (-2)) (some (-1)) = 4611686018427387903 ∧
    weight (inBounds BitVec.slt (BitVec.intMin 64) (BitVec.intMax 64)) (some (-1)) = 1 :=
  ⟨(equally_likely.2.2.2.1.weight (by decide) ⟨by decide, by decide⟩).trans (by decide),
    (equally_likely.2.2.2.1.weight (by decide) ⟨by decide, by decide⟩).trans (by decide)⟩

end FastRand
end ContentionProf
