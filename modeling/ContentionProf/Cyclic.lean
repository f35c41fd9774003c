import Mathlib.Data.List.Basic
import Mathlib.Order.Lattice
import Mathlib.Logic.Function.Basic
/-!
# Cyclic — a sequence laid out around an array

`Cyclic slots cap start l`: of `cap` slots, those from `start` on hold the items of `l` one after the other, around the
end of the array, and the others hold nothing.  Each lemma is one edit of a slot and what it does to the sequence.
-/
namespace ContentionProf

/-- **A sequence in a cyclic array.** -/
structure Cyclic {α : Type} (slots : Nat → Option α) (cap start : Nat) (l : List α) : Prop where
  start_lt : start < cap
  length_le : l.length ≤ cap
  slot : ∀ j < cap, slots ((start + j) % cap) = l[j]?

namespace Cyclic

variable {α : Type} {slots : Nat → Option α} {cap start i j n : Nat} {l : List α} {x y : α}

/-- The sum of two offsets wraps at most once. -/
theorem mod_eq (hs : start < cap) (hi : i ≤ cap) :
    (start + i) % cap = if start + i < cap then start + i else start + i - cap := by
  split
  · rename_i h
    exact Nat.mod_eq_of_lt h
  · rename_i h
    rw [Nat.mod_eq_sub_mod (by omega), Nat.mod_eq_of_lt (by omega)]

/-- **Different offsets are different slots.** -/
theorem mod_inj (hs : start < cap) (hi : i < cap) (hj : j < cap) : (start + i) % cap = (start + j) % cap ↔ i = j := by
  rw [mod_eq hs hi.le, mod_eq hs hj.le]
  split <;> split <;> omega

theorem exists_offset (hs : start < cap) (hn : n < cap) : ∃ j < cap, (start + j) % cap = n := by
  by_cases h : start ≤ n
  · refine ⟨n - start, by omega, ?_⟩
    rw [mod_eq hs (by omega)]
    split <;> omega
  · refine ⟨n + cap - start, by omega, ?_⟩
    rw [mod_eq hs (by omega)]
    split <;> omega

theorem empty (hcap : 0 < cap) : Cyclic (fun _ => (none : Option α)) cap 0 [] :=
  ⟨hcap, Nat.zero_le _, fun _ _ => by simp⟩

theorem get (h : Cyclic slots cap start l) (hi : i < l.length) : slots ((start + i) % cap) = some l[i] := by
  rw [h.slot i (lt_of_lt_of_le hi h.length_le), List.getElem?_eq_getElem hi]

theorem get_none (h : Cyclic slots cap start l) (hi : l.length ≤ i) (hc : i < cap) :
    slots ((start + i) % cap) = none := by
  rw [h.slot i hc, List.getElem?_eq_none hi]

theorem head (h : Cyclic slots cap start (x :: l)) : slots start = some x := by
  have hx := h.get (i := 0) (Nat.succ_pos _)
  rwa [Nat.add_zero, Nat.mod_eq_of_lt h.start_lt] at hx

/-- **With no item left, every slot is free**, and the sequence may start anywhere. -/
theorem restart (h : Cyclic slots cap start ([] : List α)) (hj : j < cap) : Cyclic slots cap j [] := by
  refine ⟨hj, Nat.zero_le _, fun i hi => ?_⟩
  obtain ⟨k, hk, hki⟩ := exists_offset h.start_lt (Nat.mod_lt (j + i) (Nat.zero_lt_of_lt hj))
  rw [← hki, h.slot k hk]
  simp

/-- **An item is added behind the last one.** -/
theorem pushBack (h : Cyclic slots cap start l) (hl : l.length < cap) :
    Cyclic (Function.update slots ((start + l.length) % cap) (some x)) cap start (l ++ [x]) := by
  refine ⟨h.start_lt, by rw [List.length_append]; exact hl, fun j hj => ?_⟩
  rw [Function.update_apply]
  split
  · rename_i he
    obtain rfl := (mod_inj h.start_lt hj hl).1 he
    simp
  · rename_i he
    have hne : j ≠ l.length := fun hjl => he (by rw [hjl])
    rw [h.slot j hj]
    by_cases hlt : j < l.length
    · rw [List.getElem?_append_left hlt]
    · rw [List.getElem?_eq_none (by omega), List.getElem?_eq_none (by simp; omega)]

/-- **The last item is taken out.** -/
theorem popBack (h : Cyclic slots cap start (l ++ [x])) :
    Cyclic (Function.update slots ((start + l.length) % cap) none) cap start l := by
  have hl : l.length < cap := by
    have hlen := h.length_le
    rw [List.length_append, List.length_singleton] at hlen
    exact hlen
  refine ⟨h.start_lt, hl.le, fun j hj => ?_⟩
  rw [Function.update_apply]
  split
  · rename_i he
    obtain rfl := (mod_inj h.start_lt hj hl).1 he
    simp
  · rename_i he
    have hne : j ≠ l.length := fun hjl => he (by rw [hjl])
    rw [h.slot j hj]
    by_cases hlt : j < l.length
    · rw [List.getElem?_append_left hlt]
    · rw [List.getElem?_eq_none (by simp; omega), List.getElem?_eq_none (by omega)]

theorem succ_mod (cap start j : Nat) : ((start + 1) % cap + j) % cap = (start + (j + 1)) % cap := by
  rw [Nat.mod_add_mod]
  congr 1
  omega

/-- **The first item is taken out.** -/
theorem popFront (h : Cyclic slots cap start (x :: l)) :
    Cyclic (Function.update slots start none) cap ((start + 1) % cap) l := by
  have hcap : 0 < cap := Nat.zero_lt_of_lt h.start_lt
  have hl : l.length < cap := h.length_le
  refine ⟨Nat.mod_lt _ hcap, hl.le, fun j hj => ?_⟩
  rw [succ_mod, Function.update_apply]
  by_cases hlast : j + 1 < cap
  · have hne : (start + (j + 1)) % cap ≠ start := by
      intro he
      have h0 := (mod_inj (j := 0) h.start_lt hlast hcap).1 (by rw [he, Nat.add_zero, Nat.mod_eq_of_lt h.start_lt])
      omega
    rw [if_neg hne, h.slot _ hlast, List.getElem?_cons_succ]
  · have hj1 : j + 1 = cap := by omega
    rw [hj1, Nat.add_mod_right, Nat.mod_eq_of_lt h.start_lt, if_pos rfl, List.getElem?_eq_none (by omega)]

/-- **An item is added before the first one**, in the slot that the next start follows. -/
theorem pushFront (h : Cyclic slots cap ((n + 1) % cap) l) (hn : n < cap) (hl : l.length < cap) :
    Cyclic (Function.update slots n (some x)) cap n (x :: l) := by
  refine ⟨hn, hl, fun j hj => ?_⟩
  rw [Function.update_apply]
  cases j with
  | zero => rw [Nat.add_zero, Nat.mod_eq_of_lt hn, if_pos rfl, List.getElem?_cons_zero]
  | succ j =>
    have hne : (n + (j + 1)) % cap ≠ n := by
      intro he
      have h0 := (mod_inj (j := 0) hn hj (by omega)).1 (by rw [he, Nat.add_zero, Nat.mod_eq_of_lt hn])
      omega
    rw [if_neg hne, ← succ_mod, h.slot j (by omega), List.getElem?_cons_succ]

/-- **In a full array a new last item takes the place of the first one.** -/
theorem replace (h : Cyclic slots cap start (x :: l)) (hl : l.length + 1 = cap) :
    Cyclic (Function.update slots start (some y)) cap ((start + 1) % cap) (l ++ [y]) := by
  have hpop := (h.popFront).pushBack (x := y) (by omega)
  have hslot : ((start + 1) % cap + l.length) % cap = start := by
    rw [succ_mod, hl, Nat.add_mod_right, Nat.mod_eq_of_lt h.start_lt]
  rw [hslot, Function.update_idem] at hpop
  exact hpop

theorem filterMap_getElem? (l : List α) : (List.range l.length).filterMap (fun j => l[j]?) = l := by
  induction l with
  | nil => rfl
  | cons x l ih =>
    rw [List.length_cons, List.range_succ_eq_map, List.filterMap_cons, List.getElem?_cons_zero, List.filterMap_map]
    exact congrArg (x :: ·) ih

theorem congr {slots' : Nat → Option α} (h : Cyclic slots cap start l) (hs : ∀ n < cap, slots' n = slots n) :
    Cyclic slots' cap start l :=
  ⟨h.start_lt, h.length_le, fun j hj => by rw [hs _ (Nat.mod_lt _ (Nat.zero_lt_of_lt h.start_lt)), h.slot j hj]⟩

/-- **A new last item, for which the first one makes room in a full array**, goes to the slot behind the last one. -/
theorem write (h : Cyclic slots cap start l) :
    Cyclic (Function.update slots ((start + l.length) % cap) (some x)) cap
      (if l.length < cap then start else (start + 1) % cap) ((if l.length < cap then l else l.tail) ++ [x]) := by
  by_cases hl : l.length < cap
  · rw [if_pos hl, if_pos hl]
    exact h.pushBack hl
  · have hfull : l.length = cap := le_antisymm h.length_le (not_lt.1 hl)
    rw [if_neg hl, if_neg hl, hfull, Nat.add_mod_right, Nat.mod_eq_of_lt h.start_lt]
    cases l with
    | nil => exact absurd (Nat.zero_lt_of_lt h.start_lt) hl
    | cons y l => exact h.replace hfull

/-- **Read once around from behind the last item**, the array gives free slots and then the items, in order. -/
theorem read_around (h : Cyclic slots cap start l) :
    (List.range cap).filterMap (fun j => slots ((start + l.length + j) % cap)) = l := by
  have hle := h.length_le
  have hrange : List.range cap = List.range (cap - l.length) ++ (List.range l.length).map (cap - l.length + ·) := by
    rw [← List.range_add, Nat.sub_add_cancel hle]
  have hfree : (List.range (cap - l.length)).filterMap (fun j => slots ((start + l.length + j) % cap)) = [] := by
    refine List.filterMap_eq_nil_iff.2 (fun j hj => ?_)
    rw [List.mem_range] at hj
    rw [Nat.add_assoc, h.get_none (by omega) (by omega)]
  have hitems : (List.range l.length).filterMap
      ((fun j => slots ((start + l.length + j) % cap)) ∘ (cap - l.length + ·)) = l := by
    have hmap : (List.range l.length).filterMap
        ((fun j => slots ((start + l.length + j) % cap)) ∘ (cap - l.length + ·)) =
        (List.range l.length).filterMap (fun j => l[j]?) := by
      refine List.filterMap_congr (fun j hj => ?_)
      rw [List.mem_range] at hj
      show slots ((start + l.length + (cap - l.length + j)) % cap) = l[j]?
      rw [show start + l.length + (cap - l.length + j) = start + j + cap by omega, Nat.add_mod_right,
        h.slot j (by omega)]
    rw [hmap, filterMap_getElem?]
  rw [hrange, List.filterMap_append, hfree, List.nil_append, List.filterMap_map, hitems]

theorem map {β : Type} (f : α → β) (h : Cyclic slots cap start l) :
    Cyclic (fun n => (slots n).map f) cap start (l.map f) :=
  ⟨h.start_lt, by rw [List.length_map]; exact h.length_le, fun j hj => by rw [h.slot j hj, List.getElem?_map]⟩

end Cyclic
end ContentionProf
