import Mathlib.Data.List.Basic
/-!
# Blocks — erasing the first block of a list

`std::find` with a loop that extends the range erases the first run of neighbours that satisfy a predicate.  That
erases all of them exactly if they are neighbours.
-/
namespace ContentionProf
namespace Blocks

variable {α : Type} (p : α → Bool)

/-- The list without its first block. -/
def eraseBlock (l : List α) : List α :=
  l.takeWhile (fun x => !p x) ++ (l.dropWhile (fun x => !p x)).dropWhile p

/-- Behind the first block there is no other one. -/
def Adjacent (l : List α) : Prop := ∀ x ∈ (l.dropWhile (fun x => !p x)).dropWhile p, p x = false

instance (l : List α) : Decidable (Adjacent p l) := inferInstanceAs (Decidable (∀ x ∈ _, _))

variable {p}

theorem eraseBlock_cons {x : α} {l : List α} (h : p x = false) : eraseBlock p (x :: l) = x :: eraseBlock p l := by
  simp [eraseBlock, h]

theorem eraseBlock_cons_of_pos {x : α} {l : List α} (h : p x = true) : eraseBlock p (x :: l) = l.dropWhile p := by
  simp [eraseBlock, h]

theorem adjacent_cons {x : α} {l : List α} (h : p x = false) : Adjacent p (x :: l) ↔ Adjacent p l := by
  simp [Adjacent, h]

theorem adjacent_cons_of_pos {x : α} {l : List α} (h : p x = true) :
    Adjacent p (x :: l) ↔ ∀ y ∈ l.dropWhile p, p y = false := by
  simp [Adjacent, h]

theorem eraseBlock_sublist (p : α → Bool) : ∀ l : List α, (eraseBlock p l).Sublist l
  | []     => List.Sublist.refl _
  | x :: l => by
    by_cases h : p x = true
    · rw [eraseBlock_cons_of_pos h]
      exact (List.dropWhile_sublist p).cons x
    · rw [eraseBlock_cons (by simpa using h)]
      exact (eraseBlock_sublist p l).cons_cons x

theorem filter_eraseBlock : ∀ l : List α, (eraseBlock p l).filter (fun x => !p x) = l.filter (fun x => !p x)
  | []     => rfl
  | x :: l => by
    by_cases h : p x = true
    · have hdrop : ∀ l : List α, (l.dropWhile p).filter (fun x => !p x) = l.filter (fun x => !p x) := by
        intro l
        induction l with
        | nil => rfl
        | cons y l ih =>
          rw [List.dropWhile_cons]
          split
          · rename_i hy
            rw [ih, List.filter_cons_of_neg (by simp [hy])]
          · rfl
      rw [eraseBlock_cons_of_pos h, hdrop, List.filter_cons_of_neg (by simp [h])]
    · have hx : p x = false := by simpa using h
      rw [eraseBlock_cons hx, List.filter_cons_of_pos (by simp [hx]), List.filter_cons_of_pos (by simp [hx]),
        filter_eraseBlock l]

theorem eraseBlock_all_iff : ∀ l : List α, (∀ x ∈ eraseBlock p l, p x = false) ↔ Adjacent p l
  | []     => iff_of_true (fun _ h => by cases h) (fun _ h => by cases h)
  | x :: l => by
    by_cases h : p x = true
    · rw [eraseBlock_cons_of_pos h, adjacent_cons_of_pos h]
    · have hx : p x = false := by simpa using h
      rw [eraseBlock_cons hx, adjacent_cons hx, List.forall_mem_cons, and_iff_right hx, eraseBlock_all_iff l]

/-- **The block is all there is exactly if they are neighbours.** -/
theorem eraseBlock_eq_filter_iff (l : List α) : eraseBlock p l = l.filter (fun x => !p x) ↔ Adjacent p l := by
  rw [← eraseBlock_all_iff l, ← filter_eraseBlock l, eq_comm, List.filter_eq_self]
  refine forall₂_congr (fun x _ => ?_)
  rw [Bool.not_eq_true']

theorem length_filter_le_eraseBlock (p : α → Bool) (l : List α) :
    (l.filter (fun x => !p x)).length ≤ (eraseBlock p l).length := by
  rw [← filter_eraseBlock l]
  exact List.length_filter_le ..

end Blocks
end ContentionProf
