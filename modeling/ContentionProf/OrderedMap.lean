import Mathlib.Order.Defs.LinearOrder
import Mathlib.Algebra.BigOperators.Group.List.Basic
import Mathlib.Algebra.Order.Group.Nat
import Mathlib.Algebra.GroupWithZero.Nat
/-!
# OrderedMap — a map as the list of its entries in the order of the keys

`find` and `alter` stop at the first greater key, so what is found after an `alter` is known whether or not the list is
in order.
-/
namespace ContentionProf
namespace OrderedMap

variable {κ β : Type} [LinearOrder κ]

/-- The value of a key, `b₀` where the key has no entry. -/
def find (b₀ : β) : List (κ × β) → κ → β
  | [], _          => b₀
  | (j, b) :: m, k => if k < j then b₀ else if k = j then b else find b₀ m k

/-- The entry of a key is changed, and made with `b₀` first where it is missing. -/
def alter (b₀ : β) (f : β → β) : List (κ × β) → κ → List (κ × β)
  | [], k          => [(k, f b₀)]
  | (j, b) :: m, k =>
    if k < j then (k, f b₀) :: (j, b) :: m
    else if k = j then (j, f b) :: m
    else (j, b) :: alter b₀ f m k

variable {b₀ : β} {f : β → β}

theorem find_alter_self (k : κ) : ∀ m : List (κ × β), find b₀ (alter b₀ f m k) k = f (find b₀ m k)
  | [] => by simp [alter, find]
  | (j, b) :: m => by
    unfold alter
    by_cases hlt : k < j
    · simp [find, hlt]
    · by_cases he : k = j
      · simp [find, he]
      · rw [if_neg hlt, if_neg he]
        unfold find
        rw [if_neg hlt, if_neg hlt, if_neg he, if_neg he]
        exact find_alter_self k m

theorem find_alter_of_ne {k l : κ} (h : l ≠ k) : ∀ m : List (κ × β), find b₀ (alter b₀ f m k) l = find b₀ m l
  | [] => by
    unfold alter find
    rw [if_neg h]
    split <;> rfl
  | (j, b) :: m => by
    unfold alter
    by_cases hlt : k < j
    · rw [if_pos hlt]
      conv_lhs => unfold find
      rw [if_neg h]
      split
      · rename_i hl
        unfold find
        rw [if_pos (lt_trans hl hlt)]
      · rfl
    · rw [if_neg hlt]
      by_cases he : k = j
      · have hlj : l ≠ j := fun hl => h (hl.trans he.symm)
        rw [if_pos he]
        unfold find
        rw [if_neg hlj, if_neg hlj]
      · rw [if_neg he]
        unfold find
        rw [find_alter_of_ne h m]

/-- **The sum over the entries**, when the altered one grows by an amount and a missing one counts nothing. -/
theorem sum_alter {M : Type} [AddCommMonoid M] (w : β → M) {c : M} {k : κ} (h₀ : w b₀ = 0) : ∀ m : List (κ × β),
    w (f (find b₀ m k)) = w (find b₀ m k) + c →
    ((alter b₀ f m k).map (fun e => w e.2)).sum = (m.map (fun e => w e.2)).sum + c
  | [], h => by
    have h : w (f b₀) = w b₀ + c := h
    simp [alter, h, h₀]
  | (j, b) :: m, h => by
    unfold find at h
    unfold alter
    split
    · rename_i hlt
      rw [if_pos hlt, h₀, zero_add] at h
      rw [List.map_cons, List.sum_cons, h, add_comm]
    · rename_i hlt
      rw [if_neg hlt] at h
      split
      · rename_i he
        rw [if_pos he] at h
        rw [List.map_cons, List.map_cons, List.sum_cons, List.sum_cons, h, add_right_comm]
      · rename_i he
        rw [if_neg he] at h
        rw [List.map_cons, List.map_cons, List.sum_cons, List.sum_cons, sum_alter w h₀ m h, add_assoc]

theorem find_le_sum (w : β → Nat) {k : κ} (h₀ : w b₀ = 0) : ∀ m : List (κ × β),
    w (find b₀ m k) ≤ (m.map (fun e => w e.2)).sum
  | [] => by simp [find, h₀]
  | (j, b) :: m => by
    unfold find
    rw [List.map_cons, List.sum_cons]
    split
    · rw [h₀]; exact Nat.zero_le _
    · split
      · exact Nat.le_add_right _ _
      · exact Nat.le_trans (find_le_sum w h₀ m) (Nat.le_add_left _ _)

/-! ## The entries -/

/-- The keys increase. -/
def Sorted (m : List (κ × β)) : Prop := m.Pairwise (fun a b => a.1 < b.1)

theorem find_of_mem {k : κ} {b : β} : ∀ {m : List (κ × β)}, Sorted m → (k, b) ∈ m → find b₀ m k = b
  | (j, c) :: m, h, hm => by
    obtain ⟨hj, h⟩ := List.pairwise_cons.1 h
    unfold find
    rcases List.mem_cons.1 hm with he | hm
    · cases he
      rw [if_neg (lt_irrefl k), if_pos rfl]
    · have hlt : j < k := hj _ hm
      rw [if_neg (not_lt_of_gt hlt), if_neg (ne_of_gt hlt)]
      exact find_of_mem h hm

theorem mem_alter {k : κ} {e : κ × β} : ∀ {m : List (κ × β)}, e ∈ alter b₀ f m k → e.1 = k ∨ ∃ e' ∈ m, e'.1 = e.1
  | [], he => .inl (by rw [List.mem_singleton.1 he])
  | (j, c) :: m, he => by
    unfold alter at he
    split at he
    · rcases List.mem_cons.1 he with rfl | he
      · exact .inl rfl
      · exact .inr ⟨e, he, rfl⟩
    · split at he
      · rename_i hk
        rcases List.mem_cons.1 he with rfl | he
        · exact .inl hk.symm
        · exact .inr ⟨e, List.mem_cons_of_mem _ he, rfl⟩
      · rcases List.mem_cons.1 he with rfl | he
        · exact .inr ⟨_, List.mem_cons_self, rfl⟩
        · rcases mem_alter he with he | ⟨e', he', hk⟩
          · exact .inl he
          · exact .inr ⟨e', List.mem_cons_of_mem _ he', hk⟩

theorem sorted_alter {k : κ} : ∀ {m : List (κ × β)}, Sorted m → Sorted (alter b₀ f m k)
  | [], _ => List.pairwise_singleton ..
  | (j, c) :: m, h => by
    have hm := List.pairwise_cons.1 h
    unfold alter
    split
    · rename_i hlt
      refine List.pairwise_cons.2 ⟨fun e he => ?_, h⟩
      rcases List.mem_cons.1 he with rfl | he
      · exact hlt
      · exact lt_trans hlt (hm.1 e he)
    · rename_i hlt
      split
      · exact List.pairwise_cons.2 ⟨hm.1, hm.2⟩
      · rename_i hne
        refine List.pairwise_cons.2 ⟨fun e he => ?_, sorted_alter hm.2⟩
        rcases mem_alter he with he | ⟨e', he', hk⟩
        · rw [he]; exact lt_of_le_of_ne (not_lt.1 hlt) (Ne.symm hne)
        · rw [← hk]; exact hm.1 e' he'

/-- **The values in the order of the keys.** -/
theorem flatMap_find {γ : Type} {m : List (κ × List γ)} (h : Sorted m) :
    (m.map Prod.fst).flatMap (find [] m) = m.flatMap Prod.snd := by
  rw [List.flatMap_map]
  exact List.flatMap_congr (fun e he => find_of_mem h he)

theorem perm_alter_append {γ : Type} {k : κ} {x : γ} : ∀ m : List (κ × List γ),
    ((alter [] (· ++ [x]) m k).flatMap Prod.snd).Perm (x :: m.flatMap Prod.snd)
  | [] => .refl _
  | (j, l) :: m => by
    unfold alter
    split
    · exact .refl _
    · split
      · rw [List.flatMap_cons, List.flatMap_cons, List.append_assoc]
        exact List.perm_middle
      · rw [List.flatMap_cons, List.flatMap_cons]
        exact ((perm_alter_append m).append_left l).trans List.perm_middle

end OrderedMap
end ContentionProf
