import Mathlib.Data.List.Nodup
import Mathlib.Data.List.Perm.Basic
import Mathlib.Data.List.Flatten
import Mathlib.Data.List.Pairwise
/-!
# Places — things that are in one place at a time

`c : ι → List α` says what each place holds.  `Partition c`: no place holds a thing twice and no two places hold the
same one.  Moving things around between finitely many places keeps a partition (`Partition.rearrange`), and so does
putting a new thing somewhere (`Partition.insert`).
-/
namespace ContentionProf

variable {ι α : Type}

/-- Every thing is in at most one place, and there once. -/
structure Partition (c : ι → List α) : Prop where
  nodup : ∀ a, (c a).Nodup
  unique : ∀ a b x, x ∈ c a → x ∈ c b → a = b

/-- Some place holds the thing. -/
def Placed (c : ι → List α) (x : α) : Prop := ∃ a, x ∈ c a

namespace Partition

variable {c c' : ι → List α}

theorem nodup_flatMap (h : Partition c) {S : List ι} (hS : S.Nodup) : (S.flatMap c).Nodup := by
  rw [List.nodup_flatMap]
  refine ⟨fun a _ => h.nodup a, ?_⟩
  refine hS.imp (fun {a b} hab => ?_)
  refine List.disjoint_iff_ne.2 ?_
  rintro x hx y hy rfl
  exact hab (h.unique a b x hx hy)

/-- **Moving things between finitely many places keeps a partition.** -/
theorem rearrange (h : Partition c) {S : List ι} (hS : S.Nodup) (hperm : (S.flatMap c').Perm (S.flatMap c))
    (hout : ∀ k, k ∉ S → c' k = c k) : Partition c' := by
  have hnd := hperm.nodup_iff.2 (h.nodup_flatMap hS)
  rw [List.nodup_flatMap] at hnd
  -- a thing of an affected place was in one before
  have back : ∀ {a x}, a ∈ S → x ∈ c' a → ∃ a₀ ∈ S, x ∈ c a₀ := fun ha hx =>
    List.mem_flatMap.1 (hperm.subset (List.mem_flatMap.2 ⟨_, ha, hx⟩))
  constructor
  · intro a
    by_cases ha : a ∈ S
    · exact hnd.1 a ha
    · rw [hout a ha]; exact h.nodup a
  · intro a b x hxa hxb
    by_cases ha : a ∈ S <;> by_cases hb : b ∈ S
    · by_contra hab
      have : Std.Symm (Function.onFun List.Disjoint c') := ⟨fun _ _ hd _ h₁ h₂ => hd h₂ h₁⟩
      exact hnd.2.forall ha hb hab hxa hxb
    · rw [hout b hb] at hxb
      obtain ⟨a₀, ha₀, hx⟩ := back ha hxa
      exact absurd (h.unique _ _ _ hx hxb ▸ ha₀) hb
    · rw [hout a ha] at hxa
      obtain ⟨b₀, hb₀, hx⟩ := back hb hxb
      exact absurd (h.unique _ _ _ hx hxa ▸ hb₀) ha
    · rw [hout a ha] at hxa
      rw [hout b hb] at hxb
      exact h.unique a b x hxa hxb

/-- **A thing that was nowhere can be put anywhere.** -/
theorem insert (h : Partition c) {a : ι} {x : α} (hx : ¬ Placed c x) (ha : (c' a).Perm (x :: c a))
    (hout : ∀ k, k ≠ a → c' k = c k) : Partition c' := by
  constructor
  · intro b
    by_cases hb : b = a
    · rw [hb]
      exact ha.nodup_iff.2 (List.nodup_cons.2 ⟨fun hm => hx ⟨a, hm⟩, h.nodup a⟩)
    · rw [hout b hb]; exact h.nodup b
  · have new : ∀ {b y}, b ≠ a → y ∈ c' b → y ≠ x := by
      rintro b y hb hy rfl
      exact hx ⟨b, hout b hb ▸ hy⟩
    intro b b' y hy hy'
    by_cases hb : b = a <;> by_cases hb' : b' = a
    · rw [hb, hb']
    · subst hb
      rcases List.mem_cons.1 (ha.subset hy) with rfl | hy
      · exact absurd rfl (new hb' hy')
      · exact h.unique b b' y hy (hout b' hb' ▸ hy')
    · subst hb'
      rcases List.mem_cons.1 (ha.subset hy') with rfl | hy'
      · exact absurd rfl (new hb hy)
      · exact h.unique b b' y (hout b hb ▸ hy) hy'
    · exact h.unique b b' y (hout b hb ▸ hy) (hout b' hb' ▸ hy')

theorem sublist (h : Partition c) (hs : ∀ a, (c' a).Sublist (c a)) : Partition c' :=
  ⟨fun a => (h.nodup a).sublist (hs a), fun a b x ha hb => h.unique a b x ((hs a).subset ha) ((hs b).subset hb)⟩

end Partition

theorem placed_insert {c c' : ι → List α} {a : ι} {x : α} (ha : (c' a).Perm (x :: c a))
    (hout : ∀ k, k ≠ a → c' k = c k) (y : α) : Placed c' y ↔ y = x ∨ Placed c y := by
  constructor
  · rintro ⟨b, hy⟩
    by_cases hb : b = a
    · subst hb
      rcases List.mem_cons.1 (ha.subset hy) with rfl | hy
      · exact .inl rfl
      · exact .inr ⟨b, hy⟩
    · exact .inr ⟨b, hout b hb ▸ hy⟩
  · rintro (rfl | ⟨b, hy⟩)
    · exact ⟨a, ha.symm.subset List.mem_cons_self⟩
    · by_cases hb : b = a
      · subst hb
        exact ⟨b, ha.symm.subset (List.mem_cons_of_mem _ hy)⟩
      · exact ⟨b, by rw [hout b hb]; exact hy⟩

/-- Moving things neither makes nor destroys one. -/
theorem placed_rearrange {c c' : ι → List α} {S : List ι} (hperm : (S.flatMap c').Perm (S.flatMap c))
    (hout : ∀ k, k ∉ S → c' k = c k) (x : α) : Placed c' x ↔ Placed c x := by
  have one : ∀ {c c' : ι → List α}, (S.flatMap c').Perm (S.flatMap c) → (∀ k, k ∉ S → c' k = c k) → Placed c' x →
      Placed c x := by
    rintro c c' hp ho ⟨a, hx⟩
    by_cases ha : a ∈ S
    · obtain ⟨b, -, hb⟩ := List.mem_flatMap.1 (hp.subset (List.mem_flatMap.2 ⟨a, ha, hx⟩))
      exact ⟨b, hb⟩
    · exact ⟨a, ho a ha ▸ hx⟩
  exact ⟨one hperm hout, one hperm.symm (fun k hk => (hout k hk).symm)⟩

end ContentionProf
