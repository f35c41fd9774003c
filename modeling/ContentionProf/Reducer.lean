import Mathlib.Algebra.BigOperators.Group.Multiset.Basic
import Mathlib.Algebra.Order.Group.Multiset
import Mathlib.Tactic.Abel
import ContentionProf.Common
/-!
# Reducer — a reducer whose calls run one after the other (`common/reducer.h`, `common/combiner.h`)

`Combines op e m d` says of which values `d` was made: `op` was applied to every value of `m` once, in some order and
grouping, and to identities.
-/
namespace ContentionProf

variable {T : Type} {op : T → T → T} {e : T}

/-- **`d` is a combination of the values `m`.** -/
inductive Combines (op : T → T → T) (e : T) : Multiset T → T → Prop
  | identity : Combines op e 0 e
  | value (v : T) : Combines op e {v} v
  | op {m n : Multiset T} {a b : T} (ha : Combines op e m a) (hb : Combines op e n b) : Combines op e (m + n) (op a b)

/-- In a commutative monoid there is one combination. -/
theorem Combines.eq_sum {M : Type} [AddCommMonoid M] {m : Multiset M} {d : M} (h : Combines (· + ·) 0 m d) :
    d = m.sum := by
  induction h with
  | identity => simp
  | value v => simp
  | op _ _ iha ihb => rw [Multiset.sum_add, ← iha, ← ihb]

structure Reducer (T : Type) where
  globalResult : T
  /-- `agents_` from the head: the thread and the value of its element. -/
  agents : List (Thread × T)

namespace Reducer

/-- `AgentCombiner(identify, identify, op)`. -/
def construct (e : T) : Reducer T := { globalResult := e, agents := [] }

/-- `operator<<`: a thread without agent gets one with the identity. -/
def add (op : T → T → T) (e : T) (r : Reducer T) (t : Thread) (value : T) : Reducer T :=
  let agents := if t ∈ r.agents.map Prod.fst then r.agents else r.agents ++ [(t, e)]
  { r with agents := agents.map (fun a => if a.1 = t then (a.1, op a.2 value) else a) }

/-- `commit_and_erase`, when the thread exits. -/
def exit (op : T → T → T) (r : Reducer T) (t : Thread) : Reducer T :=
  match r.agents.find? (·.1 = t) with
  | none   => r
  | some a => { globalResult := op r.globalResult a.2, agents := r.agents.filter (·.1 ≠ t) }

/-- `combine_agents`. -/
def combineAgents (op : T → T → T) (r : Reducer T) : T := r.agents.foldl (fun ret a => op ret a.2) r.globalResult

/-- `reset_all_agents`. -/
def resetAllAgents (op : T → T → T) (e : T) (r : Reducer T) : T × Reducer T :=
  (r.agents.foldl (fun tmp a => op tmp a.2) r.globalResult,
    { globalResult := e, agents := r.agents.map (fun a => (a.1, e)) })

/-- **The reducer holds the values `m`**, each in the global result or in one agent; a thread has one agent. -/
structure Has (op : T → T → T) (e : T) (r : Reducer T) (m : Multiset T) : Prop where
  nodup : (r.agents.map Prod.fst).Nodup
  parts : ∃ (g : Multiset T) (f : Thread → Multiset T), Combines op e g r.globalResult ∧
    (∀ a ∈ r.agents, Combines op e (f a.1) a.2) ∧ m = g + (r.agents.map (fun a => f a.1)).sum

variable {r : Reducer T} {m : Multiset T} {t : Thread} {v : T}

theorem has_construct : (construct e).Has op e 0 :=
  ⟨List.nodup_nil, 0, fun _ => 0, .identity, fun _ ha => absurd ha List.not_mem_nil, rfl⟩

theorem combines_foldl {f : Thread → Multiset T} :
    ∀ {agents : List (Thread × T)} {g : Multiset T} {a : T}, Combines op e g a →
      (∀ a ∈ agents, Combines op e (f a.1) a.2) →
      Combines op e (g + (agents.map (fun a => f a.1)).sum) (agents.foldl (fun ret a => op ret a.2) a)
  | [], g, a, ha, _ => by simpa using ha
  | b :: agents, g, a, ha, hf => by
    have hb := combines_foldl (ha.op (hf b List.mem_cons_self)) (fun a ha => hf a (List.mem_cons_of_mem _ ha))
    rw [List.map_cons, List.sum_cons, ← add_assoc]
    exact hb

/-- **What `get_value` returns is a combination of everything the reducer holds.** -/
theorem Has.combineAgents (h : r.Has op e m) : Combines op e m (r.combineAgents op) := by
  obtain ⟨-, g, f, hg, hf, rfl⟩ := h
  exact combines_foldl hg hf

/-- **A reset returns the same and leaves nothing.** -/
theorem Has.resetAllAgents (h : r.Has op e m) :
    Combines op e m (r.resetAllAgents op e).1 ∧ (r.resetAllAgents op e).2.Has op e 0 := by
  refine ⟨h.combineAgents, ?_, 0, fun _ => 0, .identity, fun a ha => ?_, ?_⟩
  · show ((r.agents.map (fun a => (a.1, e))).map Prod.fst).Nodup
    rw [List.map_map]
    exact h.nodup
  · obtain ⟨b, -, rfl⟩ := List.mem_map.1 ha
    exact .identity
  · simp

theorem Has.append (h : r.Has op e m) (ht : t ∉ r.agents.map Prod.fst) :
    Has op e { r with agents := r.agents ++ [(t, e)] } m := by
  obtain ⟨hnd, g, f, hg, hf, rfl⟩ := h
  have hne : ∀ a ∈ r.agents, a.1 ≠ t := fun a ha he => ht (he ▸ List.mem_map_of_mem ha)
  refine ⟨?_, g, fun u => if u = t then 0 else f u, hg, fun a ha => ?_, ?_⟩
  · simp only [List.map_append, List.map_cons, List.map_nil]
    exact List.nodup_append'.2 ⟨hnd, List.nodup_singleton t, by simpa using ht⟩
  · rcases List.mem_append.1 ha with ha | ha
    · simp only [if_neg (hne a ha)]
      exact hf a ha
    · obtain rfl := List.mem_singleton.1 ha
      simp only [if_true]
      exact .identity
  · have hmap : r.agents.map (fun a => if a.1 = t then 0 else f a.1) = r.agents.map (fun a => f a.1) :=
      List.map_congr_left (fun a ha => if_neg (hne a ha))
    simp [hmap]

/-- One of different threads has one value more. -/
theorem sum_map_ite {f : Thread → Multiset T} : ∀ (l : List Thread), l.Nodup → t ∈ l →
    (l.map (fun u => if u = t then f u + {v} else f u)).sum = v ::ₘ (l.map f).sum
  | u :: l, hnd, hmem => by
    obtain ⟨hu, hnd⟩ := List.nodup_cons.1 hnd
    rw [List.map_cons, List.sum_cons, List.map_cons, List.sum_cons]
    by_cases hut : u = t
    · subst hut
      have hrest : l.map (fun w => if w = u then f w + {v} else f w) = l.map f :=
        List.map_congr_left (fun w hw => if_neg (ne_of_mem_of_not_mem hw hu))
      rw [if_pos rfl, hrest, ← Multiset.singleton_add, add_comm (f u), add_assoc]
    · rw [if_neg hut, sum_map_ite l hnd ((List.mem_cons.1 hmem).resolve_left (fun h => hut h.symm)), Multiset.add_cons]

/-- The element of the thread takes one more value. -/
theorem Has.modify (h : r.Has op e m) (ht : t ∈ r.agents.map Prod.fst) :
    Has op e { r with agents := r.agents.map (fun a => if a.1 = t then (a.1, op a.2 v) else a) } (v ::ₘ m) := by
  obtain ⟨hnd, g, f, hg, hf, rfl⟩ := h
  have hfst : (r.agents.map (fun a => if a.1 = t then (a.1, op a.2 v) else a)).map Prod.fst =
      r.agents.map Prod.fst := by
    rw [List.map_map]
    refine List.map_congr_left (fun a _ => ?_)
    show (if a.1 = t then (a.1, op a.2 v) else a).1 = a.1
    split <;> rfl
  refine ⟨by rw [hfst]; exact hnd, g, fun u => if u = t then f u + {v} else f u, hg, fun a ha => ?_, ?_⟩
  · obtain ⟨b, hb, rfl⟩ := List.mem_map.1 ha
    by_cases hbt : b.1 = t
    · simp only [hbt, if_true]
      exact (hbt ▸ hf b hb).op (.value v)
    · simp only [hbt, if_false]
      exact hf b hb
  · have hagents : (r.agents.map (fun a => if a.1 = t then (a.1, op a.2 v) else a)).map
        (fun a => if a.1 = t then f a.1 + {v} else f a.1) =
        (r.agents.map Prod.fst).map (fun u => if u = t then f u + {v} else f u) := by
      rw [← hfst]
      conv_rhs => rw [List.map_map]
      rfl
    show v ::ₘ (g + (r.agents.map (fun a => f a.1)).sum) = g + _
    rw [hagents, sum_map_ite _ hnd ht, List.map_map, Multiset.add_cons]
    rfl

/-- **`operator<<` adds its value.** -/
theorem Has.add (h : r.Has op e m) : (r.add op e t v).Has op e (v ::ₘ m) := by
  unfold Reducer.add
  by_cases ht : t ∈ r.agents.map Prod.fst
  · rw [if_pos ht]
    exact h.modify ht
  · rw [if_neg ht]
    exact (h.append ht).modify (by simp)

/-- **A thread that exits leaves its value behind.** -/
theorem Has.exit (h : r.Has op e m) : (r.exit op t).Has op e m := by
  unfold Reducer.exit
  cases hfind : r.agents.find? (·.1 = t) with
  | none => exact h
  | some a =>
    obtain ⟨hnd, g, f, hg, hf, rfl⟩ := h
    obtain rfl : a.1 = t := by simpa using List.find?_some hfind
    have ha := List.mem_of_find?_eq_some hfind
    refine ⟨?_, g + f a.1, f, hg.op (hf a ha), fun b hb => hf b (List.mem_filter.1 hb).1, ?_⟩
    · exact hnd.sublist ((List.filter_sublist).map _)
    · obtain ⟨l₁, l₂, hl⟩ := List.append_of_mem ha
      rw [hl, List.map_append, List.map_cons, List.nodup_append'] at hnd
      obtain ⟨-, hnd₂, hdis⟩ := hnd
      have h₁ : l₁.filter (fun b => b.1 ≠ a.1) = l₁ := List.filter_eq_self.2 (fun b hb => by
        simpa using fun he : b.1 = a.1 => hdis (List.mem_map_of_mem hb) (he ▸ List.mem_cons_self))
      have h₂ : l₂.filter (fun b => b.1 ≠ a.1) = l₂ := List.filter_eq_self.2 (fun b hb => by
        simpa using fun he : b.1 = a.1 => (List.nodup_cons.1 hnd₂).1 (he ▸ List.mem_map_of_mem hb))
      show g + (r.agents.map _).sum = g + f a.1 + ((r.agents.filter (fun b => b.1 ≠ a.1)).map _).sum
      rw [hl, List.filter_append, h₁, List.filter_cons_of_neg (by simp), h₂]
      simp only [List.map_append, List.map_cons, List.sum_append, List.sum_cons]
      abel

end Reducer
end ContentionProf
