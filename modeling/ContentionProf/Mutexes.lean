import ContentionProf.Run
import Mathlib.Data.List.Count
/-!
# Mutexes — calls of lock and unlock, and what they do

Parties call `lock` and `unlock` on mutexes; a call has one effect and has returned then, and a party may make a call
before an outer one has had its effect.  Nothing is said about what else the parties do.
-/
namespace ContentionProf
namespace Mutexes

variable {τ ι : Type}

/-- A call that has had no effect yet. -/
inductive Call (ι : Type)
  | lock (m : ι)
  | unlock (m : ι)
deriving DecidableEq

@[ext] structure State (τ ι : Type) where
  owner : ι → Option τ
  count : ι → Nat
  /-- The calls of a party under way, the innermost first. -/
  calls : τ → List (Call ι)

inductive Label (τ ι : Type)
  | call (t : τ) (c : Call ι)
  /-- The lock returns 0. -/
  | acquire (t : τ) (m : ι)
  /-- The lock returns an error. -/
  | fail (t : τ) (m : ι)
  | release (t : τ) (m : ι)
deriving DecidableEq

def initState (τ ι : Type) : State τ ι := ⟨fun _ => none, fun _ => 0, fun _ => []⟩

/-- **A mutex is locked as often as its owner has locked it**, and once at most unless it is recursive. -/
structure Inv (recursive : ι → Bool) (s : State τ ι) : Prop where
  owned : ∀ m, s.owner m = none ↔ s.count m = 0
  once : ∀ m, recursive m = false → s.count m ≤ 1

theorem inv_init {recursive : ι → Bool} : Inv recursive (initState τ ι) :=
  ⟨fun _ => iff_of_true rfl rfl, fun _ _ => Nat.zero_le 1⟩

/-- A step that leaves the mutexes alone. -/
theorem Inv.of_eq {recursive : ι → Bool} {s s' : State τ ι} (h : Inv recursive s) (ho : s'.owner = s.owner)
    (hc : s'.count = s.count) : Inv recursive s' :=
  ⟨by rw [ho, hc]; exact h.owned, by rw [hc]; exact h.once⟩

variable [DecidableEq τ]

/-- A lock of the mutex has to wait. -/
def busy (recursive : ι → Bool) (s : State τ ι) (t : τ) (m : ι) : Bool :=
  match s.owner m with
  | none   => false
  | some u => !(u == t && recursive m)

/-- How often the party has locked the mutex and not unlocked it. -/
def held (s : State τ ι) (t : τ) (m : ι) : Nat := if s.owner m = some t then s.count m else 0

def State.setCalls (s : State τ ι) (t : τ) (l : List (Call ι)) : State τ ι :=
  { s with calls := Function.update s.calls t l }

theorem calls_setCalls (s : State τ ι) (t u : τ) (l : List (Call ι)) :
    (s.setCalls t l).calls u = if u = t then l else s.calls u := Function.update_apply ..

@[simp] theorem held_setCalls (s : State τ ι) (t u : τ) (m : ι) (l : List (Call ι)) :
    held (s.setCalls t l) u m = held s u m := rfl

theorem owner_of_not_busy {recursive : ι → Bool} {s : State τ ι} {t : τ} {m : ι} (h : busy recursive s t m = false) :
    s.owner m = none ∨ s.owner m = some t ∧ recursive m = true := by
  unfold busy at h
  split at h
  · rename_i hn; exact .inl hn
  · rename_i u hu
    simp only [Bool.not_eq_eq_eq_not, Bool.not_false, Bool.and_eq_true, beq_iff_eq] at h
    exact .inr ⟨by rw [hu, h.1], h.2⟩

variable [DecidableEq ι]

def State.setMutex (s : State τ ι) (m : ι) (o : Option τ) (n : Nat) : State τ ι :=
  { s with owner := Function.update s.owner m o, count := Function.update s.count m n }

/-- Only the owner unlocks, and only a call under way has an effect. -/
def step (recursive : ι → Bool) (s : State τ ι) : Label τ ι → Option (State τ ι)
  | .call t (.lock m)   => some (s.setCalls t (.lock m :: s.calls t))
  | .call t (.unlock m) => if s.owner m = some t then some (s.setCalls t (.unlock m :: s.calls t)) else none
  | .acquire t m        =>
    if (s.calls t).head? = some (.lock m) ∧ busy recursive s t m = false then
      some ((s.setCalls t (s.calls t).tail).setMutex m (some t) (s.count m + 1))
    else none
  | .fail t m           =>
    if (s.calls t).head? = some (.lock m) then some (s.setCalls t (s.calls t).tail) else none
  | .release t m        =>
    if (s.calls t).head? = some (.unlock m) ∧ s.owner m = some t then
      some ((s.setCalls t (s.calls t).tail).setMutex m (if s.count m ≤ 1 then none else some t) (s.count m - 1))
    else none

def system (recursive : ι → Bool) : System (State τ ι) (Label τ ι) where
  init s := s = initState τ ι
  step := step recursive

/-- **What a history of moves amounts to.** -/
structure Accounts (s : State τ ι) (as : List (Label τ ι)) : Prop where
  /-- Every lock that returned 0 is unlocked or still held. -/
  held : ∀ t m, as.count (.acquire t m) = as.count (.release t m) + held s t m
  /-- Every call of lock has returned 0, has failed or is under way. -/
  locks : ∀ t m, as.count (.call t (.lock m)) =
    as.count (.acquire t m) + as.count (.fail t m) + (s.calls t).count (.lock m)
  /-- Every call of unlock has unlocked or is under way. -/
  unlocks : ∀ t m, as.count (.call t (.unlock m)) = as.count (.release t m) + (s.calls t).count (.unlock m)

variable {recursive : ι → Bool} {s s' : State τ ι} {as bs : List (Label τ ι)}

/-! ## One move -/

theorem Inv.set {t : τ} {m : ι} {l : List (Call ι)} {o : Option τ} {n : Nat} (h : Inv recursive s)
    (ho : o = none ↔ n = 0) (hn : recursive m = false → n ≤ 1) :
    Inv recursive ((s.setCalls t l).setMutex m o n) := by
  constructor
  · intro k
    show Function.update s.owner m o k = none ↔ Function.update s.count m n k = 0
    by_cases hk : k = m
    · rw [hk, Function.update_self, Function.update_self]; exact ho
    · rw [Function.update_of_ne hk, Function.update_of_ne hk]; exact h.owned k
  · intro k hr
    show Function.update s.count m n k ≤ 1
    by_cases hk : k = m
    · rw [hk, Function.update_self]; exact hn (hk ▸ hr)
    · rw [Function.update_of_ne hk]; exact h.once k hr

theorem inv_step {a : Label τ ι} (h : Inv recursive s) (hs : step recursive s a = some s') : Inv recursive s' := by
  cases a with
  | call t c =>
    cases c with
    | lock m => cases hs; exact h.of_eq rfl rfl
    | unlock m =>
      rw [step] at hs
      split at hs <;> cases hs
      exact h.of_eq rfl rfl
  | acquire t m =>
    rw [step] at hs
    split at hs <;> cases hs
    rename_i hg
    refine h.set (iff_of_false nofun (Nat.succ_ne_zero _)) (fun hr => ?_)
    rcases owner_of_not_busy hg.2 with hn | ⟨-, hrec⟩
    · exact Nat.succ_le_succ (Nat.le_of_eq ((h.owned m).1 hn))
    · rw [hr] at hrec; cases hrec
  | fail t m =>
    rw [step] at hs
    split at hs <;> cases hs
    exact h.of_eq rfl rfl
  | release t m =>
    rw [step] at hs
    split at hs <;> cases hs
    rename_i hg
    refine h.set ?_ (fun hr => Nat.le_trans (Nat.sub_le ..) (h.once m hr))
    split
    · exact iff_of_true rfl (by omega)
    · exact iff_of_false nofun (by omega)

theorem held_setMutex {t u : τ} {m k : ι} {l : List (Call ι)} {o : Option τ} {n : Nat} :
    held ((s.setCalls t l).setMutex m o n) u k = if k = m then (if o = some u then n else 0) else held s u k := by
  show (if Function.update s.owner m o k = some u then Function.update s.count m n k else 0) = _
  by_cases hk : k = m
  · rw [hk, Function.update_self, Function.update_self, if_pos rfl]
  · rw [Function.update_of_ne hk, Function.update_of_ne hk, if_neg hk]; rfl

/-- **The party that locks holds the mutex once more.** -/
theorem held_acquire {t u : τ} {m k : ι} {l : List (Call ι)} (hi : Inv recursive s)
    (hb : busy recursive s t m = false) :
    held ((s.setCalls t l).setMutex m (some t) (s.count m + 1)) u k =
      held s u k + if t = u ∧ m = k then 1 else 0 := by
  rw [held_setMutex]
  by_cases hk : k = m
  · subst hk
    unfold held
    rcases owner_of_not_busy hb with hn | ⟨hn, -⟩
    · rw [hn, (hi.owned k).1 hn]
      by_cases hu : t = u <;> simp [hu]
    · rw [hn]
      by_cases hu : t = u <;> simp [hu]
  · rw [if_neg hk, if_neg (fun h => hk h.2.symm), Nat.add_zero]

/-- **The party that unlocks held the mutex once more.** -/
theorem held_release {t u : τ} {m k : ι} {l : List (Call ι)} (hi : Inv recursive s) (ho : s.owner m = some t) :
    held s u k = held ((s.setCalls t l).setMutex m (if s.count m ≤ 1 then none else some t) (s.count m - 1)) u k +
      if t = u ∧ m = k then 1 else 0 := by
  rw [held_setMutex]
  by_cases hk : k = m
  · subst hk
    have hpos : s.count k ≠ 0 := fun h0 => by
      have hn := (hi.owned k).2 h0
      rw [ho] at hn
      cases hn
    unfold held
    rw [ho]
    by_cases hu : t = u
    · by_cases hone : s.count k ≤ 1 <;> simp [hu, hone] <;> omega
    · by_cases hone : s.count k ≤ 1 <;> simp [hu, hone]
  · rw [if_neg hk, if_neg (fun h => hk h.2.symm), Nat.add_zero]

theorem accounts_init : Accounts (initState τ ι) [] := ⟨fun _ _ => rfl, fun _ _ => rfl, fun _ _ => rfl⟩

/-- A call begins. -/
theorem Accounts.call {t : τ} {c : Call ι} (h : Accounts s as) :
    Accounts (s.setCalls t (c :: s.calls t)) (as ++ [.call t c]) := by
  refine ⟨fun u k => ?_, fun u k => ?_, fun u k => ?_⟩
  · simpa [List.count_append] using h.held u k
  · have hl := h.locks u k
    rw [calls_setCalls]
    simp only [List.count_append, List.count_singleton]
    by_cases hu : u = t
    · subst hu; simp [List.count_cons]; omega
    · simp [hu, Ne.symm hu]; omega
  · have hl := h.unlocks u k
    rw [calls_setCalls]
    simp only [List.count_append, List.count_singleton]
    by_cases hu : u = t
    · subst hu; simp [List.count_cons]; omega
    · simp [hu, Ne.symm hu]; omega

/-- **The innermost call of a party has its effect.** -/
theorem Accounts.pop {t : τ} {m : ι} {c : Call ι} {a : Label τ ι} (h : Accounts s as)
    (ha : a = .acquire t m ∧ c = .lock m ∨ a = .fail t m ∧ c = .lock m ∨ a = .release t m ∧ c = .unlock m)
    (hc : (s.calls t).head? = some c) (hcalls : s'.calls = (s.setCalls t (s.calls t).tail).calls)
    (hheld : ∀ u k, (as ++ [a]).count (.acquire u k) = (as ++ [a]).count (.release u k) + Mutexes.held s' u k) :
    Accounts s' (as ++ [a]) := by
  have hpop : ∀ d : Call ι, (s.calls t).count d = (s.calls t).tail.count d + if c = d then 1 else 0 := by
    intro d
    rw [← List.cons_head?_tail hc, List.count_cons, List.tail_cons]
    simp
  refine ⟨hheld, fun u k => ?_, fun u k => ?_⟩
  · have hl := h.locks u k
    have hp := hpop (.lock k)
    rw [hcalls, calls_setCalls]
    simp only [List.count_append, List.count_singleton]
    by_cases hu : u = t
    · subst hu
      rcases ha with ⟨rfl, rfl⟩ | ⟨rfl, rfl⟩ | ⟨rfl, rfl⟩ <;> simp at hp ⊢ <;> omega
    · rcases ha with ⟨rfl, rfl⟩ | ⟨rfl, rfl⟩ | ⟨rfl, rfl⟩ <;> simp [hu, Ne.symm hu] <;> omega
  · have hl := h.unlocks u k
    have hp := hpop (.unlock k)
    rw [hcalls, calls_setCalls]
    simp only [List.count_append, List.count_singleton]
    by_cases hu : u = t
    · subst hu
      rcases ha with ⟨rfl, rfl⟩ | ⟨rfl, rfl⟩ | ⟨rfl, rfl⟩ <;> simp at hp ⊢ <;> omega
    · rcases ha with ⟨rfl, rfl⟩ | ⟨rfl, rfl⟩ | ⟨rfl, rfl⟩ <;> simp [hu, Ne.symm hu] <;> omega

/-- **One more move keeps the accounts.** -/
theorem Accounts.step {a : Label τ ι} (h : Accounts s as) (hi : Inv recursive s)
    (hs : step recursive s a = some s') : Accounts s' (as ++ [a]) := by
  cases a with
  | call t c =>
    cases c with
    | lock m => cases hs; exact h.call
    | unlock m =>
      rw [Mutexes.step] at hs
      split at hs <;> cases hs
      exact h.call
  | acquire t m =>
    rw [Mutexes.step] at hs
    split at hs <;> cases hs
    rename_i hg
    refine h.pop (.inl ⟨rfl, rfl⟩) hg.1 rfl (fun u k => ?_)
    have hh := h.held u k
    rw [held_acquire hi hg.2]
    simp only [List.count_append, List.count_singleton]
    simp
    omega
  | fail t m =>
    rw [Mutexes.step] at hs
    split at hs <;> cases hs
    rename_i hg
    refine h.pop (.inr (.inl ⟨rfl, rfl⟩)) hg rfl (fun u k => ?_)
    simpa [List.count_append] using h.held u k
  | release t m =>
    rw [Mutexes.step] at hs
    split at hs <;> cases hs
    rename_i hg
    refine h.pop (.inr (.inr ⟨rfl, rfl⟩)) hg.1 rfl (fun u k => ?_)
    have hh := h.held u k
    rw [held_release (l := (s.calls t).tail) hi hg.2] at hh
    simp only [List.count_append, List.count_singleton]
    simp
    omega

/-- **Every history of a run is accounted for.** -/
theorem accounts_run : ∀ {bs as : List (Label τ ι)} {s s' : State τ ι}, Accounts s as → Inv recursive s →
    (system recursive).run s bs = some s' → Accounts s' (as ++ bs) ∧ Inv recursive s'
  | [], as, s, s', h, hi, hr      => by
    cases hr
    rw [List.append_nil]
    exact ⟨h, hi⟩
  | b :: bs, as, s, s', h, hi, hr => by
    rw [System.run_cons] at hr
    obtain ⟨s₁, hs, hr'⟩ := Option.bind_eq_some_iff.1 hr
    have hlater := accounts_run (h.step hi hs) (inv_step hi hs) hr'
    rw [List.append_assoc] at hlater
    exact hlater

end Mutexes
end ContentionProf
