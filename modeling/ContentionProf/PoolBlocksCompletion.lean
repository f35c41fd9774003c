import ContentionProf.Completion
import ContentionProf.PoolSlots
/-!
# PoolBlocksCompletion — the loop of `add_block` ends

Every time round the loop the thread has seen more groups, and there are `OP_MAX_BLOCK_GROUP_COUNT`.  A new group is
made when the last one has no slot left, so no slot is left out.
-/
namespace ContentionProf
namespace PoolBlocks

variable {c : Config} {s s' : State} {t u : Thread} {alloc : Bool}

/-- The group count read by a thread that found its group full, or no group. -/
def Pc.past : Pc → Option Nat
  | .fetchSub _ n _   => some n
  | .groupLock _ n    => some n
  | .groupCheck _ n   => some n
  | .groupStore _ n _ => some n
  | .groupBump _ n    => some n
  | _                 => none

/-- The groups below `n` have no slot left. -/
def Filled (c : Config) (s : State) (n : Nat) : Prop := ∀ g, g < n → (s.heap g).reserved = c.groupBlockCount

structure Full (c : Config) (s : State) : Prop where
  inv : Inv c s
  before : Filled c s (s.groupCount - 1)
  past : ∀ t n, (s.pc t).past = some n → n ≤ s.groupCount ∧ Filled c s n
  slots : ∀ g i, i < (s.heap g).reserved → (s.heap g).blocks i ≠ none ∨ ∃ t, (s.pc t).slot = some (g, i)

/-! ## What a step does to the groups -/

/-- **What a step of one thread does to the groups**: slots are handed out and filled, and groups are added at the end
when the last one is full. -/
structure Grows (c : Config) (s s' : State) (t : Thread) : Prop where
  others : ∀ u, u ≠ t → s'.pc u = s.pc u
  groupCount : s.groupCount ≤ s'.groupCount
  reserved : ∀ g, (s.heap g).reserved ≤ (s'.heap g).reserved
  blocks : ∀ g i, (s.heap g).blocks i ≠ none → (s'.heap g).blocks i ≠ none
  taken : ∀ g i, (s.heap g).reserved ≤ i → i < (s'.heap g).reserved → (s'.pc t).slot = some (g, i)
  stored : ∀ g i, (s.pc t).slot = some (g, i) → (s'.heap g).blocks i ≠ none

/-- A step that leaves the groups as they are. -/
theorem Grows.quiet {p' : Pc} (hp : (s.pc t).slot = none) (hheap : s'.heap = s.heap)
    (hgc : s.groupCount ≤ s'.groupCount) (hpc : s'.pc = Function.update s.pc t p') : Grows c s s' t where
  others u hu := by rw [hpc]; exact Function.update_of_ne hu ..
  groupCount := hgc
  reserved g := by rw [hheap]
  blocks g i h := by rw [hheap]; exact h
  taken g i h h' := by rw [hheap] at h'; omega
  stored g i h := by rw [hp] at h; cases h

/-- A step on one group. -/
theorem Grows.onGroup {g : GroupPtr} {bg : BlockGroup} {p' : Pc} (hheap : s'.heap = Function.update s.heap g bg)
    (hgc : s'.groupCount = s.groupCount) (hpc : s'.pc = Function.update s.pc t p')
    (hres : (s.heap g).reserved ≤ bg.reserved) (hblocks : ∀ i, (s.heap g).blocks i ≠ none → bg.blocks i ≠ none)
    (htaken : ∀ i, (s.heap g).reserved ≤ i → i < bg.reserved → p'.slot = some (g, i))
    (hstored : ∀ k i, (s.pc t).slot = some (k, i) → k = g ∧ bg.blocks i ≠ none) : Grows c s s' t where
  others u hu := by rw [hpc]; exact Function.update_of_ne hu ..
  groupCount := Nat.le_of_eq hgc.symm
  reserved k := by
    rw [hheap]
    by_cases hk : k = g
    · rw [hk, Function.update_self]; exact hres
    · rw [Function.update_of_ne hk]
  blocks k i h := by
    rw [hheap]
    by_cases hk : k = g
    · rw [hk, Function.update_self]; exact hblocks i (hk ▸ h)
    · rw [Function.update_of_ne hk]; exact h
  taken k i h h' := by
    rw [hheap] at h'
    rw [hpc, Function.update_self]
    by_cases hk : k = g
    · rw [hk, Function.update_self] at h'
      rw [hk] at h ⊢
      exact htaken i h h'
    · rw [Function.update_of_ne hk] at h'; omega
  stored k i h := by
    obtain ⟨rfl, hi⟩ := hstored k i h
    rw [hheap, Function.update_self]
    exact hi

theorem grows (h : Inv c s) (hs : advance c s t alloc = some s') : Grows c s s' t := by
  have hi := h.pc t
  have ho := h.owner t
  cases hp : s.pc t <;> rw [hp] at hi ho <;> simp only [PoolBlocks.advance, hp] at hs
  case idle => cases hs
  case load b => cases hs; exact .quiet (by rw [hp]; rfl) rfl le_rfl rfl
  case loadGroup b n =>
    obtain ⟨g, -, rfl⟩ := Option.map_eq_some_iff.1 hs
    exact .quiet (by rw [hp]; rfl) rfl le_rfl rfl
  case fetchAdd b n g =>
    split at hs
    · rename_i hlt
      cases hs
      obtain ⟨-, hcount⟩ := (h.group g).next hlt
      refine .onGroup rfl rfl rfl (Nat.le_succ _) (fun _ h => h) (fun i h₁ h₂ => ?_) (fun k i hk => ?_)
      · have h₂ : i < (s.heap g).reserved + 1 := h₂
        exact congrArg some (Prod.ext rfl (by show (s.heap g).blockCount = i; omega))
      · rw [hp] at hk; cases hk
    · cases hs
      refine .onGroup rfl rfl rfl le_rfl (fun _ h => h) (fun i h₁ h₂ => absurd h₂ (Nat.not_lt.2 h₁)) (fun k i hk => ?_)
      rw [hp] at hk; cases hk
  case store b n g i =>
    cases hs
    refine .onGroup rfl rfl rfl le_rfl (fun j hj => ?_) (fun j h₁ h₂ => absurd h₂ (Nat.not_lt.2 h₁)) (fun k j hk => ?_)
    · show Function.update (s.heap g).blocks i (some b) j ≠ none
      by_cases hji : j = i
      · rw [hji, Function.update_self]; exact Option.some_ne_none b
      · rw [Function.update_of_ne hji]; exact hj
    · rw [hp] at hk
      obtain ⟨rfl, rfl⟩ := Prod.mk.inj (Option.some.inj hk)
      refine ⟨rfl, ?_⟩
      show Function.update (s.heap g).blocks i (some b) i ≠ none
      rw [Function.update_self]
      exact Option.some_ne_none b
  case fetchSub b n g =>
    cases hs
    refine .onGroup rfl rfl rfl le_rfl (fun _ h => h) (fun i h₁ h₂ => absurd h₂ (Nat.not_lt.2 h₁)) (fun k i hk => ?_)
    rw [hp] at hk; cases hk
  case groupLock b n => split at hs <;> cases hs; exact .quiet (by rw [hp]; rfl) rfl le_rfl rfl
  case groupCheck b n =>
    split at hs
    · cases hs; exact .quiet (by rw [hp]; rfl) rfl le_rfl rfl
    split at hs
    · split at hs
      · cases hs
        have hcreated : s.created = s.groupCount := by rw [h.created, pending_of_owner (ho.2 rfl), hp]; rfl
        have hheap : Function.update s.heap s.created .new = s.heap := by
          rw [← h.fresh s.created (le_of_eq hcreated.symm), Function.update_eq_self]
        exact .quiet (by rw [hp]; rfl) hheap le_rfl rfl
      · cases hs; exact .quiet (by rw [hp]; rfl) rfl le_rfl rfl
    · cases hs; exact .quiet (by rw [hp]; rfl) rfl le_rfl rfl
  case groupStore b n bg => cases hs; exact .quiet (by rw [hp]; rfl) rfl le_rfl rfl
  case groupBump b n =>
    cases hs
    obtain ⟨hn, -, -⟩ := hi
    exact .quiet (by rw [hp]; rfl) rfl (by show s.groupCount ≤ n + 1; omega) rfl
  case groupUnlock b more => cases hs; exact .quiet (by rw [hp]; rfl) rfl le_rfl rfl

/-- A group without a slot left stays so. -/
theorem Grows.filled {n : Nat} (hg : Grows c s s' t) (h : Inv c s') (hf : Filled c s n) : Filled c s' n :=
  fun g hgn => Nat.le_antisymm (h.group g).reserved_le (hf g hgn ▸ hg.reserved g)

theorem BlockGroup.Ok.full_of_count {g : BlockGroup} (h : g.Ok c) (hge : ¬ g.blockCount < c.groupBlockCount) :
    g.reserved = c.groupBlockCount := by
  by_cases hover : g.overshooters = []
  · have hcount := h.count
    have hle := h.reserved_le
    rw [hover, List.length_nil] at hcount
    omega
  · exact h.full hover

/-- **Where the thread goes with a full last group.** -/
theorem Full.past_step (h : Full c s) (hs : advance c s t alloc = some s') :
    (∀ n, (s'.pc t).past = some n → n ≤ s.groupCount ∧ Filled c s' n) ∧
      (s.groupCount < s'.groupCount → s'.groupCount = s.groupCount + 1 ∧ Filled c s s.groupCount) := by
  have hfilled : ∀ n, Filled c s n → Filled c s' n := fun n => (grows h.inv hs).filled (h.inv.advance hs)
  have hi := h.inv.pc t
  have hpast := h.past t
  -- the count is carried along
  have hkeep : ∀ {n : Nat}, (s.pc t).past = some n → (∀ m, (s'.pc t).past = some m → m = n) →
      s'.groupCount = s.groupCount → (∀ m, (s'.pc t).past = some m → m ≤ s.groupCount ∧ Filled c s' m) ∧
        (s.groupCount < s'.groupCount → s'.groupCount = s.groupCount + 1 ∧ Filled c s s.groupCount) := by
    intro n hn hm hgc
    refine ⟨fun m hpm => ?_, fun hlt => by rw [hgc] at hlt; omega⟩
    rw [hm m hpm]
    exact ⟨(hpast n hn).1, hfilled n (hpast n hn).2⟩
  have hnone : (s'.pc t).past = none → s'.groupCount = s.groupCount →
      (∀ m, (s'.pc t).past = some m → m ≤ s.groupCount ∧ Filled c s' m) ∧
        (s.groupCount < s'.groupCount → s'.groupCount = s.groupCount + 1 ∧ Filled c s s.groupCount) := by
    intro hn hgc
    exact ⟨fun m hm => (by rw [hn] at hm; cases hm), fun hlt => by rw [hgc] at hlt; omega⟩
  have hself : ∀ {s₁ : State} {p : Pc}, (s₁.setPc t p).pc t = p := Function.update_self ..
  cases hp : s.pc t <;> rw [hp] at hi hpast <;> simp only [PoolBlocks.advance, hp] at hs
  case idle => cases hs
  case load b =>
    by_cases h1 : 1 ≤ s.groupCount
    · rw [if_pos h1] at hs
      cases hs
      exact hnone (by rw [hself]; rfl) rfl
    · rw [if_neg h1] at hs
      cases hs
      refine ⟨fun m hm => ?_, fun hlt => absurd hlt (Nat.lt_irrefl _)⟩
      rw [hself] at hm
      rw [← Option.some.inj hm]
      exact ⟨le_rfl, fun g hg => absurd hg (by omega)⟩
  case loadGroup b n =>
    obtain ⟨g, -, rfl⟩ := Option.map_eq_some_iff.1 hs
    exact hnone (by rw [hself]; rfl) rfl
  case fetchAdd b n g =>
    obtain ⟨h1, hn, hg⟩ := hi
    split at hs
    · cases hs; exact hnone (by rw [hself]; rfl) rfl
    · rename_i hge
      cases hs
      refine ⟨fun m hm => ?_, fun hlt => absurd hlt (Nat.lt_irrefl _)⟩
      rw [hself] at hm
      rw [← Option.some.inj hm]
      refine ⟨hn, hfilled n (fun k hk => ?_)⟩
      subst hg
      by_cases hkn : k + 1 = n
      · rw [show k = n - 1 by omega]; exact (h.inv.group _).full_of_count hge
      · exact h.before k (by omega)
  case store b n g i => cases hs; exact hnone (by rw [hself]; rfl) rfl
  case fetchSub b n g =>
    cases hs
    exact hkeep (by rw [hp]; rfl) (fun m hm => by rw [hself] at hm; exact (Option.some.inj hm).symm) rfl
  case groupLock b n =>
    split at hs <;> cases hs
    exact hkeep (by rw [hp]; rfl) (fun m hm => by rw [hself] at hm; exact (Option.some.inj hm).symm) rfl
  case groupCheck b n =>
    split at hs
    · cases hs; exact hnone (by rw [hself]; rfl) rfl
    split at hs
    · split at hs
      · cases hs
        exact hkeep (by rw [hp]; rfl) (fun m hm => by rw [hself] at hm; exact (Option.some.inj hm).symm) rfl
      · cases hs; exact hnone (by rw [hself]; rfl) rfl
    · cases hs; exact hnone (by rw [hself]; rfl) rfl
  case groupStore b n bg =>
    cases hs
    exact hkeep (by rw [hp]; rfl) (fun m hm => by rw [hself] at hm; exact (Option.some.inj hm).symm) rfl
  case groupBump b n =>
    cases hs
    obtain ⟨rfl, -, -⟩ := hi
    refine ⟨fun m hm => (by rw [hself] at hm; cases hm), fun _ => ⟨rfl, (hpast s.groupCount rfl).2⟩⟩
  case groupUnlock b more =>
    cases hs
    refine hnone ?_ rfl
    rw [hself]
    split <;> rfl

theorem Full.advance (h : Full c s) (hs : advance c s t alloc = some s') : Full c s' := by
  have hinv := h.inv.advance hs
  have hg := grows h.inv hs
  obtain ⟨hpast, hnew⟩ := h.past_step hs
  refine ⟨hinv, ?_, fun u n hu => ?_, fun g i hi => ?_⟩
  · rcases Nat.eq_or_lt_of_le hg.groupCount with heq | hlt
    · rw [← heq]; exact hg.filled hinv h.before
    · obtain ⟨hcount, hf⟩ := hnew hlt
      rw [hcount]; exact hg.filled hinv hf
  · by_cases hut : u = t
    · rw [hut] at hu
      exact ⟨Nat.le_trans (hpast n hu).1 hg.groupCount, (hpast n hu).2⟩
    · rw [hg.others u hut] at hu
      exact ⟨Nat.le_trans (h.past u n hu).1 hg.groupCount, hg.filled hinv (h.past u n hu).2⟩
  · by_cases hold : i < (s.heap g).reserved
    · rcases h.slots g i hold with hb | ⟨u, hu⟩
      · exact .inl (hg.blocks g i hb)
      · by_cases hut : u = t
        · exact .inl (hg.stored g i (hut ▸ hu))
        · exact .inr ⟨u, by rw [hg.others u hut]; exact hu⟩
    · exact .inr ⟨t, hg.taken g i (Nat.not_lt.1 hold) hi⟩

/-- A new call changes no group. -/
theorem Full.addBlock (h : Full c s) (hs : step c s (.addBlock t alloc) = some s') :
    Full c s' ∧ s'.groupCount = s.groupCount ∧ ∀ u, u ≠ t → s'.pc u = s.pc u := by
  have hinv := inv_step h.inv hs
  simp only [step] at hs
  split at hs
  · rename_i hidle
    have hp : s.pc t = .idle := by
      cases hp : s.pc t <;> rw [hp] at hidle <;> first | rfl | cases hidle
    split at hs
    · cases hs
      have hpc : ∀ u, (s.pc u).past = (Function.update s.pc t (.load s.nblocks) u).past ∧
          (s.pc u).slot = (Function.update s.pc t (.load s.nblocks) u).slot := by
        intro u
        by_cases hu : u = t
        · rw [hu, Function.update_self, hp]; exact ⟨rfl, rfl⟩
        · rw [Function.update_of_ne hu]; exact ⟨rfl, rfl⟩
      refine ⟨⟨hinv, h.before, fun u n hu => h.past u n ((hpc u).1.trans hu), fun g i hi => ?_⟩, rfl,
        fun u hu => Function.update_of_ne hu ..⟩
      refine (h.slots g i hi).imp id ?_
      rintro ⟨u, hu⟩
      exact ⟨u, (hpc u).2.symm.trans hu⟩
    · cases hs; exact ⟨h, rfl, fun _ _ => rfl⟩
  · cases hs

theorem full_step {a : Label} (h : Full c s) (hs : step c s a = some s') : Full c s' := by
  cases a with
  | addBlock t alloc => exact (h.addBlock hs).1
  | go t alloc => exact h.advance hs

theorem full_init : Full c initState where
  inv := inv_init
  before _ hg := absurd hg (Nat.not_lt_zero _)
  past _ _ h := nomatch h
  slots _ _ h := absurd h (Nat.not_lt_zero _)

theorem Reachable.full (h : (system c).Reachable s) : Full c s :=
  h.invariant (I := Full c) (fun s h0 => by cases h0; exact full_init) (fun _ _ _ h _ hs => full_step h hs)

/-! ## The loop -/

/-- The steps that are left of a call when there are `n` groups. -/
def Pc.left (c : Config) (n : Nat) : Pc → Nat
  | .idle             => 0
  | .load _           => 9 * (c.maxBlockGroupCount - n) + 9
  | .loadGroup _ m    => 9 * (c.maxBlockGroupCount - m) + 8
  | .fetchAdd _ m _   => 9 * (c.maxBlockGroupCount - m) + 7
  | .store ..         => 1
  | .fetchSub _ m _   => 9 * (c.maxBlockGroupCount - m) + 6
  | .groupLock _ m    => 9 * (c.maxBlockGroupCount - m) + 5
  | .groupCheck _ m   => 9 * (c.maxBlockGroupCount - m) + 4
  | .groupStore _ m _ => 9 * (c.maxBlockGroupCount - m) + 3
  | .groupBump _ m    => 9 * (c.maxBlockGroupCount - m) + 2
  | .groupUnlock _ b  => if b then 9 * (c.maxBlockGroupCount - n) + 10 else 1

def left (c : Config) (s : State) (t : Thread) : Nat := (s.pc t).left c s.groupCount

theorem Pc.left_mono {n n' : Nat} (h : n ≤ n') (p : Pc) : p.left c n' ≤ p.left c n := by
  cases p <;> simp only [Pc.left] <;> first | exact Nat.le_refl _ | (split <;> omega) | omega

theorem Pc.left_of_holds {p : Pc} (h : p.holds = true) (n : Nat) : p.left c n ≠ 0 := by
  cases p with
  | groupUnlock b more => cases more <;> exact Nat.succ_ne_zero _
  | _ => first | exact Nat.succ_ne_zero _ | cases h

/-- **The thread comes nearer to its end**: before the loop starts again, there are more groups than it knew. -/
theorem left_lt (h : Full c s) (hs : advance c s t alloc = some s') : left c s' t < left c s t := by
  have hi := h.inv.pc t
  have hpast := h.past t
  have hbound := h.inv.bound
  have hself : ∀ {s₁ : State} {p : Pc}, (s₁.setPc t p).pc t = p := Function.update_self ..
  cases hp : s.pc t <;> rw [hp] at hi hpast <;> simp only [PoolBlocks.advance, hp] at hs <;> unfold left <;> rw [hp]
  case idle => cases hs
  case load b => cases hs; rw [hself]; split <;> simp [Pc.left]
  case loadGroup b n =>
    obtain ⟨g, -, rfl⟩ := Option.map_eq_some_iff.1 hs
    rw [hself]; simp [Pc.left]
  case fetchAdd b n g => split at hs <;> cases hs <;> rw [hself] <;> simp [Pc.left]
  case store b n g i => cases hs; rw [hself]; simp [Pc.left]
  case fetchSub b n g => cases hs; rw [hself]; simp [Pc.left]
  case groupLock b n => split at hs <;> cases hs; rw [hself]; simp [Pc.left]
  case groupCheck b n =>
    have hn := (hpast n rfl).1
    split at hs
    · cases hs
      rw [hself]
      show 9 * (c.maxBlockGroupCount - s.groupCount) + 10 < 9 * (c.maxBlockGroupCount - n) + 4
      omega
    split at hs
    · split at hs <;> cases hs <;> rw [hself] <;> simp [Pc.left]
    · cases hs; rw [hself]; simp [Pc.left]
  case groupStore b n bg => cases hs; rw [hself]; simp [Pc.left]
  case groupBump b n =>
    cases hs
    obtain ⟨rfl, hroom, -⟩ := hi
    rw [hself]
    show 9 * (c.maxBlockGroupCount - (s.groupCount + 1)) + 10 < 9 * (c.maxBlockGroupCount - s.groupCount) + 2
    omega
  case groupUnlock b more => cases hs; rw [hself]; cases more <;> simp [Pc.left, State.setPc]

/-- The other threads take it no further from its end. -/
theorem left_others (h : Full c s) (hs : advance c s u alloc = some s') (hut : t ≠ u) : left c s' t ≤ left c s t := by
  have hg := grows h.inv hs
  unfold left
  rw [hg.others t hut]
  exact Pc.left_mono hg.groupCount _

/-- A step of the thread inside a call. -/
def Label.goes (t : Thread) : Label → Prop
  | .go u _ => u = t
  | _       => False

instance (t : Thread) : DecidablePred (Label.goes t) := fun a => by
  cases a <;> unfold Label.goes <;> infer_instance

/-- A step of the thread with no allocation failing. -/
def Label.goesOn (t : Thread) : Label → Prop
  | .go u alloc => u = t ∧ alloc = true
  | _           => False

/-- A call of the thread that got a block. -/
def Label.calls (t : Thread) : Label → Prop
  | .addBlock u alloc => u = t ∧ alloc = true
  | _                 => False

instance (t : Thread) : DecidablePred (Label.calls t) := fun a => by
  cases a <;> unfold Label.calls <;> infer_instance

theorem left_step {a : Label} (h : Full c s) (hs : step c s a = some s') :
    (if a.goes t then 1 else 0) + left c s' t ≤
      left c s t + if a.calls t then 9 * c.maxBlockGroupCount + 9 else 0 := by
  cases a with
  | go u alloc =>
    have hs : advance c s u alloc = some s' := hs
    rw [if_neg (show ¬ Label.calls t (.go u alloc) from id)]
    by_cases hut : u = t
    · subst hut
      rw [if_pos (show Label.goes u (.go u alloc) from rfl), Nat.add_comm]
      exact left_lt h hs
    · rw [if_neg (show ¬ Label.goes t (.go u alloc) from hut), Nat.zero_add]
      exact left_others h hs (fun he => hut he.symm)
  | addBlock u alloc =>
    obtain ⟨-, hgc, hpc⟩ := h.addBlock hs
    rw [if_neg (show ¬ Label.goes t (.addBlock u alloc) from id), Nat.zero_add]
    by_cases hut : u = t
    · subst hut
      simp only [step] at hs
      split at hs
      · split at hs
        · rename_i halloc
          cases hs
          rw [if_pos (show Label.calls u (.addBlock u alloc) from ⟨rfl, halloc⟩)]
          unfold left
          rw [setPc_pc_self]
          simp only [Pc.left]
          omega
        · cases hs; exact Nat.le_add_right ..
      · cases hs
    · unfold left
      rw [hpc t (fun he => hut he.symm), hgc]
      exact Nat.le_add_right ..

theorem sum_map_ite (p : Label → Prop) [DecidablePred p] (n : Nat) (as : List Label) :
    (as.map (fun a => if p a then n else 0)).sum = n * as.countP (fun a => decide (p a)) := by
  induction as with
  | nil => rfl
  | cons a as ih =>
    rw [List.map_cons, List.sum_cons, ih, List.countP_cons]
    by_cases hp : p a
    · simp only [hp, if_true, decide_true]; rw [Nat.mul_add, Nat.mul_one, Nat.add_comm]
    · simp [hp]

/-- Only an allocation that fails leaves `block_group_mutex_` locked. -/
theorem advance_abandoned (hs : advance c s t true = some s') : s'.abandoned = s.abandoned := by
  cases hp : s.pc t <;> simp only [PoolBlocks.advance, hp] at hs
  case idle => cases hs
  case loadGroup b n =>
    obtain ⟨g, -, rfl⟩ := Option.map_eq_some_iff.1 hs
    rfl
  case fetchAdd b n g => split at hs <;> cases hs <;> rfl
  case groupLock b n => split at hs <;> cases hs; rfl
  case groupCheck b n =>
    split at hs
    · cases hs; rfl
    split at hs
    · simp only [if_true] at hs; cases hs; rfl
    · cases hs; rfl
  all_goals cases hs; rfl

/-- While `block_group_mutex_` was not left locked, its owner comes to its unlock. -/
theorem oneLock : System.OneLock (system c) (fun s => Full c s ∧ s.abandoned = false) Label.goesOn (left c) State.owner
    where
  inside s t h ho := by
    exact Pc.left_of_holds ((h.1.inv.owner t).1 ho) _
  go s t h hz ho := by
    obtain ⟨h, hab⟩ := h
    have hi := h.inv.pc t
    have hown := h.inv.owner t
    have hstep : ∃ s', advance c s t true = some s' ∧ (s'.owner = s.owner ∨ s'.owner = none ∨ s'.owner = some t) := by
      unfold advance
      cases hp : s.pc t with rw [hp] at hi hown
      | idle => unfold left at hz; rw [hp] at hz; exact absurd rfl hz
      | loadGroup b n =>
        dsimp only
        rw [h.inv.groups (n - 1) (group_lt hi.1 hi.2 rfl)]
        exact ⟨_, rfl, .inl rfl⟩
      | groupLock b n =>
        have hfree : s.owner = none := by
          cases ho' : s.owner with
          | none => rfl
          | some u =>
            rw [ho u ho'] at ho'
            cases hown.1 ho'
        exact ⟨_, if_pos (by rw [hfree, hab]; rfl), .inr (.inr rfl)⟩
      | groupUnlock b more => exact ⟨_, rfl, .inr (.inl rfl)⟩
      | fetchAdd b n g => dsimp only; split <;> exact ⟨_, rfl, .inl rfl⟩
      | groupCheck b n => dsimp only; split <;> [skip; split] <;> exact ⟨_, rfl, .inl rfl⟩
      | _ => exact ⟨_, rfl, .inl rfl⟩
    obtain ⟨s', hs, hown'⟩ := hstep
    refine ⟨.go t true, s', ⟨rfl, rfl⟩, hs, ⟨h.advance hs, (advance_abandoned hs).trans hab⟩, left_lt h hs, ?_,
      fun u _ => ?_⟩
    · rcases hown' with ho' | ho' | ho'
      · rw [ho']
        cases hso : s.owner with
        | none => exact .inl rfl
        | some u => exact .inr (congrArg some (ho u hso))
      · exact .inl ho'
      · exact .inr ho'
    · by_cases hu : u = t
      · rw [hu]; exact Nat.le_of_lt (left_lt h hs)
      · exact left_others h hs hu

/-- Who waits for the mutex that was left locked. -/
def Stuck (s : State) (t : Thread) : Prop := s.abandoned = true ∧ ∃ b n, s.pc t = .groupLock b n

theorem stuck_step {a : Label} (h : Stuck s t) (hs : step c s a = some s') : Stuck s' t ∧ s'.pc t = s.pc t := by
  obtain ⟨hab, b, n, hp⟩ := h
  suffices hk : s'.abandoned = true ∧ s'.pc t = s.pc t from ⟨⟨hk.1, b, n, hk.2.trans hp⟩, hk.2⟩
  cases a with
  | addBlock u alloc =>
    simp only [step] at hs
    split at hs
    · rename_i hidle
      have hut : t ≠ u := by rintro rfl; rw [hp] at hidle; cases hidle
      split at hs
      · cases hs; exact ⟨hab, Function.update_of_ne hut ..⟩
      · cases hs; exact ⟨hab, rfl⟩
    · cases hs
  | go u alloc =>
    have hs : advance c s u alloc = some s' := hs
    have hut : t ≠ u := by
      rintro rfl
      rw [advance, hp] at hs
      dsimp only at hs
      rw [hab, Bool.not_true, Bool.and_false] at hs
      cases hs
    have hset : ∀ {s₁ : State} {p : Pc}, s₁.abandoned = true → s₁.pc = s.pc →
        (s₁.setPc u p).abandoned = true ∧ (s₁.setPc u p).pc t = s.pc t := fun h₁ h₂ =>
      ⟨h₁, (Function.update_of_ne hut ..).trans (congrFun h₂ t)⟩
    cases hq : s.pc u <;> simp only [PoolBlocks.advance, hq] at hs
    case idle => cases hs
    case loadGroup b n =>
      obtain ⟨g, -, rfl⟩ := Option.map_eq_some_iff.1 hs
      exact hset hab rfl
    case fetchAdd b n g => split at hs <;> cases hs <;> exact hset hab rfl
    case groupLock b n => split at hs <;> cases hs; exact hset hab rfl
    case groupCheck b n =>
      split at hs
      · cases hs; exact hset hab rfl
      split at hs
      · split at hs <;> cases hs
        · exact hset hab rfl
        · exact hset rfl rfl
      · cases hs; exact hset hab rfl
    all_goals cases hs; exact hset hab rfl

theorem left_bound (c : Config) (s : State) (t : Thread) : left c s t ≤ 9 * c.maxBlockGroupCount + 10 := by
  unfold left
  cases s.pc t <;> simp only [Pc.left] <;> first | omega | (split <;> omega)

/-- **Every call of `add_block` ends, unless `block_group_mutex_` was left locked**: a thread makes at most
`9 * OP_MAX_BLOCK_GROUP_COUNT + 9` steps a call, and it never stands still but for `block_group_mutex_`, whose owner
comes to its unlock; but after `new BlockGroup()` has thrown, who comes to its lock stays there. -/
theorem add_block_ends :
    (∀ (as : List Label) (s' : State), (system c).run initState as = some s' → ∀ t,
      as.countP (fun a => decide (a.goes t)) + left c s' t ≤
        (9 * c.maxBlockGroupCount + 9) * as.countP (fun a => decide (a.calls t))) ∧
    (∀ s, (system c).Reachable s → s.abandoned = false → ∀ t, ∃ as s', (system c).run s as = some s' ∧
      s'.pc t = .idle ∧ as.length ≤ 2 * (9 * c.maxBlockGroupCount + 10) ∧
      ∀ a ∈ as, a.goesOn t ∨ ∃ u, s.owner = some u ∧ a.goesOn u) ∧
    ∀ s t, Stuck s t → ∀ as s', (system c).run s as = some s' → s'.pc t = s.pc t := by
  refine ⟨fun as s' hr t => ?_, fun s hs hab t => ?_, fun s t h as s' hr => ?_⟩
  · have hm := System.run_measure (I := Full c) (μ := fun s => left c s t)
      (fun s a s' h hs => ⟨full_step h hs, left_step h hs⟩) full_init hr
    rw [sum_map_ite, sum_map_ite, Nat.one_mul] at hm
    exact Nat.le_trans hm (Nat.le_of_eq (Nat.zero_add _))
  · obtain ⟨as, s', hr, -, hz, hlen, hall⟩ := oneLock.completes ⟨Reachable.full hs, hab⟩ t
    refine ⟨as, s', hr, ?_, ?_, hall⟩
    · unfold left at hz
      cases hp : s'.pc t <;> rw [hp] at hz <;> simp only [Pc.left] at hz <;>
        first | rfl | omega | (split at hz <;> omega)
    · have h₁ := left_bound c s t
      have h₂ : System.ownerLeft (left c) State.owner s t ≤ 9 * c.maxBlockGroupCount + 10 := by
        unfold System.ownerLeft
        split
        · split
          · exact Nat.zero_le _
          · exact left_bound ..
        · exact Nat.zero_le _
      omega
  · induction as generalizing s with
    | nil => cases hr; rfl
    | cons a as ih =>
      obtain ⟨s₁, hst, hr'⟩ := Option.bind_eq_some_iff.1 hr
      obtain ⟨h₁, hp⟩ := stuck_step (c := c) h hst
      exact (ih s₁ h₁ hr').trans hp

/-- Thread 2 goes round the loop three times. -/
theorem add_block_ends_fullGroupRun : ∃ s, (system ⟨1, 3⟩).run initState fullGroupRun = some s ∧
    fullGroupRun.countP (fun a => decide (a.goes 2)) = 20 ∧
    fullGroupRun.countP (fun a => decide (a.goes 2)) + left ⟨1, 3⟩ s 2 ≤ 36 := by
  have hrun : ((system ⟨1, 3⟩).run initState fullGroupRun).isSome = true := by decide
  obtain ⟨s, hs⟩ := Option.isSome_iff_exists.1 hrun
  exact ⟨s, hs, by decide, (add_block_ends (c := ⟨1, 3⟩)).1 fullGroupRun s hs 2⟩

/-- **`add_block` gives up when every slot is taken**: it returns null, with no allocation failing, only when there are
`OP_MAX_BLOCK_GROUP_COUNT` groups and each of their slots has its block or a thread that is about to store one. -/
theorem add_block_fails (h : (system c).Reachable s) {b : Block} {n : Nat} (hp : s.pc t = .groupCheck b n)
    (hs : advance c s t true = some s') (hf : s'.pc t = .groupUnlock b false) :
    s.groupCount = c.maxBlockGroupCount ∧ ∀ g, g < c.maxBlockGroupCount → ∀ i, i < c.groupBlockCount →
      (s.heap g).blocks i ≠ none ∨ ∃ u, (s.pc u).slot = some (g, i) := by
  have hfull := Reachable.full h
  have hself : ∀ {s₁ : State} {p : Pc}, (s₁.setPc t p).pc t = p := Function.update_self ..
  obtain ⟨hle, hfilled⟩ := hfull.past t n (by rw [hp]; rfl)
  have hgc : s.groupCount = c.maxBlockGroupCount ∧ s.groupCount = n := by
    simp only [advance, hp] at hs
    split at hs
    · cases hs; rw [hself] at hf; cases hf
    · rename_i hn
      split at hs
      · cases hs; rw [hself] at hf; cases hf
      · rename_i hroom
        exact ⟨Nat.le_antisymm hfull.inv.bound (Nat.not_lt.1 hroom), not_not.1 hn⟩
  refine ⟨hgc.1, fun g hg i hi => hfull.slots g i ?_⟩
  rw [hfilled g (by rw [← hgc.2, hgc.1]; exact hg)]
  exact hi

/-- A pool of one slot: thread 1 comes too late. -/
def fullPoolRun : List Label :=
  [Label.addBlock 0 true] ++ List.replicate 10 (Label.go 0 true) ++ [Label.addBlock 1 true] ++
    List.replicate 5 (Label.go 1 true)

theorem add_block_fails_fullPoolRun : ∃ s s', (system ⟨1, 1⟩).run initState fullPoolRun = some s ∧
    advance ⟨1, 1⟩ s 1 true = some s' ∧ s'.pc 1 = .groupUnlock 1 false ∧ s.groupCount = 1 ∧
    ((s.heap 0).blocks 0 ≠ none ∨ ∃ u, (s.pc u).slot = some (0, 0)) := by
  have hlast : ((system ⟨1, 1⟩).run initState fullPoolRun).map (fun s => s.pc 1) = some (.groupCheck 1 1) := rfl
  obtain ⟨s, hs, hp⟩ := Option.map_eq_some_iff.1 hlast
  have hstep : (((system ⟨1, 1⟩).run initState fullPoolRun).bind (fun s => advance ⟨1, 1⟩ s 1 true)).map
      (fun s => s.pc 1) = some (.groupUnlock 1 false) := rfl
  obtain ⟨s', hs', hf⟩ := Option.map_eq_some_iff.1 hstep
  rw [hs] at hs'
  have hs' : advance ⟨1, 1⟩ s 1 true = some s' := hs'
  obtain ⟨hgc, hslots⟩ := add_block_fails (System.Reachable.run (.init rfl) _ hs) hp hs' hf
  exact ⟨s, s', hs, hs', hf, hgc, hslots 0 Nat.zero_lt_one 0 Nat.zero_lt_one⟩

end PoolBlocks
end ContentionProf
