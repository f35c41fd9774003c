import ContentionProf.Collector
import Mathlib.Data.List.Sort
import Mathlib.Data.List.Dedup
/-!
# CollectorOrder — the order in which samples are handled (`collector.cpp`)

The grab thread sorts the samples of a `reset` by their preprocessors and handles one preprocessor after the other; what
it accepts reaches `dump_and_destroy` in the order in which it was handled, however the two threads take turns.
-/
namespace ContentionProf
namespace Collector

variable {σ : Type}

/-- The samples of one preprocessor in one round, before and after `process`. -/
structure Group (σ : Type) where
  prep : Prep
  list : List σ
  processed : List σ

/-- What the grab thread was given and did. -/
structure History (σ : Type) where
  /-- What `reset` returned. -/
  batches : List (List σ)
  groups : List (Group σ)
  /-- The samples that lines 166–181 have come to. -/
  handled : List σ

def History.empty : History σ := ⟨[], [], []⟩

def observe (s : State σ) : Label σ → History σ → History σ
  | .grab i, h => match s.grab with
    | .reset            => { h with batches := h.batches ++ [i.batch] }
    | .preps (k :: _)   =>
      let list := OrderedMap.find [] s.prepMap k
      if list.isEmpty then h
      else { h with groups := h.groups ++ [⟨k, list, if k = 0 then list else i.process list⟩] }
    | .samples (p :: _) _ => { h with handled := h.handled ++ [p] }
    | _                 => h
  | _, h       => h

/-- **The samples of a batch by preprocessor**, in the order of the preprocessors and each in the order of the batch. -/
def Config.grouped (c : Config σ) (batch : List σ) : List (Prep × List σ) :=
  ((batch.map c.preprocessor).dedup.insertionSort (· ≤ ·)).map
    (fun k => (k, batch.filter (fun p => c.preprocessor p = k)))

/-- The groups that the walk of `prep_map` still comes to. -/
def groupsOf (m : PreprocessorMap σ) (it : List Prep) : List (Prep × List σ) :=
  (it.map (fun k => (k, OrderedMap.find [] m k))).filter (fun e => !e.2.isEmpty)

/-- The keys that the walk still comes to. -/
def GrabPc.it : GrabPc σ → List Prep
  | .preps it       => it
  | .samples _ it   => it
  | .count _ _ it   => it
  | .compare _ _ it => it
  | .drop _ _ it    => it
  | .insert _ _ it  => it
  | _               => []

/-- What is left of the vector. -/
def GrabPc.list : GrabPc σ → List σ
  | .samples list _   => list
  | .count _ list _   => list
  | .compare _ list _ => list
  | .drop _ list _    => list
  | .insert _ list _  => list
  | _                 => []

/-- The sample that is neither dropped nor accepted yet. -/
def GrabPc.inHand : GrabPc σ → List σ
  | .count p _ _   => [p]
  | .compare p _ _ => [p]
  | .drop p _ _    => [p]
  | .insert p _ _  => [p]
  | _              => []

/-- What the dump thread has taken over and not passed to `dump_and_destroy`. -/
def DumpPc.inHand : DumpPc σ → List σ
  | .wait     => []
  | .ring l   => l
  | .dump p l => p :: l
  | .count l  => l

/-! ## The samples by preprocessor -/

variable {c : Config σ} {s s' : State σ} {i : Input σ} {h : History σ}

theorem find_clearVectors (k : Prep) : ∀ m : PreprocessorMap σ, OrderedMap.find [] (clearVectors m) k = []
  | []          => rfl
  | (j, l) :: m => by
    show OrderedMap.find [] ((j, []) :: clearVectors m) k = []
    unfold OrderedMap.find
    split
    · rfl
    · split
      · rfl
      · exact find_clearVectors k m

theorem sorted_clearVectors {m : PreprocessorMap σ} (hm : OrderedMap.Sorted m) : OrderedMap.Sorted (clearVectors m) :=
  List.pairwise_map.2 hm

theorem sorted_group : ∀ (batch : List σ) {m : PreprocessorMap σ}, OrderedMap.Sorted m →
    OrderedMap.Sorted (c.group m batch)
  | [], _, hm         => hm
  | _ :: batch, _, hm => sorted_group batch (OrderedMap.sorted_alter hm)

/-- **What a key finds after the samples are sorted in**: what it found, and its samples in their order. -/
theorem find_group (k : Prep) : ∀ (batch : List σ) (m : PreprocessorMap σ),
    OrderedMap.find [] (c.group m batch) k =
      OrderedMap.find [] m k ++ batch.filter (fun p => c.preprocessor p = k)
  | [], m         => by rw [List.filter_nil, List.append_nil]; rfl
  | p :: batch, m => by
    have ih := find_group k batch (OrderedMap.alter [] (· ++ [p]) m (c.preprocessor p))
    rw [show c.group m (p :: batch) = c.group (OrderedMap.alter [] (· ++ [p]) m (c.preprocessor p)) batch from rfl, ih]
    by_cases hk : c.preprocessor p = k
    · rw [hk, OrderedMap.find_alter_self, List.filter_cons_of_pos (by simpa using hk), List.append_assoc]
      rfl
    · rw [OrderedMap.find_alter_of_ne (Ne.symm hk), List.filter_cons_of_neg (by simpa using hk)]

theorem mem_keys_of_find {k : Prep} : ∀ {m : PreprocessorMap σ}, OrderedMap.find [] m k ≠ [] → k ∈ m.map Prod.fst
  | [], hf          => absurd rfl hf
  | (j, l) :: m, hf => by
    unfold OrderedMap.find at hf
    split at hf
    · exact absurd rfl hf
    · split at hf
      · rename_i hk
        exact List.mem_cons.2 (.inl hk)
      · exact List.mem_cons_of_mem _ (mem_keys_of_find hf)

/-- **The walk of `prep_map` comes to the groups of the batch**, whichever keys earlier rounds have left in the map. -/
theorem groupsOf_group {m : PreprocessorMap σ} (hm : OrderedMap.Sorted m) (batch : List σ) :
    groupsOf (c.group (clearVectors m) batch) ((c.group (clearVectors m) batch).map Prod.fst) = c.grouped batch := by
  have hfind : ∀ k, OrderedMap.find [] (c.group (clearVectors m) batch) k =
      batch.filter (fun p => c.preprocessor p = k) := fun k => by
    rw [find_group, find_clearVectors, List.nil_append]
  have hne : ∀ k, batch.filter (fun p => c.preprocessor p = k) ≠ [] ↔ k ∈ batch.map c.preprocessor := fun k => by
    rw [Ne, List.filter_eq_nil_iff, List.mem_map]
    simp only [not_forall, decide_eq_true_eq, not_not, exists_prop]
  unfold groupsOf Config.grouped
  simp only [hfind]
  rw [List.filter_map]
  refine congrArg _ ?_
  -- both are the preprocessors of the batch, in order
  refine List.Pairwise.eq_of_mem_iff (r := (· < ·)) ?_ ?_ (fun k => ?_)
  · exact (List.pairwise_map.2 (sorted_group batch (sorted_clearVectors hm))).filter _
  · have hle := List.pairwise_insertionSort (r := fun a b : Prep => a ≤ b) (batch.map c.preprocessor).dedup
    have hnd : ((batch.map c.preprocessor).dedup.insertionSort (· ≤ ·)).Nodup :=
      (List.perm_insertionSort _ _).nodup_iff.2 (List.nodup_dedup _)
    exact (List.pairwise_and_iff.2 ⟨hle, hnd⟩).imp (fun hab => lt_of_le_of_ne hab.1 hab.2)
  · rw [List.mem_insertionSort, List.mem_dedup, ← hne, List.mem_filter]
    refine ⟨fun hk => by simpa using hk.2, fun hk => ⟨mem_keys_of_find (by rw [hfind]; exact hk), by simpa using hk⟩⟩

theorem groupsOf_alter {k : Prep} {f : List σ → List σ} {m : PreprocessorMap σ} {it : List Prep}
    (hk : ∀ j ∈ it, k < j) : groupsOf (OrderedMap.alter [] f m k) it = groupsOf m it := by
  unfold groupsOf
  refine congrArg _ (List.map_congr_left (fun j hj => ?_))
  rw [OrderedMap.find_alter_of_ne (ne_of_gt (hk j hj))]

/-! ## Every run -/

structure Ordered (c : Config σ) (s : State σ) (h : History σ) : Prop where
  sorted : OrderedMap.Sorted s.prepMap
  keys : s.grab.it.Pairwise (· < ·)
  grouped : h.groups.map (fun g => (g.prep, g.list)) ++ groupsOf s.prepMap s.grab.it = h.batches.flatMap c.grouped
  unprocessed : ∀ g ∈ h.groups, g.prep = 0 → g.processed = g.list
  handled : h.handled ++ s.grab.list = h.groups.flatMap Group.processed
  /-- What has been decided is all that has been handled but the sample at hand. -/
  decided : ∃ l, h.handled = l ++ s.grab.inHand ∧ s.accepted.reverse.Sublist l ∧ s.dropped.reverse.Sublist l ∧
    l.Perm (s.accepted ++ s.dropped)
  fifo : s.accepted.reverse = s.dumped.reverse.map Prod.fst ++ s.dump.inHand ++ s.dumpRoot ++ s.root

theorem ordered_init {startUs : U64} : Ordered c (initState σ startUs) .empty where
  sorted := List.Pairwise.nil
  keys := List.Pairwise.nil
  grouped := rfl
  unprocessed _ hg := absurd hg List.not_mem_nil
  handled := rfl
  decided := ⟨[], rfl, List.Sublist.refl _, List.Sublist.refl _, .refl _⟩
  fifo := rfl

/-- A step of the grab thread that comes to no key and to no sample. -/
theorem Ordered.frame (h₀ : Ordered c s h) (hmap : s'.prepMap = s.prepMap) (hit : s'.grab.it = s.grab.it)
    (hlist : s'.grab.list = s.grab.list) (hhand : s'.grab.inHand = s.grab.inHand) (hacc : s'.accepted = s.accepted)
    (hdrop : s'.dropped = s.dropped)
    (hfifo : s'.dumped.reverse.map Prod.fst ++ s'.dump.inHand ++ s'.dumpRoot ++ s'.root =
      s.dumped.reverse.map Prod.fst ++ s.dump.inHand ++ s.dumpRoot ++ s.root) : Ordered c s' h where
  sorted := by rw [hmap]; exact h₀.sorted
  keys := by rw [hit]; exact h₀.keys
  grouped := by rw [hmap, hit]; exact h₀.grouped
  unprocessed := h₀.unprocessed
  handled := by rw [hlist]; exact h₀.handled
  decided := by rw [hhand, hacc, hdrop]; exact h₀.decided
  fifo := by rw [hacc, hfifo]; exact h₀.fifo

/-- `reset` returns and its samples are sorted in. -/
theorem Ordered.reset (h₀ : Ordered c s h) (hp : s.grab = .reset) :
    ∀ s', grabStep c s i = some s' → Ordered c s' { h with batches := h.batches ++ [i.batch] } := by
  obtain ⟨hsort, -, hgr, hun, hh, hdec, hfifo⟩ := h₀
  rw [hp] at hgr hh hdec
  have hgr : h.groups.map (fun g => (g.prep, g.list)) = h.batches.flatMap c.grouped := by
    rw [← hgr]; exact (List.append_nil _).symm
  intro s' hs
  rw [grabStep, hp] at hs
  dsimp only at hs
  split at hs
  · rename_i he
    cases hs
    refine ⟨sorted_clearVectors hsort, List.Pairwise.nil, ?_, hun, hh, hdec, hfifo⟩
    have hnil : i.batch = [] := List.isEmpty_iff.1 he
    rw [List.flatMap_append, ← hgr, hnil]
    rfl
  · cases hs
    have hsort' := sorted_group (c := c) i.batch (sorted_clearVectors hsort)
    refine ⟨hsort', List.pairwise_map.2 hsort', ?_, hun, hh, hdec, hfifo⟩
    show _ ++ groupsOf _ ((c.group (clearVectors s.prepMap) i.batch).map Prod.fst) = _
    rw [groupsOf_group hsort, List.flatMap_append, hgr]
    simp

/-- The walk of `prep_map` comes to a key. -/
theorem Ordered.preps {k : Prep} {it : List Prep} (h₀ : Ordered c s h) (hp : s.grab = .preps (k :: it)) :
    ∀ s', grabStep c s i = some s' → Ordered c s' (observe s (.grab i) h) := by
  obtain ⟨hsort, hkeys, hgr, hun, hh, hdec, hfifo⟩ := h₀
  rw [hp] at hkeys hgr hh hdec
  obtain ⟨hlt, hkeys⟩ := List.pairwise_cons.1 hkeys
  intro s' hs
  rw [grabStep, hp] at hs
  rw [observe, hp]
  dsimp only at hs ⊢
  split at hs
  · rename_i he
    cases hs
    rw [if_pos he]
    refine ⟨hsort, hkeys, ?_, hun, hh, hdec, hfifo⟩
    rw [← hgr]
    simp [groupsOf, GrabPc.it, he]
  · rename_i he
    cases hs
    rw [if_neg he]
    refine ⟨OrderedMap.sorted_alter hsort, hkeys, ?_, ?_, ?_, hdec, hfifo⟩
    · rw [← hgr]
      simp only [GrabPc.it, groupsOf_alter hlt]
      simp [groupsOf, he]
    · intro g hg
      rcases List.mem_append.1 hg with hg | hg
      · exact hun g hg
      · rw [List.mem_singleton.1 hg]
        exact fun hk => if_pos hk
    · have hh : h.handled = h.groups.flatMap Group.processed := by rw [← hh]; exact (List.append_nil _).symm
      simp [GrabPc.list, List.flatMap_append, hh]

theorem Ordered.grab (h₀ : Ordered c s h) (hs : grabStep c s i = some s') : Ordered c s' (observe s (.grab i) h) := by
  have hs₀ := hs
  unfold grabStep at hs
  cases hp : s.grab with rw [hp] at hs
  | reset =>
    rw [observe, hp]
    exact h₀.reset hp s' hs₀
  | preps it =>
    cases it with
    | nil =>
      rw [observe, hp]
      cases hs
      exact h₀.frame rfl (by rw [hp]; rfl) (by rw [hp]; rfl) (by rw [hp]; rfl) rfl rfl rfl
    | cons k it => exact h₀.preps hp s' hs₀
  | samples list it =>
    rw [observe, hp]
    cases list with
    | nil =>
      cases hs
      exact h₀.frame rfl (by rw [hp]; rfl) (by rw [hp]; rfl) (by rw [hp]; rfl) rfl rfl rfl
    | cons p list =>
      cases hs
      obtain ⟨hsort, hkeys, hgr, hun, hh, ⟨l, hl, hdec⟩, hfifo⟩ := h₀
      rw [hp] at hkeys hgr hh hl
      refine ⟨hsort, hkeys, hgr, hun, ?_, ⟨l, ?_, hdec⟩, hfifo⟩
      · rw [← hh]
        simp [GrabPc.list]
      · show h.handled ++ [p] = l ++ [p]
        rw [hl]
        simp [GrabPc.inHand]
  | drop p list it =>
    rw [observe, hp]
    cases hs
    obtain ⟨hsort, hkeys, hgr, hun, hh, ⟨l, hl, hacc, hdrop, hperm⟩, hfifo⟩ := h₀
    rw [hp] at hkeys hgr hh hl
    refine ⟨hsort, hkeys, hgr, hun, hh, ⟨l ++ [p], ?_, ?_, ?_, ?_⟩, hfifo⟩
    · rw [hl]; simp [GrabPc.inHand]
    · exact hacc.trans (List.sublist_append_left ..)
    · rw [List.reverse_cons]
      exact hdrop.append (List.Sublist.refl _)
    · exact (hperm.append_right [p]).trans (by
        rw [List.append_assoc]
        exact (List.perm_append_comm).append_left _)
  | insert p list it =>
    rw [observe, hp]
    cases hs
    obtain ⟨hsort, hkeys, hgr, hun, hh, ⟨l, hl, hacc, hdrop, hperm⟩, hfifo⟩ := h₀
    rw [hp] at hkeys hgr hh hl
    refine ⟨hsort, hkeys, hgr, hun, hh, ⟨l ++ [p], ?_, ?_, ?_, ?_⟩, ?_⟩
    · rw [hl]; simp [GrabPc.inHand]
    · rw [List.reverse_cons]
      exact hacc.append (List.Sublist.refl _)
    · exact hdrop.trans (List.sublist_append_left ..)
    · exact (hperm.append_right [p]).trans (List.perm_append_comm)
    · show (p :: s.accepted).reverse = _ ++ (s.root ++ [p])
      rw [List.reverse_cons, hfifo, List.append_assoc _ s.root]
  | push =>
    rw [observe, hp]
    cases hs
    exact h₀.frame rfl (by rw [hp]; rfl) (by rw [hp]; rfl) (by rw [hp]; rfl) rfl rfl (by simp)
  | limits it us =>
    rw [observe, hp]
    cases it with
    | nil =>
      cases hs
      exact h₀.frame rfl (by rw [hp]; rfl) (by rw [hp]; rfl) (by rw [hp]; rfl) rfl rfl rfl
    | cons l it =>
      obtain ⟨r, -, rfl⟩ := Option.map_eq_some_iff.1 hs
      exact h₀.frame rfl (by rw [hp]; rfl) (by rw [hp]; rfl) (by rw [hp]; rfl) rfl rfl rfl
  | compare p list it =>
    rw [observe, hp]
    cases hs
    dsimp only
    split <;> exact h₀.frame rfl (by rw [hp]; rfl) (by rw [hp]; rfl) (by rw [hp]; rfl) rfl rfl rfl
  | _ =>
    rw [observe, hp]
    cases hs
    exact h₀.frame rfl (by rw [hp]; rfl) (by rw [hp]; rfl) (by rw [hp]; rfl) rfl rfl rfl

theorem Ordered.dump (h₀ : Ordered c s h) (hs : dumpStep s = some s') : Ordered c s' h := by
  unfold dumpStep at hs
  cases hp : s.dump with rw [hp] at hs
  | wait =>
    dsimp only at hs
    split at hs
    · cases hs
    · cases hs
      exact h₀.frame rfl rfl rfl rfl rfl rfl (by simp [hp, DumpPc.inHand])
  | ring l => cases l <;> cases hs <;> exact h₀.frame rfl rfl rfl rfl rfl rfl (by simp [hp, DumpPc.inHand])
  | dump p l => cases hs; exact h₀.frame rfl rfl rfl rfl rfl rfl (by simp [hp, DumpPc.inHand])
  | count l => cases hs; exact h₀.frame rfl rfl rfl rfl rfl rfl (by simp [hp, DumpPc.inHand])

theorem ordered_step {l : Label σ} (h₀ : Ordered c s h) (hs : step c s l = some s') :
    Ordered c s' (observe s l h) := by
  cases l with
  | grab i => exact h₀.grab hs
  | dump => exact h₀.dump hs
  | collectable l us => cases hs; exact h₀.frame rfl rfl rfl rfl rfl rfl rfl

theorem ordered_reachable {p : State σ × History σ} (h : ((system c).record observe .empty).Reachable p) :
    Ordered c p.1 p.2 :=
  h.invariant (I := fun p : State σ × History σ => Ordered c p.1 p.2)
    (fun p h0 => by
      obtain ⟨⟨startUs, hs⟩, hh⟩ := h0
      rw [hs, hh]
      exact ordered_init)
    (fun p l p' hp _ hs => by
      rw [(System.record_step hs).2]
      exact ordered_step hp (System.record_step hs).1)

/-- **Samples are handled in order**: those of a `reset` by their preprocessors, in the order of the keys of `prep_map`,
and the samples of one preprocessor as `process` left them.  Every sample handled is dropped or accepted once, and
`dump_and_destroy` gets the accepted ones in the order in which they were handled; what it has not got yet the dump
thread has, then `dump_root_`, then the grab thread. -/
theorem handled_in_order {p : State σ × History σ} (h : ((system c).record observe .empty).Reachable p) :
    p.2.groups.map (fun g => (g.prep, g.list)) ++ groupsOf p.1.prepMap p.1.grab.it = p.2.batches.flatMap c.grouped ∧
      (∀ g ∈ p.2.groups, g.prep = 0 → g.processed = g.list) ∧
      p.2.handled ++ p.1.grab.list = p.2.groups.flatMap Group.processed ∧
      p.2.handled.Perm (p.1.grab.inHand ++ (p.1.accepted ++ p.1.dropped)) ∧
      p.1.accepted.reverse.Sublist p.2.handled ∧ p.1.dropped.reverse.Sublist p.2.handled ∧
      p.1.accepted.reverse =
        p.1.dumped.reverse.map Prod.fst ++ p.1.dump.inHand ++ p.1.dumpRoot ++ p.1.root := by
  obtain ⟨-, -, hgr, hun, hh, ⟨l, hl, hacc, hdrop, hperm⟩, hfifo⟩ := ordered_reachable h
  refine ⟨hgr, hun, hh, ?_, ?_, ?_, hfifo⟩
  · rw [hl]
    exact (hperm.append_right _).trans List.perm_append_comm
  · rw [hl]
    exact hacc.trans (List.sublist_append_left ..)
  · rw [hl]
    exact hdrop.trans (List.sublist_append_left ..)

/-- Even samples have no preprocessor, the odd ones have one; two may be pending. -/
def parityConfig : Config Nat := ⟨3, 1000, fun _ => none, (· % 2)⟩

/-- Two rounds; the preprocessor turns its samples round, and the second round finds one sample pending. -/
def parityRun : List (Label Nat) :=
  List.replicate 26 (.grab ⟨[3, 4, 5, 6], List.reverse, 5, 9⟩) ++ List.replicate 4 Label.dump ++
    List.replicate 12 (.grab ⟨[7, 8], id, 6, 9⟩)

theorem handled_in_order_parityRun : ∃ p, ((system parityConfig).record observe .empty).Reachable p ∧
    p.2.handled = [4, 6, 5, 3, 8, 7] ∧ p.1.accepted.reverse = [4, 6, 8] ∧
      p.2.handled ++ p.1.grab.list = p.2.groups.flatMap Group.processed := by
  have hrun : (((system parityConfig).record observe .empty).run (initState Nat 4, .empty) parityRun).map
      (fun p => (p.2.handled, p.1.accepted.reverse)) = some ([4, 6, 5, 3, 8, 7], [4, 6, 8]) := by decide
  obtain ⟨p, hs, hx⟩ := Option.map_eq_some_iff.1 hrun
  obtain ⟨hhandled, hacc⟩ := Prod.mk.inj hx
  have hreach : ((system parityConfig).record observe .empty).Reachable p :=
    System.Reachable.run (.init ⟨⟨4, rfl⟩, rfl⟩) _ hs
  exact ⟨p, hreach, hhandled, hacc, (handled_in_order hreach).2.2.1⟩

end Collector
end ContentionProf
