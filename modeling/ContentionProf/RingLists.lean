import ContentionProf.LinkedList
/-!
# RingLists — lists of elements kept as rings

A list is kept in two ways: a pointer to its first element stands for a ring of all of them, or a root that is no
element stands before the first.  The splices of `LinkNode` do to such lists what one expects, to one of a family of
lists without touching the others (`Kept`), and a list can be read back (`toList`).
-/
namespace ContentionProf
namespace Links

variable {ν ω : Type} {h h' : Links ν} {node : ω → ν} {l l' : List ω} {a x : ω} {r n : ν}

/-- The list that a pointer to its first element stands for. -/
def HeadList (h : Links ν) (node : ω → ν) : Option ω → List ω → Prop
  | none, l   => l = []
  | some a, l => ∃ as, l = a :: as ∧ h.Ring (node a) (as.map node)

/-- The list behind a root. -/
def RootList (h : Links ν) (node : ω → ν) (r : ν) (l : List ω) : Prop := h.Ring r (l.map node)

/-- The node behind the one before a list. -/
def first (node : ω → ν) (r : ν) : List ω → ν
  | []     => r
  | x :: _ => node x

theorem HeadList.congr {s : Option ω} (hl : h.HeadList node s l) (hs : ∀ x ∈ l, Same h h' (node x)) :
    h'.HeadList node s l := by
  cases s with
  | none => exact hl
  | some a =>
    obtain ⟨as, rfl, hr⟩ := hl
    refine ⟨as, rfl, hr.congr (fun n hn => ?_)⟩
    rw [← List.map_cons] at hn
    obtain ⟨x, hx, rfl⟩ := List.mem_map.1 hn
    exact hs x hx

theorem RootList.congr (hl : h.RootList node r l) (hr : Same h h' r) (hs : ∀ x ∈ l, Same h h' (node x)) :
    h'.RootList node r l := by
  refine Ring.congr hl (fun n hn => ?_)
  rcases List.mem_cons.1 hn with rfl | hn
  · exact hr
  · obtain ⟨x, hx, rfl⟩ := List.mem_map.1 hn
    exact hs x hx

theorem headList_single (hx : h.SelfLinked (node x)) : h.HeadList node (some x) [x] := ⟨[], rfl, ring_nil.2 hx⟩

theorem HeadList.nodup {s : Option ω} (hl : h.HeadList node s l) : l.Nodup := by
  cases s with
  | none => rw [show l = [] from hl]; exact List.nodup_nil
  | some a =>
    obtain ⟨as, rfl, hr⟩ := hl
    have hn : ((a :: as).map node).Nodup := hr.nodup
    exact hn.of_map

theorem RootList.next_root (hl : h.RootList node r l) : h.next r = first node r l := by
  have hr : h.Ring r (l.map node) := hl
  cases l with
  | nil => exact hr.path.1
  | cons x l => exact hr.path.1.1

theorem RootList.unique (hinj : Function.Injective node) {l' : List ω} (hl : h.RootList node r l)
    (hl' : h.RootList node r l') : l = l' :=
  hinj.list_map (Ring.unique hl hl')

theorem RootList.nodup (hl : h.RootList node r l) : l.Nodup := (List.nodup_cons.1 (Ring.nodup hl)).2.of_map

/-- From an element on, the ring leads through what follows it, the root and what is before it. -/
theorem RootList.read (hl : h.RootList node r (l ++ x :: l')) : h.Ring (node x) (l'.map node ++ r :: l.map node) := by
  have hr : h.Ring r (l.map node ++ node x :: l'.map node) := by
    have hr : h.Ring r ((l ++ x :: l').map node) := hl
    rwa [List.map_append] at hr
  exact hr.rotate

theorem RootList.next (hl : h.RootList node r (l ++ x :: l')) : h.next (node x) = first node r l' := by
  have hx := hl.read
  cases l' with
  | nil => exact hx.path.1.1
  | cons y l' => exact hx.path.1.1

theorem not_mem_map (hn : ∀ x ∈ l, n ≠ node x) : n ∉ l.map node := by
  intro hm
  obtain ⟨x, hx, rfl⟩ := List.mem_map.1 hm
  exact hn x hx rfl

/-! ## Families of lists -/

/-- **Lists of different elements, each behind its pointer.** -/
structure Kept {ι : Type} (h : Links ν) (node : ω → ν) (head : ι → Option ω) (m : ι → List ω) : Prop where
  list : ∀ i, h.HeadList node (head i) (m i)
  unique : ∀ {i j x}, x ∈ m i → x ∈ m j → i = j

variable {ι : Type} {head head' : ι → Option ω} {m : ι → List ω} {i j k : ι}

theorem Kept.congr (hk : h.Kept node head m) (hs : ∀ k, ∀ x ∈ m k, Same h h' (node x)) : h'.Kept node head m :=
  ⟨fun k => (hk.list k).congr (hs k), hk.unique⟩

theorem Kept.eq_nil (hk : h.Kept node head m) (hi : head i = none) : m i = [] := by
  have hl := hk.list i
  rw [hi] at hl
  exact hl

variable [DecidableEq ι]

/-- A list is dropped. -/
theorem Kept.drop (hk : h.Kept node head m) (hi : head' i = none) (ho : ∀ k, k ≠ i → head' k = head k) :
    h.Kept node head' (Function.update m i []) := by
  have hmem : ∀ {k x}, x ∈ Function.update m i [] k → x ∈ m k := by
    intro k x hx
    rw [Function.update_apply] at hx
    split at hx
    · cases hx
    · exact hx
  refine ⟨fun k => ?_, fun hx hx' => hk.unique (hmem hx) (hmem hx')⟩
  rw [Function.update_apply]
  split_ifs with hki
  · rw [hki, hi]
    rfl
  · rw [ho k hki]
    exact hk.list k

/-- A list of one new element. -/
theorem Kept.add (hk : h.Kept node head m) (ha : h.SelfLinked (node a)) (hnew : ∀ k, a ∉ m k) (hi : head' i = some a)
    (ho : ∀ k, k ≠ i → head' k = head k) : h.Kept node head' (Function.update m i [a]) := by
  have hmem : ∀ {k x}, x ∈ Function.update m i [a] k → k = i ∧ x = a ∨ x ∈ m k := by
    intro k x hx
    rw [Function.update_apply] at hx
    split at hx
    · exact .inl ⟨‹_›, List.mem_singleton.1 hx⟩
    · exact .inr hx
  refine ⟨fun k => ?_, fun hx hx' => ?_⟩
  · rw [Function.update_apply]
    split_ifs with hki
    · rw [hki, hi]
      exact headList_single ha
    · rw [ho k hki]
      exact hk.list k
  · rcases hmem hx with ⟨hk₁, hxa⟩ | hx
    · rcases hmem hx' with ⟨hk₂, -⟩ | hx'
      · rw [hk₁, hk₂]
      · exact absurd (hxa ▸ hx') (hnew _)
    · rcases hmem hx' with ⟨-, hxa⟩ | hx'
      · exact absurd (hxa ▸ hx) (hnew _)
      · exact hk.unique hx hx'

/-- The list at `j` goes behind the one at `i`. -/
def joined (m : ι → List ω) (i j : ι) : ι → List ω := Function.update (Function.update m i (m i ++ m j)) j []

theorem joined_apply (m : ι → List ω) (i j k : ι) :
    joined m i j k = if k = j then [] else if k = i then m i ++ m j else m k := by
  simp only [joined, Function.update_apply]

theorem mem_joined : x ∈ joined m i j k → k ≠ j ∧ (x ∈ m k ∨ k = i ∧ x ∈ m j) := by
  rw [joined_apply]
  split_ifs with hkj hki
  · exact fun hx => absurd hx List.not_mem_nil
  · subst hki
    exact fun hx => ⟨hkj, (List.mem_append.1 hx).imp_right (fun hx => ⟨rfl, hx⟩)⟩
  · exact fun hx => ⟨hkj, .inl hx⟩

variable [DecidableEq ν]

/-- **The combining operators put the second list behind the first.** -/
theorem HeadList.combine {s₁ s₂ : Option ω} (hinj : Function.Injective node) (h₁ : h.HeadList node s₁ l)
    (h₂ : h.HeadList node s₂ l') (hd : ∀ x ∈ l, x ∉ l') :
    (h.combine node s₁ s₂).1.HeadList node (h.combine node s₁ s₂).2 (l ++ l') ∧
      ∀ n, (∀ x ∈ l ++ l', n ≠ node x) → Same h (h.combine node s₁ s₂).1 n := by
  cases s₂ with
  | none =>
    obtain rfl : l' = [] := h₂
    rw [List.append_nil]
    cases s₁ with
    | none => exact ⟨h₁, fun _ _ => ⟨rfl, rfl⟩⟩
    | some a => exact ⟨h₁, fun _ _ => ⟨rfl, rfl⟩⟩
  | some b =>
    cases s₁ with
    | none =>
      obtain rfl : l = [] := h₁
      exact ⟨h₂, fun _ _ => ⟨rfl, rfl⟩⟩
    | some a =>
      obtain ⟨as, rfl, ha⟩ := h₁
      obtain ⟨bs, rfl, hb⟩ := h₂
      have hdis : ∀ n ∈ (a :: as).map node, n ∉ (b :: bs).map node := by
        intro n hn
        obtain ⟨x, hx, rfl⟩ := List.mem_map.1 hn
        rw [List.mem_map_of_injective hinj]
        exact hd x hx
      refine ⟨⟨as ++ b :: bs, rfl, ?_⟩, fun n hn => ?_⟩
      · rw [List.map_append]
        exact ha.insertBeforeAsList hb hdis
      · exact insertBeforeAsList_same ha hb hdis
          (not_mem_map (l := a :: as) (fun x hx => hn x (List.mem_append_left _ hx)))
          (not_mem_map (l := b :: bs) (fun x hx => hn x (List.mem_append_right _ hx)))

/-- **Two of the lists are combined.** -/
theorem Kept.combine (hinj : Function.Injective node) (hk : h.Kept node head m) (hij : i ≠ j)
    (hi : head' i = (h.combine node (head i) (head j)).2) (hj : head' j = none)
    (ho : ∀ k, k ≠ i → k ≠ j → head' k = head k) :
    (h.combine node (head i) (head j)).1.Kept node head' (joined m i j) := by
  obtain ⟨hl, hsame⟩ := (hk.list i).combine hinj (hk.list j) (fun x hx hx' => hij (hk.unique hx hx'))
  refine ⟨fun k => ?_, fun hx hx' => ?_⟩
  · rw [joined_apply]
    split_ifs with hkj hki
    · rw [hkj, hj]
      rfl
    · rw [hki, hi]
      exact hl
    · rw [ho k hki hkj]
      refine (hk.list k).congr (fun x hx => hsame _ (fun y hy hxy => ?_))
      rw [hinj hxy] at hx
      rcases List.mem_append.1 hy with hy | hy
      · exact hki (hk.unique hx hy)
      · exact hkj (hk.unique hx hy)
  · obtain ⟨hkj, hx⟩ := mem_joined hx
    obtain ⟨hkj', hx'⟩ := mem_joined hx'
    rcases hx with hx | ⟨hki, hx⟩ <;> rcases hx' with hx' | ⟨hki', hx'⟩
    · exact hk.unique hx hx'
    · exact absurd (hk.unique hx hx') hkj
    · exact absurd (hk.unique hx' hx) hkj'
    · rw [hki, hki']

/-- **A list goes behind what a root holds.** -/
theorem RootList.insertList (hinj : Function.Injective node) (hroot : ∀ x, r ≠ node x) (h₁ : h.RootList node r l)
    (h₂ : h.HeadList node (some a) l') (hd : ∀ x ∈ l, x ∉ l') :
    (h.insertBeforeAsList (node a) r).RootList node r (l ++ l') ∧
      ∀ n, n ≠ r → (∀ x ∈ l ++ l', n ≠ node x) → Same h (h.insertBeforeAsList (node a) r) n := by
  obtain ⟨as, rfl, ha⟩ := h₂
  have hr : h.Ring r (l.map node) := h₁
  have hdis : ∀ n ∈ (a :: as).map node, n ∉ r :: l.map node := by
    intro n hn hm
    obtain ⟨x, hx, rfl⟩ := List.mem_map.1 hn
    rcases List.mem_cons.1 hm with hm | hm
    · exact hroot x hm.symm
    · exact hd x ((List.mem_map_of_injective hinj).1 hm) hx
  refine ⟨?_, fun n hn hx => ?_⟩
  · show Ring _ _ ((l ++ a :: as).map node)
    rw [List.map_append]
    exact (ha.insertBeforeAsList hr hdis).rotate
  · refine insertBeforeAsList_same ha hr hdis
      (not_mem_map (l := a :: as) (fun x hm => hx x (List.mem_append_right _ hm))) (fun hm => ?_)
    rcases List.mem_cons.1 hm with hm | hm
    · exact hn hm
    · exact not_mem_map (fun x hm => hx x (List.mem_append_left _ hm)) hm

/-- **An element leaves what a root holds, wherever it stands.** -/
theorem RootList.remove (hl : h.RootList node r (l ++ x :: l')) :
    (h.removeFromList (node x)).RootList node r (l ++ l') ∧ (h.removeFromList (node x)).SelfLinked (node x) ∧
      ∀ n, n ≠ r → (∀ y ∈ l ++ x :: l', n ≠ node y) → Same h (h.removeFromList (node x)) n := by
  have hx := hl.read
  refine ⟨?_, removeFromList_selfLinked _ _, fun n hn hy => removeFromList_same hx (fun hm => ?_)⟩
  · show Ring _ _ ((l ++ l').map node)
    rw [List.map_append]
    cases l' with
    | nil =>
      rw [List.map_nil, List.append_nil]
      exact hx.removeFromList
    | cons y l' =>
      have hy : (h.removeFromList (node x)).Ring (node y) (l'.map node ++ r :: l.map node) := hx.removeFromList
      exact hy.rotate
  · rcases List.mem_cons.1 hm with rfl | hm
    · exact hy x (by simp) rfl
    rcases List.mem_append.1 hm with hm | hm
    · exact not_mem_map (fun y hm => hy y (by simp [hm])) hm
    rcases List.mem_cons.1 hm with hm | hm
    · exact hn hm
    · exact not_mem_map (fun y hm => hy y (by simp [hm])) hm

/-- **The root leaves, and the list stays.** -/
theorem RootList.detach (hl : h.RootList node r (a :: l)) :
    (h.removeFromList r).HeadList node (some a) (a :: l) ∧ (h.removeFromList r).RootList node r [] ∧
      ∀ n, n ≠ r → (∀ y ∈ a :: l, n ≠ node y) → Same h (h.removeFromList r) n := by
  have hr : h.Ring r (node a :: l.map node) := hl
  refine ⟨⟨l, rfl, hr.removeFromList⟩, ring_nil.2 (removeFromList_selfLinked _ _), fun n hn hy => ?_⟩
  refine removeFromList_same hr (fun hm => ?_)
  rcases List.mem_cons.1 hm with hm | hm
  · exact hn hm
  · exact not_mem_map (l := a :: l) hy hm

/-! ## Reading a list -/

/-- From `b` on, until `a` comes back. -/
def walk (h : Links ν) (a : ν) : Nat → ν → List ν
  | 0, _          => []
  | fuel + 1, b => if b = a then [] else b :: walk h a fuel (h.next b)

/-- What the pointer to the first element leads to. -/
def toList (h : Links ν) (fuel : Nat) : Option ν → List ν
  | none   => []
  | some a => a :: h.walk a fuel (h.next a)

theorem Path.walk_eq : ∀ {l : List ν} {a b : ν} {fuel : Nat}, h.Path b l a → a ∉ l → l.length ≤ fuel →
    h.walk a fuel (h.next b) = l
  | [], a, b, 0, _, _, _            => rfl
  | [], a, b, fuel + 1, hp, _, _      => if_pos hp.1
  | c :: l, a, b, fuel + 1, hp, ha, hl => by
    obtain ⟨hac, hal⟩ := not_or.1 (mt List.mem_cons.2 ha)
    have ih := Path.walk_eq hp.2 hal (Nat.le_of_succ_le_succ hl)
    rw [hp.1.1]
    unfold walk
    rw [if_neg (Ne.symm hac), ih]

theorem HeadList.toList_eq {s : Option ν} {l : List ν} {fuel : Nat} (hl : h.HeadList id s l) (hf : l.length ≤ fuel) :
    h.toList fuel s = l := by
  cases s with
  | none => exact hl.symm
  | some a =>
    obtain ⟨as, rfl, hr⟩ := hl
    rw [List.map_id] at hr
    exact congrArg (a :: ·) (hr.path.walk_eq (List.nodup_cons.1 hr.nodup).1 (Nat.le_of_succ_le hf))

end Links
end ContentionProf
