import ContentionProf.Samples
import ContentionProf.SamplerCollector
/-!
# LinkedHeap — memories that are nothing but rings

Every node lies on one ring.  Each method of `LinkNode` keeps this, does to the rings of its two nodes what its name
says and leaves every other ring as it is.
-/
namespace ContentionProf
namespace Links

variable {ν : Type} {h h' : Links ν} {a b e x : ν} {l r : List ν}

/-- **A well-formed heap**: every node can be read as the start of a ring. -/
def WellFormed (h : Links ν) : Prop := ∀ n, ∃ l, h.Ring n l

/-- The memory changes at the nodes of `l` only, and stays well formed. -/
structure Edits (h h' : Links ν) (l : List ν) : Prop where
  wellFormed : h'.WellFormed
  same : ∀ x ∉ l, Same h h' x
  ring : ∀ {b r}, h.Ring b r → b ∉ l → h'.Ring b r

/-- **From any of its nodes a ring is read with the same nodes.** -/
theorem Ring.read (hr : h.Ring a l) (hx : x ∈ a :: l) : ∃ r, h.Ring x r ∧ ∀ y, y ∈ x :: r ↔ y ∈ a :: l := by
  rcases List.mem_cons.1 hx with rfl | hx
  · exact ⟨l, hr, fun _ => Iff.rfl⟩
  · obtain ⟨l₁, l₂, rfl⟩ := List.append_of_mem hx
    refine ⟨l₂ ++ a :: l₁, hr.rotate, fun y => ?_⟩
    simp only [List.mem_cons, List.mem_append]
    tauto

/-- **Two rings with a node in common have the same nodes.** -/
theorem Ring.mem_congr (ha : h.Ring a l) (hb : h.Ring b r) (hxa : x ∈ a :: l) (hxb : x ∈ b :: r) (y : ν) :
    y ∈ a :: l ↔ y ∈ b :: r := by
  obtain ⟨la, hla, hma⟩ := ha.read hxa
  obtain ⟨lb, hlb, hmb⟩ := hb.read hxb
  rw [← hma, ← hmb, hla.mem_iff, hlb.mem_iff]

/-- **A ring that misses one node of another misses all of them.** -/
theorem Ring.disjoint (ha : h.Ring a l) (hb : h.Ring b r) (hab : a ∉ b :: r) : ∀ x ∈ a :: l, x ∉ b :: r :=
  fun _ hxa hxb => hab ((ha.mem_congr hb hxa hxb a).1 List.mem_cons_self)

theorem SelfLinked.not_mem (hx : h.SelfLinked x) (he : h.Ring e r) (hne : x ≠ e) : x ∉ e :: r := by
  intro hm
  have hmem := ((ring_nil.2 hx).mem_congr he List.mem_cons_self hm e).2 List.mem_cons_self
  exact hne (List.mem_singleton.1 hmem).symm

/-- **What is enough for an edit**: the nodes it writes lay on whole rings, and lie on rings afterwards. -/
theorem Edits.of_rings (hwf : h.WellFormed) (hold : ∀ x ∈ l, ∃ a r, h.Ring a r ∧ x ∈ a :: r ∧ ∀ y ∈ a :: r, y ∈ l)
    (hnew : ∀ x ∈ l, ∃ r, h'.Ring x r) (hs : ∀ x ∉ l, Same h h' x) : Edits h h' l := by
  have hring : ∀ {b r}, h.Ring b r → b ∉ l → h'.Ring b r := by
    intro b r hb hbl
    refine hb.congr (fun x hx => hs x fun hxl => hbl ?_)
    obtain ⟨a, r', ha, hxa, hall⟩ := hold x hxl
    exact hall b ((hb.mem_congr ha hx hxa b).1 List.mem_cons_self)
  refine ⟨fun n => ?_, hs, hring⟩
  by_cases hn : n ∈ l
  · exact hnew n hn
  · obtain ⟨r, hr⟩ := hwf n
    exact ⟨r, hring hr hn⟩

theorem Edits.of_joined {m : List ν} (hwf : h.WellFormed) (ha : h.Ring a l) (he : h.Ring e r) (hm : h'.Ring b m)
    (hmem : ∀ y, y ∈ b :: m ↔ y ∈ a :: l ++ e :: r) (hs : ∀ x, x ∉ a :: l → x ∉ e :: r → Same h h' x) :
    Edits h h' (a :: l ++ e :: r) := by
  refine Edits.of_rings hwf (fun x hx => ?_) (fun x hx => ?_) (fun x hx => ?_)
  · rcases List.mem_append.1 hx with hx | hx
    · exact ⟨a, l, ha, hx, fun y hy => List.mem_append_left _ hy⟩
    · exact ⟨e, r, he, hx, fun y hy => List.mem_append_right _ hy⟩
  · obtain ⟨l', hl', -⟩ := hm.read ((hmem x).2 hx)
    exact ⟨l', hl'⟩
  · rw [List.mem_append, not_or] at hx
    exact hs x hx.1 hx.2

variable [DecidableEq ν]

theorem insertBeforeAsList_edits (hwf : h.WellFormed) (ha : h.Ring a l) (he : h.Ring e r) (hae : a ∉ e :: r) :
    Edits h (h.insertBeforeAsList a e) (a :: l ++ e :: r) :=
  Edits.of_joined hwf ha he (ha.insertBeforeAsList he (ha.disjoint he hae)) (fun _ => Iff.rfl)
    (fun _ hx hx' => insertBeforeAsList_same ha he (ha.disjoint he hae) hx hx')

theorem insertAfterAsList_edits (hwf : h.WellFormed) (ha : h.Ring a l) (he : h.Ring e r) (hae : a ∉ e :: r) :
    Edits h (h.insertAfterAsList a e) (a :: l ++ e :: r) := by
  refine Edits.of_joined hwf ha he (ha.insertAfterAsList he (ha.disjoint he hae)) (fun y => ?_)
    (fun _ hx hx' => insertAfterAsList_same ha he (ha.disjoint he hae) hx hx')
  simp only [List.mem_cons, List.mem_append, List.cons_append]
  tauto

theorem removeFromList_edits (hwf : h.WellFormed) (ha : h.Ring a l) : Edits h (h.removeFromList a) (a :: l) := by
  refine Edits.of_rings hwf (fun x hx => ⟨a, l, ha, hx, fun _ hy => hy⟩) (fun x hx => ?_)
    (fun x hx => removeFromList_same ha hx)
  rcases List.mem_cons.1 hx with rfl | hx
  · exact ⟨[], ring_nil.2 (removeFromList_selfLinked h x)⟩
  · cases l with
    | nil => cases hx
    | cons b l =>
      obtain ⟨r, hr, -⟩ := ha.removeFromList.read hx
      exact ⟨r, hr⟩

theorem Ring.insertBefore (he : h.Ring e r) (hx : h.SelfLinked x) (hne : x ≠ e) :
    (h.insertBefore x e).Ring e (r ++ [x]) := by
  rw [insertBefore_eq hx]
  have hr : h.Ring x [] := ring_nil.2 hx
  exact (hr.insertBeforeAsList he (hr.disjoint he (hx.not_mem he hne))).rotate

theorem insertBefore_edits (hwf : h.WellFormed) (hx : h.SelfLinked x) (he : h.Ring e r) (hne : x ≠ e) :
    Edits h (h.insertBefore x e) (x :: e :: r) := by
  rw [insertBefore_eq hx]
  exact insertBeforeAsList_edits hwf (ring_nil.2 hx) he (hx.not_mem he hne)

/-- **The methods of `LinkNode`**: each does what it says to the rings of its nodes and to no other; the two combining
operators concatenate two lists and keep the first head. -/
theorem linkNode_methods {ν : Type} [DecidableEq ν] (h : Links ν) (hwf : h.WellFormed) (hc : Links Samples.Node)
    (hcwf : hc.WellFormed) (hs : Links SamplerCollector.Node) (hswf : hs.WellFormed) :
    (∀ s e l r, h.Ring s l → h.Ring e r → s ∉ e :: r →
      (h.insertBeforeAsList s e).Ring e (r ++ s :: l) ∧ Edits h (h.insertBeforeAsList s e) (s :: l ++ e :: r) ∧
      (h.insertAfterAsList s e).Ring e (s :: l ++ r) ∧ Edits h (h.insertAfterAsList s e) (s :: l ++ e :: r)) ∧
    (∀ x e r, h.SelfLinked x → h.Ring e r → x ≠ e →
      (h.insertBefore x e).Ring e (r ++ [x]) ∧ Edits h (h.insertBefore x e) (x :: e :: r) ∧
      (h.insertAfter x e).Ring e (x :: r) ∧ Edits h (h.insertAfter x e) (x :: e :: r)) ∧
    (∀ x l, h.Ring x l →
      (h.removeFromList x).SelfLinked x ∧ (∀ b r, l = b :: r → (h.removeFromList x).Ring b r) ∧
      Edits h (h.removeFromList x) (x :: l)) ∧
    (∀ s1 s2 l r, hc.Ring (.obj s1) l → hc.Ring (.obj s2) r → .obj s1 ∉ .obj s2 :: r →
      (Samples.combine hc (some s1) (some s2)).2 = some s1 ∧
      (Samples.combine hc (some s1) (some s2)).1.Ring (.obj s1) (l ++ .obj s2 :: r) ∧
      Edits hc (Samples.combine hc (some s1) (some s2)).1 (.obj s1 :: l ++ .obj s2 :: r)) ∧
    (∀ s1 s2 l r, hs.Ring (.sampler s1) l → hs.Ring (.sampler s2) r → .sampler s1 ∉ .sampler s2 :: r →
      (SamplerCollector.combine hs (some s1) (some s2)).2 = some s1 ∧
      (SamplerCollector.combine hs (some s1) (some s2)).1.Ring (.sampler s1) (l ++ .sampler s2 :: r) ∧
      Edits hs (SamplerCollector.combine hs (some s1) (some s2)).1 (.sampler s1 :: l ++ .sampler s2 :: r)) := by
  refine ⟨fun s e l r hsl her hne => ?_, fun x e r hx her hne => ?_, fun x l hx => ?_, fun s1 s2 l r h₁ h₂ hne => ?_,
    fun s1 s2 l r h₁ h₂ hne => ?_⟩
  · have hd := hsl.disjoint her hne
    exact ⟨(hsl.insertBeforeAsList her hd).rotate, insertBeforeAsList_edits hwf hsl her hne,
      hsl.insertAfterAsList her hd, insertAfterAsList_edits hwf hsl her hne⟩
  · have hr : h.Ring x [] := ring_nil.2 hx
    have hxe : x ∉ e :: r := hx.not_mem her hne
    rw [insertAfter_eq hx]
    exact ⟨her.insertBefore hx hne, insertBefore_edits hwf hx her hne, hr.insertAfterAsList her (hr.disjoint her hxe),
      insertAfterAsList_edits hwf hr her hxe⟩
  · refine ⟨removeFromList_selfLinked h x, fun b r hl => ?_, removeFromList_edits hwf hx⟩
    subst hl
    exact hx.removeFromList
  · exact ⟨rfl, h₁.insertBeforeAsList h₂ (h₁.disjoint h₂ hne), insertBeforeAsList_edits hcwf h₁ h₂ hne⟩
  · exact ⟨rfl, h₁.insertBeforeAsList h₂ (h₁.disjoint h₂ hne), insertBeforeAsList_edits hswf h₁ h₂ hne⟩

/-- Every node is linked to itself. -/
def selfLinks (ν : Type) : Links ν := ⟨id, id⟩

theorem selfLinks_wellFormed (ν : Type) : (selfLinks ν).WellFormed := fun _ => ⟨[], ring_nil.2 ⟨rfl, rfl⟩⟩

/-- A ring of three nodes, one of two, and single nodes. -/
def twoRings (node : Nat → ν) : Links ν :=
  (((selfLinks ν).insertBefore (node 1) (node 0)).insertBefore (node 2) (node 0)).insertBefore (node 4) (node 3)

theorem twoRings_rings (node : Nat → ν) (hn : Function.Injective node) :
    (twoRings node).WellFormed ∧ (twoRings node).Ring (node 0) [node 1, node 2] ∧
    (twoRings node).Ring (node 3) [node 4] ∧ ∀ n, 4 < n → (twoRings node).SelfLinked (node n) := by
  have hne : ∀ {i j}, i ≠ j → node i ≠ node j := fun hij he => hij (hn he)
  have hself : ∀ n, (selfLinks ν).SelfLinked n := fun _ => ⟨rfl, rfl⟩
  have h₁ := (ring_nil.2 (hself (node 0))).insertBefore (hself (node 1)) (hne (by decide))
  have e₁ := insertBefore_edits (selfLinks_wellFormed ν) (hself (node 1)) (ring_nil.2 (hself (node 0)))
    (hne (by decide))
  have one : ∀ i, 1 < i → ((selfLinks ν).insertBefore (node 1) (node 0)).SelfLinked (node i) := by
    intro i hi
    refine (hself (node i)).of_same (e₁.same _ ?_)
    simp only [List.mem_cons, List.not_mem_nil, or_false, not_or]
    exact ⟨hne (by omega), hne (by omega)⟩
  have h₂ := h₁.insertBefore (one 2 (by decide)) (hne (by decide))
  have e₂ := insertBefore_edits e₁.wellFormed (one 2 (by decide)) h₁ (hne (by decide))
  have two : ∀ i, 2 < i →
      (((selfLinks ν).insertBefore (node 1) (node 0)).insertBefore (node 2) (node 0)).SelfLinked (node i) := by
    intro i hi
    refine (one i (by omega)).of_same (e₂.same _ ?_)
    simp only [List.nil_append, List.mem_cons, List.not_mem_nil, or_false, not_or]
    exact ⟨hne (by omega), hne (by omega), hne (by omega)⟩
  have h₃ := (ring_nil.2 (two 3 (by decide))).insertBefore (two 4 (by decide)) (hne (by decide))
  have e₃ := insertBefore_edits e₂.wellFormed (two 4 (by decide)) (ring_nil.2 (two 3 (by decide))) (hne (by decide))
  refine ⟨e₃.wellFormed, e₃.ring h₂ ?_, h₃, fun n hn4 => (two n (by omega)).of_same (e₃.same _ ?_)⟩
  · simp only [List.mem_cons, List.not_mem_nil, or_false, not_or]
    exact ⟨hne (by decide), hne (by decide)⟩
  · simp only [List.mem_cons, List.not_mem_nil, or_false, not_or]
    exact ⟨hne (by omega), hne (by omega)⟩

/-- The objects of one block. -/
def objNode (i : Nat) : Samples.Node := .obj ⟨0, 0, i⟩

/-- The nodes 0, 1, 2 and 3, 4 are the two rings; 5 is a single node. -/
theorem linkNode_methods_twoRings :
    ((twoRings id).insertBeforeAsList 0 3).Ring 3 [4, 0, 1, 2] ∧
    ((twoRings id).insertAfterAsList 0 3).Ring 3 [0, 1, 2, 4] ∧
    ((twoRings id).insertBefore 5 0).Ring 0 [1, 2, 5] ∧ ((twoRings id).insertAfter 5 0).Ring 0 [5, 1, 2] ∧
    ((twoRings id).removeFromList 0).SelfLinked 0 ∧ ((twoRings id).removeFromList 0).Ring 1 [2] ∧
    ((twoRings id).removeFromList 0).Ring 3 [4] ∧
    (Samples.combine (twoRings objNode) (some ⟨0, 0, 0⟩) (some ⟨0, 0, 3⟩)).1.Ring (objNode 0)
      [objNode 1, objNode 2, objNode 3, objNode 4] ∧
    (SamplerCollector.combine (twoRings .sampler) (some 3) (some 0)).1.Ring (.sampler 3)
      [.sampler 4, .sampler 0, .sampler 1, .sampler 2] := by
  obtain ⟨hwf, h0, h3, h5⟩ := twoRings_rings (id : Nat → Nat) (fun _ _ he => he)
  obtain ⟨hcwf, hc0, hc3, -⟩ := twoRings_rings objNode (fun _ _ he => by simpa [objNode] using he)
  obtain ⟨hswf, hs0, hs3, -⟩ :=
    twoRings_rings SamplerCollector.Node.sampler (fun _ _ he => by simpa using he)
  obtain ⟨hlists, hnodes, hremove, hcollected, hsampler⟩ := linkNode_methods _ hwf _ hcwf _ hswf
  obtain ⟨hbefore, -, hafter, -⟩ := hlists 0 3 _ _ h0 h3 (by decide)
  obtain ⟨hbefore5, -, hafter5, -⟩ := hnodes 5 0 _ (h5 5 (by decide)) h0 (by decide)
  obtain ⟨hself, hrest, hedits⟩ := hremove 0 _ h0
  exact ⟨hbefore, hafter, hbefore5, hafter5, hself, hrest _ _ rfl, hedits.ring h3 (by decide),
    (hcollected ⟨0, 0, 0⟩ ⟨0, 0, 3⟩ _ _ hc0 hc3 (by decide)).2.1, (hsampler 3 0 _ _ hs3 hs0 (by decide)).2.1⟩

end Links
end ContentionProf
