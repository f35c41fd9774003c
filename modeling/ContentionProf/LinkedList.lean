import ContentionProf.Ring
/-!
# LinkedList — the `LinkNode` of intrusive lists (`common/linked_list.h`)

The assignments of each method one after the other, over a memory of links.  A list is a ring: with a root that belongs
to no element, or without one, and then a pointer to its first element stands for the list.
-/
namespace ContentionProf
namespace Links

variable {ν : Type} [DecidableEq ν]

def setNext (h : Links ν) (a b : ν) : Links ν := { h with next := Function.update h.next a b }

def setPrevious (h : Links ν) (a b : ν) : Links ν := { h with previous := Function.update h.previous a b }

/-- `LinkNode()`. -/
def construct (h : Links ν) (a : ν) : Links ν := (h.setPrevious a a).setNext a a

/-- `insert_before`. -/
def insertBefore (h : Links ν) (a e : ν) : Links ν :=
  let h := h.setNext a e
  let h := h.setPrevious a (h.previous e)
  let h := h.setNext (h.previous e) a
  h.setPrevious e a

/-- `insert_before_as_list`. -/
def insertBeforeAsList (h : Links ν) (a e : ν) : Links ν :=
  let prev := h.previous a
  let h := h.setNext prev e
  let h := h.setPrevious a (h.previous e)
  let h := h.setNext (h.previous e) a
  h.setPrevious e prev

/-- `insert_after`. -/
def insertAfter (h : Links ν) (a e : ν) : Links ν :=
  let h := h.setNext a (h.next e)
  let h := h.setPrevious a e
  let h := h.setPrevious (h.next e) a
  h.setNext e a

/-- `insert_after_as_list`. -/
def insertAfterAsList (h : Links ν) (a e : ν) : Links ν :=
  let prev := h.previous a
  let h := h.setNext prev (h.next e)
  let h := h.setPrevious a e
  let h := h.setPrevious (h.next e) prev
  h.setNext e a

/-- What `CombineCollected` and `CombineSampler` do to the lists that `s1` and `s2` head. -/
def combine {ω : Type} (node : ω → ν) (h : Links ν) (s1 s2 : Option ω) : Links ν × Option ω :=
  match s2, s1 with
  | none, s1        => (h, s1)
  | some b, none    => (h, some b)
  | some b, some a  => (h.insertBeforeAsList (node a) (node b), some a)

/-- `remove_from_list`. -/
def removeFromList (h : Links ν) (a : ν) : Links ν :=
  let h := h.setNext (h.previous a) (h.next a)
  let h := h.setPrevious (h.next a) (h.previous a)
  let h := h.setNext a a
  h.setPrevious a a

variable {h : Links ν} {a b e x : ν} {l r : List ν}

@[simp] theorem setNext_next (h : Links ν) (a b x : ν) : (h.setNext a b).next x = if x = a then b else h.next x := by
  simp [setNext, Function.update_apply]

@[simp] theorem setPrevious_previous (h : Links ν) (a b x : ν) :
    (h.setPrevious a b).previous x = if x = a then b else h.previous x := by
  simp [setPrevious, Function.update_apply]

@[simp] theorem setNext_previous (h : Links ν) (a b : ν) : (h.setNext a b).previous = h.previous := rfl
@[simp] theorem setPrevious_next (h : Links ν) (a b : ν) : (h.setPrevious a b).next = h.next := rfl

theorem combine_none {ω : Type} (node : ω → ν) (h : Links ν) (s : Option ω) : h.combine node none s = (h, s) := by
  cases s <;> rfl

theorem construct_selfLinked (h : Links ν) (a : ν) : (h.construct a).SelfLinked a := by simp [construct, SelfLinked]

theorem construct_same (hx : x ≠ a) : Same h (h.construct a) x := by simp [construct, Same, hx]

theorem insertBeforeAsList_next (hne : a ≠ e) :
    (h.insertBeforeAsList a e).next x =
      if x = h.previous e then a else if x = h.previous a then e else h.next x := by
  simp [insertBeforeAsList, hne.symm]

theorem insertBeforeAsList_previous :
    (h.insertBeforeAsList a e).previous x =
      if x = e then h.previous a else if x = a then h.previous e else h.previous x := by
  simp [insertBeforeAsList]

theorem removeFromList_next :
    (h.removeFromList a).next x = if x = a then a else if x = h.previous a then h.next a else h.next x := by
  simp [removeFromList]

theorem removeFromList_previous :
    (h.removeFromList a).previous x = if x = a then a else if x = h.next a then h.previous a else h.previous x := by
  by_cases ha : a = h.previous a
  · simp [removeFromList, ← ha]
  · simp [removeFromList, ha]

/-- A node that is in no list is inserted in the same way by both methods. -/
theorem insertBefore_eq (ha : h.SelfLinked a) : h.insertBefore a e = h.insertBeforeAsList a e := by
  simp [insertBefore, insertBeforeAsList, ha.2]

theorem insertAfter_eq (ha : h.SelfLinked a) : h.insertAfter a e = h.insertAfterAsList a e := by
  simp [insertAfter, insertAfterAsList, ha.2]

/-- Behind `e` is before the node that follows it. -/
theorem insertAfterAsList_eq (he : h.previous (h.next e) = e) (hne : a ≠ h.next e) (hpe : e ≠ h.previous a) :
    h.insertAfterAsList a e = h.insertBeforeAsList a (h.next e) := by
  have hn : (h.insertAfterAsList a e).next = (h.insertBeforeAsList a (h.next e)).next := by
    funext x
    rw [insertBeforeAsList_next hne, he]
    simp [insertAfterAsList]
  have hp : (h.insertAfterAsList a e).previous = (h.insertBeforeAsList a (h.next e)).previous := by
    funext x
    rw [insertBeforeAsList_previous, he]
    simp [insertAfterAsList, hpe]
  exact Links.mk.injEq _ _ _ _ ▸ ⟨hn, hp⟩

/-- **`insert_before_as_list` puts one list behind the other.** -/
theorem Ring.insertBeforeAsList (ha : h.Ring a l) (he : h.Ring e r) (hd : ∀ x ∈ a :: l, x ∉ e :: r) :
    (h.insertBeforeAsList a e).Ring a (l ++ e :: r) := by
  have hne : a ≠ e := fun hae => hd a List.mem_cons_self (hae ▸ List.mem_cons_self)
  have hpe : h.previous a ≠ h.previous e := fun hp => hd _ ha.path.previous_mem (hp ▸ he.path.previous_mem)
  refine ha.join he hd (fun x h₁ h₂ => ?_) (fun x h₁ h₂ => ?_) ⟨?_, ?_⟩ ⟨?_, ?_⟩
  · rw [insertBeforeAsList_next hne, if_neg h₂, if_neg h₁]
  · rw [insertBeforeAsList_previous, if_neg h₂, if_neg h₁]
  · rw [insertBeforeAsList_next hne, if_neg hpe, if_pos rfl]
  · rw [insertBeforeAsList_previous, if_pos rfl]
  · rw [insertBeforeAsList_next hne, if_pos rfl]
  · rw [insertBeforeAsList_previous, if_neg hne, if_pos rfl]

theorem insertBeforeAsList_same (ha : h.Ring a l) (he : h.Ring e r) (hd : ∀ x ∈ a :: l, x ∉ e :: r) (hx : x ∉ a :: l)
    (hx' : x ∉ e :: r) : Same h (h.insertBeforeAsList a e) x := by
  have hne : a ≠ e := fun hae => hd a List.mem_cons_self (hae ▸ List.mem_cons_self)
  constructor
  · rw [insertBeforeAsList_next hne, if_neg (ne_of_mem_of_not_mem he.path.previous_mem hx').symm,
      if_neg (ne_of_mem_of_not_mem ha.path.previous_mem hx).symm]
  · rw [insertBeforeAsList_previous, if_neg (ne_of_mem_of_not_mem List.mem_cons_self hx').symm,
      if_neg (ne_of_mem_of_not_mem List.mem_cons_self hx).symm]

/-- **`insert_after_as_list` puts one list between a node and what follows it.** -/
theorem Ring.insertAfterAsList (ha : h.Ring a l) (he : h.Ring e r) (hd : ∀ x ∈ a :: l, x ∉ e :: r) :
    (h.insertAfterAsList a e).Ring e (a :: l ++ r) := by
  obtain ⟨-, hpn, hnr, -⟩ := he.inverse List.mem_cons_self
  have hne : a ≠ h.next e := fun hae => hd a List.mem_cons_self (hae ▸ hnr)
  have hpe : e ≠ h.previous a := fun hp => hd _ ha.path.previous_mem (hp ▸ List.mem_cons_self)
  rw [insertAfterAsList_eq hpn hne hpe]
  cases r with
  | nil =>
    have hnx : h.next e = e := he.path.1
    rw [hnx]
    rw [List.append_nil]
    exact (ha.insertBeforeAsList he hd).rotate
  | cons b r =>
    have hnx : h.next e = b := he.path.1.1
    have hb : h.Ring b (r ++ [e]) := Ring.rotate (l := []) he
    have hdb : ∀ x ∈ a :: l, x ∉ b :: (r ++ [e]) := by
      intro x hx hm
      refine hd x hx ?_
      simp only [List.mem_cons, List.mem_append, List.not_mem_nil, or_false] at hm ⊢
      tauto
    rw [hnx]
    have hj := ha.insertBeforeAsList hb hdb
    rw [show l ++ b :: (r ++ [e]) = (l ++ b :: r) ++ [e] by simp] at hj
    simpa using hj.rotate

theorem insertAfterAsList_same (ha : h.Ring a l) (he : h.Ring e r) (hd : ∀ x ∈ a :: l, x ∉ e :: r) (hx : x ∉ a :: l)
    (hx' : x ∉ e :: r) : Same h (h.insertAfterAsList a e) x := by
  obtain ⟨-, hpn, hnr, -⟩ := he.inverse List.mem_cons_self
  have hne : a ≠ h.next e := fun hae => hd a List.mem_cons_self (hae ▸ hnr)
  have hpe : e ≠ h.previous a := fun hp => hd _ ha.path.previous_mem (hp ▸ List.mem_cons_self)
  rw [insertAfterAsList_eq hpn hne hpe]
  constructor
  · rw [insertBeforeAsList_next hne, hpn, if_neg (ne_of_mem_of_not_mem List.mem_cons_self hx').symm,
      if_neg (ne_of_mem_of_not_mem ha.path.previous_mem hx).symm]
  · rw [insertBeforeAsList_previous, if_neg (ne_of_mem_of_not_mem hnr hx').symm,
      if_neg (ne_of_mem_of_not_mem List.mem_cons_self hx).symm]

/-- **`remove_from_list` leaves the node in no list.** -/
theorem removeFromList_selfLinked (h : Links ν) (a : ν) : (h.removeFromList a).SelfLinked a := by
  constructor
  · rw [removeFromList_next, if_pos rfl]
  · rw [removeFromList_previous, if_pos rfl]

/-- **`remove_from_list` leaves the other nodes in one.** -/
theorem Ring.removeFromList (hr : h.Ring a (b :: l)) : (h.removeFromList a).Ring b l := by
  have hab : h.next a = b := hr.path.1.1
  have hne : a ≠ b := fun he => (List.nodup_cons.1 hr.nodup).1 (he ▸ List.mem_cons_self)
  have hpa : h.previous a ≠ a := fun hp => (List.nodup_cons.1 hr.nodup).1 (hp ▸ hr.path.2.previous_mem)
  refine hr.unlink (fun x h₁ h₂ => ?_) (fun x h₁ h₂ => ?_) ⟨?_, ?_⟩
  · rw [removeFromList_next, if_neg h₁, if_neg h₂]
  · rw [removeFromList_previous, if_neg h₁, hab, if_neg h₂]
  · rw [removeFromList_next, if_neg hpa, if_pos rfl, hab]
  · rw [removeFromList_previous, if_neg hne.symm, hab, if_pos rfl]

theorem removeFromList_same (hr : h.Ring a l) (hx : x ∉ a :: l) : Same h (h.removeFromList a) x := by
  have hxa : x ≠ a := fun he => hx (he ▸ List.mem_cons_self)
  have hmem := hr.inverse List.mem_cons_self
  constructor
  · rw [removeFromList_next, if_neg hxa, if_neg (ne_of_mem_of_not_mem hmem.2.2.2 hx).symm]
  · rw [removeFromList_previous, if_neg hxa, if_neg (ne_of_mem_of_not_mem hmem.2.2.1 hx).symm]

end Links
end ContentionProf
