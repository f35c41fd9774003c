import Mathlib.Data.List.Nodup
import Mathlib.Logic.Function.Iterate
/-!
# Ring — doubly linked rings

A memory of nodes with two fields.  `Path a l z` reads it from `a` on: the nodes of `l` come one after the other, then
`z`.  A ring is a path of distinct nodes that comes back to where it starts; it can be read from any of its nodes
(`Ring.rotate`), opened at one and closed elsewhere (`Path.relink`), and where it starts determines its nodes
(`Ring.mem_iff`).
-/
namespace ContentionProf

/-- The fields of all nodes. -/
structure Links (ν : Type) where
  next : ν → ν
  previous : ν → ν

namespace Links

variable {ν : Type} {h h' : Links ν} {a b z w : ν} {l r : List ν}

/-- The fields between neighbours. -/
def Linked (h : Links ν) (a b : ν) : Prop := h.next a = b ∧ h.previous b = a

/-- From `a` through `l` to `z`. -/
def Path (h : Links ν) : ν → List ν → ν → Prop
  | a, [], z     => h.Linked a z
  | a, b :: l, z => h.Linked a b ∧ Path h b l z

/-- **A ring**, read from `a` on. -/
structure Ring (h : Links ν) (a : ν) (l : List ν) : Prop where
  nodup : (a :: l).Nodup
  path : h.Path a l a

def SelfLinked (h : Links ν) (a : ν) : Prop := h.next a = a ∧ h.previous a = a

/-- A node has the same fields in both memories. -/
def Same (h h' : Links ν) (a : ν) : Prop := h'.next a = h.next a ∧ h'.previous a = h.previous a

theorem SelfLinked.of_same (hs : h.SelfLinked a) (hsame : Same h h' a) : h'.SelfLinked a :=
  ⟨hsame.1.trans hs.1, hsame.2.trans hs.2⟩

theorem path_append : ∀ {l : List ν} {a : ν}, h.Path a (l ++ b :: r) z ↔ h.Path a l b ∧ h.Path b r z
  | [], _     => Iff.rfl
  | c :: l, a => by
    show h.Linked a c ∧ h.Path c (l ++ b :: r) z ↔ (h.Linked a c ∧ h.Path c l b) ∧ h.Path b r z
    rw [path_append, and_assoc]

theorem Path.previous_mem : ∀ {l : List ν} {a : ν}, h.Path a l z → h.previous z ∈ a :: l
  | [], a, hp     => by rw [hp.2]; exact List.mem_cons_self
  | _ :: _, _, hp => List.mem_cons_of_mem _ hp.2.previous_mem

theorem Path.next_previous : ∀ {l : List ν} {a : ν}, h.Path a l z → h.next (h.previous z) = z
  | [], a, hp     => by rw [hp.2]; exact hp.1
  | _ :: _, _, hp => hp.2.next_previous

/-- **The end of a path is moved**: the last node, and what `z` names as the node before it, are linked to `w`. -/
theorem Path.relink : ∀ {l : List ν} {a : ν}, h.Path a l z → (a :: l).Nodup →
    (∀ x ∈ a :: l, x ≠ h.previous z → h'.next x = h.next x) → (∀ x ∈ l, h'.previous x = h.previous x) →
    h'.Linked (h.previous z) w → h'.Path a l w
  | [], a, hp, _, _, _, hw => by
    rw [hp.2] at hw
    exact hw
  | b :: l, a, hp, hnd, hn, hq, hw => by
    obtain ⟨ha, hnd⟩ := List.nodup_cons.1 hnd
    have hne : a ≠ h.previous z := fun he => ha (he ▸ hp.2.previous_mem)
    refine ⟨⟨?_, ?_⟩, hp.2.relink hnd (fun x hx => hn x (List.mem_cons_of_mem _ hx))
      (fun x hx => hq x (List.mem_cons_of_mem _ hx)) hw⟩
    · rw [hn a List.mem_cons_self hne]; exact hp.1.1
    · rw [hq b List.mem_cons_self]; exact hp.1.2

theorem Path.congr : ∀ {l : List ν} {a : ν}, h.Path a l z → (∀ x ∈ a :: l, h'.next x = h.next x) →
    (∀ x ∈ l, h'.previous x = h.previous x) → h'.previous z = h.previous z → h'.Path a l z
  | [], a, hp, hn, _, hz => ⟨(hn a List.mem_cons_self).trans hp.1, hz.trans hp.2⟩
  | b :: _, a, hp, hn, hq, hz =>
    ⟨⟨(hn a List.mem_cons_self).trans hp.1.1, (hq b List.mem_cons_self).trans hp.1.2⟩,
      hp.2.congr (fun x hx => hn x (List.mem_cons_of_mem _ hx)) (fun x hx => hq x (List.mem_cons_of_mem _ hx)) hz⟩

/-- A path to a node that it does not pass is the only one. -/
theorem Path.unique : ∀ {l l' : List ν} {a : ν}, h.Path a l z → h.Path a l' z → z ∉ l → z ∉ l' → l = l'
  | [], [], _, _, _, _, _              => rfl
  | [], b :: l', _, hp, hp', _, hz'    => absurd (hp.1.symm.trans hp'.1.1 ▸ List.mem_cons_self) hz'
  | b :: l, [], _, hp, hp', hz, _      => absurd (hp'.1.symm.trans hp.1.1 ▸ List.mem_cons_self) hz
  | b :: l, b' :: l', _, hp, hp', hz, hz' => by
    obtain rfl : b = b' := hp.1.1.symm.trans hp'.1.1
    rw [Path.unique hp.2 hp'.2 (List.not_mem_of_not_mem_cons hz) (List.not_mem_of_not_mem_cons hz')]

/-- **A node has one ring.** -/
theorem Ring.unique {l' : List ν} (hr : h.Ring a l) (hr' : h.Ring a l') : l = l' :=
  hr.path.unique hr'.path (List.nodup_cons.1 hr.nodup).1 (List.nodup_cons.1 hr'.nodup).1

theorem Ring.congr (hr : h.Ring a l) (hs : ∀ x ∈ a :: l, Same h h' x) : h'.Ring a l :=
  ⟨hr.nodup, hr.path.congr (fun x hx => (hs x hx).1) (fun x hx => (hs x (List.mem_cons_of_mem _ hx)).2)
    (hs a List.mem_cons_self).2⟩

theorem ring_nil : h.Ring a [] ↔ h.SelfLinked a :=
  ⟨fun hr => hr.path, fun hs => ⟨List.nodup_singleton a, hs⟩⟩

/-- **A ring can be read from any of its nodes.** -/
theorem Ring.rotate (hr : h.Ring a (l ++ b :: r)) : h.Ring b (r ++ a :: l) := by
  obtain ⟨hab, hba⟩ := path_append.1 hr.path
  refine ⟨?_, path_append.2 ⟨hba, hab⟩⟩
  have hp : (b :: (r ++ a :: l)).Perm (a :: (l ++ b :: r)) := by
    have hp : (b :: r ++ a :: l).Perm (a :: l ++ b :: r) := List.perm_append_comm
    simpa using hp
  exact hp.nodup_iff.2 hr.nodup

/-- **`next` and `previous` are inverse on a ring**, and lead from its nodes to its nodes. -/
theorem Ring.inverse (hr : h.Ring a l) {x : ν} (hx : x ∈ a :: l) :
    h.next (h.previous x) = x ∧ h.previous (h.next x) = x ∧ h.next x ∈ a :: l ∧ h.previous x ∈ a :: l := by
  -- read from `x` on, the ring starts and ends at `x`
  have key : ∀ {l' : List ν}, h.Ring x l' → h.next (h.previous x) = x ∧ h.previous (h.next x) = x ∧
      h.next x ∈ x :: l' ∧ h.previous x ∈ x :: l' := by
    intro l' hx
    refine ⟨hx.path.next_previous, ?_, ?_, hx.path.previous_mem⟩
    · cases l' with
      | nil => rw [hx.path.1]; exact hx.path.2
      | cons c l' => rw [hx.path.1.1]; exact hx.path.1.2
    · cases l' with
      | nil => rw [hx.path.1]; exact List.mem_cons_self
      | cons c l' => rw [hx.path.1.1]; exact List.mem_cons_of_mem _ List.mem_cons_self
  rcases List.mem_cons.1 hx with rfl | hx
  · exact key hr
  · obtain ⟨l₁, l₂, rfl⟩ := List.append_of_mem hx
    obtain ⟨h₁, h₂, h₃, h₄⟩ := key hr.rotate
    have hmem : ∀ y, y ∈ x :: (l₂ ++ a :: l₁) → y ∈ a :: (l₁ ++ x :: l₂) := by
      intro y hy
      simp only [List.mem_cons, List.mem_append] at hy ⊢
      tauto
    exact ⟨h₁, h₂, hmem _ h₃, hmem _ h₄⟩

theorem Path.iterate_mem : ∀ {l : List ν} {a x : ν}, h.Path a l z → x ∈ a :: l → ∃ n, h.next^[n] a = x
  | [], a, x, _, hx => ⟨0, (List.mem_singleton.1 hx).symm⟩
  | b :: l, a, x, hp, hx => by
    rcases List.mem_cons.1 hx with rfl | hx
    · exact ⟨0, rfl⟩
    · obtain ⟨n, hn⟩ := hp.2.iterate_mem hx
      exact ⟨n + 1, by rw [Function.iterate_succ_apply, hp.1.1]; exact hn⟩

/-- **The nodes of a ring are those that `next` leads to.** -/
theorem Ring.mem_iff (hr : h.Ring a l) {x : ν} : x ∈ a :: l ↔ ∃ n, h.next^[n] a = x := by
  refine ⟨hr.path.iterate_mem, ?_⟩
  rintro ⟨n, rfl⟩
  induction n with
  | zero => exact List.mem_cons_self
  | succ n ih =>
    rw [Function.iterate_succ_apply']
    exact (hr.inverse ih).2.2.1

/-- **Two rings are opened and joined.** -/
theorem Ring.join (ha : h.Ring a l) (hb : h.Ring b r) (hd : ∀ x ∈ a :: l, x ∉ b :: r)
    (hn : ∀ x, x ≠ h.previous a → x ≠ h.previous b → h'.next x = h.next x)
    (hp : ∀ x, x ≠ a → x ≠ b → h'.previous x = h.previous x) (hab : h'.Linked (h.previous a) b)
    (hba : h'.Linked (h.previous b) a) : h'.Ring a (l ++ b :: r) := by
  obtain ⟨hal, hl⟩ := List.nodup_cons.1 ha.nodup
  obtain ⟨hbr, hr⟩ := List.nodup_cons.1 hb.nodup
  have hlast : ∀ x ∈ a :: l, x ≠ h.previous b := fun x hx he => hd x hx (he ▸ hb.path.previous_mem)
  have hlast' : ∀ x ∈ b :: r, x ≠ h.previous a := fun x hx he => hd x (he ▸ ha.path.previous_mem) hx
  refine ⟨?_, path_append.2 ⟨?_, ?_⟩⟩
  · rw [← List.cons_append]
    exact List.nodup_append'.2 ⟨ha.nodup, hb.nodup, List.disjoint_left.2 hd⟩
  · refine ha.path.relink ha.nodup (fun x hx hne => hn x hne (hlast x hx)) (fun x hx => hp x ?_ ?_) hab
    · exact ne_of_mem_of_not_mem hx hal
    · rintro rfl; exact hd x (List.mem_cons_of_mem _ hx) List.mem_cons_self
  · refine hb.path.relink hb.nodup (fun x hx hne => hn x (hlast' x hx) hne) (fun x hx => hp x ?_ ?_) hba
    · rintro rfl; exact hd x List.mem_cons_self (List.mem_cons_of_mem _ hx)
    · exact ne_of_mem_of_not_mem hx hbr

/-- **One node is taken out of a ring.** -/
theorem Ring.unlink (hr : h.Ring a (b :: l)) (hn : ∀ x, x ≠ a → x ≠ h.previous a → h'.next x = h.next x)
    (hp : ∀ x, x ≠ a → x ≠ b → h'.previous x = h.previous x) (hb : h'.Linked (h.previous a) b) : h'.Ring b l := by
  obtain ⟨ha, hnd⟩ := List.nodup_cons.1 hr.nodup
  refine ⟨hnd, hr.path.2.relink hnd (fun x hx hne => hn x (ne_of_mem_of_not_mem hx ha) hne) (fun x hx => hp x ?_ ?_) hb⟩
  · exact ne_of_mem_of_not_mem (List.mem_cons_of_mem _ hx) ha
  · exact ne_of_mem_of_not_mem hx (List.nodup_cons.1 hnd).1

end Links
end ContentionProf
