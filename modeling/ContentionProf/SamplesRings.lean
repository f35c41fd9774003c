import ContentionProf.RingLists
import ContentionProf.Samples
/-!
# SamplesRings — what a place holds

A place of the collector holds its objects linked to nothing, as a ring without a root that a pointer stands for, or as
a ring with a root.  The lemmas here say what the splices of the collector do to one or two such places; `Placement`
says that every object handed out is in one place, and `Placement.move` that a step which rearranges a few places keeps
that.
-/
namespace ContentionProf
namespace Samples

open Links (Ring SelfLinked Same HeadList RootList)

inductive Holder
  | flat (l : List Obj)
  | list (head : Option Obj)
  | root (r : Root)

/-- **The holder holds exactly these objects**, in this order. -/
def Holds (h : Links Node) : Holder → List Obj → Prop
  | .flat l, l'        => l' = l ∧ ∀ x ∈ l, h.SelfLinked (.obj x)
  | .list none, l      => l = []
  | .list (some a), l  => ∃ as, l = a :: as ∧ h.Ring (.obj a) (as.map .obj)
  | .root r, l         => h.Ring (.root r) (l.map .obj)

/-- What `next` of a root is. -/
def first : List Obj → Root → Node
  | [], r     => .root r
  | x :: _, _ => .obj x

variable {h h' : Links Node} {H : Holder} {l l' : List Obj} {a x : Obj} {r : Root} {n : Node}

theorem mem_map_obj {x : Obj} : Node.obj x ∈ l.map Node.obj ↔ x ∈ l := by simp

theorem obj_injective : Function.Injective Node.obj := fun _ _ he => by cases he; rfl

theorem root_ne_obj (r : Root) (x : Obj) : Node.root r ≠ .obj x := fun he => by cases he

theorem holds_list {s : Option Obj} : Holds h (.list s) l ↔ h.HeadList .obj s l := by
  cases s <;> exact Iff.rfl

theorem first_eq (l : List Obj) (r : Root) : first l r = Links.first .obj (.root r) l := by
  cases l <;> rfl

theorem Holds.congr (hh : Holds h H l) (hx : ∀ x ∈ l, Same h h' (.obj x))
    (hr : ∀ r, H = .root r → Same h h' (.root r)) : Holds h' H l := by
  cases H with
  | flat l₀ =>
    obtain ⟨rfl, hs⟩ := hh
    exact ⟨rfl, fun x hm => (hs x hm).of_same (hx x hm)⟩
  | list s =>
    rw [holds_list] at hh ⊢
    exact hh.congr hx
  | root r => exact RootList.congr hh (hr r rfl) hx

theorem holds_single (hx : h.SelfLinked (.obj x)) : Holds h (.list (some x)) [x] :=
  holds_list.2 (Links.headList_single hx)

theorem holds_construct (h : Links Node) (r : Root) : Holds (h.construct (.root r)) (.root r) [] :=
  Links.ring_nil.2 (Links.construct_selfLinked h _)

theorem Holds.next_root (hh : Holds h (.root r) l) : h.next (.root r) = first l r := by
  rw [first_eq]
  exact RootList.next_root hh

theorem combine_eq (h : Links Node) (s₁ s₂ : Option Obj) : combine h s₁ s₂ = h.combine .obj s₁ s₂ := by
  cases s₁ <;> cases s₂ <;> rfl

/-- **`CombineCollected` puts the second list behind the first.** -/
theorem combine_spec {s₁ s₂ : Option Obj} (h₁ : Holds h (.list s₁) l) (h₂ : Holds h (.list s₂) l')
    (hd : ∀ x ∈ l, x ∉ l') : Holds (combine h s₁ s₂).1 (.list (combine h s₁ s₂).2) (l ++ l') ∧
      ∀ n, (∀ x ∈ l ++ l', n ≠ .obj x) → Same h (combine h s₁ s₂).1 n := by
  rw [combine_eq, holds_list]
  exact HeadList.combine obj_injective (holds_list.1 h₁) (holds_list.1 h₂) hd

/-- **A list goes behind what a root holds.** -/
theorem Holds.insertList (h₁ : Holds h (.root r) l) (h₂ : Holds h (.list (some a)) l') (hd : ∀ x ∈ l, x ∉ l') :
    Holds (h.insertBeforeAsList (.obj a) (.root r)) (.root r) (l ++ l') ∧
      ∀ n, n ≠ .root r → (∀ x ∈ l ++ l', n ≠ .obj x) → Same h (h.insertBeforeAsList (.obj a) (.root r)) n :=
  RootList.insertList obj_injective (root_ne_obj r) h₁ (holds_list.1 h₂) hd

/-- **One object goes behind what a root holds.** -/
theorem Holds.insert (h₁ : Holds h (.root r) l) (hx : h.SelfLinked (.obj x)) (hl : x ∉ l) :
    Holds (h.insertBefore (.obj x) (.root r)) (.root r) (l ++ [x]) ∧
      ∀ n, n ≠ .root r → (∀ y ∈ l ++ [x], n ≠ .obj y) → Same h (h.insertBefore (.obj x) (.root r)) n := by
  rw [Links.insertBefore_eq hx]
  exact h₁.insertList (holds_single hx) (fun y hy hm => hl (List.mem_singleton.1 hm ▸ hy))

/-- **The first object leaves what a root holds.** -/
theorem Holds.remove (hh : Holds h (.root r) (x :: l)) : Holds (h.removeFromList (.obj x)) (.root r) l ∧
    (h.removeFromList (.obj x)).SelfLinked (.obj x) ∧ h.next (.obj x) = first l r ∧
      ∀ n, n ≠ .root r → (∀ y ∈ x :: l, n ≠ .obj y) → Same h (h.removeFromList (.obj x)) n := by
  have hroot : h.RootList .obj (.root r) ([] ++ x :: l) := hh
  obtain ⟨hring, hself, hsame⟩ := hroot.remove
  refine ⟨hring, hself, ?_, hsame⟩
  rw [first_eq]
  exact hroot.next

/-- **The root leaves, and the list stays.** -/
theorem Holds.detach (hh : Holds h (.root r) (a :: l)) :
    Holds (h.removeFromList (.root r)) (.list (some a)) (a :: l) ∧ Holds (h.removeFromList (.root r)) (.root r) [] ∧
      ∀ n, n ≠ .root r → (∀ y ∈ a :: l, n ≠ .obj y) → Same h (h.removeFromList (.root r)) n := by
  rw [holds_list]
  exact RootList.detach hh

/-! ## The places -/

/-- Where an object is that the pool has handed out: in a list of the collector, in a list of the grab thread or the
dump thread, or in none. -/
inductive Place
  | agent (t : Thread)
  | globalResult
  | tmp
  | prev
  | tmpRoot
  | root
  | head
  | dumpRoot
  | newHead
  | dumpLocal
  | submitter (t : Thread)
  | vectors
  | hand
  | hashSet (p : Sessions.Prof)
deriving DecidableEq

def Pc.held : Pc → List Obj
  | .submit x => [x]
  | .append x => [x]
  | .modify x => [x]
  | _         => []

/-- What `reset_all_agents` has taken, and what it returned. -/
def GrabPc.tmp : GrabPc → Option Obj
  | .exchange _ tmp  => tmp
  | .combine _ tmp _ => tmp
  | .head a          => a
  | _                => none

def GrabPc.prev : GrabPc → Option Obj
  | .combine _ _ prev => prev
  | _                 => none

/-- `tmp_root` is in use. -/
def GrabPc.sorting : GrabPc → Bool
  | .sort _ => true
  | _       => false

/-- `root` is in use. -/
def GrabPc.filling : GrabPc → Bool
  | .preps _       => true
  | .samples _ _ _ => true
  | .push          => true
  | _              => false

def GrabPc.published : GrabPc → Option Obj
  | .publish a => some a
  | _          => none

def DumpPc.newHead : DumpPc → Option Obj
  | .take a => some a
  | _       => none

/-- **The entries of the vectors that this round has not handled**: it clears none of them when it goes on. -/
def pending (m : Collector.PreprocessorMap Obj) : GrabPc → List Obj
  | .sort _         => m.flatMap Prod.snd
  | .preps it       => it.flatMap (OrderedMap.find [] m)
  | .samples k i it => (OrderedMap.find [] m k).drop i ++ it.flatMap (OrderedMap.find [] m)
  | _               => []

/-- The dump thread has the object, and no profiler has it yet. -/
def undecided : Sessions.Pc Obj → ProfPc → List Obj
  | .dump x, _           => [x]
  | .dumpLock x, _       => [x]
  | .dumpCheck x, _      => [x]
  | .dumpCall x, _       => [x]
  | .dumping x _, .none  => [x]
  | .dumpUnlockFree x, _ => [x]
  | .destroy x _, _      => [x]
  | _, _                 => []

def DumpPc.held : DumpPc → List Obj
  | .call x _ => [x]
  | _         => []

/-- **What a set has to answer for**: in `flush_to_disk`, what the loop has still to walk. -/
def HashSet.owned (h : HashSet) : List Obj := h.walk.getD h.members

/-- How a place holds its objects. -/
def holder (c : Config) (s : State) : Place → Holder
  | .agent t      => .list (if t ∈ s.agents then s.element t else none)
  | .globalResult => .list s.globalResult
  | .tmp          => .list s.grab.tmp
  | .prev         => .list s.grab.prev
  | .tmpRoot      => if s.grab.sorting then .root .tmpRoot else .list none
  | .root         => if s.grab.filling then .root .root else .list none
  | .head         => .list s.grab.published
  | .dumpRoot     => .root .dumpRoot
  | .newHead      => .list s.dump.newHead
  | .dumpLocal    => .root .dumpLocal
  | .submitter t  => .flat (s.pc t).held
  | .vectors      => .flat (pending s.prepMap s.grab)
  | .hand         => .flat (s.dump.held ++ undecided (s.sessions.pc c.dumpThread) (s.prof c.dumpThread))
  | .hashSet p    => .flat (s.sets p).owned

/-- **Every object handed out is in one place, and every other one is linked to nothing.** -/
structure Placement (c : Config) (s : State) (m : Place → List Obj) : Prop where
  holds : ∀ k, Holds s.links (holder c s k) (m k)
  places : Partition m
  live : ∀ x, x ∈ s.pool.live ↔ Placed m x
  pooled : ∀ x, Pool.Built s.pool x → x ∉ s.pool.live → s.links.SelfLinked (.obj x)

section Placement

variable {c : Config} {s s' : State} {m m' : Place → List Obj}

theorem Placement.flat (h : Placement c s m) {k : Place} (hk : holder c s k = .flat l) : m k = l := by
  have := h.holds k
  rw [hk] at this
  exact this.1

theorem Placement.selfLinked (h : Placement c s m) {k : Place} (hk : holder c s k = .flat l) (hx : x ∈ l) :
    s.links.SelfLinked (.obj x) := by
  have := h.holds k
  rw [hk] at this
  exact this.2 x hx

theorem Placement.disjoint (h : Placement c s m) {k j : Place} (hkj : k ≠ j) : ∀ x ∈ m k, x ∉ m j :=
  fun x hk hj => hkj (h.places.unique k j x hk hj)

/-- **A step that rearranges the objects of a few places**, and links no others. -/
theorem Placement.move {S : List Place} (h : Placement c s m) (hpool : s'.pool = s.pool) (hS : S.Nodup)
    (hperm : (S.flatMap m').Perm (S.flatMap m)) (hout : ∀ k, k ∉ S → m' k = m k)
    (hholder : ∀ k, k ∉ S → holder c s' k = holder c s k)
    (hobj : ∀ x, (∀ k ∈ S, x ∉ m k) → Same s.links s'.links (.obj x))
    (hroot : ∀ k r, k ∉ S → holder c s k = .root r → Same s.links s'.links (.root r))
    (hin : ∀ k ∈ S, Holds s'.links (holder c s' k) (m' k)) : Placement c s' m' where
  holds k := by
    by_cases hk : k ∈ S
    · exact hin k hk
    · rw [hout k hk, hholder k hk]
      refine (h.holds k).congr (fun x hx => hobj x (fun j hj hxj => ?_)) (fun r hr => hroot k r hk hr)
      exact hk (h.places.unique k j x hx hxj ▸ hj)
  places := h.places.rearrange hS hperm hout
  live x := by rw [hpool, h.live, placed_rearrange hperm hout]
  pooled x hb hx := by
    rw [hpool] at hb hx
    refine (h.pooled x hb hx).of_same (hobj x (fun k _ hk => hx ((h.live x).2 ⟨k, hk⟩)))

/-- A step that moves no object. -/
theorem Placement.of_eq (h : Placement c s m) (hpool : s'.pool = s.pool) (hlinks : s'.links = s.links)
    (hholder : ∀ k, holder c s' k = holder c s k) : Placement c s' m :=
  h.move (S := []) hpool List.nodup_nil (.refl _) (fun _ _ => rfl) (fun k _ => hholder k)
    (fun _ _ => by rw [hlinks]; exact ⟨rfl, rfl⟩) (fun _ _ _ _ => by rw [hlinks]; exact ⟨rfl, rfl⟩) nofun

/-- **A step of the pool that hands nothing out and takes nothing back.** -/
theorem Placement.inside (h : Placement c s m) (hlive : s'.pool.live = s.pool.live)
    (hbuilt : ∀ y, Pool.Built s'.pool y ↔ Pool.Built s.pool y) (hlinks : s'.links = s.links)
    (hholder : ∀ k, holder c s' k = holder c s k) : Placement c s' m where
  holds k := by rw [hlinks, hholder]; exact h.holds k
  places := h.places
  live x := by rw [hlive]; exact h.live x
  pooled x hb hx := by
    rw [hlinks]
    rw [hlive] at hx
    exact h.pooled x ((hbuilt x).1 hb) hx

/-- **An object is given back.** -/
theorem Placement.give {k : Place} (h : Placement c s m) (hnd : s.pool.live.Nodup)
    (hlive : s'.pool.live = s.pool.live.erase x) (hbuilt : ∀ y, Pool.Built s'.pool y ↔ Pool.Built s.pool y)
    (hlinks : s'.links = s.links) (hk : holder c s k = .flat (x :: l)) (hk' : holder c s' k = .flat l)
    (hholder : ∀ j, j ≠ k → holder c s' j = holder c s j) : Placement c s' (Function.update m k l) := by
  have hm := h.flat hk
  have hx : ∀ y ∈ x :: l, s.links.SelfLinked (.obj y) := fun y => h.selfLinked hk
  have hsub : ∀ j, (Function.update m k l j).Sublist (m j) := by
    intro j
    by_cases hj : j = k
    · rw [hj, Function.update_self, hm]; exact List.sublist_cons_self x l
    · rw [Function.update_of_ne hj]
  have hxl : x ∉ l := by
    have := h.places.nodup k
    rw [hm] at this
    exact (List.nodup_cons.1 this).1
  have hback : ∀ y, Placed (Function.update m k l) y ↔ Placed m y ∧ y ≠ x := by
    intro y
    constructor
    · rintro ⟨j, hy⟩
      refine ⟨⟨j, (hsub j).subset hy⟩, ?_⟩
      rintro rfl
      by_cases hj : j = k
      · rw [hj, Function.update_self] at hy
        exact hxl hy
      · exact hj (h.places.unique j k y ((hsub j).subset hy) (by rw [hm]; exact List.mem_cons_self))
    · rintro ⟨⟨j, hy⟩, hne⟩
      refine ⟨j, ?_⟩
      by_cases hj : j = k
      · rw [hj, hm] at hy
        rw [hj, Function.update_self]
        exact (List.mem_cons.1 hy).resolve_left hne
      · rw [Function.update_of_ne hj]; exact hy
  constructor
  · intro j
    rw [hlinks]
    by_cases hj : j = k
    · rw [hj, hk', Function.update_self]
      exact ⟨rfl, fun y hy => hx y (List.mem_cons_of_mem _ hy)⟩
    · rw [hholder j hj, Function.update_of_ne hj]; exact h.holds j
  · exact h.places.sublist hsub
  · intro y
    rw [hlive, hnd.mem_erase_iff, hback, h.live, and_comm]
  · intro y hb hy
    rw [hlinks]
    by_cases hyx : y = x
    · rw [hyx]; exact hx x List.mem_cons_self
    · refine h.pooled y ((hbuilt y).1 hb) (fun hm => hy ?_)
      rw [hlive]
      exact (hnd.mem_erase_iff).2 ⟨hyx, hm⟩

/-- **An object is handed out**: one that was given back, or a new one, which is constructed. -/
theorem Placement.hand {k : Place} (h : Placement c s m) (hlive : s'.pool.live = x :: s.pool.live)
    (hx : x ∉ s.pool.live) (hbuilt : ∀ y, Pool.Built s'.pool y → y = x ∨ Pool.Built s.pool y)
    (hself : s'.links.SelfLinked (.obj x)) (hlinks : ∀ n, n ≠ .obj x → Same s.links s'.links n)
    (hk : holder c s k = .flat []) (hk' : holder c s' k = .flat [x])
    (hholder : ∀ j, j ≠ k → holder c s' j = holder c s j) : Placement c s' (Function.update m k [x]) := by
  have hm := h.flat hk
  have hnew : ¬ Placed m x := fun hp => hx ((h.live x).2 hp)
  have ha : (Function.update m k [x] k).Perm (x :: m k) := by rw [Function.update_self, hm]
  have hout : ∀ j, j ≠ k → Function.update m k [x] j = m j := fun j hj => Function.update_of_ne hj ..
  constructor
  · intro j
    by_cases hj : j = k
    · rw [hj, hk', Function.update_self]
      exact ⟨rfl, fun y hy => by rw [List.mem_singleton.1 hy]; exact hself⟩
    · rw [hholder j hj, hout j hj]
      refine (h.holds j).congr (fun y hy => hlinks _ ?_) (fun r _ => hlinks _ nofun)
      rintro he
      cases he
      exact hnew ⟨j, hy⟩
  · exact h.places.insert hnew ha hout
  · intro y
    rw [hlive, List.mem_cons, h.live, placed_insert ha hout]
  · intro y hb hy
    rw [hlive, List.mem_cons, not_or] at hy
    refine (h.pooled y ((hbuilt y hb).resolve_left hy.1) hy.2).of_same (hlinks _ ?_)
    rintro he
    cases he
    exact hy.1 rfl

/-- The place of a root. -/
def Root.place : Root → Place
  | .tmpRoot   => .tmpRoot
  | .root      => .root
  | .dumpRoot  => .dumpRoot
  | .dumpLocal => .dumpLocal

theorem place_of_holder {k : Place} (hk : holder c s k = .root r) : k = r.place := by
  cases k <;> simp only [holder, reduceCtorEq] at hk
  case tmpRoot => split at hk <;> cases hk; rfl
  case root => split at hk <;> cases hk; rfl
  case dumpRoot => cases hk; rfl
  case dumpLocal => cases hk; rfl

/-- **A step that rearranges the objects of two places.** -/
theorem Placement.move₂ (k₁ k₂ : Place) (l₁ l₂ : List Obj) (h : Placement c s m) (hpool : s'.pool = s.pool)
    (hne : k₁ ≠ k₂) (hperm : (l₁ ++ l₂).Perm (m k₁ ++ m k₂))
    (hholder : ∀ k, k ≠ k₁ → k ≠ k₂ → holder c s' k = holder c s k)
    (hsame : ∀ n, (∀ r : Root, n = .root r → r.place ≠ k₁ ∧ r.place ≠ k₂) → (∀ x ∈ m k₁, n ≠ .obj x) →
      (∀ x ∈ m k₂, n ≠ .obj x) → Same s.links s'.links n)
    (h₁ : Holds s'.links (holder c s' k₁) l₁) (h₂ : Holds s'.links (holder c s' k₂) l₂) :
    Placement c s' (Function.update (Function.update m k₁ l₁) k₂ l₂) := by
  have hm₁ : Function.update (Function.update m k₁ l₁) k₂ l₂ k₁ = l₁ := by
    rw [Function.update_of_ne hne, Function.update_self]
  have hm₂ : Function.update (Function.update m k₁ l₁) k₂ l₂ k₂ = l₂ := Function.update_self ..
  have hmem : ∀ {k}, k ∉ [k₁, k₂] → k ≠ k₁ ∧ k ≠ k₂ := fun hk => by simpa using hk
  refine h.move (S := [k₁, k₂]) hpool (by simpa using hne) ?_ (fun k hk => ?_) (fun k hk => ?_) (fun x hx => ?_)
    (fun k r hk hr => ?_) (fun k hk => ?_)
  · simpa [hm₁, hm₂] using hperm
  · rw [Function.update_of_ne (hmem hk).2, Function.update_of_ne (hmem hk).1]
  · exact hholder k (hmem hk).1 (hmem hk).2
  · refine hsame _ (fun r he => by cases he) (fun y hy he => ?_) (fun y hy he => ?_)
    · cases he; exact hx k₁ (by simp) hy
    · cases he; exact hx k₂ (by simp) hy
  · rw [place_of_holder hr] at hk
    refine hsame _ (fun r' he => ?_) (fun y _ he => by cases he) (fun y _ he => by cases he)
    cases he
    exact hmem hk
  · rcases List.mem_cons.1 hk with rfl | hk
    · rw [hm₁]; exact h₁
    · rw [List.mem_singleton.1 hk, hm₂]; exact h₂

/-- **A step that holds the objects of one place in another way.** -/
theorem Placement.hold (k₁ : Place) (l : List Obj) (h : Placement c s m) (hpool : s'.pool = s.pool)
    (hlinks : s'.links = s.links) (hperm : l.Perm (m k₁)) (hholder : ∀ k, k ≠ k₁ → holder c s' k = holder c s k)
    (h₁ : Holds s.links (holder c s' k₁) l) : Placement c s' (Function.update m k₁ l) := by
  refine h.move (S := [k₁]) hpool (List.nodup_singleton _) ?_ (fun k hk => ?_) (fun k hk => ?_) (fun x _ => ?_)
    (fun k r _ _ => ?_) (fun k hk => ?_)
  · simpa using hperm
  · rw [Function.update_of_ne (by simpa using hk)]
  · exact hholder k (by simpa using hk)
  · rw [hlinks]; exact ⟨rfl, rfl⟩
  · rw [hlinks]; exact ⟨rfl, rfl⟩
  · rw [List.mem_singleton.1 hk, Function.update_self, hlinks]; exact h₁

end Placement

end Samples
end ContentionProf
