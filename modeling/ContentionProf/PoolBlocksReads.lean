import ContentionProf.PoolBlocksCompletion
import ContentionProf.PoolRoom
import Mathlib.Data.List.Perm.Subperm
/-!
# PoolBlocksReads — `describe_objects` next to `add_block` (`object_pool_inl.h`)

`describe_objects` walks the groups and their blocks with one atomic load after the other while other threads add
blocks.  What it reports lies between what was there when it read `group_count_` and what is there at its end.
-/
namespace ContentionProf
namespace PoolBlocks

structure ObjectPoolInfo where
  localPoolNum : Nat
  blockGroupNum : Nat
  blockNum : Nat
  itemNum : Nat
  blockItemNum : Nat
  freeChunkItemNum : Nat
  totalSize : Nat

/-- `BLOCK_ITEM_COUNT`, `free_chunk_item_count()` and `sizeof(T)`. -/
structure ItemConfig where
  blockItemCount : Nat
  freeChunkItemCount : Nat
  sizeofT : Nat

/-- Where a thread stands in `describe_objects`; `start` is the state at line 278 (ghost). -/
inductive Look
  | idle
  /-- Line 278. -/
  | groupNum (localPoolNum : Nat)
  /-- Lines 284–285. -/
  | group (start : State) (info : ObjectPoolInfo) (i : Nat)
  /-- Lines 289–291. -/
  | count (start : State) (info : ObjectPoolInfo) (i : Nat) (bg : GroupPtr)
  /-- Lines 292–296. -/
  | block (start : State) (info : ObjectPoolInfo) (i : Nat) (bg : GroupPtr) (j blockCount : Nat)

/-- A call that has returned, with the states at line 278 and at line 299 (ghost). -/
structure Described where
  start : State
  stop : State
  info : ObjectPoolInfo

structure Observed where
  base : State
  look : Thread → Look
  returned : List Described

def Look.isIdle : Look → Bool
  | .idle => true
  | _     => false

def Label.thread : Label → Thread
  | .addBlock t _ => t
  | .go t _       => t

namespace Observed

inductive Label
  | other (a : PoolBlocks.Label)
  /-- `describe_objects` is called and reads `local_count_`. -/
  | describe (t : Thread) (localCount : Nat)
  /-- It goes on; `itemCount` is the `item_count` of the block that it may read. -/
  | go (t : Thread) (itemCount : Nat)

def setLook (s : Observed) (t : Thread) (l : Look) : Observed := { s with look := Function.update s.look t l }

/-- Lines 299–300. -/
def finish (d : ItemConfig) (s : Observed) (t : Thread) (start : State) (info : ObjectPoolInfo) : Observed :=
  let info := { info with totalSize := info.blockNum * info.blockItemNum * d.sizeofT }
  { s with returned := ⟨start, s.base, info⟩ :: s.returned }.setLook t .idle

/-- The next step of `describe_objects`. -/
def advance (c : Config) (d : ItemConfig) (s : Observed) (t : Thread) (itemCount : Nat) : Option Observed :=
  match s.look t with
  | .idle                        => none
  | .groupNum localPoolNum       =>
    some (s.setLook t (.group s.base
      ⟨localPoolNum, s.base.groupCount, 0, 0, d.blockItemCount, d.freeChunkItemCount, 0⟩ 0))
  | .group start info i          =>
    if i < info.blockGroupNum then
      match s.base.blockGroups i with
      | none    => some (s.finish d t start info)
      | some bg => some (s.setLook t (.count start info i bg))
    else some (s.finish d t start info)
  | .count start info i bg       =>
    let blockCount := min (s.base.heap bg).blockCount c.groupBlockCount
    some (s.setLook t (.block start { info with blockNum := info.blockNum + blockCount } i bg 0 blockCount))
  | .block start info i bg j blockCount =>
    if j < blockCount then
      match (s.base.heap bg).blocks j with
      | some _ =>
        some (s.setLook t (.block start { info with itemNum := info.itemNum + itemCount } i bg (j + 1) blockCount))
      | none   => some (s.setLook t (.block start info i bg (j + 1) blockCount))
    else some (s.setLook t (.group start info (i + 1)))

def step (c : Config) (d : ItemConfig) (s : Observed) : Label → Option Observed
  | .other a               =>
    if (s.look a.thread).isIdle then (PoolBlocks.step c s.base a).map (fun b => { s with base := b }) else none
  | .describe t localCount =>
    if (s.look t).isIdle && (s.base.pc t).isIdle then some (s.setLook t (.groupNum localCount)) else none
  | .go t itemCount        => advance c d s t itemCount

def system (c : Config) (d : ItemConfig) : System Observed Label where
  init s := s.base = initState ∧ s.look = (fun _ => .idle) ∧ s.returned = []
  step := step c d

/-- No block has more items than `get` makes in it. -/
def ItemsOk (d : ItemConfig) (_ : Observed) : Label → Prop
  | .go _ itemCount => itemCount ≤ d.blockItemCount
  | _               => True

instance (d : ItemConfig) (s : Observed) : ∀ a, Decidable (ItemsOk d s a)
  | .go _ itemCount => inferInstanceAs (Decidable (itemCount ≤ d.blockItemCount))
  | .other _        => .isTrue trivial
  | .describe _ _   => .isTrue trivial

/-- **What `get` leaves in a block may be read.** -/
theorem itemsOk_of_pool {g : Pool.Config} {p : Pool.State} {d : ItemConfig} (hp : (Pool.system g).Reachable p)
    (hd : g.blockItemCount = d.blockItemCount) (s : Observed) (t u : Thread) (b : Nat) :
    ItemsOk d s (.go t ((p.thr u).itemCount b)) := by
  show (p.thr u).itemCount b ≤ d.blockItemCount
  rw [← hd]
  exact Pool.itemCount_le hp u b

end Observed

/-! ## The slots handed out -/

/-- The slots that `fetch_add` has handed out in the first `n` groups. -/
def slotList (s : State) (n : Nat) : List (GroupPtr × Nat) :=
  (List.range n).flatMap (fun g => (List.range (s.heap g).reserved).map (Prod.mk g))

def slots (s : State) (n : Nat) : Nat := (slotList s n).length

variable {c : Config} {d : ItemConfig} {s s' : State} {t u : Thread}

theorem slots_succ (s : State) (n : Nat) : slots s (n + 1) = slots s n + (s.heap n).reserved := by
  unfold slots slotList
  rw [List.range_succ, List.flatMap_append, List.length_append]
  simp

theorem mem_slotList {n : Nat} {g : GroupPtr} {i : Nat} :
    (g, i) ∈ slotList s n ↔ g < n ∧ i < (s.heap g).reserved := by
  simp only [slotList, List.mem_flatMap, List.mem_range, List.mem_map, Prod.mk.injEq]
  constructor
  · rintro ⟨k, hk, j, hj, rfl, rfl⟩
    exact ⟨hk, hj⟩
  · rintro ⟨hg, hi⟩
    exact ⟨g, hg, i, hi, rfl, rfl⟩

theorem nodup_slotList (s : State) (n : Nat) : (slotList s n).Nodup := by
  refine List.nodup_flatMap.2 ⟨fun g _ => ?_, List.nodup_range.imp (fun {g k} hne p hp hp' => hne ?_)⟩
  · exact List.nodup_range.map (fun _ _ h => (Prod.mk.inj h).2)
  · obtain ⟨_, -, rfl⟩ := List.mem_map.1 hp
    obtain ⟨_, -, h⟩ := List.mem_map.1 hp'
    exact (Prod.mk.inj h).1.symm

/-- What never shrinks. -/
structure Grown (s s' : State) : Prop where
  groupCount : s.groupCount ≤ s'.groupCount
  reserved : ∀ g, (s.heap g).reserved ≤ (s'.heap g).reserved

theorem Grown.refl (s : State) : Grown s s := ⟨le_rfl, fun _ => le_rfl⟩

theorem grown_step {a : Label} (h : Inv c s) (hs : step c s a = some s') : Grown s s' := by
  cases a with
  | go t alloc =>
    have hg := grows h hs
    exact ⟨hg.groupCount, hg.reserved⟩
  | addBlock t alloc =>
    simp only [step] at hs
    split at hs
    · split at hs <;> cases hs <;> exact ⟨le_rfl, fun _ => le_rfl⟩
    · cases hs

theorem Grown.slots_le (h : Grown s s') : ∀ n, slots s n ≤ slots s' n
  | 0     => le_rfl
  | n + 1 => by
    rw [slots_succ, slots_succ]
    exact Nat.add_le_add (h.slots_le n) (h.reserved n)

theorem slots_mono (s : State) {n m : Nat} (h : n ≤ m) : slots s n ≤ slots s m := by
  induction h with
  | refl => exact le_rfl
  | step _ ih => exact Nat.le_trans ih (by rw [slots_succ]; exact Nat.le_add_right ..)

/-- **The minimum of line 289 is the number of slots handed out**, however many threads have overshot. -/
theorem BlockGroup.Ok.min_count {g : BlockGroup} (h : g.Ok c) : min g.blockCount c.groupBlockCount = g.reserved := by
  have hle := h.reserved_le
  have hcount := h.count
  by_cases hlt : g.blockCount < c.groupBlockCount
  · obtain ⟨-, hnext⟩ := h.next hlt
    omega
  · have hfull := h.full_of_count hlt
    omega

/-- Every block stored has a slot that was handed out. -/
theorem stores_le_slots (h : Inv c s) : s.stores.length ≤ slots s s.groupCount := by
  refine (List.subperm_of_subset h.storesNodup (fun p hp => ?_)).length_le
  obtain ⟨g, i⟩ := p
  have hne := (h.stores g i).1 hp
  refine mem_slotList.2 ⟨?_, (h.group g).taken i hne⟩
  by_contra hg
  rw [h.fresh g (Nat.not_lt.1 hg)] at hne
  exact hne rfl

/-- With no `add_block` under way, every slot that was handed out has its block. -/
theorem slots_le_stores (h : Full c s) (hidle : ∀ t, s.pc t = .idle) (n : Nat) : slots s n ≤ s.stores.length := by
  refine (List.subperm_of_subset (nodup_slotList s n) (fun p hp => ?_)).length_le
  obtain ⟨g, i⟩ := p
  obtain ⟨-, hi⟩ := mem_slotList.1 hp
  rcases h.slots g i hi with hne | ⟨t, ht⟩
  · exact (h.inv.stores g i).2 hne
  · rw [hidle t] at ht
    cases ht

/-! ## The walk -/

/-- **What a walk has counted**: the first `i` groups, and of the blocks counted the items of all but `left`. -/
structure Walked (c : Config) (d : ItemConfig) (start s : State) (info : ObjectPoolInfo) (i left : Nat) : Prop where
  full : Full c start
  grown : Grown start s
  groups : info.blockGroupNum = start.groupCount
  le : i ≤ start.groupCount
  low : slots start i ≤ info.blockNum
  high : info.blockNum ≤ slots s i
  blockItems : info.blockItemNum = d.blockItemCount
  items : info.itemNum + left * d.blockItemCount ≤ info.blockNum * d.blockItemCount

theorem Walked.mono {start : State} {info : ObjectPoolInfo} {i left : Nat} (h : Walked c d start s info i left)
    (hg : Grown s s') : Walked c d start s' info i left :=
  { h with
    grown := ⟨Nat.le_trans h.grown.groupCount hg.groupCount, fun g => Nat.le_trans (h.grown.reserved g) (hg.reserved g)⟩
    high := Nat.le_trans h.high (hg.slots_le i) }

def LookOk (c : Config) (d : ItemConfig) (s : State) : Look → Prop
  | .group start info i          => Walked c d start s info i 0
  | .count start info i bg       => Walked c d start s info i 0 ∧ i < start.groupCount ∧ bg = i
  | .block start info i bg j blockCount => Walked c d start s info (i + 1) (blockCount - j) ∧ bg = i
  | _                            => True

theorem LookOk.mono {l : Look} (h : LookOk c d s l) (hg : Grown s s') : LookOk c d s' l := by
  cases l with
  | idle => trivial
  | groupNum localPoolNum => trivial
  | group start info i => exact Walked.mono h hg
  | count start info i bg => exact ⟨h.1.mono hg, h.2⟩
  | block start info i bg j blockCount => exact ⟨h.1.mono hg, h.2⟩

/-- **What a call that has returned reported.** -/
structure Described.Ok (c : Config) (d : ItemConfig) (r : Described) : Prop where
  stop : Full c r.stop
  walked : Walked c d r.start r.stop r.info r.start.groupCount 0

namespace Observed

structure Inv (c : Config) (d : ItemConfig) (s : Observed) : Prop where
  full : Full c s.base
  look : ∀ t, LookOk c d s.base (s.look t)
  returned : ∀ r ∈ s.returned, r.Ok c d

variable {s s' : Observed} {itemCount : Nat}

theorem Inv.setLook {l : Look} (h : s.Inv c d) (hl : LookOk c d s.base l) : (s.setLook t l).Inv c d where
  full := h.full
  look u := by
    show LookOk c d s.base (Function.update s.look t l u)
    by_cases hu : u = t
    · rw [hu, Function.update_self]; exact hl
    · rw [Function.update_of_ne hu]; exact h.look u
  returned := h.returned

theorem Inv.finish {start : State} {info : ObjectPoolInfo} (h : s.Inv c d)
    (hw : Walked c d start s.base info start.groupCount 0) : (s.finish d t start info).Inv c d := by
  refine Inv.setLook (s := { s with returned := _ :: s.returned }) ⟨h.full, h.look, fun r hr => ?_⟩ trivial
  rcases List.mem_cons.1 hr with rfl | hr
  · exact ⟨h.full, hw.full, hw.grown, hw.groups, hw.le, hw.low, hw.high, hw.blockItems, hw.items⟩
  · exact h.returned r hr

/-- **The observer moves.** -/
theorem Inv.advance (h : s.Inv c d) (hitems : itemCount ≤ d.blockItemCount)
    (hs : Observed.advance c d s t itemCount = some s') : s'.Inv c d := by
  have hl := h.look t
  cases hp : s.look t with (rw [hp] at hl; simp only [Observed.advance, hp] at hs)
  | idle => cases hs
  | groupNum localPoolNum =>
    cases hs
    exact h.setLook ⟨h.full, .refl _, rfl, Nat.zero_le _, le_rfl, Nat.zero_le _, rfl, Nat.le_of_eq (Nat.zero_add _)⟩
  | group start info i =>
    have hw : Walked c d start s.base info i 0 := hl
    split at hs
    · rename_i hi
      rw [hw.groups] at hi
      -- the groups that `group_count_` counts are never null
      rw [h.full.inv.groups i (Nat.lt_of_lt_of_le hi hw.grown.groupCount)] at hs
      cases hs
      exact h.setLook ⟨hw, hi, rfl⟩
    · rename_i hi
      cases hs
      have hend : i = start.groupCount := Nat.le_antisymm hw.le (by rw [← hw.groups]; exact Nat.not_lt.1 hi)
      exact h.finish (hend ▸ hw)
  | count start info i bg =>
    obtain ⟨hw, hi, rfl⟩ := hl
    cases hs
    have hmin := (h.full.inv.group bg).min_count
    refine h.setLook ⟨⟨hw.full, hw.grown, hw.groups, hi, ?_, ?_, hw.blockItems, ?_⟩, rfl⟩
    · rw [slots_succ, hmin]
      exact Nat.add_le_add hw.low (hw.grown.reserved bg)
    · rw [slots_succ, hmin]
      exact Nat.add_le_add_right hw.high _
    · have hle := hw.items
      rw [Nat.zero_mul] at hle
      rw [Nat.sub_zero, Nat.add_mul]
      exact Nat.add_le_add_right hle _
  | block start info i bg j blockCount =>
    obtain ⟨hw, rfl⟩ := hl
    split at hs
    · rename_i hj
      have hleft : (blockCount - j) * d.blockItemCount =
          (blockCount - (j + 1)) * d.blockItemCount + d.blockItemCount := by
        rw [← Nat.succ_mul]
        congr 1
        omega
      have hle := hw.items
      rw [hleft] at hle
      split at hs <;> cases hs
      · exact h.setLook ⟨{ hw with items := by dsimp only; omega }, rfl⟩
      · exact h.setLook ⟨{ hw with items := by omega }, rfl⟩
    · rename_i hj
      cases hs
      refine h.setLook ?_
      rw [Nat.sub_eq_zero_of_le (Nat.not_lt.1 hj)] at hw
      exact hw

theorem inv_step {a : Label} (h : s.Inv c d) (hok : ItemsOk d s a) (hs : Observed.step c d s a = some s') :
    s'.Inv c d := by
  cases a with
  | other a =>
    simp only [Observed.step] at hs
    split at hs
    · obtain ⟨b, hb, rfl⟩ := Option.map_eq_some_iff.1 hs
      have hg := grown_step h.full.inv hb
      exact ⟨full_step h.full hb, fun t => (h.look t).mono hg, h.returned⟩
    · cases hs
  | describe t localCount =>
    simp only [Observed.step] at hs
    split at hs <;> cases hs
    exact h.setLook trivial
  | go t itemCount => exact h.advance hok hs

theorem inv_reachable (h : (system c d).ReachableVia (ItemsOk d) s) : s.Inv c d :=
  h.invariant (I := Inv c d)
    (fun s h0 => by
      obtain ⟨hb, hl, hr⟩ := h0
      refine ⟨by rw [hb]; exact full_init, fun t => by rw [hl]; trivial, by rw [hr]; exact nofun⟩)
    (fun _ _ _ hi hok hs => inv_step hi hok hs)

end Observed

/-- **`describe_objects` reports something between its start and its end**: of the groups that it found counted it
reports every block stored before, and no more blocks than have a slot at the end, however many threads have overshot a
group; with no `add_block` under way at the end these are the blocks stored.  No block has more items than there is
room for. -/
theorem describe_objects_between {s : Observed} (h : (Observed.system c d).ReachableVia (Observed.ItemsOk d) s) :
    ∀ r ∈ s.returned, r.info.blockGroupNum = r.start.groupCount ∧ r.start.stores.length ≤ r.info.blockNum ∧
      r.info.blockNum ≤ slots r.stop r.stop.groupCount ∧
      ((∀ t, r.stop.pc t = .idle) → r.info.blockNum ≤ r.stop.stores.length) ∧
      r.info.itemNum ≤ r.info.blockNum * r.info.blockItemNum := by
  intro r hr
  obtain ⟨hstop, hw⟩ := (Observed.inv_reachable h).returned r hr
  have hhigh : r.info.blockNum ≤ slots r.stop r.stop.groupCount :=
    Nat.le_trans hw.high (slots_mono _ hw.grown.groupCount)
  refine ⟨hw.groups, Nat.le_trans (stores_le_slots hw.full.inv) hw.low, hhigh,
    fun hidle => Nat.le_trans hhigh (slots_le_stores hstop hidle _), ?_⟩
  have hitems := hw.items
  rwa [Nat.zero_mul, Nat.add_zero, ← hw.blockItems] at hitems

/-- Thread 0 has added a block to a group of one; thread 2 overshoots the group, and is there still when thread 1 looks
at it. -/
def overshotRun : List Observed.Label :=
  [Observed.Label.other (.addBlock 0 true)] ++ List.replicate 10 (Observed.Label.other (.go 0 true)) ++
    [Observed.Label.other (.addBlock 2 true)] ++ List.replicate 3 (Observed.Label.other (.go 2 true)) ++
    [Observed.Label.describe 1 3] ++ List.replicate 6 (Observed.Label.go 1 5)

theorem describe_objects_between_overshotRun :
    ∃ s, (Observed.system ⟨1, 3⟩ ⟨8, 4, 240⟩).ReachableVia (Observed.ItemsOk ⟨8, 4, 240⟩) s ∧
      s.returned.map (fun r => (r.info.blockNum, r.info.itemNum, r.info.totalSize)) = [(1, 5, 1920)] ∧
      (s.base.heap 0).blockCount = 2 ∧ ∀ r ∈ s.returned, r.start.stores.length ≤ r.info.blockNum := by
  let S := Observed.system ⟨1, 3⟩ ⟨8, 4, 240⟩
  let start : Observed := ⟨initState, fun _ => .idle, []⟩
  have hrun : (S.run start overshotRun).map (fun s => (s.returned.map (fun r =>
      (r.info.blockNum, r.info.itemNum, r.info.totalSize)), (s.base.heap 0).blockCount)) =
        some ([(1, 5, 1920)], 2) := by decide
  obtain ⟨s, hs, hx⟩ := Option.map_eq_some_iff.1 hrun
  obtain ⟨hinfo, hcount⟩ := Prod.mk.inj hx
  have hok : S.RunOk (Observed.ItemsOk ⟨8, 4, 240⟩) start overshotRun := by decide
  have hreach : S.ReachableVia (Observed.ItemsOk ⟨8, 4, 240⟩) s :=
    System.ReachableVia.run (.init ⟨rfl, rfl, rfl⟩) _ hok hs
  exact ⟨s, hreach, hinfo, hcount, fun r hr => (describe_objects_between hreach r hr).2.1⟩

end PoolBlocks
end ContentionProf
