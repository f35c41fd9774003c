import ContentionProf.Collector
import Mathlib.Data.List.Infix
/-!
# CollectorCounts — the counters of the two threads agree

The grab thread reads `dump_count_` while the dump thread counts: what it reads is at most the count later, so the
samples that are not counted stay below the flag.  The rate control sees every sample of a limit in one round.
-/
namespace ContentionProf
namespace Collector

variable {σ : Type} {c : Config σ} {s s' : State σ} {i : Input σ}

/-! ## What is grabbed is dropped, dumped or pending -/

structure Balance (c : Config σ) (s : State σ) : Prop where
  balance : s.grabCount = s.dropCount + s.dumpCount + s.pending + s.grab.undecided
  accepted : (s.accepted.length : Int) = s.dumpCount + s.pending
  bound : (s.pending : Int) ≤ max 0 (c.maxPendingSamples - 1)
  /-- What line 176 found still holds at line 180: only `dump_count_` can have changed, and it has grown. -/
  insert : ∀ p list it, s.grab = .insert p list it → s.grabCount < s.dropCount + s.dumpCount + c.maxPendingSamples

/-- A step of the grab thread outside lines 174–180. -/
theorem Balance.grab_frame (h : Balance c s) (hgrab : s'.grabCount = s.grabCount) (hdrop : s'.dropCount = s.dropCount)
    (hdump : s'.dumpCount = s.dumpCount) (hpend : s'.pending = s.pending) (hacc : s'.accepted = s.accepted)
    (hund : s'.grab.undecided = s.grab.undecided) (hnot : ∀ p list it, s'.grab ≠ .insert p list it) :
    Balance c s' where
  balance := by rw [hgrab, hdrop, hdump, hpend, hund]; exact h.balance
  accepted := by rw [hacc, hdump, hpend]; exact h.accepted
  bound := by rw [hpend]; exact h.bound
  insert p list it hp := absurd hp (hnot p list it)

theorem Balance.grab (h : Balance c s) (hs : grabStep c s i = some s') : Balance c s' := by
  obtain ⟨hbal, hacc, hbound, hins⟩ := id h
  unfold grabStep at hs
  cases hp : s.grab with rw [hp] at hs hbal hins
  | reset =>
    dsimp only at hs
    split at hs <;> cases hs <;> exact h.grab_frame rfl rfl rfl rfl rfl (by rw [hp]; rfl) nofun
  | preps it =>
    cases it with
    | nil => cases hs; exact h.grab_frame rfl rfl rfl rfl rfl (by rw [hp]; rfl) nofun
    | cons k it =>
      dsimp only at hs
      split at hs <;> cases hs <;> exact h.grab_frame rfl rfl rfl rfl rfl (by rw [hp]; rfl) nofun
  | samples list it =>
    cases list <;> cases hs <;> exact h.grab_frame rfl rfl rfl rfl rfl (by rw [hp]; rfl) nofun
  | count p list it =>
    cases hs
    refine ⟨?_, hacc, hbound, nofun⟩
    simp only [GrabPc.undecided] at hbal ⊢
    simp only [State.pending] at hbal ⊢
    omega
  | compare p list it =>
    dsimp only at hs
    split at hs <;> cases hs
    · exact h.grab_frame rfl rfl rfl rfl rfl (by rw [hp]; rfl) nofun
    · rename_i hlt
      refine ⟨hbal, hacc, hbound, fun q l it' _ => ?_⟩
      dsimp only
      omega
  | drop p list it =>
    cases hs
    refine ⟨?_, hacc, hbound, nofun⟩
    simp only [GrabPc.undecided, State.pending] at hbal ⊢
    omega
  | insert p list it =>
    cases hs
    have hlt := hins p list it rfl
    simp only [GrabPc.undecided, State.pending] at hbal hacc hbound
    refine ⟨?_, ?_, ?_, nofun⟩ <;>
      simp only [GrabPc.undecided, State.pending, List.length_append, List.length_cons, List.length_nil] <;> omega
  | push =>
    cases hs
    refine h.grab_frame rfl rfl rfl ?_ rfl (by rw [hp]; rfl) nofun
    simp only [State.pending, List.length_append, List.length_nil]
    omega
  | interval => cases hs; exact h.grab_frame rfl rfl rfl rfl rfl (by rw [hp]; rfl) nofun
  | limits it us =>
    cases it with
    | nil => cases hs; exact h.grab_frame rfl rfl rfl rfl rfl (by rw [hp]; rfl) nofun
    | cons l it =>
      obtain ⟨r, -, rfl⟩ := Option.map_eq_some_iff.1 hs
      exact h.grab_frame rfl rfl rfl rfl rfl (by rw [hp]; rfl) nofun
  | sleep => cases hs; exact h.grab_frame rfl rfl rfl rfl rfl (by rw [hp]; rfl) nofun

theorem Balance.dump (h : Balance c s) (hs : dumpStep s = some s') : Balance c s' := by
  obtain ⟨hbal, hacc, hbound, hins⟩ := id h
  have hle : s.dumpCount ≤ s'.dumpCount ∧ s'.grab = s.grab ∧ s'.grabCount = s.grabCount ∧
      s'.dropCount = s.dropCount ∧ s'.accepted = s.accepted ∧
      s'.dumpCount + s'.pending = s.dumpCount + s.pending := by
    unfold dumpStep at hs
    cases hp : s.dump with rw [hp] at hs
    | wait =>
      dsimp only at hs
      split at hs
      · cases hs
      · cases hs
        refine ⟨le_rfl, rfl, rfl, rfl, rfl, ?_⟩
        simp only [State.pending, DumpPc.pending, hp, List.length_nil]
        omega
    | ring l =>
      cases l <;> cases hs <;> refine ⟨le_rfl, rfl, rfl, rfl, rfl, ?_⟩ <;>
        simp only [State.pending, DumpPc.pending, hp, List.length_nil, List.length_cons]
    | dump p l =>
      cases hs
      refine ⟨le_rfl, rfl, rfl, rfl, rfl, ?_⟩
      simp only [State.pending, DumpPc.pending, hp]
    | count l =>
      cases hs
      refine ⟨?_, rfl, rfl, rfl, rfl, ?_⟩
      · dsimp only
        omega
      · simp only [State.pending, DumpPc.pending, hp]
        omega
  obtain ⟨hle, hgrab, hgc, hdrop, haccd, hsum⟩ := hle
  refine ⟨?_, ?_, ?_, fun p list it hp => ?_⟩
  · rw [hgrab, hgc, hdrop]; omega
  · rw [haccd]; omega
  · omega
  · have := hins p list it (hgrab ▸ hp)
    rw [hgc, hdrop]
    omega

/-! ## The rate control counts every sample once -/

structure Rate (s : State σ) : Prop where
  sum : (s.grabCountMap.map (fun e => e.2)).sum = BitVec.ofInt 64 (s.grabCount + s.grab.uncounted)
  sumNat : s.grabCount + s.grab.uncounted < 2 ^ 64 →
    ((s.grabCountMap.map (fun e => e.2.toNat)).sum : Nat) = s.grabCount + s.grab.uncounted
  grabs : (grabs s.events : Int) = s.grabCount + s.grab.uncounted
  since : ∀ l, OrderedMap.find 0 s.grabCountMap l - OrderedMap.find 0 s.lastGrabCountMap l =
    BitVec.ofNat 64 (sinceUpdate l s.events)
  rounds : ∀ l r rest, (.updated l r :: rest) <:+ s.events → r = BitVec.ofNat 64 (sinceUpdate l rest)

theorem sinceUpdate_le (l : Limit) : ∀ es, sinceUpdate l es ≤ grabs es
  | [] => le_rfl
  | .grabbed k :: es => by
    have := sinceUpdate_le l es
    unfold sinceUpdate Collector.grabs
    split <;> omega
  | .updated k _ :: es => by
    have := sinceUpdate_le l es
    unfold sinceUpdate Collector.grabs
    split <;> omega

theorem grabs_suffix {es es' : List Event} (h : es <:+ es') : grabs es ≤ grabs es' := by
  obtain ⟨pre, rfl⟩ := h
  induction pre with
  | nil => exact le_rfl
  | cons e pre ih =>
    cases e with
    | grabbed k => exact Nat.le_succ_of_le ih
    | updated k r => exact ih

/-- **`*last_grab_count` is `cur_grab_count` afterwards**, also where the function returns at line 231. -/
theorem updateSpeedLimit_last {flag : Flag} {now : U64} {sl : CollectorSpeedLimit} {last cur us : U64}
    {r : CollectorSpeedLimit × U64} (h : updateSpeedLimit flag now sl last cur us = some r) : r.2 = cur := by
  unfold updateSpeedLimit at h
  dsimp only at h
  split at h
  · rename_i hzero
    cases h
    exact (sub_eq_zero.1 hzero).symm
  · obtain ⟨range, -, rfl⟩ := Option.map_eq_some_iff.1 h
    rfl

theorem Rate.frame (h : Rate s) (hmap : s'.grabCountMap = s.grabCountMap)
    (hlast : s'.lastGrabCountMap = s.lastGrabCountMap)
    (hev : s'.events = s.events) (hcount : s'.grabCount + s'.grab.uncounted = s.grabCount + s.grab.uncounted) :
    Rate s' where
  sum := by rw [hmap, hcount]; exact h.sum
  sumNat := by rw [hmap, hcount]; exact h.sumNat
  grabs := by rw [hev, hcount]; exact h.grabs
  since := by rw [hmap, hlast, hev]; exact h.since
  rounds := by rw [hev]; exact h.rounds

/-- Lines 168–173. -/
theorem Rate.grabbed {p : σ} {list : List σ} {it : List Prep} (h : Rate s) (hp : s.grab = .samples (p :: list) it) :
    Rate { s with
      grabCountMap := OrderedMap.alter 0 (· + 1) s.grabCountMap (c.limitOf p)
      events := .grabbed (c.limitOf p) :: s.events
      grab := .count p list it } := by
  obtain ⟨hsum, hnat, hgrabs, hsince, hrounds⟩ := h
  simp only [hp, GrabPc.uncounted, Nat.cast_zero, add_zero] at hsum hnat hgrabs
  constructor <;> simp only [GrabPc.uncounted, Nat.cast_one]
  case sum =>
    rw [OrderedMap.sum_alter (f := fun x => x + 1) (fun x : U64 => x) rfl _ rfl, hsum, BitVec.ofInt_add]
    rfl
  case sumNat =>
    intro hlt
    have hnat := hnat (by omega)
    have hle : (OrderedMap.find 0 s.grabCountMap (c.limitOf p)).toNat ≤ (s.grabCountMap.map (fun e => e.2.toNat)).sum :=
      OrderedMap.find_le_sum BitVec.toNat rfl s.grabCountMap
    have hstep : (OrderedMap.find 0 s.grabCountMap (c.limitOf p) + 1).toNat =
        (OrderedMap.find 0 s.grabCountMap (c.limitOf p)).toNat + 1 := by
      rw [BitVec.toNat_add]
      exact Nat.mod_eq_of_lt (by
        show _ + 1 < _
        omega)
    have hall : ((OrderedMap.alter 0 (· + 1) s.grabCountMap (c.limitOf p)).map (fun e => e.2.toNat)).sum =
        (s.grabCountMap.map (fun e => e.2.toNat)).sum + 1 := OrderedMap.sum_alter BitVec.toNat rfl _ hstep
    rw [hall]
    omega
  case grabs =>
    show ((Collector.grabs s.events + 1 : Nat) : Int) = s.grabCount + 1
    omega
  case since =>
    intro l
    unfold sinceUpdate
    by_cases hl : c.limitOf p = l
    · rw [if_pos hl, ← hl, OrderedMap.find_alter_self, add_sub_right_comm, hsince, add_comm, BitVec.ofNat_add]
      rfl
    · rw [if_neg hl, OrderedMap.find_alter_of_ne (fun he => hl he.symm), hsince, Nat.zero_add]
  case rounds =>
    intro l r rest hsuf
    rcases List.suffix_cons_iff.1 hsuf with he | hsuf
    · cases he
    · exact hrounds l r rest hsuf

/-- Line 200. -/
theorem Rate.updated {l : Limit} {it : List Limit} {us : U64} {f : Limit → CollectorSpeedLimit} {cur : U64} (h : Rate s)
    (hp : s.grab = .limits (l :: it) us) (hcur : OrderedMap.find 0 s.grabCountMap l = cur) :
    Rate { s with
      limits := f
      lastGrabCountMap := OrderedMap.alter 0 (fun _ => cur) s.lastGrabCountMap l
      events := .updated l (cur - OrderedMap.find 0 s.lastGrabCountMap l) :: s.events
      grab := .limits it us } := by
  obtain ⟨hsum, hnat, hgrabs, hsince, hrounds⟩ := h
  rw [hp] at hsum hnat hgrabs
  refine ⟨hsum, hnat, hgrabs, fun k => ?_, fun k r rest hsuf => ?_⟩
  · dsimp only
    unfold sinceUpdate
    by_cases hk : l = k
    · rw [if_pos hk, ← hk, OrderedMap.find_alter_self, hcur, sub_self]
      rfl
    · rw [if_neg hk, OrderedMap.find_alter_of_ne (fun he => hk he.symm), hsince]
  · rcases List.suffix_cons_iff.1 hsuf with he | hsuf
    · cases he
      rw [← hcur]
      exact hsince l
    · exact hrounds k r rest hsuf

theorem Rate.grab (h : Rate s) (hs : grabStep c s i = some s') : Rate s' := by
  unfold grabStep at hs
  cases hp : s.grab with rw [hp] at hs
  | reset =>
    dsimp only at hs
    split at hs <;> cases hs <;> exact h.frame rfl rfl rfl (by rw [hp]; rfl)
  | preps it =>
    cases it with
    | nil => cases hs; exact h.frame rfl rfl rfl (by rw [hp]; rfl)
    | cons k it =>
      dsimp only at hs
      split at hs <;> cases hs <;> exact h.frame rfl rfl rfl (by rw [hp]; rfl)
  | samples list it =>
    cases list with
    | nil => cases hs; exact h.frame rfl rfl rfl (by rw [hp]; rfl)
    | cons p list => cases hs; exact h.grabbed hp
  | count p list it =>
    cases hs
    refine h.frame rfl rfl rfl ?_
    simp [hp, GrabPc.uncounted]
  | compare p list it =>
    dsimp only at hs
    cases hs
    refine h.frame rfl rfl rfl ?_
    rw [hp]
    dsimp only
    split <;> rfl
  | limits it us =>
    cases it with
    | nil => cases hs; exact h.frame rfl rfl rfl (by rw [hp]; rfl)
    | cons l it =>
      obtain ⟨r, hr, rfl⟩ := Option.map_eq_some_iff.1 hs
      rw [updateSpeedLimit_last hr]
      exact h.updated hp rfl
  | _ => cases hs; exact h.frame rfl rfl rfl (by rw [hp]; rfl)

theorem Rate.dump (h : Rate s) (hs : dumpStep s = some s') : Rate s' := by
  unfold dumpStep at hs
  cases hp : s.dump with rw [hp] at hs
  | wait =>
    dsimp only at hs
    split at hs <;> cases hs
    exact h.frame rfl rfl rfl rfl
  | ring l => cases l <;> cases hs <;> exact h.frame rfl rfl rfl rfl
  | dump p l => cases hs; exact h.frame rfl rfl rfl rfl
  | count l => cases hs; exact h.frame rfl rfl rfl rfl

/-! ## Every run -/

structure Inv (c : Config σ) (s : State σ) : Prop where
  balance : Balance c s
  rate : Rate s

theorem inv_init {startUs : U64} : Inv c (initState σ startUs) := by
  refine ⟨⟨rfl, rfl, le_max_left .., nofun⟩, ⟨rfl, fun _ => rfl, rfl, fun _ => sub_self _, fun l r rest hsuf => ?_⟩⟩
  exact absurd (List.suffix_nil.1 hsuf) nofun

theorem inv_step {l : Label σ} (h : Inv c s) (hs : step c s l = some s') : Inv c s' := by
  cases l with
  | grab i => exact ⟨h.balance.grab hs, h.rate.grab hs⟩
  | dump => exact ⟨h.balance.dump hs, h.rate.dump hs⟩
  | collectable l us =>
    cases hs
    obtain ⟨⟨hbal, hacc, hbound, hins⟩, hrate⟩ := h
    exact ⟨⟨hbal, hacc, hbound, hins⟩, hrate.frame rfl rfl rfl rfl⟩

theorem Reachable.inv (h : (system c).Reachable s) : Inv c s :=
  h.invariant (I := Inv c) (fun s h0 => by obtain ⟨startUs, rfl⟩ := h0; exact inv_init)
    (fun _ _ _ hi _ hs => inv_step hi hs)

/-- The counters of the collector, in one state. -/
structure Counted (c : Config σ) (s : State σ) : Prop where
  /-- What is pending is what was accepted and not yet counted as dumped. -/
  pending : (s.accepted.length : Int) = s.dumpCount + s.pending
  balance : s.grab.BetweenSamples → s.grabCount = s.dropCount + s.dumpCount + s.pending
  bound : s.grab.BetweenSamples → (s.pending : Int) ≤ max 0 (c.maxPendingSamples - 1)
  sum : s.grab.BetweenSamples → (s.grabCountMap.map Prod.snd).sum = BitVec.ofInt 64 s.grabCount
  sumNat : s.grab.BetweenSamples → s.grabCount < 2 ^ 63 →
    ((s.grabCountMap.map (fun e => e.2.toNat)).sum : Nat) = s.grabCount
  rounds : ∀ l round rest, (.updated l round :: rest) <:+ s.events → round = BitVec.ofNat 64 (sinceUpdate l rest)
  roundsNat : s.grabCount < 2 ^ 63 → ∀ l round rest, (.updated l round :: rest) <:+ s.events →
    round.toNat = sinceUpdate l rest

/-- **No sample is lost to the counters**: whatever the batches, the preprocessors, the limits and the flag, and however
far the dump thread is, what was grabbed was dropped, dumped or is pending, what is pending stays below the flag, and
`update_speed_limit` counts the samples of a limit since its last update. -/
theorem counts_agree (h : (system c).Reachable s) : Counted c s := by
  obtain ⟨⟨hbal, hacc, hbound, -⟩, hsum, hnat, hgrabs, -, hrounds⟩ := Reachable.inv h
  refine ⟨hacc, fun hb => ?_, fun _ => hbound, fun hb => ?_, fun hb hlt => ?_, hrounds, fun hlt l round rest hsuf => ?_⟩
  · rw [hbal, hb.2, Nat.cast_zero, add_zero]
  · rw [hb.1, Nat.cast_zero, add_zero] at hsum
    exact hsum
  · rw [hb.1, Nat.cast_zero, add_zero] at hnat
    exact hnat (by omega)
  · have hle := sinceUpdate_le l rest
    have hrest : rest <:+ s.events := (List.suffix_cons _ rest).trans hsuf
    have hall := grabs_suffix hrest
    have hone : s.grab.uncounted ≤ 1 := by
      unfold GrabPc.uncounted
      split <;> omega
    rw [hrounds l round rest hsuf, BitVec.toNat_ofNat]
    exact Nat.mod_eq_of_lt (by omega)

/-- Every sample is its own limit and its own preprocessor, and one may be pending. -/
def oneConfig : Config Nat := ⟨2, 1000, some, id⟩

/-- Three samples in one round: the first is accepted and dumped, the others are dropped. -/
def backlogRun : List (Label Nat) :=
  List.replicate 28 (.grab ⟨[3, 1, 2], id, 5, 9⟩) ++ List.replicate 4 .dump

theorem counts_agree_backlogRun : ∃ s, (system oneConfig).run (initState Nat 4) backlogRun = some s ∧
    s.grabCount = 3 ∧ s.dropCount = 2 ∧ s.dumpCount = 1 ∧ Counted oneConfig s := by
  have hrun : ((system oneConfig).run (initState Nat 4) backlogRun).map
      (fun s => (s.grabCount, s.dropCount, s.dumpCount)) = some (3, 2, 1) := by decide
  obtain ⟨s, hs, hx⟩ := Option.map_eq_some_iff.1 hrun
  obtain ⟨hgrab, hx⟩ := Prod.mk.inj hx
  obtain ⟨hdrop, hdump⟩ := Prod.mk.inj hx
  have hreach : (system oneConfig).Reachable s := System.Reachable.run (.init ⟨4, rfl⟩) _ hs
  exact ⟨s, hs, hgrab, hdrop, hdump, counts_agree hreach⟩

end Collector
end ContentionProf
