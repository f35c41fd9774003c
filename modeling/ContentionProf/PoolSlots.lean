import ContentionProf.PoolBlocks
/-!
# PoolSlots — every slot is handed out once

While a `fetch_add` beyond the end of a group is under way all slots of the group are taken, so what `fetch_sub` gives
back is never a slot.
-/
namespace ContentionProf
namespace PoolBlocks

variable {c : Config} {s s' : State} {t u : Thread}

/-! ## One group -/

namespace BlockGroup

variable {g : BlockGroup}

theorem ok_new : BlockGroup.new.Ok c := ⟨rfl, Nat.zero_le _, fun h => absurd rfl h, List.nodup_nil,
    fun _ h => absurd rfl h⟩

theorem Ok.next (h : g.Ok c) (hlt : g.blockCount < c.groupBlockCount) :
    g.overshooters = [] ∧ g.blockCount = g.reserved := by
  have hover : g.overshooters = [] := by
    by_contra hne
    have := h.full hne
    have := h.count
    omega
  exact ⟨hover, by rw [h.count, hover]; rfl⟩

theorem Ok.reserve (h : g.Ok c) (hlt : g.blockCount < c.groupBlockCount) : g.reserve.Ok c := by
  obtain ⟨hover, hcount⟩ := h.next hlt
  refine ⟨?_, ?_, fun hne => absurd hover hne, h.nodup, fun i hi => Nat.lt_succ_of_lt (h.taken i hi)⟩
  · show g.blockCount + 1 = g.reserved + 1 + g.overshooters.length
    rw [hcount, hover]
    rfl
  · show g.reserved + 1 ≤ _
    omega

theorem Ok.overshoot (h : g.Ok c) (hge : ¬ g.blockCount < c.groupBlockCount) (ht : t ∉ g.overshooters) :
    (g.overshoot t).Ok c := by
  have hcount := h.count
  refine ⟨?_, h.reserved_le, fun _ => ?_, List.nodup_cons.2 ⟨ht, h.nodup⟩, h.taken⟩
  · show g.blockCount + 1 = g.reserved + (t :: g.overshooters).length
    rw [List.length_cons]
    omega
  · show g.reserved = _
    by_cases hover : g.overshooters = []
    · have := h.reserved_le
      rw [hover, List.length_nil] at hcount
      omega
    · exact h.full hover

theorem Ok.giveBack (h : g.Ok c) (ht : t ∈ g.overshooters) : (g.giveBack t).Ok c := by
  have hcount := h.count
  have hpos := List.length_pos_of_mem ht
  refine ⟨?_, h.reserved_le, fun _ => h.full (List.ne_nil_of_mem ht), h.nodup.erase t, h.taken⟩
  show g.blockCount - 1 = g.reserved + (g.overshooters.erase t).length
  rw [List.length_erase_of_mem ht]
  omega

theorem Ok.fill {i : Nat} {b : Block} (h : g.Ok c) (hi : i < g.reserved) : (g.fill i b).Ok c := by
  refine ⟨h.count, h.reserved_le, h.full, h.nodup, fun j hj => ?_⟩
  by_cases hji : j = i
  · rw [hji]; exact hi
  · have hj : Function.update g.blocks i (some b) j ≠ none := hj
    rw [Function.update_of_ne hji] at hj
    exact h.taken j hj

end BlockGroup

/-! ## Steps that leave the groups as they are -/

@[simp] theorem setPc_pc_self (s : State) (t : Thread) (p : Pc) : (s.setPc t p).pc t = p := Function.update_self ..

theorem setPc_pc_of_ne {p : Pc} (hu : u ≠ t) : (s.setPc t p).pc u = s.pc u := Function.update_of_ne hu ..

theorem pending_of_owner (h : s.owner = some t) : pending s = (s.pc t).pending := by unfold pending; rw [h]

theorem pending_congr (hpc : ∀ u, u ≠ t → s'.pc u = s.pc u)
    (ho : ∀ u, u ≠ t → (s'.owner = some u ↔ s.owner = some u)) (hp : (s.pc t).pending = 0)
    (hp' : (s'.pc t).pending = 0) : pending s' = pending s := by
  by_cases hex : ∃ u, u ≠ t ∧ s.owner = some u
  · obtain ⟨u, hut, hu⟩ := hex
    rw [pending_of_owner ((ho u hut).2 hu), pending_of_owner hu, hpc u hut]
  · have zero : ∀ {s : State}, (s.pc t).pending = 0 → (∀ u, u ≠ t → s.owner ≠ some u) → pending s = 0 := by
      intro s hp hno
      unfold pending
      split
      · rename_i u hu
        by_cases hut : u = t
        · rw [hut, hp]
        · exact absurd hu (hno u hut)
      · rfl
    have hno : ∀ u, u ≠ t → s.owner ≠ some u := fun u hut hu => hex ⟨u, hut, hu⟩
    rw [zero hp hno, zero hp' (fun u hut hu => hno u hut ((ho u hut).1 hu))]

/-- What a place in the code says stays true while the groups counted stay. -/
theorem PcOk.of_eq {p : Pc} (h : PcOk c s p) (hgc : s'.groupCount = s.groupCount)
    (hbg : s'.blockGroups = s.blockGroups) : PcOk c s' p := by
  cases p <;> simp only [PcOk] at h ⊢ <;> first | (rw [hgc]; exact h) | (rw [hgc, hbg]; exact h)

theorem group_lt {n : Nat} {g : GroupPtr} (h1 : 1 ≤ n) (hn : n ≤ s.groupCount) (hg : g = n - 1) : g < s.groupCount := by
  subst hg
  exact Nat.lt_of_lt_of_le (Nat.sub_lt h1 Nat.one_pos) hn

/-- A step that moves one thread past a test, or in or out of the critical section. -/
theorem Inv.quiet (h : Inv c s) (hpc : ∀ u, u ≠ t → s'.pc u = s.pc u)
    (ho : ∀ u, u ≠ t → (s'.owner = some u ↔ s.owner = some u)) (hself : s'.owner = some t ↔ (s'.pc t).holds = true)
    (hgc : s'.groupCount = s.groupCount) (hbg : s'.blockGroups = s.blockGroups) (hheap : s'.heap = s.heap)
    (hcr : s'.created = s.created) (hadd : s'.added = s.added) (hst : s'.stores = s.stores)
    (hp : (s.pc t).pending = 0) (hp' : (s'.pc t).pending = 0) (hover : (s.pc t).overshot = (s'.pc t).overshot)
    (hslot : (s'.pc t).slot = (s.pc t).slot) (hok : PcOk c s (s'.pc t)) : Inv c s' := by
  have hovershot : ∀ u, (s'.pc u).overshot = (s.pc u).overshot := fun u => by
    by_cases hut : u = t
    · rw [hut, hover]
    · rw [hpc u hut]
  have hslots : ∀ u, (s'.pc u).slot = (s.pc u).slot := fun u => by
    by_cases hut : u = t
    · rw [hut, hslot]
    · rw [hpc u hut]
  refine ⟨fun u => ?_, hgc ▸ h.bound, ?_, ?_, ?_, hheap ▸ h.group, fun g u => ?_, fun u g i hu => ?_,
    fun u v g i hu hv => ?_, hst ▸ h.storesNodup, ?_, ?_, hadd ▸ h.addedNodup, fun u => ?_⟩
  · by_cases hut : u = t
    · rw [hut]; exact hself
    · rw [ho u hut, hpc u hut]; exact h.owner u
  · rw [hcr, hgc, pending_congr hpc ho hp hp']; exact h.created
  · rw [hgc, hbg]; exact h.groups
  · rw [hgc, hheap]; exact h.fresh
  · rw [hheap, hovershot]; exact h.overshooters g u
  · rw [hheap]; exact h.slot u g i (hslots u ▸ hu)
  · exact h.slotOne u v g i (hslots u ▸ hu) (hslots v ▸ hv)
  · rw [hst, hheap]; exact h.stores
  · rw [hadd, hgc, hheap]; exact h.added
  · by_cases hut : u = t
    · rw [hut]; exact hok.of_eq hgc hbg
    · rw [hpc u hut]; exact (h.pc u).of_eq hgc hbg

theorem Inv.move {p p' : Pc} (h : Inv c s) (hp : s.pc t = p) (hholds : p'.holds = p.holds) (hp0 : p.pending = 0)
    (hp0' : p'.pending = 0) (hover : p.overshot = p'.overshot) (hslot : p'.slot = p.slot) (hok : PcOk c s p') :
    Inv c (s.setPc t p') := by
  subst hp
  refine h.quiet (t := t) (fun u hu => setPc_pc_of_ne hu) (fun _ _ => .rfl) ?_ rfl rfl rfl rfl rfl rfl hp0 ?_ ?_ ?_ ?_
  · rw [setPc_pc_self, hholds]; exact h.owner t
  · rw [setPc_pc_self]; exact hp0'
  · rw [setPc_pc_self]; exact hover
  · rw [setPc_pc_self]; exact hslot
  · rw [setPc_pc_self]; exact hok

/-- A step out of the critical section, with `block_group_mutex_` unlocked or left behind. -/
theorem Inv.leave {p p' : Pc} {left : Bool} (h : Inv c s) (hp : s.pc t = p) (hown : s.owner = some t)
    (hp0 : p.pending = 0) (hover : p.overshot = none) (hslot : p.slot = none) (hholds : p'.holds = false)
    (hp0' : p'.pending = 0) (hover' : p'.overshot = none) (hslot' : p'.slot = none) (hok : PcOk c s p') :
    Inv c ({ s with owner := none, abandoned := left }.setPc t p') := by
  refine h.quiet (t := t) (fun u hu => setPc_pc_of_ne hu) (fun u hu => ?_) ?_ rfl rfl rfl rfl rfl rfl ?_ ?_ ?_ ?_ ?_
  · rw [hown]
    exact iff_of_false nofun (fun he => hu (Option.some.inj he).symm)
  · rw [setPc_pc_self, hholds]; exact iff_of_false nofun nofun
  · rw [hp]; exact hp0
  · rw [setPc_pc_self]; exact hp0'
  · rw [setPc_pc_self, hp, hover, hover']
  · rw [setPc_pc_self, hp, hslot, hslot']
  · rw [setPc_pc_self]; exact hok

/-! ## Steps of one group -/

/-- A step that changes one counted group and moves the thread. -/
theorem Inv.onGroup {g : GroupPtr} {bg : BlockGroup} {p p' : Pc} (h : Inv c s) (hp : s.pc t = p)
    (hg : g < s.groupCount) (hholds : p'.holds = p.holds) (hp0 : p.pending = 0) (hp0' : p'.pending = 0)
    (hbg : bg.Ok c) (hbgBlocks : bg.blocks = (s.heap g).blocks) (hres : (s.heap g).reserved ≤ bg.reserved)
    (hover : ∀ u, u ≠ t → (u ∈ bg.overshooters ↔ u ∈ (s.heap g).overshooters))
    (hoverSelf : t ∈ bg.overshooters ↔ p'.overshot = some g)
    (hoverOther : ∀ k, k ≠ g → (p'.overshot = some k ↔ p.overshot = some k))
    (hslot : ∀ k i, p'.slot = some (k, i) → k = g ∧ i < bg.reserved ∧ (s.heap g).blocks i = none ∧
      ∀ u, u ≠ t → (s.pc u).slot ≠ some (g, i))
    (hok : PcOk c s p') : Inv c ((s.setGroup g bg).setPc t p') := by
  subst hp
  have hheap : ∀ k, k ≠ g → ((s.setGroup g bg).setPc t p').heap k = s.heap k := fun k hk => Function.update_of_ne hk ..
  have hheapSelf : ((s.setGroup g bg).setPc t p').heap g = bg := Function.update_self ..
  have hpc : ∀ u, u ≠ t → ((s.setGroup g bg).setPc t p').pc u = s.pc u := fun u hu => Function.update_of_ne hu ..
  have hself : ((s.setGroup g bg).setPc t p').pc t = p' := Function.update_self ..
  have hblocks : ∀ k, (((s.setGroup g bg).setPc t p').heap k).blocks = (s.heap k).blocks := fun k => by
    by_cases hk : k = g
    · subst hk; rw [hheapSelf, hbgBlocks]
    · rw [hheap k hk]
  have hreserved : ∀ k, (s.heap k).reserved ≤ (((s.setGroup g bg).setPc t p').heap k).reserved := fun k => by
    by_cases hk : k = g
    · subst hk; rw [hheapSelf]; exact hres
    · rw [hheap k hk]
  refine ⟨fun u => ?_, h.bound, ?_, h.groups, fun k hk => ?_, fun k => ?_, fun k u => ?_, fun u k i hu => ?_,
    fun u v k i hu hv => ?_, h.storesNodup, fun k i => ?_, fun a ha => ?_, h.addedNodup, fun u => ?_⟩
  · by_cases hut : u = t
    · subst hut; rw [hself, hholds]; exact h.owner u
    · rw [hpc u hut]; exact h.owner u
  · rw [pending_congr (s := s) hpc (fun _ _ => .rfl) hp0 (by rw [hself]; exact hp0')]; exact h.created
  · rw [hheap k (fun he => by rw [he] at hk; exact absurd hg (Nat.not_lt.2 hk))]; exact h.fresh k hk
  · by_cases hk : k = g
    · subst hk; rw [hheapSelf]; exact hbg
    · rw [hheap k hk]; exact h.group k
  · by_cases hut : u = t
    · subst hut
      rw [hself]
      by_cases hk : k = g
      · subst hk; rw [hheapSelf]; exact hoverSelf
      · rw [hheap k hk, hoverOther k hk]; exact h.overshooters k u
    · rw [hpc u hut]
      by_cases hk : k = g
      · subst hk; rw [hheapSelf, hover u hut]; exact h.overshooters k u
      · rw [hheap k hk]; exact h.overshooters k u
  · by_cases hut : u = t
    · subst hut
      rw [hself] at hu
      obtain ⟨rfl, hi, hnone, -⟩ := hslot k i hu
      rw [hheapSelf, hbgBlocks]
      exact ⟨hi, hnone⟩
    · rw [hpc u hut] at hu
      obtain ⟨hi, hnone⟩ := h.slot u k i hu
      exact ⟨Nat.lt_of_lt_of_le hi (hreserved k), by rw [hblocks]; exact hnone⟩
  · by_cases hut : u = t
    · by_cases hvt : v = t
      · rw [hut, hvt]
      · rw [hut, hself] at hu
        rw [hpc v hvt] at hv
        obtain ⟨rfl, -, -, hno⟩ := hslot k i hu
        exact absurd hv (hno v hvt)
    · by_cases hvt : v = t
      · rw [hvt, hself] at hv
        rw [hpc u hut] at hu
        obtain ⟨rfl, -, -, hno⟩ := hslot k i hv
        exact absurd hu (hno u hut)
      · rw [hpc u hut] at hu
        rw [hpc v hvt] at hv
        exact h.slotOne u v k i hu hv
  · rw [hblocks]; exact h.stores k i
  · rw [hblocks]; exact h.added a ha
  · by_cases hut : u = t
    · rw [hut, hself]; exact hok.of_eq rfl rfl
    · rw [hpc u hut]; exact (h.pc u).of_eq rfl rfl

/-- **Line 314**: a slot below the end is nobody else's, and one beyond it is given back later. -/
theorem Inv.fetchAdd {b : Block} {n : Nat} {g : GroupPtr} (h : Inv c s) (hp : s.pc t = .fetchAdd b n g) :
    Inv c (if (s.heap g).blockCount < c.groupBlockCount then
      (s.setGroup g (s.heap g).reserve).setPc t (.store b n g (s.heap g).blockCount)
    else (s.setGroup g ((s.heap g).overshoot t)).setPc t (.fetchSub b n g)) := by
  have hi := h.pc t
  rw [hp] at hi
  obtain ⟨h1, hn, hg⟩ := hi
  have hgc := group_lt h1 hn hg
  have hnot : t ∉ (s.heap g).overshooters := fun ht => by
    have := (h.overshooters g t).1 ht
    rw [hp] at this
    cases this
  split
  · rename_i hlt
    obtain ⟨hover, hcount⟩ := (h.group g).next hlt
    refine h.onGroup hp hgc rfl rfl rfl ((h.group g).reserve hlt) rfl (Nat.le_succ _) (fun _ _ => .rfl) ?_
      (fun _ _ => .rfl) (fun k i hk => ?_) ⟨h1, hn, hg, hlt⟩
    · exact iff_of_false hnot nofun
    · obtain ⟨rfl, rfl⟩ := Prod.mk.inj (Option.some.inj hk)
      refine ⟨rfl, ?_, ?_, fun u _ hu => ?_⟩
      · show (s.heap g).blockCount < (s.heap g).reserved + 1
        omega
      · by_contra hne
        have := (h.group g).taken _ hne
        omega
      · have := (h.slot u _ _ hu).1
        omega
  · rename_i hge
    refine h.onGroup hp hgc rfl rfl rfl ((h.group g).overshoot hge hnot) rfl le_rfl (fun u hu => ?_) ?_
      (fun k hk => ?_) (fun k i hk => (nomatch hk)) ⟨h1, hn, hg⟩
    · exact List.mem_cons.trans (or_iff_right hu)
    · exact iff_of_true List.mem_cons_self rfl
    · exact iff_of_false (fun he => hk (Option.some.inj he).symm) nofun

/-- **Line 320**: what is given back was no slot. -/
theorem Inv.fetchSub {b : Block} {n : Nat} {g : GroupPtr} (h : Inv c s) (hp : s.pc t = .fetchSub b n g) :
    Inv c ((s.setGroup g ((s.heap g).giveBack t)).setPc t (.groupLock b n)) := by
  have hi := h.pc t
  rw [hp] at hi
  obtain ⟨h1, hn, hg⟩ := hi
  have hin : t ∈ (s.heap g).overshooters := (h.overshooters g t).2 (by rw [hp]; rfl)
  refine h.onGroup hp (group_lt h1 hn hg) rfl rfl rfl ((h.group g).giveBack hin) rfl le_rfl (fun u hu => ?_) ?_
    (fun k hk => ?_) (fun k i hk => (nomatch hk)) trivial
  · exact List.mem_erase_of_ne hu
  · exact iff_of_false (h.group g).nodup.not_mem_erase nofun
  · exact iff_of_false nofun (fun he => hk (Option.some.inj he).symm)

/-- **Lines 316–318**: the slot was empty, and nobody else is about to fill it. -/
theorem Inv.store {b : Block} {n i : Nat} {g : GroupPtr} (h : Inv c s) (hp : s.pc t = .store b n g i) :
    Inv c ({ s.setGroup g ((s.heap g).fill i b) with
      added := ⟨(n - 1) * c.groupBlockCount + i, b⟩ :: s.added
      stores := (g, i) :: s.stores }.setPc t .idle) := by
  have hi := h.pc t
  rw [hp] at hi
  obtain ⟨h1, hn, hg, hilt⟩ := hi
  have hgc := group_lt h1 hn hg
  have hmine : (s.pc t).slot = some (g, i) := by rw [hp]; rfl
  obtain ⟨hres, hnone⟩ := h.slot t g i hmine
  have hpos : 0 < c.groupBlockCount := Nat.zero_lt_of_lt hilt
  -- the index names the slot
  have hdiv : ((n - 1) * c.groupBlockCount + i) / c.groupBlockCount = g := by
    rw [Nat.mul_comm, Nat.mul_add_div hpos, Nat.div_eq_of_lt hilt, hg, Nat.add_zero]
  have hmod : ((n - 1) * c.groupBlockCount + i) % c.groupBlockCount = i := by
    rw [Nat.mul_comm, Nat.mul_add_mod, Nat.mod_eq_of_lt hilt]
  have hbelow : (n - 1) * c.groupBlockCount + i < s.groupCount * c.groupBlockCount :=
    calc (n - 1) * c.groupBlockCount + i < (n - 1) * c.groupBlockCount + c.groupBlockCount :=
          Nat.add_lt_add_left hilt _
      _ = (n - 1 + 1) * c.groupBlockCount := (Nat.succ_mul ..).symm
      _ ≤ s.groupCount * c.groupBlockCount := Nat.mul_le_mul_right _ (by omega)
  have hold : ∀ a ∈ s.added, ¬ (a.index / c.groupBlockCount = g ∧ a.index % c.groupBlockCount = i) := by
    rintro a ha ⟨hd, hm⟩
    have := (h.added a ha).2
    rw [hd, hm, hnone] at this
    cases this
  generalize hs' : { s.setGroup g ((s.heap g).fill i b) with
    added := ⟨(n - 1) * c.groupBlockCount + i, b⟩ :: s.added
    stores := (g, i) :: s.stores }.setPc t .idle = s'
  have hheap : ∀ k, k ≠ g → s'.heap k = s.heap k := fun k hk => by subst hs'; exact Function.update_of_ne hk ..
  have hheapSelf : s'.heap g = (s.heap g).fill i b := by subst hs'; exact Function.update_self ..
  have hpc : ∀ u, u ≠ t → s'.pc u = s.pc u := fun u hu => by subst hs'; exact Function.update_of_ne hu ..
  have hself : s'.pc t = .idle := by subst hs'; exact Function.update_self ..
  have hblocks : ∀ k j, ¬ (k = g ∧ j = i) → (s'.heap k).blocks j = (s.heap k).blocks j := fun k j hkj => by
    by_cases hk : k = g
    · subst hk
      rw [hheapSelf]
      exact Function.update_of_ne (fun hj => hkj ⟨rfl, hj⟩) ..
    · rw [hheap k hk]
  have hblock : (s'.heap g).blocks i = some b := by rw [hheapSelf]; exact Function.update_self ..
  have hreserved : ∀ k, (s'.heap k).reserved = (s.heap k).reserved := fun k => by
    by_cases hk : k = g
    · subst hk; rw [hheapSelf]; rfl
    · rw [hheap k hk]
  have howner : s'.owner = s.owner := by subst hs'; rfl
  have hcount : s'.groupCount = s.groupCount := by subst hs'; rfl
  have hgroups : s'.blockGroups = s.blockGroups := by subst hs'; rfl
  have hcreated : s'.created = s.created := by subst hs'; rfl
  have hadded : s'.added = ⟨(n - 1) * c.groupBlockCount + i, b⟩ :: s.added := by subst hs'; rfl
  have hstores : s'.stores = (g, i) :: s.stores := by subst hs'; rfl
  constructor
  case owner =>
    intro u
    rw [howner]
    by_cases hut : u = t
    · rw [hut, hself, h.owner t, hp]; exact Iff.rfl
    · rw [hpc u hut]; exact h.owner u
  case bound => rw [hcount]; exact h.bound
  case created =>
    rw [hcreated, hcount, pending_congr hpc (fun _ _ => by rw [howner]) (by rw [hp]; rfl) (by rw [hself]; rfl)]
    exact h.created
  case groups => rw [hcount, hgroups]; exact h.groups
  case fresh =>
    intro k hk
    rw [hcount] at hk
    rw [hheap k (fun he => by rw [he] at hk; exact absurd hgc (Nat.not_lt.2 hk))]
    exact h.fresh k hk
  case group =>
    intro k
    by_cases hk : k = g
    · subst hk; rw [hheapSelf]; exact (h.group k).fill hres
    · rw [hheap k hk]; exact h.group k
  case overshooters =>
    intro k u
    have hsame : (s'.heap k).overshooters = (s.heap k).overshooters := by
      by_cases hk : k = g
      · subst hk; rw [hheapSelf]; rfl
      · rw [hheap k hk]
    rw [hsame, h.overshooters k u]
    by_cases hut : u = t
    · rw [hut, hself, hp]; exact iff_of_false nofun nofun
    · rw [hpc u hut]
  case slot =>
    intro u k j hu
    by_cases hut : u = t
    · rw [hut, hself] at hu; cases hu
    · rw [hpc u hut] at hu
      obtain ⟨hj, hjnone⟩ := h.slot u k j hu
      refine ⟨hreserved k ▸ hj, ?_⟩
      rw [hblocks k j (fun ⟨hk, hji⟩ => ?_)]
      · exact hjnone
      · subst hk hji
        exact hut (h.slotOne u t _ _ hu hmine)
  case slotOne =>
    intro u v k j hu hv
    by_cases hut : u = t
    · rw [hut, hself] at hu; cases hu
    by_cases hvt : v = t
    · rw [hvt, hself] at hv; cases hv
    · rw [hpc u hut] at hu
      rw [hpc v hvt] at hv
      exact h.slotOne u v k j hu hv
  case storesNodup =>
    rw [hstores]
    exact List.nodup_cons.2 ⟨fun hm => (h.stores g i).1 hm hnone, h.storesNodup⟩
  case stores =>
    intro k j
    rw [hstores, List.mem_cons]
    by_cases hkj : k = g ∧ j = i
    · obtain ⟨rfl, rfl⟩ := hkj
      exact iff_of_true (.inl rfl) (by rw [hblock]; exact nofun)
    · rw [hblocks k j hkj, h.stores k j]
      exact or_iff_right (fun he => hkj (Prod.mk.inj he))
  case added =>
    intro a ha
    rw [hadded] at ha
    rw [hcount]
    rcases List.mem_cons.1 ha with rfl | ha
    · refine ⟨hbelow, ?_⟩
      rw [hdiv, hmod]
      exact hblock
    · rw [hblocks _ _ (hold a ha)]
      exact h.added a ha
  case addedNodup =>
    rw [hadded, List.map_cons, List.nodup_cons]
    refine ⟨fun hm => ?_, h.addedNodup⟩
    obtain ⟨a, ha, hidx⟩ := List.mem_map.1 hm
    exact hold a ha ⟨by rw [hidx]; exact hdiv, by rw [hidx]; exact hmod⟩
  case pc =>
    intro u
    by_cases hut : u = t
    · rw [hut, hself]; trivial
    · rw [hpc u hut]; exact (h.pc u).of_eq hcount hgroups

/-! ## Steps of the critical section -/

/-- The owner of the mutex is the only thread whose place depends on the groups not yet counted. -/
theorem PcOk.of_not_holds {p : Pc} (h : PcOk c s p) (hh : p.holds = false) (hgc : s.groupCount ≤ s'.groupCount) :
    PcOk c s' p := by
  cases p <;> simp only [PcOk] at h ⊢ <;> first | (cases hh; done) | (exact ⟨h.1, h.2.1.trans hgc, h.2.2⟩) |
    (exact ⟨h.1, h.2.trans hgc⟩)

/-- A step of the owner of the mutex on the array of groups. -/
theorem Inv.critical {p p' : Pc} (h : Inv c s) (hp : s.pc t = p) (hheld : p.holds = true) (hholds : p'.holds = true)
    (hpc : ∀ u, u ≠ t → s'.pc u = s.pc u) (hself : s'.pc t = p') (howner : s'.owner = s.owner)
    (hheap : s'.heap = s.heap) (hadd : s'.added = s.added) (hst : s'.stores = s.stores)
    (hle : s.groupCount ≤ s'.groupCount) (hbound : s'.groupCount ≤ c.maxBlockGroupCount)
    (hcreated : s'.created = s'.groupCount + p'.pending) (hgroups : ∀ i, i < s'.groupCount → s'.blockGroups i = some i)
    (hslot : p.slot = none ∧ p'.slot = none) (hover : p.overshot = none ∧ p'.overshot = none)
    (hok : PcOk c s' p') : Inv c s' := by
  subst hp
  have hown : s.owner = some t := (h.owner t).2 hheld
  have hslots : ∀ u, (s'.pc u).slot = (s.pc u).slot := fun u => by
    by_cases hut : u = t
    · rw [hut, hself, hslot.1, hslot.2]
    · rw [hpc u hut]
  have hovershot : ∀ u, (s'.pc u).overshot = (s.pc u).overshot := fun u => by
    by_cases hut : u = t
    · rw [hut, hself, hover.1, hover.2]
    · rw [hpc u hut]
  refine ⟨fun u => ?_, hbound, ?_, hgroups, fun k hk => ?_, hheap ▸ h.group, fun k u => ?_, fun u k i hu => ?_,
    fun u v k i hu hv => ?_, hst ▸ h.storesNodup, ?_, fun a ha => ?_, hadd ▸ h.addedNodup, fun u => ?_⟩
  · by_cases hut : u = t
    · rw [hut, hself, howner, hown]; exact iff_of_true rfl hholds
    · rw [hpc u hut, howner]; exact h.owner u
  · rw [hcreated, pending_of_owner (howner.trans hown), hself]
  · rw [hheap]; exact h.fresh k (hle.trans hk)
  · rw [hheap, hovershot]; exact h.overshooters k u
  · rw [hheap]; exact h.slot u k i (hslots u ▸ hu)
  · exact h.slotOne u v k i (hslots u ▸ hu) (hslots v ▸ hv)
  · rw [hst, hheap]; exact h.stores
  · rw [hadd] at ha
    rw [hheap]
    exact ⟨Nat.lt_of_lt_of_le (h.added a ha).1 (Nat.mul_le_mul_right _ hle), (h.added a ha).2⟩
  · by_cases hut : u = t
    · rw [hut, hself]; exact hok
    · rw [hpc u hut]
      refine (h.pc u).of_not_holds ?_ hle
      rw [Bool.eq_false_iff]
      intro hh
      have := (h.owner u).2 hh
      rw [hown] at this
      exact hut (Option.some.inj this).symm

/-- **Every step keeps every slot with one block.** -/
theorem Inv.advance {alloc : Bool} (h : Inv c s) (hs : advance c s t alloc = some s') : Inv c s' := by
  have hi := h.pc t
  have ho := h.owner t
  cases hp : s.pc t <;> rw [hp] at hi ho <;> simp only [PoolBlocks.advance, hp] at hs
  case idle => cases hs
  case load b =>
    cases hs
    split
    · rename_i h1
      exact h.move hp rfl rfl rfl rfl rfl ⟨h1, le_rfl⟩
    · exact h.move hp rfl rfl rfl rfl rfl trivial
  case loadGroup b n =>
    obtain ⟨g, hg, rfl⟩ := Option.map_eq_some_iff.1 hs
    have hgroup := h.groups (n - 1) (group_lt hi.1 hi.2 rfl)
    rw [hg] at hgroup
    exact h.move hp rfl rfl rfl rfl rfl ⟨hi.1, hi.2, Option.some.inj hgroup⟩
  case fetchAdd b n g =>
    have hstep := h.fetchAdd hp
    split at hs
    · rename_i hlt
      rw [if_pos hlt] at hstep
      cases hs
      exact hstep
    · rename_i hlt
      rw [if_neg hlt] at hstep
      cases hs
      exact hstep
  case store b n g i => cases hs; exact h.store hp
  case fetchSub b n g => cases hs; exact h.fetchSub hp
  case groupLock b n =>
    split at hs
    · rename_i hfree
      have hfree : s.owner = none := of_decide_eq_true (Bool.and_eq_true_iff.1 hfree).1
      cases hs
      refine h.quiet (t := t) (fun u hu => setPc_pc_of_ne hu) (fun u hu => ?_) ?_ rfl rfl rfl rfl rfl rfl ?_ ?_ ?_ ?_ ?_
      · rw [hfree]
        exact iff_of_false (fun he => hu (Option.some.inj he).symm) nofun
      · rw [setPc_pc_self]; exact iff_of_true rfl rfl
      · rw [hp]; rfl
      · rw [setPc_pc_self]; rfl
      · rw [setPc_pc_self, hp]; rfl
      · rw [setPc_pc_self, hp]; rfl
      · rw [setPc_pc_self]; trivial
    · cases hs
  case groupCheck b n =>
    have hown : s.owner = some t := ho.2 rfl
    split at hs
    · cases hs
      exact h.move hp rfl rfl rfl rfl rfl trivial
    rename_i hn
    have hn : s.groupCount = n := not_not.1 hn
    have hcreated : s.created = s.groupCount := by rw [h.created, pending_of_owner hown, hp]; rfl
    split at hs
    · rename_i hroom
      split at hs
      · cases hs
        have hheap : Function.update s.heap s.created .new = s.heap := by
          rw [← h.fresh s.created (le_of_eq hcreated.symm), Function.update_eq_self]
        refine h.critical hp rfl rfl (fun u hu => setPc_pc_of_ne hu) (setPc_pc_self ..) rfl hheap rfl rfl le_rfl h.bound
          (congrArg (· + 1) hcreated) h.groups ⟨rfl, rfl⟩ ⟨rfl, rfl⟩ ⟨hn.symm, hn ▸ hroom, hcreated.trans hn⟩
      · cases hs
        exact h.leave hp hown rfl rfl rfl rfl rfl rfl rfl trivial
    · cases hs
      exact h.move hp rfl rfl rfl rfl rfl trivial
  case groupStore b n bg =>
    cases hs
    obtain ⟨hn, hroom, rfl⟩ := hi
    have hown : s.owner = some t := ho.2 rfl
    have hcreated : s.created = s.groupCount + 1 := by rw [h.created, pending_of_owner hown, hp]; rfl
    refine h.critical hp rfl rfl (fun u hu => setPc_pc_of_ne hu) (setPc_pc_self ..) rfl rfl rfl rfl le_rfl h.bound
      hcreated (fun i hi => ?_) ⟨rfl, rfl⟩ ⟨rfl, rfl⟩ ⟨hn, hroom, Function.update_self ..⟩
    have hi : i < s.groupCount := hi
    exact (Function.update_of_ne (by omega) ..).trans (h.groups i hi)
  case groupBump b n =>
    cases hs
    obtain ⟨rfl, hroom, hbg⟩ := hi
    have hown : s.owner = some t := ho.2 rfl
    have hcreated : s.created = s.groupCount + 1 := by rw [h.created, pending_of_owner hown, hp]; rfl
    refine h.critical hp rfl rfl (fun u hu => setPc_pc_of_ne hu) (setPc_pc_self ..) rfl rfl rfl rfl
      (Nat.le_succ _) hroom
      hcreated (fun i hi => ?_) ⟨rfl, rfl⟩ ⟨rfl, rfl⟩ trivial
    rcases Nat.lt_succ_iff_lt_or_eq.1 hi with hi | rfl
    · exact h.groups i hi
    · exact hbg
  case groupUnlock b more =>
    cases hs
    have hown : s.owner = some t := ho.2 rfl
    split
    · exact h.leave hp hown rfl rfl rfl rfl rfl rfl rfl trivial
    · exact h.leave hp hown rfl rfl rfl rfl rfl rfl rfl trivial

theorem inv_step {a : Label} (h : Inv c s) (hs : step c s a = some s') : Inv c s' := by
  cases a with
  | addBlock t alloc =>
    simp only [step] at hs
    split at hs
    · rename_i hidle
      have hp : s.pc t = .idle := by
        cases hp : s.pc t <;> rw [hp] at hidle <;> first | rfl | cases hidle
      split at hs
      · cases hs
        refine h.quiet (t := t) (fun u hu => setPc_pc_of_ne hu) (fun _ _ => .rfl) ?_ rfl rfl rfl rfl rfl rfl
          ?_ ?_ ?_ ?_ ?_
        · rw [setPc_pc_self]; exact (h.owner t).trans (by rw [hp]; exact iff_of_false nofun nofun)
        · rw [hp]; rfl
        · rw [setPc_pc_self]; rfl
        · rw [setPc_pc_self, hp]; rfl
        · rw [setPc_pc_self, hp]; rfl
        · rw [setPc_pc_self]; trivial
      · cases hs
        exact h
    · cases hs
  | go t alloc => exact h.advance hs

theorem inv_init : Inv c initState where
  owner _ := iff_of_false nofun nofun
  bound := Nat.zero_le _
  created := rfl
  groups _ h := nomatch h
  fresh _ _ := rfl
  group _ := BlockGroup.ok_new
  overshooters _ _ := iff_of_false nofun nofun
  slot _ _ _ h := nomatch h
  slotOne _ _ _ _ h := nomatch h
  storesNodup := List.nodup_nil
  stores _ _ := iff_of_false nofun (fun h => h rfl)
  added _ h := nomatch h
  addedNodup := List.nodup_nil
  pc _ := trivial

theorem Reachable.inv (h : (system c).Reachable s) : Inv c s :=
  h.invariant (I := Inv c) (fun s h0 => by cases h0; exact inv_init) (fun _ _ _ h _ hs => inv_step h hs)

/-- **Every block has a slot of its own**: whatever the threads do in `add_block` and `add_block_group`, the indices
returned differ, are below `group_count_ * OP_GROUP_BLOCK_COUNT` and name slots that hold the block, each slot is stored
once, the groups counted are not null, and their number is that of the groups made and at most
`OP_MAX_BLOCK_GROUP_COUNT`. -/
theorem slots_unique (h : (system c).Reachable s) :
    (s.added.map Added.index).Nodup ∧
    (∀ a ∈ s.added, a.index < s.groupCount * c.groupBlockCount ∧
      ∃ g, s.blockGroups (a.index / c.groupBlockCount) = some g ∧
        (s.heap g).blocks (a.index % c.groupBlockCount) = some a.block) ∧
    s.stores.Nodup ∧
    (∀ i, i < s.groupCount → s.blockGroups i ≠ none) ∧
    s.groupCount ≤ c.maxBlockGroupCount ∧ s.created = s.groupCount + pending s ∧
    ∀ t b n, s.pc t = .loadGroup b n → s.blockGroups (n - 1) ≠ none := by
  have hi := Reachable.inv h
  refine ⟨hi.addedNodup, fun a ha => ?_, hi.storesNodup, fun i hlt => ?_, hi.bound, hi.created, fun t b n hp => ?_⟩
  · obtain ⟨hlt, hblock⟩ := hi.added a ha
    have hdiv : a.index / c.groupBlockCount < s.groupCount := Nat.div_lt_of_lt_mul (Nat.mul_comm .. ▸ hlt)
    exact ⟨hlt, _, hi.groups _ hdiv, hblock⟩
  · rw [hi.groups i hlt]; exact nofun
  · have hok := hi.pc t
    rw [hp] at hok
    rw [hi.groups (n - 1) (group_lt hok.1 hok.2 rfl)]
    exact nofun

/-- With groups of one block: threads 1 and 2 find the first group full at once, thread 1 makes the second one, thread 2
finds that one full too and makes the third. -/
def fullGroupRun : List Label :=
  [Label.addBlock 0 true] ++ List.replicate 10 (Label.go 0 true) ++ [Label.addBlock 1 true] ++
    List.replicate 3 (Label.go 1 true) ++ [Label.addBlock 2 true] ++ List.replicate 3 (Label.go 2 true) ++
    [Label.go 1 true, Label.go 2 true] ++ List.replicate 5 (Label.go 1 true) ++ List.replicate 3 (Label.go 2 true) ++
    List.replicate 4 (Label.go 1 true) ++ List.replicate 13 (Label.go 2 true)

theorem slots_unique_fullGroupRun : ∃ s, (system ⟨1, 3⟩).run initState fullGroupRun = some s ∧
    s.added = [⟨2, 2⟩, ⟨1, 1⟩, ⟨0, 0⟩] ∧ s.groupCount = 3 ∧
    ∀ a ∈ s.added, ∃ g, s.blockGroups (a.index / 1) = some g ∧ (s.heap g).blocks (a.index % 1) = some a.block := by
  have hrun : ((system ⟨1, 3⟩).run initState fullGroupRun).map (fun s => (s.added, s.groupCount)) =
      some ([⟨2, 2⟩, ⟨1, 1⟩, ⟨0, 0⟩], 3) := by decide
  obtain ⟨s, hs, hx⟩ := Option.map_eq_some_iff.1 hrun
  obtain ⟨hadded, hcount⟩ := Prod.mk.inj hx
  have hreach : (system ⟨1, 3⟩).Reachable s := System.Reachable.run (.init rfl) _ hs
  exact ⟨s, hs, hadded, hcount, fun a ha => ((slots_unique hreach).2.1 a ha).2⟩

end PoolBlocks
end ContentionProf
