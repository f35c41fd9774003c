import ContentionProf.Completion
import ContentionProf.SessionsOwner
/-!
# SessionsCompletion — every start, stop and dump ends

A call waits for `g_cp_mutex` only.  Its owner finds in `g_cp` what it tested under the mutex, so it never stands still
on its way to the unlock.
-/
namespace ContentionProf
namespace Sessions

variable {σ : Type} {s s' : State σ} {t u : Thread}

/-- The steps that are left of a call. -/
def Pc.left : Pc σ → Nat
  | .idle              => 0
  | .start             => 7
  | .startNew          => 6
  | .startLock _       => 5
  | .startCheck _      => 4
  | .startUnlockBusy _ => 2
  | .startFree _       => 1
  | .startSet _        => 3
  | .startBump         => 2
  | .startUnlock       => 1
  | .stop              => 8
  | .stopLock          => 7
  | .stopCheck         => 6
  | .stopTake          => 5
  | .stopClear _       => 4
  | .stopUnlock _      => 3
  | .stopInit _        => 2
  | .stopDelete _      => 1
  | .stopUnlockFree    => 1
  | .dump _            => 6
  | .dumpLock _        => 5
  | .dumpCheck _       => 4
  | .dumpCall _        => 3
  | .dumping _ _       => 2
  | .dumpUnlock _ _    => 1
  | .dumpUnlockFree _  => 2
  | .destroy _ _       => 1

/-- The sample of a dump under way. -/
def Pc.sample : Pc σ → Option σ
  | .dump x           => some x
  | .dumpLock x       => some x
  | .dumpCheck x      => some x
  | .dumpCall x       => some x
  | .dumping x _      => some x
  | .dumpUnlock x _   => some x
  | .dumpUnlockFree x => some x
  | .destroy x _      => some x
  | _                 => none

/-- The next step is a lock of `g_cp_mutex`. -/
def Pc.locks : Pc σ → Bool
  | .startLock _ => true
  | .stopLock    => true
  | .dumpLock _  => true
  | _            => false

/-- A step of the thread inside a call. -/
def Label.goes (t : Thread) : Label σ → Prop
  | .go u => u = t
  | _     => False

theorem Pc.left_le (p : Pc σ) : p.left ≤ 8 := by cases p <;> simp [Pc.left]

theorem Pc.left_of_holds {p : Pc σ} (h : p.holds = true) : p.left ≠ 0 := by
  cases p <;> first | exact Nat.succ_ne_zero _ | cases h

theorem Pc.idle_of_left {p : Pc σ} (h : p.left = 0) : p = .idle := by cases p <;> first | rfl | cases h

theorem Pc.holds_of_locks {p : Pc σ} (h : p.locks = true) : p.holds = false := by cases p <;> first | rfl | cases h

/-! ## A call goes on -/

/-- What a step of a call does: it comes nearer to the end, other threads stay where they are, and the mutex is as it
was, or the thread takes it or gives it back. -/
structure Next (s s' : State σ) (t : Thread) : Prop where
  left : (s'.pc t).left < (s.pc t).left
  others : ∀ u, u ≠ t → s'.pc u = s.pc u
  owner : s'.owner = s.owner ∨ s'.owner = none ∨ s'.owner = some t

theorem next_setPc {p : Pc σ} (h : p.left < (s.pc t).left) : Next s (s.setPc t p) t :=
  ⟨by rw [setPc_pc_self]; exact h, fun _ hu => setPc_pc_of_ne hu, .inl rfl⟩

theorem next_unlock {p : Pc σ} (h : p.left < (s.pc t).left) : Next s (s.unlock t p) t :=
  ⟨by rw [State.unlock, setPc_pc_self]; exact h, fun _ hu => setPc_pc_of_ne (s := { s with owner := none }) hu,
    .inr (.inl rfl)⟩

/-- **A call can go on** unless it waits for the mutex that another thread has. -/
theorem goes_on (h : Inv s) (hz : (s.pc t).left ≠ 0) (hm : (s.pc t).locks = true → s.owner = none) :
    ∃ s', advance s t = some s' ∧ Next s s' t := by
  have hlock : ∀ {p : Pc σ}, (s.pc t).locks = true → p.left < (s.pc t).left →
      ∃ s', s.lock t p = some s' ∧ Next s s' t := by
    intro p hl hlt
    refine ⟨{ s with owner := some t }.setPc t p, by rw [State.lock, hm hl], ?_⟩
    exact ⟨by rw [setPc_pc_self]; exact hlt, fun _ hu => setPc_pc_of_ne (s := { s with owner := some t }) hu,
      .inr (.inr rfl)⟩
  -- the branch of a test of `g_cp`
  have htest : ∀ {p q : Pc σ}, p.left < (s.pc t).left → q.left < (s.pc t).left →
      Next s (s.setPc t (if s.cp.isSome then p else q)) t := by
    intro p q hp hq
    refine next_setPc ?_
    split
    · exact hp
    · exact hq
  have hpc := h.pc t
  unfold advance
  cases hp : s.pc t with rw [hp] at hz hlock htest hpc
  | idle => exact absurd rfl hz
  | start => exact ⟨_, rfl, htest (by simp [Pc.left]) (by simp [Pc.left])⟩
  | startNew =>
    refine ⟨_, rfl, ?_, fun _ hu => setPc_pc_of_ne (s := { s with allocated := s.allocated + 1 }) hu, .inl rfl⟩
    rw [setPc_pc_self, hp]
    simp [Pc.left]
  | startLock p => exact hlock rfl (by simp [Pc.left])
  | startCheck p => exact ⟨_, rfl, htest (by simp [Pc.left]) (by simp [Pc.left])⟩
  | startUnlockBusy p => exact ⟨_, rfl, next_unlock (by simp [Pc.left, hp])⟩
  | startFree p =>
    refine ⟨_, rfl, ?_, fun _ hu => setPc_pc_of_ne (s := s.delete p false) hu, .inl rfl⟩
    rw [setPc_pc_self, hp]
    simp [Pc.left]
  | startSet p =>
    refine ⟨_, rfl, ?_, fun _ hu => setPc_pc_of_ne (s := { s with cp := some p, installed := p :: s.installed }) hu,
      .inl rfl⟩
    rw [setPc_pc_self, hp]
    simp [Pc.left]
  | startBump =>
    refine ⟨_, rfl, ?_, fun _ hu => setPc_pc_of_ne (s := { s with cpVersion := s.cpVersion + 1 }) hu, .inl rfl⟩
    rw [setPc_pc_self, hp]
    simp [Pc.left]
  | startUnlock => exact ⟨_, rfl, next_unlock (by simp [Pc.left, hp])⟩
  | stop => exact ⟨_, rfl, htest (by simp [Pc.left]) (by simp [Pc.left])⟩
  | stopLock => exact hlock rfl (by simp [Pc.left])
  | stopCheck => exact ⟨_, rfl, htest (by simp [Pc.left]) (by simp [Pc.left])⟩
  | stopTake =>
    obtain ⟨p, hc⟩ := Option.ne_none_iff_exists'.1 hpc
    rw [hc]
    exact ⟨_, rfl, next_setPc (by simp [Pc.left, hp])⟩
  | stopClear p =>
    refine ⟨_, rfl, ?_, fun _ hu => setPc_pc_of_ne (s := { s with cp := none }) hu, .inl rfl⟩
    rw [setPc_pc_self, hp]
    simp [Pc.left]
  | stopUnlock p => exact ⟨_, rfl, next_unlock (by simp [Pc.left, hp])⟩
  | stopInit p => exact ⟨_, rfl, next_setPc (by simp [Pc.left, hp])⟩
  | stopDelete p =>
    refine ⟨_, rfl, ?_, fun _ hu => setPc_pc_of_ne (s := s.delete p true) hu, .inl rfl⟩
    rw [setPc_pc_self, hp]
    simp [Pc.left]
  | stopUnlockFree => exact ⟨_, rfl, next_unlock (by simp [Pc.left, hp])⟩
  | dump x => exact ⟨_, rfl, htest (by simp [Pc.left]) (by simp [Pc.left])⟩
  | dumpLock x => exact hlock rfl (by simp [Pc.left])
  | dumpCheck x => exact ⟨_, rfl, htest (by simp [Pc.left]) (by simp [Pc.left])⟩
  | dumpCall x =>
    obtain ⟨p, hc⟩ := Option.ne_none_iff_exists'.1 hpc
    rw [hc]
    exact ⟨_, rfl, next_setPc (by simp [Pc.left, hp])⟩
  | dumping x p => exact ⟨_, rfl, next_setPc (by simp [Pc.left, hp])⟩
  | dumpUnlock x got =>
    refine ⟨_, rfl, ?_, fun u hu => ?_, .inr (.inl rfl)⟩
    · rw [State.finishDump, setPc_pc_self, hp]; simp [Pc.left]
    · rw [State.finishDump, setPc_pc_of_ne hu]; exact setPc_pc_of_ne (s := { s with owner := none }) hu
  | dumpUnlockFree x => exact ⟨_, rfl, next_unlock (by simp [Pc.left, hp])⟩
  | destroy x got =>
    refine ⟨_, rfl, ?_, fun u hu => ?_, .inl rfl⟩
    · rw [State.finishDump, setPc_pc_self, hp]; simp [Pc.left]
    · rw [State.finishDump, setPc_pc_of_ne hu]

/-! ## What a call has begun -/

/-- **What a call had in its hands is there still, or where the call puts it**: a profiler that a stop took, the sample
of a dump. -/
structure Carried (s s' : State σ) (t : Thread) : Prop where
  taken : ∀ p ∈ (s.pc t).taken, p ∈ (s'.pc t).taken ∨ ⟨p, true⟩ ∈ s'.deleted
  sample : ∀ x, (s.pc t).sample = some x → (s'.pc t).sample = some x ∨ x ∈ s'.dumped.map Prod.fst
  deleted : s.deleted ⊆ s'.deleted
  dumped : s.dumped ⊆ s'.dumped

theorem Carried.refl (s : State σ) (t : Thread) : Carried s s t :=
  ⟨fun _ => .inl, fun _ => .inl, fun _ => id, fun _ => id⟩

theorem Carried.trans {s'' : State σ} (h : Carried s s' t) (h' : Carried s' s'' t) : Carried s s'' t where
  taken p hp := (h.taken p hp).elim (h'.taken p) (fun hd => .inr (h'.deleted hd))
  sample x hx := (h.sample x hx).elim (h'.sample x) (fun hd => .inr (List.map_subset _ h'.dumped hd))
  deleted _ hd := h'.deleted (h.deleted hd)
  dumped _ hd := h'.dumped (h.dumped hd)

/-- A step of another thread. -/
theorem Carried.other (hpc : s'.pc u = s.pc u) (hdel : s.deleted ⊆ s'.deleted) (hdump : s.dumped ⊆ s'.dumped) :
    Carried s s' u :=
  ⟨fun _ hp => .inl (by rw [hpc]; exact hp), fun _ hx => .inl (by rw [hpc]; exact hx), hdel, hdump⟩

/-- A step that ends nothing. -/
theorem Carried.move {p p' : Pc σ} (hp : s.pc t = p) (hp' : s'.pc t = p') (htaken : p.taken ⊆ p'.taken)
    (hsample : ∀ x, p.sample = some x → p'.sample = some x) (hdel : s.deleted ⊆ s'.deleted)
    (hdump : s.dumped = s'.dumped) : Carried s s' t :=
  ⟨fun q hq => .inl (by rw [hp']; exact htaken (hp ▸ hq)), fun x hx => .inl (by rw [hp']; exact hsample x (hp ▸ hx)),
    hdel, fun _ hd => hdump ▸ hd⟩

theorem carried_self (hs : advance s t = some s') : Carried s s' t := by
  have hlock : ∀ {p p' : Pc σ}, s.pc t = p → s.lock t p' = some s' → p.taken ⊆ p'.taken →
      (∀ x, p.sample = some x → p'.sample = some x) → Carried s s' t := by
    intro p p' hp hl htaken hsample
    unfold State.lock at hl
    split at hl <;> cases hl
    exact .move hp (setPc_pc_self ..) htaken hsample (fun _ => id) rfl
  unfold advance at hs
  cases hp : s.pc t <;> rw [hp] at hs <;> dsimp only at hs
  case idle => cases hs
  case startLock p => exact hlock hp hs nofun nofun
  case stopLock => exact hlock hp hs nofun nofun
  case dumpLock x => exact hlock hp hs nofun (fun _ => id)
  case stopTake =>
    obtain ⟨p, -, rfl⟩ := Option.map_eq_some_iff.1 hs
    exact .move hp (setPc_pc_self ..) nofun nofun (fun _ => id) rfl
  case dumpCall x =>
    obtain ⟨p, -, rfl⟩ := Option.map_eq_some_iff.1 hs
    exact .move hp (setPc_pc_self ..) nofun (fun _ => id) (fun _ => id) rfl
  case stopDelete p =>
    cases hs
    refine ⟨fun q hq => .inr ?_, fun x hx => ?_, fun _ => List.mem_cons_of_mem _, fun _ => id⟩
    · rw [hp] at hq
      rw [List.mem_singleton.1 hq]
      exact List.mem_cons_self
    · rw [hp] at hx; cases hx
  case dumpUnlock x got =>
    cases hs
    refine ⟨fun q hq => ?_, fun y hy => .inr ?_, fun _ => id, fun _ => List.mem_cons_of_mem _⟩
    · rw [hp] at hq; cases hq
    · rw [hp] at hy; cases hy; exact List.mem_cons_self
  case destroy x got =>
    cases hs
    refine ⟨fun q hq => ?_, fun y hy => .inr ?_, fun _ => id, fun _ => List.mem_cons_of_mem _⟩
    · rw [hp] at hq; cases hq
    · rw [hp] at hy; cases hy; exact List.mem_cons_self
  case start => cases hs; exact .move hp (setPc_pc_self ..) nofun nofun (fun _ => id) rfl
  case stop => cases hs; exact .move hp (setPc_pc_self ..) nofun nofun (fun _ => id) rfl
  case startCheck p => cases hs; exact .move hp (setPc_pc_self ..) nofun nofun (fun _ => id) rfl
  case stopCheck => cases hs; exact .move hp (setPc_pc_self ..) nofun nofun (fun _ => id) rfl
  case dump x =>
    cases hs
    refine .move hp (setPc_pc_self ..) nofun (fun y hy => ?_) (fun _ => id) rfl
    split <;> exact hy
  case dumpCheck x =>
    cases hs
    refine .move hp (setPc_pc_self ..) nofun (fun y hy => ?_) (fun _ => id) rfl
    split <;> exact hy
  case startFree p =>
    cases hs
    exact .move hp (setPc_pc_self ..) nofun nofun (fun _ => List.mem_cons_of_mem _) rfl
  case stopClear p => cases hs; exact .move hp (setPc_pc_self ..) nofun (fun _ => id) (fun _ => id) rfl
  all_goals cases hs; exact .move hp (setPc_pc_self ..) (fun _ => id) (fun _ => id) (fun _ => id) rfl

theorem Next.carried (hn : Next s s' u) (hs : advance s u = some s') : Carried s s' t := by
  have hself := carried_self hs
  by_cases htu : t = u
  · rw [htu]; exact hself
  · exact .other (hn.others t htu) hself.deleted hself.dumped

/-! ## The end of a call -/

theorem oneLock (s₀ : State σ) (t₀ : Thread) :
    System.OneLock (system σ) (fun s => Inv s ∧ Carried s₀ s t₀) Label.goes (fun s t => (s.pc t).left) State.owner where
  inside s t hi hown := Pc.left_of_holds ((hi.1.owner t).1 hown)
  go s t hi hz ho := by
    have hm : (s.pc t).locks = true → s.owner = none := by
      intro hl
      cases hown : s.owner with
      | none => rfl
      | some u =>
        have hh := (hi.1.owner u).1 hown
        rw [ho u hown, Pc.holds_of_locks hl] at hh
        cases hh
    obtain ⟨s', hs, hn⟩ := goes_on hi.1 hz hm
    refine ⟨.go t, s', rfl, hs, ⟨inv_step (a := .go t) hi.1 hs, hi.2.trans (hn.carried hs)⟩, hn.left, ?_, fun u _ => ?_⟩
    · rcases hn.owner with hown | hown | hown
      · rw [hown]
        cases hs : s.owner with
        | none => exact .inl rfl
        | some u => exact .inr (congrArg some (ho u hs))
      · exact .inl hown
      · exact .inr hown
    · by_cases hu : u = t
      · rw [hu]; exact Nat.le_of_lt hn.left
      · rw [hn.others u hu]

/-- **Every start, stop and dump can end** from wherever the threads are, within eight steps of its own and eight of the
thread that has `g_cp_mutex`, no other thread moving; and at its end what it had in its hands is where it belongs: a
profiler that it took from `g_cp` is deleted, and its sample was dumped or destroyed. -/
theorem sessions_end (hr : (system σ).Reachable s) (t : Thread) :
    ∃ as s', (system σ).run s as = some s' ∧ s'.pc t = .idle ∧ as.length ≤ 16 ∧
      (∀ a ∈ as, a.goes t ∨ ∃ u, s.owner = some u ∧ a.goes u) ∧
      (∀ p ∈ (s.pc t).taken, ⟨p, true⟩ ∈ s'.deleted) ∧
      ∀ x, (s.pc t).sample = some x → ∃ o, (x, [o]) ∈ s'.dumped := by
  obtain ⟨as, s', hrun, ⟨hi, hk⟩, hz, hlen, hall⟩ := (oneLock s t).completes ⟨Reachable.inv hr, .refl s t⟩ t
  have hidle : s'.pc t = .idle := Pc.idle_of_left hz
  refine ⟨as, s', hrun, hidle, ?_, hall, fun p hp => ?_, fun x hx => ?_⟩
  · have howner : System.ownerLeft (fun s t => (s.pc t).left) State.owner s t ≤ 8 := by
      unfold System.ownerLeft
      split
      · split
        · exact Nat.zero_le _
        · exact Pc.left_le _
      · exact Nat.zero_le _
    have hleft := Pc.left_le (s.pc t)
    omega
  · refine (hk.taken p hp).resolve_left (fun hin => ?_)
    rw [hidle] at hin
    cases hin
  · have hd := (hk.sample x hx).resolve_left (fun hin => by rw [hidle] at hin; cases hin)
    obtain ⟨⟨y, got⟩, he, rfl⟩ := List.mem_map.1 hd
    obtain ⟨o, ho⟩ := List.length_eq_one_iff.1 (hi.dumped _ he)
    exact ⟨o, by rw [← ho]; exact he⟩

/-- A dump owns the mutex when a stop waits for it. -/
def waitingStop : List (Label Nat) :=
  [Label.start 0] ++ List.replicate 7 (Label.go 0) ++
    [Label.dump 1 10, Label.go 1, Label.go 1, Label.stop 2, Label.go 2]

theorem sessions_end_waitingStop : ∃ s, (system Nat).run (initState Nat) waitingStop = some s ∧ s.owner = some 1 ∧
    (s.pc 2).locks = true ∧ ∃ as s', (system Nat).run s as = some s' ∧ s'.pc 2 = .idle ∧ as.length ≤ 16 ∧
      ∀ a ∈ as, a.goes 2 ∨ ∃ u, s.owner = some u ∧ a.goes u := by
  have hrun : ((system Nat).run (initState Nat) waitingStop).map (fun s => (s.owner, (s.pc 2).locks)) =
      some (some 1, true) := by decide
  obtain ⟨s, hs, hx⟩ := Option.map_eq_some_iff.1 hrun
  have hreach : (system Nat).Reachable s := System.Reachable.run (.init rfl) _ hs
  obtain ⟨as, s', hr, hidle, hlen, hall, -, -⟩ := sessions_end hreach 2
  exact ⟨s, hs, congrArg Prod.fst hx, congrArg Prod.snd hx, as, s', hr, hidle, hlen, hall⟩

end Sessions
end ContentionProf
