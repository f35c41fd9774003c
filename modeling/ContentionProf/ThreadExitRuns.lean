import ContentionProf.ThreadExit
/-!
# ThreadExitRuns — when the right functions are called (`common/thread_local.cpp`)

`remove` erases the first block of equal pairs only, and a helper that is being deleted is out of reach of the calls
that the exit functions make.  Where neither shows, every registration that is not cancelled is called once, the latest
first.
-/
namespace ContentionProf
namespace ThreadExit

variable {iterations : Nat} {s s' : State} {es : List Event} {e : Event} {r : Registration} {p : Pair}

/-! ## Calls in a longer trace -/

theorem callsLatest_nil : CallsLatest [] := by
  intro before r after h
  cases before <;> cases h

theorem callsLatest_append : CallsLatest (es ++ [e]) ↔
    CallsLatest es ∧ ∀ r, e = .called r → (pending es).getLast? = some r := by
  constructor
  · intro h
    refine ⟨fun before r after hes => ?_, ?_⟩
    · exact h before r (after ++ [e]) (by rw [hes, List.append_assoc, List.cons_append])
    · rintro r rfl
      exact h es r [] rfl
  · rintro ⟨hes, he⟩ before r after heq
    rcases List.eq_nil_or_concat after with rfl | ⟨after, x, rfl⟩
    · obtain ⟨rfl, hx⟩ := List.append_inj' heq rfl
      exact he r (List.cons.inj hx).1
    · rw [List.concat_eq_append, ← List.cons_append, ← List.append_assoc] at heq
      obtain ⟨hbefore, -⟩ := List.append_inj' heq rfl
      exact hes before r after hbefore

/-! ## What is waiting -/

/-- What will be called, the last one first. -/
def State.waiting (iterations : Nat) (s : State) : List Registration :=
  (if s.rounds < iterations then s.registrations else []) ++ s.running

theorem toCall_eq : s.toCall iterations = (s.waiting iterations).reverse := by
  unfold State.toCall State.waiting
  rw [List.reverse_append]
  split <;> rfl

theorem right_iff : Right iterations s ↔ CallsLatest s.trace ∧ pending s.trace = s.waiting iterations := by
  constructor
  · rintro ⟨hcalls, htoCall⟩
    rw [toCall_eq] at htoCall
    exact ⟨hcalls, (List.reverse_inj.1 htoCall).symm⟩
  · rintro ⟨hcalls, hpending⟩
    exact ⟨hcalls, by rw [toCall_eq, hpending]⟩

/-- The registrations are distinct, and none is left for a round that does not come. -/
structure Inv (iterations : Nat) (s : State) : Prop where
  right : Right iterations s
  nodup : (s.registrations ++ s.running).Nodup
  id_lt : ∀ r ∈ s.registrations ++ s.running, r.id < s.ncalls
  last : iterations ≤ s.rounds → s.registrations = []
  body : s.phase = .body → s.running = []

theorem Inv.pending_eq (hi : Inv iterations s) : pending s.trace = s.waiting iterations := (right_iff.1 hi.right).2

theorem Inv.calls (hi : Inv iterations s) : CallsLatest s.trace := hi.right.calls

theorem Inv.waiting_eq (hi : Inv iterations s) : s.waiting iterations = s.registrations ++ s.running := by
  unfold State.waiting
  split
  · rfl
  · rename_i h
    rw [hi.last (Nat.not_lt.1 h)]

theorem inv_initState : Inv iterations initState where
  right := right_iff.2 ⟨callsLatest_nil, by unfold State.waiting; split <;> rfl⟩
  nodup := List.nodup_nil
  id_lt := by simp [State.registrations, initState]
  last := fun _ => rfl
  body := fun _ => rfl

/-! ## Registrations -/

/-- **A call of `thread_atexit` fails and registers nothing, or registers one pair.** -/
theorem atexit_cases (s : State) (p : Pair) (memory : Bool) :
    ((p.fn = 0 ∨ memory = false) ∧ (s.atexit p memory).registrations = s.registrations ∧
      (s.atexit p memory).trace = s.trace) ∨
    (p.fn ≠ 0 ∧ memory = true ∧ (s.atexit p memory).registrations = s.registrations ++ [⟨s.ncalls, p⟩] ∧
      (s.atexit p memory).trace = s.trace ++ [.registered ⟨s.ncalls, p⟩]) := by
  have hreg : (s.atexit p memory).registrations = (threadAtexit s.helper ⟨s.ncalls, p⟩ memory).1.getD [] := rfl
  have htrace : (s.atexit p memory).trace = if (threadAtexit s.helper ⟨s.ncalls, p⟩ memory).2 = none then
    s.trace ++ [.registered ⟨s.ncalls, p⟩] else s.trace := rfl
  unfold threadAtexit at hreg htrace
  by_cases hfn : p.fn = 0
  · rw [if_pos hfn] at hreg htrace
    exact .inl ⟨.inl hfn, hreg, htrace⟩
  · rw [if_neg hfn] at hreg htrace
    cases memory with
    | false => exact .inl ⟨.inr rfl, hreg, htrace⟩
    | true => exact .inr ⟨hfn, rfl, hreg, htrace⟩

theorem Inv.not_mem_new (hi : Inv iterations s) (p : Pair) :
    (⟨s.ncalls, p⟩ : Registration) ∉ s.registrations ++ s.running :=
  fun h => absurd (hi.id_lt _ h) (Nat.lt_irrefl _)

theorem inv_atexit {memory : Bool} (hi : Inv iterations s) (hok : Orderly iterations s (.atexit p memory)) :
    Inv iterations (s.atexit p memory) := by
  rcases atexit_cases s p memory with ⟨-, hregs, htrace⟩ | ⟨hfn, hmem, hregs, htrace⟩
  · refine ⟨right_iff.2 ?_, ?_, ?_, ?_, hi.body⟩
    · rw [htrace, hi.pending_eq]
      exact ⟨hi.calls, by unfold State.waiting; rw [hregs]; rfl⟩
    · rw [hregs]
      exact hi.nodup
    · rw [hregs]
      exact fun r hr => Nat.lt_succ_of_lt (hi.id_lt r hr)
    · rw [hregs]
      exact hi.last
  · obtain ⟨hrunning, hrounds⟩ : s.running = [] ∧ s.rounds < iterations := by
      rcases hok with h | h | h
      · exact absurd h hfn
      · rw [hmem] at h
        cases h
      · exact h
    have hrunning' : (s.atexit p memory).running = [] := hrunning
    have hnew := hi.not_mem_new p
    have hnodup := hi.nodup
    have hlt := hi.id_lt
    rw [hrunning, List.append_nil] at hnew hnodup hlt
    refine ⟨right_iff.2 ?_, ?_, ?_, fun h => absurd hrounds (Nat.not_lt.2 h), fun _ => hrunning'⟩
    · rw [htrace, callsLatest_append, pending_registered, hi.pending_eq]
      refine ⟨⟨hi.calls, fun r h => by cases h⟩, ?_⟩
      rw [hi.waiting_eq, hrunning, List.append_nil]
      unfold State.waiting
      rw [hregs, hrunning', List.append_nil, if_pos (show (s.atexit p memory).rounds < iterations from hrounds)]
    · rw [hregs, hrunning', List.append_nil]
      exact List.nodup_append.2 ⟨hnodup, List.nodup_singleton _, fun a ha b hb hab => by
        rw [List.mem_singleton.1 hb] at hab
        exact hnew (hab ▸ ha)⟩
    · rw [hregs, hrunning', List.append_nil]
      intro r hr
      rcases List.mem_append.1 hr with hr | hr
      · exact Nat.lt_succ_of_lt (hlt r hr)
      · rw [List.mem_singleton.1 hr]
        exact Nat.lt_succ_self _

/-- **A registration behind older ones that are still waiting is called too late, one in the last round never.** -/
theorem not_right_atexit {memory : Bool} (hi : Inv iterations s) (hok : ¬ Orderly iterations s (.atexit p memory)) :
    ¬ Right iterations (s.atexit p memory) := by
  simp only [Orderly, not_or] at hok
  obtain ⟨hfn, hmem, hlate⟩ := hok
  rcases atexit_cases s p memory with ⟨h | h, -, -⟩ | ⟨-, -, hregs, htrace⟩
  · exact absurd h hfn
  · exact absurd h hmem
  intro hright
  have hpending := (right_iff.1 hright).2
  rw [htrace, pending_registered, hi.pending_eq, hi.waiting_eq] at hpending
  unfold State.waiting at hpending
  rw [hregs] at hpending
  by_cases hrounds : s.rounds < iterations
  · have hne : s.running ≠ [] := fun h => hlate ⟨h, hrounds⟩
    rw [if_pos (show (s.atexit p memory).rounds < iterations from hrounds), List.append_assoc, List.append_assoc,
      List.append_cancel_left_eq] at hpending
    obtain ⟨x, xs, hx⟩ := List.exists_cons_of_ne_nil hne
    have hrunning : (s.atexit p memory).running = x :: xs := hx
    rw [hrunning, hx, List.cons_append, List.singleton_append] at hpending
    -- the oldest one waiting would be the new one
    refine hi.not_mem_new p (List.mem_append_right _ ?_)
    rw [hx, (List.cons.inj hpending).1]
    exact List.mem_cons_self ..
  · rw [if_neg (show ¬ (s.atexit p memory).rounds < iterations from hrounds)] at hpending
    have hlen := congrArg List.length hpending
    have hrunning : (s.atexit p memory).running = s.running := rfl
    rw [hrunning] at hlen
    simp at hlen
    omega

/-! ## Cancellations -/

theorem registrations_cancel (hfn : p.fn ≠ 0) :
    (s.cancel p).registrations = ThreadExitHelper.remove s.registrations p := by
  unfold State.registrations State.cancel threadAtexitCancel
  rw [if_neg hfn]
  cases s.helper with
  | none => rfl
  | some fns => rfl

theorem trace_cancel (hfn : p.fn ≠ 0) : (s.cancel p).trace = s.trace ++ [.cancelled p] := by
  unfold State.cancel
  rw [if_neg hfn]

theorem cancel_null (hfn : p.fn = 0) : s.cancel p = s := by
  unfold State.cancel threadAtexitCancel
  rw [if_pos hfn, if_pos hfn]

/-- A cancellation takes its pair's registrations, and those of no other pair, from what is pending. -/
theorem Inv.pending_cancel (hi : Inv iterations s) (hfn : p.fn ≠ 0) : pending (s.cancel p).trace =
    s.registrations.filter (fun r => !(r.pair == p)) ++ s.running.filter (fun r => !(r.pair == p)) := by
  rw [trace_cancel hfn, pending_cancelled, hi.pending_eq, hi.waiting_eq, List.filter_append]

theorem inv_cancel (hi : Inv iterations s) (hok : Orderly iterations s (.cancel p)) : Inv iterations (s.cancel p) := by
  by_cases hfn : p.fn = 0
  · rw [cancel_null hfn]
    exact hi
  · obtain ⟨hnone, hadj⟩ : (∀ r ∈ s.running, r.pair ≠ p) ∧ Blocks.Adjacent (fun r => r.pair == p) s.registrations :=
      hok.resolve_left hfn
    have hregs := registrations_cancel (s := s) hfn
    have hsub : ((s.cancel p).registrations ++ (s.cancel p).running).Sublist (s.registrations ++ s.running) := by
      rw [hregs]
      exact (Blocks.eraseBlock_sublist _ s.registrations).append_right _
    have hlast : iterations ≤ s.rounds → (s.cancel p).registrations = [] := by
      intro h
      rw [hregs, hi.last h]
      rfl
    refine ⟨right_iff.2 ?_, hi.nodup.sublist hsub, fun r hr => hi.id_lt r (hsub.subset hr), hlast, hi.body⟩
    refine ⟨?_, ?_⟩
    · rw [trace_cancel hfn, callsLatest_append]
      exact ⟨hi.calls, fun r h => by cases h⟩
    · have hrunning : s.running.filter (fun r => !(r.pair == p)) = s.running := by
        rw [List.filter_eq_self]
        intro r hr
        simpa using hnone r hr
      rw [hi.pending_cancel hfn, ← (Blocks.eraseBlock_eq_filter_iff _).2 hadj, hrunning]
      unfold State.waiting
      split
      · rw [hregs]
        rfl
      · rename_i h
        have hnil := hlast (Nat.not_lt.1 h)
        rw [hregs] at hnil
        rw [show Blocks.eraseBlock (fun r => r.pair == p) s.registrations = [] from hnil]
        rfl

/-- **A cancellation that leaves a registration of its pair is wrong.** -/
theorem not_right_cancel (hi : Inv iterations s) (hok : ¬ Orderly iterations s (.cancel p)) :
    ¬ Right iterations (s.cancel p) := by
  simp only [Orderly, not_or] at hok
  obtain ⟨hfn, hleft⟩ := hok
  intro hright
  have hpending := (right_iff.1 hright).2
  rw [hi.pending_cancel hfn] at hpending
  have hwaiting : (s.cancel p).waiting iterations =
      Blocks.eraseBlock (fun r => r.pair == p) s.registrations ++ s.running := by
    unfold State.waiting
    split
    · rw [registrations_cancel hfn]
      rfl
    · rename_i h
      rw [hi.last (Nat.not_lt.1 h)]
      rfl
  rw [hwaiting] at hpending
  have hlen := congrArg List.length hpending
  rw [List.length_append, List.length_append] at hlen
  have hblock := Blocks.length_filter_le_eraseBlock (fun r : Registration => r.pair == p) s.registrations
  have hfilter := List.length_filter_le (fun r : Registration => !(r.pair == p)) s.running
  obtain ⟨hregs, hrunning⟩ := List.append_inj hpending (by omega)
  refine hleft ⟨?_, (Blocks.eraseBlock_eq_filter_iff _).1 hregs.symm⟩
  rw [List.filter_eq_self] at hrunning
  intro r hr
  simpa using hrunning r hr

/-! ## The exit -/

/-- **Another round changes nothing of what is waiting.** -/
theorem inv_round (hi : Inv iterations s) (hrunning : s.running = []) : Inv iterations (s.round iterations) := by
  unfold State.round
  split
  · exact ⟨⟨hi.right.calls, hi.right.toCall⟩, hi.nodup, hi.id_lt, hi.last, fun h => by cases h⟩
  · rename_i fns hfns
    have hregs : s.registrations = fns := by
      unfold State.registrations
      rw [hfns]
      rfl
    have hpending := hi.pending_eq
    have hnodup := hi.nodup
    have hlt := hi.id_lt
    rw [hi.waiting_eq, hregs, hrunning, List.append_nil] at hpending
    rw [hregs, hrunning, List.append_nil] at hnodup hlt
    split
    · refine ⟨right_iff.2 ⟨hi.calls, ?_⟩, hnodup, hlt, fun _ => rfl, fun h => by cases h⟩
      rw [hpending]
      unfold State.waiting
      split <;> rfl
    · exact ⟨⟨hi.right.calls, hi.right.toCall⟩, hi.nodup, hi.id_lt, hi.last, fun h => by cases h⟩

/-- **The destructor calls the latest registration that is pending.** -/
theorem inv_call (hi : Inv iterations s) (hphase : s.phase = .exiting) (hr : s.running.getLast? = some r) :
    Inv iterations (s.call r) := by
  obtain ⟨init, hrunning⟩ := List.getLast?_eq_some_iff.1 hr
  have hdrop : (s.call r).running = init := by
    unfold State.call
    rw [hrunning, List.dropLast_concat]
  have hwaiting : s.waiting iterations = s.registrations ++ init ++ [r] := by
    rw [hi.waiting_eq, hrunning, List.append_assoc]
  have hnodup := hi.nodup
  rw [hrunning, ← List.append_assoc] at hnodup
  obtain ⟨hinit, -, hne⟩ := List.nodup_append.1 hnodup
  have hne' : ∀ x ∈ s.registrations ++ init, x ≠ r := fun x hx => hne x hx r (List.mem_singleton.2 rfl)
  have hsub : ((s.call r).registrations ++ (s.call r).running).Sublist (s.registrations ++ s.running) := by
    rw [hdrop, hrunning]
    exact (List.sublist_append_left init [r]).append_left _
  refine ⟨right_iff.2 ⟨?_, ?_⟩, hi.nodup.sublist hsub, fun x hx => hi.id_lt x (hsub.subset hx), hi.last,
    fun h => absurd hphase (by rw [show s.phase = .body from h]; decide)⟩
  · rw [show (s.call r).trace = s.trace ++ [.called r] from rfl, callsLatest_append]
    refine ⟨hi.calls, fun r' h => ?_⟩
    cases h
    rw [hi.pending_eq, hwaiting, List.getLast?_concat]
  · rw [show (s.call r).trace = s.trace ++ [.called r] from rfl, pending_called, hi.pending_eq, hwaiting,
      List.filter_append, List.filter_eq_self.2 (fun x hx => by simpa using hne' x hx)]
    have hself : [r].filter (fun r' => !(r' == r)) = [] := by simp
    rw [hself, List.append_nil]
    unfold State.waiting
    rw [hdrop]
    split
    · rfl
    · rename_i h
      rw [hi.last (Nat.not_lt.1 h)]

theorem inv_step {l : Label} (hi : Inv iterations s) (hok : Orderly iterations s l)
    (h : step iterations s l = some s') : Inv iterations s' := by
  cases l with
  | atexit p memory =>
    simp only [step] at h
    split at h
    · cases h
    · cases h
      exact inv_atexit hi hok
  | cancel p =>
    simp only [step] at h
    split at h
    · cases h
    · cases h
      exact inv_cancel hi hok
  | exit =>
    simp only [step] at h
    split at h
    · rename_i hbody
      cases h
      exact inv_round hi (hi.body hbody)
    · cases h
  | call =>
    simp only [step] at h
    split at h
    · rename_i hphase
      obtain ⟨r, hr, rfl⟩ := Option.map_eq_some_iff.1 h
      exact inv_call hi hphase hr
    · cases h
  | next =>
    simp only [step] at h
    split at h
    · rename_i hdone
      cases h
      exact inv_round hi hdone.2
    · cases h

theorem not_right_step {l : Label} (hi : Inv iterations s) (hok : ¬ Orderly iterations s l)
    (h : step iterations s l = some s') : ¬ Right iterations s' := by
  cases l with
  | atexit p memory =>
    simp only [step] at h
    split at h
    · cases h
    · cases h
      exact not_right_atexit hi hok
  | cancel p =>
    simp only [step] at h
    split at h
    · cases h
    · cases h
      exact not_right_cancel hi hok
  | exit => exact absurd trivial hok
  | call => exact absurd trivial hok
  | next => exact absurd trivial hok

/-! ## What `toCall` says comes true -/

/-- The moves of a thread whose exit functions register and cancel nothing more. -/
def Quiet (l : Label) : Prop := l = .exit ∨ l = .call ∨ l = .next

/-- The helper that is being deleted is emptied from the back. -/
theorem run_calls (fns : ThreadExitHelper) : ∀ s : State, s.phase = .exiting → s.running = fns →
    (system iterations).run s (List.replicate fns.length .call) =
      some { s with running := [], trace := s.trace ++ fns.reverse.map .called } := by
  induction fns using List.reverseRecOn with
  | nil =>
    rintro s - hrunning
    have hs : ({ s with running := [] } : State) = s := by rw [← hrunning]
    simpa using hs.symm
  | append_singleton fns r ih =>
    intro s hphase hrunning
    have hstep : (system iterations).step s .call = some (s.call r) := by
      simp [system, step, hphase, hrunning]
    have hcall : (s.call r).running = fns := by
      simp [State.call, hrunning]
    rw [List.length_append, List.length_singleton, List.replicate_succ, System.run_cons, hstep, Option.bind_some,
      ih (s.call r) hphase hcall]
    simp [State.call]

theorem round_of_none (h : s.helper = none) : s.round iterations = { s with phase := .exited } := by
  unfold State.round
  rw [h]

theorem round_of_some {fns : ThreadExitHelper} (h : s.helper = some fns) (hrounds : s.rounds < iterations) :
    s.round iterations = { s with helper := none, phase := .exiting, running := fns, rounds := s.rounds + 1 } := by
  unfold State.round
  rw [h]
  exact if_pos hrounds

theorem round_of_le (hrounds : ¬ s.rounds < iterations) : s.round iterations = { s with phase := .exited } := by
  unfold State.round
  split
  · rfl
  · rw [if_neg hrounds]

/-- A round that is begun is followed by the end of the thread. -/
theorem run_round (iterations : Nat) (hrunning : s.running = []) : ∃ bs s', (∀ l ∈ bs, Quiet l) ∧
    (system iterations).run (s.round iterations) bs = some s' ∧ s'.phase = .exited ∧
    s'.trace = s.trace ++ (s.toCall iterations).map .called := by
  by_cases hrounds : s.rounds < iterations
  · cases hhelper : s.helper with
    | none =>
      rw [round_of_none hhelper]
      refine ⟨[], _, fun _ h => absurd h List.not_mem_nil, rfl, rfl, ?_⟩
      simp [State.toCall, State.registrations, hrunning, hhelper]
    | some fns =>
      rw [round_of_some hhelper hrounds]
      let begun : State := { s with helper := none, phase := .exiting, running := fns, rounds := s.rounds + 1 }
      let ended : State := { begun with running := [], phase := .exited, trace := s.trace ++ fns.reverse.map .called }
      refine ⟨List.replicate fns.length .call ++ [.next], ended, ?_, ?_, rfl, ?_⟩
      · intro l hl
        rcases List.mem_append.1 hl with hl | hl
        · exact .inr (.inl (List.eq_of_mem_replicate hl))
        · exact .inr (.inr (List.mem_singleton.1 hl))
      · rw [System.run_append, run_calls fns begun rfl rfl]
        rfl
      · simp [ended, State.toCall, State.registrations, hrunning, hhelper, hrounds]
  · rw [round_of_le hrounds]
    refine ⟨[], _, fun _ h => absurd h List.not_mem_nil, rfl, rfl, ?_⟩
    simp [State.toCall, hrunning, hrounds]

theorem body_step {l : Label} (hbody : s.phase = .body → s.running = []) (h : step iterations s l = some s') :
    s'.phase = .body → s'.running = [] := by
  have hround : (s.round iterations).phase ≠ .body := by
    unfold State.round
    split
    · intro h
      cases h
    · split <;> (intro h; cases h)
  cases l with
  | atexit p memory =>
    simp only [step] at h
    split at h
    · cases h
    · cases h
      exact hbody
  | cancel p =>
    simp only [step] at h
    split at h
    · cases h
    · cases h
      exact hbody
  | exit =>
    simp only [step] at h
    split at h
    · cases h
      exact fun h => absurd h hround
    · cases h
  | call =>
    simp only [step] at h
    split at h
    · rename_i hphase
      obtain ⟨r, -, rfl⟩ := Option.map_eq_some_iff.1 h
      exact fun h => absurd (hphase.symm.trans h) (by decide)
    · cases h
  | next =>
    simp only [step] at h
    split at h
    · cases h
      exact fun h => absurd h hround
    · cases h

/-- **What a state says will be called is called, if the thread exits without another registration or
cancellation.** -/
theorem run_toCall (hbody : s.phase = .body → s.running = []) (hphase : s.phase ≠ .exited) : ∃ bs s',
    (∀ l ∈ bs, Quiet l) ∧ (system iterations).run s bs = some s' ∧ s'.phase = .exited ∧
    s'.trace = s.trace ++ (s.toCall iterations).map .called := by
  cases hp : s.phase with
  | exited => exact absurd hp hphase
  | body =>
    obtain ⟨bs, s', hq, hr, hexited, htrace⟩ := run_round iterations (hbody hp)
    refine ⟨.exit :: bs, s', List.forall_mem_cons.2 ⟨.inl rfl, hq⟩, ?_, hexited, htrace⟩
    have hstep : (system iterations).step s .exit = some (s.round iterations) := by
      simp [system, step, hp]
    rw [System.run_cons, hstep]
    exact hr
  | exiting =>
    let emptied : State := { s with running := [], trace := s.trace ++ s.running.reverse.map .called }
    obtain ⟨bs, s', hq, hr, hexited, htrace⟩ := run_round (s := emptied) iterations rfl
    refine ⟨List.replicate s.running.length .call ++ .next :: bs, s', ?_, ?_, hexited, ?_⟩
    · intro l hl
      rcases List.mem_append.1 hl with hl | hl
      · exact .inr (.inl (List.eq_of_mem_replicate hl))
      · rcases List.mem_cons.1 hl with rfl | hl
        · exact .inr (.inr rfl)
        · exact hq l hl
    · have hstep : (system iterations).step emptied .next = some (emptied.round iterations) := by
        simp [system, step, emptied, hp]
      rw [System.run_append, run_calls s.running s hp rfl, Option.bind_some, System.run_cons, hstep]
      exact hr
    · rw [htrace]
      simp [emptied, State.toCall, State.registrations]

/-- **Exactly the orderly calls are right.**  In every state that a run passes through the calls made were those of the
latest registrations that were not cancelled, and what will be called is all of those that are left, exactly if every
call of `thread_atexit` and `thread_atexit_cancel` meets a state in which it is orderly. -/
theorem right_iff_orderly (iterations : Nat) {as : List Label} (hr : (system iterations).run initState as = some s) :
    ((∀ s₁, (system iterations).Passes initState as s₁ → Right iterations s₁) ↔
      (system iterations).RunOk (Orderly iterations) initState as) ∧
    ∀ s₁, (system iterations).Passes initState as s₁ → s₁.phase ≠ .exited → ∃ bs s₂, (∀ l ∈ bs, Quiet l) ∧
      (system iterations).run s₁ bs = some s₂ ∧ s₂.phase = .exited ∧
      s₂.trace = s₁.trace ++ (s₁.toCall iterations).map .called := by
  constructor
  · exact System.passes_iff_runOk (I := Inv iterations) (fun _ hi => hi.right)
      (fun _ _ _ hi hok hs => inv_step hi hok hs) (fun _ _ _ hi hok hs => not_right_step hi hok hs) inv_initState hr
  · rintro s₁ ⟨as₁, as₂, -, h₁⟩ hphase
    have hreach : (system iterations).Reachable s₁ := System.Reachable.run (.init rfl) as₁ h₁
    refine run_toCall (hreach.invariant (I := fun s => s.phase = .body → s.running = []) ?_ ?_) hphase
    · rintro s rfl _
      rfl
    · exact fun _ _ _ hbody _ hs => body_step hbody hs

/-- Two registrations of a pair with another one between them, and a cancellation. -/
def apartRun : List Label :=
  [.atexit ⟨1, 5⟩ true, .atexit ⟨2, 6⟩ true, .atexit ⟨1, 5⟩ true, .cancel ⟨1, 5⟩, .exit, .call, .call, .next]

/-- **A cancelled pair is called.** -/
theorem apartRun_calls_cancelled : ∃ s, (system 4).run initState apartRun = some s ∧ s.phase = .exited ∧
    s.trace = [.registered ⟨0, ⟨1, 5⟩⟩, .registered ⟨1, ⟨2, 6⟩⟩, .registered ⟨2, ⟨1, 5⟩⟩, .cancelled ⟨1, 5⟩,
      .called ⟨2, ⟨1, 5⟩⟩, .called ⟨1, ⟨2, 6⟩⟩] ∧
    ¬ CallsLatest s.trace ∧ ¬ ∀ s₁, (system 4).Passes initState apartRun s₁ → Right 4 s₁ := by
  have hrun : ((system 4).run initState apartRun).map (fun s => (s.phase, s.trace)) = some (.exited,
      [.registered ⟨0, ⟨1, 5⟩⟩, .registered ⟨1, ⟨2, 6⟩⟩, .registered ⟨2, ⟨1, 5⟩⟩, .cancelled ⟨1, 5⟩,
        .called ⟨2, ⟨1, 5⟩⟩, .called ⟨1, ⟨2, 6⟩⟩]) := by decide
  obtain ⟨s, hs, hx⟩ := Option.map_eq_some_iff.1 hrun
  obtain ⟨hphase, htrace⟩ := Prod.mk.inj hx
  have hcalls : ¬ CallsLatest s.trace := by
    intro h
    have := h [.registered ⟨0, ⟨1, 5⟩⟩, .registered ⟨1, ⟨2, 6⟩⟩, .registered ⟨2, ⟨1, 5⟩⟩, .cancelled ⟨1, 5⟩]
      ⟨2, ⟨1, 5⟩⟩ [.called ⟨1, ⟨2, 6⟩⟩] htrace
    exact absurd this (by decide)
  exact ⟨s, hs, hphase, htrace, hcalls, fun h => hcalls (h s ⟨apartRun, [], rfl, hs⟩).calls⟩

/-- Exit functions that cancel what nobody registered and, when they are the last, register another one. -/
def orderlyRun : List Label :=
  [.atexit ⟨1, 5⟩ true, .atexit ⟨2, 6⟩ true, .atexit ⟨2, 6⟩ true, .cancel ⟨2, 6⟩, .atexit ⟨3, 7⟩ true, .exit, .call,
    .cancel ⟨2, 6⟩, .call, .atexit ⟨2, 6⟩ true, .next, .call, .next]

theorem right_iff_orderly_orderlyRun : ∃ s, (system 4).run initState orderlyRun = some s ∧ s.phase = .exited ∧
    ∀ s₁, (system 4).Passes initState orderlyRun s₁ → Right 4 s₁ := by
  have hrun : ((system 4).run initState orderlyRun).map State.phase = some .exited := by decide
  have hok : (system 4).RunOk (Orderly 4) initState orderlyRun := by decide
  obtain ⟨s, hs, hphase⟩ := Option.map_eq_some_iff.1 hrun
  exact ⟨s, hs, hphase, (right_iff_orderly 4 hs).1.2 hok⟩

end ThreadExit
end ContentionProf
