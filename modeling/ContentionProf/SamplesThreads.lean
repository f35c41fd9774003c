import ContentionProf.SamplesWorkers
/-!
# SamplesThreads — an object from the combiner's list to the dump thread's hand

A round of the grab thread takes the lists of the combiner, sorts the objects into the vectors, puts those it keeps on
its own list and publishes this; the dump thread takes what was published and goes through it.  Between two of these
places an object is in a vector or in a thread's hand, and there it is linked to nothing.
-/
namespace ContentionProf
namespace Samples

open Links (Same)

variable {c : Config} {s s' : State} {m : Place → List Obj} {t : Thread} {x : Obj} {k : Place}

theorem holder_grab {g : GrabPc} (hg : s.grab = g) (k : Place) : holder c s k = holder c { s with grab := g } k := by
  rw [← hg]

theorem Inv.holds_grab {g : GrabPc} (h : Inv c s m) (hg : s.grab = g) (k : Place) :
    Holds s.links (holder c { s with grab := g } k) (m k) := holder_grab hg k ▸ h.place.holds k

theorem ne_obj_of_append {n : Node} {l l' : List Obj} (h₁ : ∀ y ∈ l, n ≠ .obj y) (h₂ : ∀ y ∈ l', n ≠ .obj y) :
    ∀ y ∈ l ++ l', n ≠ .obj y := fun y hy => (List.mem_append.1 hy).elim (h₁ y) (h₂ y)

theorem Loops.step {p : Collector.PreprocessorMap Obj} {g g' : GrabPc} {d : DumpPc} {m' : Place → List Obj}
    (h : Loops p g d m) (hc : g'.collecting = true → g.collecting = true) (hs : g'.sorting = false)
    (hm : m' .dumpLocal = m .dumpLocal) : Loops p g' d m' where
  sorted := h.sorted
  empty hg := h.empty (hc hg)
  sort q hq := by
    rw [hq] at hs
    cases hs
  dump q hq := by rw [hm]; exact h.dump q hq

/-! ## The combiner's lists -/

/-- The vectors are cleared; the last round has handled what is in them. -/
theorem Inv.clear (h : Inv c s m) (hg : s.grab = .clear) :
    Inv c { s with prepMap := Collector.clearVectors s.prepMap, grab := .reset } m := by
  refine h.calm rfl rfl rfl (fun _ hu => hu) (h.place.of_eq rfl rfl (fun k => ?_)) h.sessions
    (h.reducer.of_eq rfl rfl rfl rfl rfl (by simp [GrabPc.hasMtx]))
    ⟨?_, fun _ => ?_, fun p hp => (by cases hp), h.loops.dump⟩ h.calls
  · rw [holder_grab hg]
    cases k <;> rfl
  · exact List.pairwise_map.2 h.loops.sorted
  · show (s.prepMap.map _).flatMap _ = []
    rw [List.flatMap_map]
    exact List.flatMap_eq_nil_iff.2 (fun _ _ => rfl)

/-- Lines 159–161 of `reset_all_agents`. -/
theorem Inv.reset (h : Inv c s m) (hg : s.grab = .reset) (hm : s.mtx = none) : ∃ m', Inv c
    { s with mtx := some c.grabThread, globalResult := none, grab := .exchange 0 s.globalResult } m' := by
  have htmp : m .tmp = [] := h.holds_grab hg .tmp
  refine ⟨_, h.calm rfl rfl rfl (fun _ hu => hu) (h.place.move₂ .globalResult .tmp [] (m .globalResult) rfl (by simp) ?_
    (fun k hk hk' => ?_) (fun _ _ _ _ => ⟨rfl, rfl⟩) rfl (h.place.holds .globalResult)) h.sessions ?_
    (h.loops.step (fun _ => by rw [hg]; rfl) rfl rfl) h.calls⟩
  · rw [htmp, List.append_nil]; exact .refl _
  · rw [holder_grab hg]
    cases k <;> first | rfl | contradiction
  · refine ⟨h.reducer.nodup, fun u => (h.reducer.pc u).of_eq .rfl rfl rfl, h.reducer.combiner, h.reducer.agents,
      fun u hu => ?_, fun _ => rfl, h.reducer.roles⟩
    have := h.reducer.mtx u hu
    rw [hm] at this
    cases this

/-- The grab thread has the mutex, so no worker has it. -/
theorem Inv.not_hasMtx (h : Inv c s m) (hg : s.grab.hasMtx = true) (u : Thread) : (s.pc u).hasMtx = false := by
  rw [← Bool.not_eq_true]
  intro hu
  have hgu : c.grabThread = u := Option.some.inj ((h.reducer.grab hg).symm.trans (h.reducer.mtx u hu))
  have hr := h.reducer.roles
  rw [hgu] at hr
  rw [isIdle_iff.1 hr] at hu
  cases hu

/-- Line 163: the list of an agent is taken. -/
theorem Inv.exchange {node : Nat} {tmp : Option Obj} {u : Thread} (h : Inv c s m) (hg : s.grab = .exchange node tmp)
    (hu : u ∈ s.agents) : ∃ m', Inv c { s.setElement u none with grab := .combine node tmp (s.element u) } m' := by
  have hprev : m .prev = [] := h.holds_grab hg .prev
  have hmtx := h.not_hasMtx (by rw [hg]; rfl)
  refine ⟨_, h.calm rfl rfl rfl (fun _ hu => hu) (h.place.move₂ (.agent u) .prev [] (m (.agent u)) rfl (by simp) ?_
    (fun k hk hk' => ?_) (fun _ _ _ _ => ⟨rfl, rfl⟩) ?_ (h.holds_agent hu)) h.sessions ?_
    (h.loops.step (fun _ => by rw [hg]; rfl) rfl rfl) h.calls⟩
  · rw [hprev, List.append_nil]; exact .refl _
  · refine Eq.trans ?_ (holder_setElement_of_ne (v := none) hk)
    rw [holder_grab (s := s.setElement u none) hg]
    cases k <;> first | rfl | contradiction
  · rw [holder_agent (v := none)]
    · exact (rfl : ([] : List Obj) = [])
    · exact hu
    · exact Function.update_self ..
  · refine ⟨h.reducer.nodup, fun v => ?_, h.reducer.combiner, h.reducer.agents, h.reducer.mtx,
      fun _ => h.reducer.grab (by rw [hg]; rfl), h.reducer.roles⟩
    by_cases hvu : v = u
    · have hv := h.reducer.pc v
      have hm := hmtx v
      show PcOk _ v (s.pc v)
      cases hp : s.pc v with
      | append y =>
        rw [hp] at hv
        exact absurd (hvu ▸ hu) hv.1
      | erase val =>
        rw [hp] at hm
        cases hm
      | _ => rw [hp] at hv; exact hv
    · exact (h.reducer.pc v).of_eq .rfl (Function.update_of_ne hvu ..) rfl

/-- The mutex is unlocked, and `reset_all_agents` returns. -/
theorem Inv.resetDone {node : Nat} {tmp : Option Obj} (h : Inv c s m) (hg : s.grab = .exchange node tmp) :
    Inv c { s with mtx := none, grab := .head tmp } m := by
  refine h.calm rfl rfl rfl (fun _ hu => hu) (h.place.of_eq rfl rfl (fun k => ?_)) h.sessions
    ⟨h.reducer.nodup, fun u => (h.reducer.pc u).of_eq .rfl rfl rfl, h.reducer.combiner, h.reducer.agents,
      fun u hu => ?_,
      fun hm => (by cases hm), h.reducer.roles⟩
    (h.loops.step (fun _ => by rw [hg]; rfl) rfl rfl) h.calls
  · rw [holder_grab hg]
    cases k <;> rfl
  · have := h.not_hasMtx (by rw [hg]; rfl) u
    rw [show (s.pc u).hasMtx = true from hu] at this
    cases this

/-- Line 164: it goes behind those taken before. -/
theorem Inv.combine {node : Nat} {tmp prev : Option Obj} (h : Inv c s m) (hg : s.grab = .combine node tmp prev) :
    ∃ m', Inv c { s with
      links := (combine s.links tmp prev).1, grab :=
      .exchange (node + 1) (Samples.combine s.links tmp prev).2 } m' := by
  have hne : Place.tmp ≠ Place.prev := by simp
  obtain ⟨hholds, hsame⟩ := combine_spec (h.holds_grab hg .tmp) (h.holds_grab hg .prev) (h.place.disjoint hne)
  refine ⟨_, h.calm rfl rfl rfl (fun _ hu => hu) (h.place.move₂ .tmp .prev (m .tmp ++ m .prev) [] rfl hne ?_
    (fun k hk hk' => ?_) (fun n _ h₁ h₂ => hsame n (ne_obj_of_append h₁ h₂)) hholds rfl) h.sessions
    (h.reducer.of_eq rfl rfl rfl rfl rfl (fun _ => by rw [hg]; rfl))
    (h.loops.step (fun _ => by rw [hg]; rfl) rfl rfl) h.calls⟩
  · rw [List.append_nil]
  · rw [holder_grab hg]
    cases k <;> first | rfl | contradiction

/-! ## The vectors -/

theorem Inv.grabQuiet {g g' : GrabPc} (h : Inv c s m) (hg : s.grab = g)
    (hholder : ∀ k, holder c { s with grab := g' } k = holder c { s with grab := g } k) (hs : g'.sorting = false)
    (hc : g'.collecting = true → g.collecting = true) (hm : g'.hasMtx = true → g.hasMtx = true) :
    Inv c { s with grab := g' } m :=
  h.calm rfl rfl rfl (fun _ hu => hu) (h.place.of_eq rfl rfl (fun k => (hholder k).trans (holder_grab hg k).symm))
    h.sessions (h.reducer.of_eq rfl rfl rfl rfl rfl (hg ▸ hm)) (h.loops.step (hg ▸ hc) hs rfl) h.calls

/-- `tmp_root` is made, and the list goes behind it. -/
theorem Inv.head {a : Obj} (h : Inv c s m) (hg : s.grab = .head (some a)) : ∃ m', Inv c { s with
      links := (s.links.construct (.root .tmpRoot)).insertBeforeAsList (.obj a) (.root .tmpRoot)
      grab := .sort (((s.links.construct (.root .tmpRoot)).insertBeforeAsList (.obj a) (.root .tmpRoot)).next
        (.root .tmpRoot)) } m' := by
  have hne : Place.tmp ≠ Place.tmpRoot := by simp
  have hroot : m .tmpRoot = [] := h.holds_grab hg .tmpRoot
  have hempty := h.loops.empty (by rw [hg]; rfl)
  have htmp : Holds (s.links.construct (.root .tmpRoot)) (.list (some a)) (m .tmp) :=
    (h.holds_grab hg .tmp).congr (fun y _ => Links.construct_same (by simp)) (fun r hr => by cases hr)
  obtain ⟨hholds, hsame⟩ := (holds_construct s.links .tmpRoot).insertList htmp (by simp)
  refine ⟨_, h.calm rfl rfl rfl (fun _ hu => hu) (h.place.move₂ .tmp .tmpRoot [] (m .tmp) rfl hne ?_
    (fun k hk hk' => ?_) (fun n hr h₁ _ => ?_) rfl hholds) h.sessions
    (h.reducer.of_eq rfl rfl rfl rfl rfl (by simp [GrabPc.hasMtx]))
    ⟨h.loops.sorted, fun hc => (by cases hc), fun p hp => ?_, h.loops.dump⟩ h.calls⟩
  · rw [hroot, List.append_nil]; exact .refl _
  · rw [holder_grab hg]
    cases k with
    | vectors => exact congrArg Holder.flat hempty
    | _ => first | rfl | contradiction
  · have hn : n ≠ .root .tmpRoot := fun he => (hr _ he).2 rfl
    have h₂ := hsame n hn h₁
    have h₃ := Links.construct_same (h := s.links) hn
    exact ⟨h₂.1.trans h₃.1, h₂.2.trans h₃.2⟩
  · rw [← GrabPc.sort.inj hp]
    exact hholds.next_root

/-- **An object leaves the list and goes into its vector.** -/
theorem Inv.sort (h : Inv c s m) (hg : s.grab = .sort (.obj x)) : ∃ m', Inv c { s with
      links := s.links.removeFromList (.obj x)
      prepMap := OrderedMap.alter [] (· ++ [x]) s.prepMap (c.preprocessor x)
      grab := .sort (s.links.next (.obj x)) } m' := by
  have hne : Place.tmpRoot ≠ Place.vectors := by simp
  have hvar := h.loops.sort _ hg
  obtain ⟨l, hl⟩ : ∃ l, m .tmpRoot = x :: l := by
    revert hvar
    cases m .tmpRoot with
    | nil => intro hvar; cases hvar
    | cons y l => intro hvar; cases hvar; exact ⟨l, rfl⟩
  have hroot : Holds s.links (.root .tmpRoot) (x :: l) := hl ▸ h.holds_grab hg .tmpRoot
  obtain ⟨hholds, hself, hnext, hsame⟩ := hroot.remove
  have hvec : holder c s .vectors = .flat (s.prepMap.flatMap Prod.snd) := holder_grab hg .vectors
  have hperm := OrderedMap.perm_alter_append (k := c.preprocessor x) (x := x) s.prepMap
  refine ⟨_, h.calm rfl rfl rfl (fun _ hu => hu) (h.place.move₂ .tmpRoot .vectors l
    ((OrderedMap.alter [] (· ++ [x]) s.prepMap (c.preprocessor x)).flatMap Prod.snd) rfl hne ?_ (fun k hk hk' => ?_)
    (fun n hr h₁ _ => hsame n (fun he => (hr _ he).1 rfl) (hl ▸ h₁)) hholds ⟨rfl, fun y hy => ?_⟩) h.sessions
    (h.reducer.of_eq rfl rfl rfl rfl rfl (by simp [GrabPc.hasMtx]))
    ⟨OrderedMap.sorted_alter h.loops.sorted, fun hc => (by cases hc), fun p hp => ?_, h.loops.dump⟩ h.calls⟩
  · rw [hl, h.place.flat hvec]
    exact (hperm.append_left l).trans List.perm_middle
  · rw [holder_grab hg]
    cases k <;> first | rfl | contradiction
  · rcases List.mem_cons.1 (hperm.subset hy) with rfl | hy
    · exact hself
    · refine (h.place.selfLinked hvec hy).of_same (hsame _ (by simp) (fun z hz he => ?_))
      cases he
      exact h.place.disjoint hne y (by rw [hl]; exact hz) (by rw [h.place.flat hvec]; exact hy)
  · rw [← GrabPc.sort.inj hp]
    exact hnext

/-- `tmp_root` is empty: `root` is made, and the vectors are walked in the order of the keys. -/
theorem Inv.sorted (h : Inv c s m) (hg : s.grab = .sort (.root .tmpRoot)) : ∃ m', Inv c { s with
      links := s.links.construct (.root .root), grab := .preps (s.prepMap.map Prod.fst) } m' := by
  have hne : Place.tmpRoot ≠ Place.root := by simp
  have hvar := h.loops.sort _ hg
  have htmp : m .tmpRoot = [] := by
    revert hvar
    cases m .tmpRoot with
    | nil => intro _; rfl
    | cons y l => intro hvar; cases hvar
  have hroot : m .root = [] := h.holds_grab hg .root
  refine ⟨_, h.calm rfl rfl rfl (fun _ hu => hu) (h.place.move₂ .tmpRoot .root [] [] rfl hne ?_ (fun k hk hk' => ?_)
    (fun n hr _ _ => Links.construct_same (fun he => (hr _ he).2 rfl)) rfl (holds_construct _ _)) h.sessions
    (h.reducer.of_eq rfl rfl rfl rfl rfl (by simp [GrabPc.hasMtx])) (h.loops.step (fun hc => (by cases hc)) rfl rfl)
    h.calls⟩
  · rw [htmp, hroot]
  · rw [holder_grab hg]
    cases k with
    | vectors => exact congrArg Holder.flat (OrderedMap.flatMap_find h.loops.sorted)
    | _ => first | rfl | contradiction

/-! ## The thread's own list -/

theorem drop_of_getElem? {l : List Obj} {i : Nat} (hx : l[i]? = some x) : l.drop i = x :: l.drop (i + 1) := by
  obtain ⟨hi, rfl⟩ := List.getElem?_eq_some_iff.1 hx
  exact List.drop_eq_getElem_cons hi

theorem Inv.vectorDone {p : Collector.Prep} {i : Nat} {it : List Collector.Prep} (h : Inv c s m)
    (hg : s.grab = .samples p i it) (hx : (OrderedMap.find [] s.prepMap p)[i]? = none) :
    Inv c { s with grab := .preps it } m := by
  refine h.grabQuiet hg (fun k => ?_) rfl (fun hc => hc) (fun hm => hm)
  cases k with
  | vectors =>
    show Holder.flat _ = Holder.flat (_ ++ _)
    rw [List.drop_eq_nil_of_le (List.getElem?_eq_none_iff.1 hx)]
    rfl
  | _ => rfl

/-- **A sample is dropped.** -/
theorem Inv.drop {p : Collector.Prep} {i : Nat} {it : List Collector.Prep} {malloc : Bool} {n d : Int} (h : Inv c s m)
    (hg : s.grab = .samples p i it) (hx : (OrderedMap.find [] s.prepMap p)[i]? = some x)
    (hs : destroy c { s with grabCount := n, grab := .samples p (i + 1) it, dropCount := d } c.grabThread x malloc =
      some s') : ∃ m', Inv c s' m' := by
  have hk : holder c s .vectors = .flat (x :: ((OrderedMap.find [] s.prepMap p).drop (i + 1) ++
      it.flatMap (OrderedMap.find [] s.prepMap))) := by
    rw [holder_grab hg, ← List.cons_append, ← drop_of_getElem? hx]
    rfl
  refine ⟨_, h.give (h.given hk hs rfl) hk rfl (fun k hk => ?_) rfl rfl rfl (fun _ hu => hu) h.sessions
    (h.reducer.of_eq rfl rfl rfl rfl rfl (by simp [GrabPc.hasMtx])) (h.loops.step (fun hc => (by cases hc)) rfl rfl)
    h.calls⟩
  rw [holder_grab hg]
  cases k <;> first | rfl | contradiction

/-- **A sample goes behind `root`.** -/
theorem Inv.keep {p : Collector.Prep} {i : Nat} {it : List Collector.Prep} {n : Int} (h : Inv c s m)
    (hg : s.grab = .samples p i it) (hx : (OrderedMap.find [] s.prepMap p)[i]? = some x) : ∃ m', Inv c { s with
      grabCount := n
      grab := .samples p (i + 1) it
      links := s.links.insertBefore (.obj x) (.root .root) } m' := by
  have hne : Place.vectors ≠ Place.root := by simp
  have hk : holder c s .vectors = .flat (x :: ((OrderedMap.find [] s.prepMap p).drop (i + 1) ++
      it.flatMap (OrderedMap.find [] s.prepMap))) := by
    rw [holder_grab hg, ← List.cons_append, ← drop_of_getElem? hx]
    rfl
  have hm := h.place.flat hk
  have hdis := h.place.disjoint hne
  rw [hm] at hdis
  have hnd := h.place.places.nodup .vectors
  rw [hm] at hnd
  obtain ⟨hholds, hsame⟩ := Holds.insert (h.holds_grab hg .root) (h.place.selfLinked hk List.mem_cons_self)
    (hdis x List.mem_cons_self)
  have hsame : ∀ {n}, n ≠ .root .root → (∀ y ∈ m .root, n ≠ .obj y) → n ≠ .obj x →
      Same s.links (s.links.insertBefore (.obj x) (.root .root)) n := fun hn hy hnx =>
    hsame _ hn (ne_obj_of_append hy (fun y hy => by rw [List.mem_singleton.1 hy]; exact hnx))
  refine ⟨_, h.calm rfl rfl rfl (fun _ hu => hu) (h.place.move₂ .vectors .root _ (m .root ++ [x]) rfl hne ?_
    (fun k hk hk' => ?_) (fun n hr h₁ h₂ => hsame (fun he => (hr _ he).2 rfl) h₂ ?_) ⟨rfl, fun y hy => ?_⟩ hholds)
    h.sessions (h.reducer.of_eq rfl rfl rfl rfl rfl (by simp [GrabPc.hasMtx]))
    (h.loops.step (fun hc => (by cases hc)) rfl rfl) h.calls⟩
  · rw [hm, ← List.append_assoc]
    exact List.perm_append_comm.trans (List.append_assoc _ _ _ ▸ .refl _)
  · rw [holder_grab hg]
    cases k <;> first | rfl | contradiction
  · exact h₁ x (by rw [hm]; exact List.mem_cons_self)
  · refine (h.place.selfLinked hk (List.mem_cons_of_mem _ hy)).of_same (hsame (by simp) (fun z hz he => ?_)
      (fun he => ?_))
    · cases he
      exact hdis y (List.mem_cons_of_mem _ hy) hz
    · cases he
      exact (List.nodup_cons.1 hnd).1 hy

theorem root_first {r : Root} (h : Holds s.links (.root r) (m k)) :
    (s.links.next (.root r) = .root r → m k = []) ∧ ∀ a, s.links.next (.root r) = .obj a → ∃ l, m k = a :: l := by
  have hnext := h.next_root
  revert hnext
  cases m k with
  | nil =>
    intro hnext
    refine ⟨fun _ => rfl, fun a ha => ?_⟩
    rw [hnext] at ha
    cases ha
  | cons y l =>
    intro hnext
    refine ⟨fun hr => ?_, fun a ha => ?_⟩
    · rw [hnext] at hr
      cases hr
    · rw [hnext] at ha
      cases ha
      exact ⟨l, rfl⟩

/-- Nothing was kept. -/
theorem Inv.pushNone (h : Inv c s m) (hg : s.grab = .push) (hn : s.links.next (.root .root) = .root .root) :
    ∃ m', Inv c { s with grab := .sleep } m' := by
  have hroot : m .root = [] := (root_first (h.holds_grab hg .root)).1 hn
  refine ⟨_, h.calm rfl rfl rfl (fun _ hu => hu) (h.place.hold .root [] rfl rfl (by rw [hroot]) (fun k hk => ?_) rfl)
    h.sessions (h.reducer.of_eq rfl rfl rfl rfl rfl (by simp [GrabPc.hasMtx]))
    (h.loops.step (fun hc => (by cases hc)) rfl rfl) h.calls⟩
  rw [holder_grab hg]
  cases k <;> first | rfl | contradiction

/-- **`root` leaves its list**, and a pointer to the first object is all that is left of it. -/
theorem Inv.push {a : Obj} (h : Inv c s m) (hg : s.grab = .push) (hn : s.links.next (.root .root) = .obj a) :
    ∃ m', Inv c { s with links := s.links.removeFromList (.root .root), grab := .publish a } m' := by
  have hne : Place.root ≠ Place.head := by simp
  have hholds : Holds s.links (.root .root) (m .root) := h.holds_grab hg .root
  obtain ⟨l, hl⟩ := (root_first hholds).2 a hn
  have hhead : m .head = [] := h.holds_grab hg .head
  obtain ⟨hlist, -, hsame⟩ := (hl ▸ hholds).detach
  refine ⟨_, h.calm rfl rfl rfl (fun _ hu => hu) (h.place.move₂ .root .head [] (a :: l) rfl hne ?_ (fun k hk hk' => ?_)
    (fun n hr h₁ _ => hsame n (fun he => (hr _ he).1 rfl) (hl ▸ h₁)) rfl hlist) h.sessions
    (h.reducer.of_eq rfl rfl rfl rfl rfl (by simp [GrabPc.hasMtx])) (h.loops.step (fun hc => (by cases hc)) rfl rfl)
    h.calls⟩
  · rw [hl, hhead, List.append_nil, List.nil_append]
  · rw [holder_grab hg]
    cases k <;> first | rfl | contradiction

/-- **The list goes behind `dump_root_`.** -/
theorem Inv.publish {a : Obj} (h : Inv c s m) (hg : s.grab = .publish a) : ∃ m', Inv c { s with
      links := s.links.insertBeforeAsList (.obj a) (.root .dumpRoot), grab := .sleep } m' := by
  have hne : Place.head ≠ Place.dumpRoot := by simp
  obtain ⟨hholds, hsame⟩ := Holds.insertList (h.holds_grab hg .dumpRoot) (h.holds_grab hg .head)
    (h.place.disjoint hne.symm)
  refine ⟨_, h.calm rfl rfl rfl (fun _ hu => hu) (h.place.move₂ .head .dumpRoot [] (m .dumpRoot ++ m .head) rfl hne ?_
    (fun k hk hk' => ?_) (fun n hr h₁ h₂ => hsame n (fun he => (hr _ he).2 rfl) (ne_obj_of_append h₂ h₁)) rfl hholds)
    h.sessions (h.reducer.of_eq rfl rfl rfl rfl rfl (by simp [GrabPc.hasMtx]))
    (h.loops.step (fun hc => (by cases hc)) rfl rfl) h.calls⟩
  · exact (List.perm_append_comm : (m .dumpRoot ++ m .head).Perm (m .head ++ m .dumpRoot))
  · rw [holder_grab hg]
    cases k <;> first | rfl | contradiction

/-- **The next step of the grab thread.** -/
theorem Inv.grab {malloc : Bool} (h : Inv c s m) (hs : grabStep c s malloc = some s') : ∃ m', Inv c s' m' := by
  unfold grabStep at hs
  cases hg : s.grab <;> rw [hg] at hs <;> dsimp only at hs
  case clear => cases hs; exact ⟨m, h.clear hg⟩
  case reset =>
    split at hs
    · rename_i hm
      cases hs
      exact h.reset hg hm
    · cases hs
  case exchange node tmp =>
    split at hs
    · rename_i u hu
      cases hs
      exact h.exchange hg (List.mem_of_getElem? hu)
    · cases hs; exact ⟨m, h.resetDone hg⟩
  case combine node tmp prev => cases hs; exact h.combine hg
  case head a =>
    cases a with
    | none =>
      cases hs
      exact ⟨m, h.grabQuiet hg (fun k => by cases k <;> rfl) rfl (fun hc => (by cases hc)) (fun hm => (by cases hm))⟩
    | some a => cases hs; exact h.head hg
  case sort p =>
    cases p with
    | obj x => cases hs; exact h.sort hg
    | root r =>
      dsimp only at hs
      split at hs
      · rename_i hr
        cases hs
        exact h.sorted (hr ▸ hg)
      · cases hs
  case preps it =>
    cases it with
    | nil =>
      cases hs
      exact ⟨m, h.grabQuiet hg (fun k => by cases k <;> rfl) rfl (fun hc => hc) (fun hm => hm)⟩
    | cons p it =>
      cases hs
      exact ⟨m, h.grabQuiet hg (fun k => by cases k <;> rfl) rfl (fun hc => hc) (fun hm => hm)⟩
  case samples p i it =>
    split at hs
    · rename_i hx
      cases hs
      exact ⟨m, h.vectorDone hg hx⟩
    · rename_i x hx
      split at hs
      · exact h.drop hg hx hs
      · cases hs; exact h.keep hg hx
  case push =>
    split at hs
    · rename_i r hn
      split at hs
      · rename_i hr
        cases hs
        exact h.pushNone hg (hr ▸ hn)
      · cases hs
    · rename_i a hn
      cases hs
      exact h.push hg hn
  case publish a => cases hs; exact h.publish hg
  case sleep =>
    cases hs
    exact ⟨m, h.grabQuiet hg (fun k => by cases k <;> rfl) rfl (fun hc => hc) (fun hm => hm)⟩

/-! ## The dump thread -/

theorem holder_dump {d : DumpPc} (hd : s.dump = d) (k : Place) : holder c s k = holder c { s with dump := d } k := by
  rw [← hd]

theorem Inv.holds_dump {d : DumpPc} (h : Inv c s m) (hd : s.dump = d) (k : Place) :
    Holds s.links (holder c { s with dump := d } k) (m k) := holder_dump hd k ▸ h.place.holds k

theorem Inv.no_dumps (h : Inv c s m) (hd : ∀ x p, s.dump ≠ .calling x p) :
    dumps (s.sessions.pc c.dumpThread) = false := by
  rw [← Bool.not_eq_true]
  intro hc
  obtain ⟨x, p, hx⟩ := h.calls.calling hc
  exact hd x p hx

theorem undecided_of_no_dumps {f : Sessions.Pc Obj} {p : ProfPc} (h : dumps f = false) : undecided f p = [] := by
  cases f <;> first | rfl | cases h

theorem Calls.of_no_dumps {f : Sessions.State Obj} {prof : Thread → ProfPc} {sets : Sessions.Prof → HashSet}
    {d d' : DumpPc} (h : Calls c f prof sets d) (hf : dumps (f.pc c.dumpThread) = false) : Calls c f prof sets d' where
  others := h.others
  calling hc := by rw [hf] at hc; cases hc
  method := h.method
  walk := h.walk
  fresh := h.fresh

theorem Loops.dumpStep {p : Collector.PreprocessorMap Obj} {g : GrabPc} {d d' : DumpPc} {m' : Place → List Obj}
    (h : Loops p g d m) (hm : m' .tmpRoot = m .tmpRoot) (hd : ∀ q, d'.var = some q → q = first
      (m' .dumpLocal) .dumpLocal) :
    Loops p g d' m' where
  sorted := h.sorted
  empty := h.empty
  sort q hq := by rw [hm]; exact h.sort q hq
  dump := hd

/-- **What was published is taken**: `dump_root_` leaves its list. -/
theorem Inv.wait {a : Obj} (h : Inv c s m) (hd : s.dump = .wait) (hn : s.links.next (.root .dumpRoot) = .obj a) :
    ∃ m', Inv c { s with links := s.links.removeFromList (.root .dumpRoot), dump := .take a } m' := by
  have hne : Place.dumpRoot ≠ Place.newHead := by simp
  have hholds : Holds s.links (.root .dumpRoot) (m .dumpRoot) := h.place.holds .dumpRoot
  obtain ⟨l, hl⟩ := (root_first hholds).2 a hn
  have hhead : m .newHead = [] := h.holds_dump hd .newHead
  obtain ⟨hlist, hroot, hsame⟩ := (hl ▸ hholds).detach
  refine ⟨_, h.calm rfl rfl rfl (fun _ hu => hu) (h.place.move₂ .dumpRoot .newHead [] (a :: l) rfl hne ?_
    (fun k hk hk' => ?_) (fun n hr h₁ _ => hsame n (fun he => (hr _ he).1 rfl) (hl ▸ h₁)) hroot hlist) h.sessions
    (h.reducer.of_eq rfl rfl rfl rfl rfl (fun hg => hg)) (h.loops.dumpStep rfl (fun q hq => (by cases hq)))
    (h.calls.of_no_dumps (h.no_dumps (by simp [hd])))⟩
  · rw [hl, hhead, List.append_nil, List.nil_append]
  · rw [holder_dump hd]
    cases k <;> first | rfl | contradiction

/-- **The list goes behind the `root` of the dump thread.** -/
theorem Inv.take {a : Obj} (h : Inv c s m) (hd : s.dump = .take a) : ∃ m', Inv c { s with
      links := s.links.insertBeforeAsList (.obj a) (.root .dumpLocal)
      dump := .loop ((s.links.insertBeforeAsList (.obj a) (.root .dumpLocal)).next (.root .dumpLocal)) } m' := by
  have hne : Place.newHead ≠ Place.dumpLocal := by simp
  obtain ⟨hholds, hsame⟩ := Holds.insertList (h.place.holds .dumpLocal) (h.holds_dump hd .newHead)
    (h.place.disjoint hne.symm)
  refine ⟨_, h.calm rfl rfl rfl (fun _ hu => hu) (h.place.move₂ .newHead .dumpLocal [] (m .dumpLocal ++ m .newHead) rfl
    hne ?_ (fun k hk hk' => ?_) (fun n hr h₁ h₂ => hsame n (fun he => (hr _ he).2 rfl) (ne_obj_of_append h₂ h₁)) rfl
    hholds) h.sessions (h.reducer.of_eq rfl rfl rfl rfl rfl (fun hg => hg)) (h.loops.dumpStep rfl (fun q hq => ?_))
    (h.calls.of_no_dumps (h.no_dumps (by simp [hd])))⟩
  · exact (List.perm_append_comm : (m .dumpLocal ++ m .newHead).Perm (m .newHead ++ m .dumpLocal))
  · rw [holder_dump hd]
    cases k <;> first | rfl | contradiction
  · rw [← Option.some.inj hq]
    exact hholds.next_root

/-- **An object leaves the list and is in the thread's hand.** -/
theorem Inv.unlink (h : Inv c s m) (hd : s.dump = .loop (.obj x)) : ∃ m', Inv c { s with
      links := s.links.removeFromList (.obj x), dump := .call x (s.links.next (.obj x)) } m' := by
  have hne : Place.dumpLocal ≠ Place.hand := by simp
  have hno := h.no_dumps (by simp [hd])
  have hvar := h.loops.dump (.obj x) (by rw [hd]; rfl)
  obtain ⟨l, hl⟩ : ∃ l, m .dumpLocal = x :: l := by
    revert hvar
    cases m .dumpLocal with
    | nil => intro hvar; cases hvar
    | cons y l => intro hvar; cases hvar; exact ⟨l, rfl⟩
  have hholds : Holds s.links (.root .dumpLocal) (x :: l) := hl ▸ h.place.holds .dumpLocal
  obtain ⟨hrest, hself, hnext, hsame⟩ := hholds.remove
  have hhand : holder c s .hand = .flat [] := by
    rw [holder_dump hd]
    exact congrArg Holder.flat (undecided_of_no_dumps hno)
  refine ⟨_, h.calm rfl rfl rfl (fun _ hu => hu) (h.place.move₂ .dumpLocal .hand l [x] rfl hne ?_ (fun k hk hk' => ?_)
    (fun n hr h₁ _ => hsame n (fun he => (hr _ he).1 rfl) (hl ▸ h₁)) hrest ⟨?_, fun y hy => ?_⟩) h.sessions
    (h.reducer.of_eq rfl rfl rfl rfl rfl (fun hg => hg)) (h.loops.dumpStep rfl (fun q hq => ?_))
    (h.calls.of_no_dumps hno)⟩
  · rw [hl, h.place.flat hhand, List.append_nil]
    exact List.perm_append_singleton x l
  · rw [holder_dump hd]
    cases k <;> first | rfl | contradiction
  · rw [undecided_of_no_dumps hno]; rfl
  · rw [undecided_of_no_dumps hno] at hy
    rw [List.mem_singleton.1 hy]
    exact hself
  · rw [← Option.some.inj hq]
    exact hnext

end Samples
end ContentionProf
