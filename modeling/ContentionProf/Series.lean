import Mathlib.Data.List.DropRight
import ContentionProf.Cyclic
/-!
# Series — the trend of a value over seconds, minutes, hours and days (`common/series.h`)

One array has four rings; when one has gone round, the fold of its values goes to the next.  A slot that was never
written reads as the constructor left it.
-/
namespace ContentionProf

structure Series (T : Type) where
  nsecond : Nat
  nminute : Nat
  nhour : Nat
  nday : Nat
  /-- `_array`; `none` where nothing was written. -/
  array : Nat → Option T

namespace Series

variable {T : Type}

/-- `SeriesBase(op)`. -/
def construct : Series T := { nsecond := 0, nminute := 0, nhour := 0, nday := 0, array := fun _ => none }

/-! Where the four rings of `Data` lie. -/

def second (index : Nat) : Nat := index
def minute (index : Nat) : Nat := 60 + index
def hour (index : Nat) : Nat := 120 + index
def day (index : Nat) : Nat := 144 + index

/-- `_data.second(index) = value` and the like. -/
def set (s : Series T) (slot : Nat) (value : T) : Series T :=
  { s with array := Function.update s.array slot (some value) }

/-- Reads a slot; the constructor left `zero`. -/
def read (zero : T) (s : Series T) (slot : Nat) : T := (s.array slot).getD zero

/-- `tmp`: the first of `n` slots, and the loop over the others. -/
def foldRing (op : T → T → T) (zero : T) (s : Series T) (slot : Nat → Nat) (n : Nat) : T :=
  (List.range' 1 (n - 1)).foldl (fun tmp i => op tmp (s.read zero (slot i))) (s.read zero (slot 0))

/-- `DivideOnAddition::inplace_divide`. -/
def inplaceDivide (obj : T) (_number : Nat) : T := obj

/-- `append_day`. -/
def appendDay (s : Series T) (value : T) : Series T :=
  let s := s.set (day s.nday) value
  let s := { s with nday := s.nday + 1 }
  if s.nday ≥ 30 then { s with nday := 0 } else s

/-- `append_hour`. -/
def appendHour (op : T → T → T) (zero : T) (s : Series T) (value : T) : Series T :=
  let s := s.set (hour s.nhour) value
  let s := { s with nhour := s.nhour + 1 }
  if s.nhour ≥ 24 then
    let s := { s with nhour := 0 }
    let tmp := s.foldRing op zero hour 24
    s.appendDay (inplaceDivide tmp 24)
  else s

/-- `append_minute`. -/
def appendMinute (op : T → T → T) (zero : T) (s : Series T) (value : T) : Series T :=
  let s := s.set (minute s.nminute) value
  let s := { s with nminute := s.nminute + 1 }
  if s.nminute ≥ 60 then
    let s := { s with nminute := 0 }
    let tmp := s.foldRing op zero minute 60
    s.appendHour op zero (inplaceDivide tmp 60)
  else s

/-- `append_second`. -/
def appendSecond (op : T → T → T) (zero : T) (s : Series T) (value : T) : Series T :=
  let s := s.set (second s.nsecond) value
  let s := { s with nsecond := s.nsecond + 1 }
  if s.nsecond ≥ 60 then
    let s := { s with nsecond := 0 }
    let tmp := s.foldRing op zero second 60
    s.appendMinute op zero (inplaceDivide tmp 60)
  else s

/-- `append`. -/
def append (op : T → T → T) (zero : T) (s : Series T) (value : T) : Series T := s.appendSecond op zero value

/-- A loop of `describe`, with `n` rounds to go: `print` is `<<` of a value, or of what the constructor left. -/
def describeLoop (print : Option T → String) (s : Series T) (slot : Nat → Nat) : Nat → Nat → Nat → String
  | 0, _, _     => ""
  | n + 1, i, c =>
    (if c ≠ 0 then "," else "") ++ ("[" ++ toString c ++ "," ++ print (s.array (slot i)) ++ "]") ++
      describeLoop print s slot n (i + 1) (c + 1)

/-- `Series::describe`. -/
def describe (print : Option T → String) (s : Series T) : String :=
  "\x7b\"label\":\"trend\",\"data\":[" ++
    describeLoop print s (fun i => day ((i + s.nday) % 30)) 30 0 0 ++
    describeLoop print s (fun i => hour ((i + s.nhour) % 24)) 24 0 30 ++
    describeLoop print s (fun i => minute ((i + s.nminute) % 60)) 60 0 54 ++
    describeLoop print s (fun i => second ((i + s.nsecond) % 60)) 60 0 114 ++ "]\x7d"

/-! ### One ring -/

/-- **A ring that was given the values `vs`**: it holds the last of them, and its index is their number. -/
structure Ring (array : Nat → Option T) (base size pos : Nat) (vs : List T) : Prop where
  pos_eq : pos = vs.length % size
  cyclic : ∃ start, Cyclic (fun n => array (base + n)) size start (vs.rtake size) ∧
    (start + (vs.rtake size).length) % size = pos

variable {op : T → T → T} {zero : T} {s : Series T} {array : Nat → Option T} {base size pos slot : Nat} {vs : List T}
  {v : T}

theorem length_rtake (vs : List T) (n : Nat) : (vs.rtake n).length = min n vs.length := by
  rw [List.rtake, List.length_drop]
  omega

theorem rtake_append (hsize : 0 < size) (vs : List T) (v : T) :
    (vs ++ [v]).rtake size = (if (vs.rtake size).length < size then vs.rtake size else
      (vs.rtake size).tail) ++ [v] := by
  obtain ⟨n, rfl⟩ := Nat.exists_eq_add_one_of_ne_zero hsize.ne'
  rw [List.rtake_concat_succ, length_rtake]
  congr 1
  split
  · rw [List.rtake, List.rtake]
    congr 1
    omega
  · rw [List.rtake, List.rtake, ← List.drop_one, List.drop_drop]
    congr 1
    omega

theorem ring_nil (hsize : 0 < size) : Ring (fun _ => (none : Option T)) base size 0 [] :=
  ⟨(Nat.zero_mod size).symm, 0, by rw [List.rtake_nil]; exact Cyclic.empty hsize, by simp⟩

theorem Ring.frame (h : Ring array base size pos vs) {array' : Nat → Option T}
    (hs : ∀ n < size, array' (base + n) = array (base + n)) : Ring array' base size pos vs := by
  obtain ⟨start, hc, hpos⟩ := h.cyclic
  exact ⟨h.pos_eq, start, hc.congr hs, hpos⟩

theorem succ_mod_eq (hsize : 0 < size) (n : Nat) :
    (if n % size + 1 ≥ size then 0 else n % size + 1) = (n + 1) % size := by
  have hlt := Nat.mod_lt n hsize
  rw [← Nat.mod_add_mod]
  split
  · rw [show n % size + 1 = size by omega, Nat.mod_self]
  · exact (Nat.mod_eq_of_lt (by omega)).symm

/-- **A value is written at the index, which goes on by one.** -/
theorem Ring.write (h : Ring array base size pos vs) (hsize : 0 < size) (v : T) :
    Ring (Function.update array (base + pos) (some v)) base size (if pos + 1 ≥ size then 0 else pos + 1)
      (vs ++ [v]) := by
  obtain ⟨start, hc, hpos⟩ := h.cyclic
  have hw := hc.write (x := v)
  have hslots : (fun n => Function.update array (base + pos) (some v) (base + n)) =
      Function.update (fun n => array (base + n)) pos (some v) := by
    funext n
    simp [Function.update_apply]
  rw [hpos, ← rtake_append hsize, ← hslots] at hw
  refine ⟨?_, _, hw, ?_⟩
  · rw [h.pos_eq, succ_mod_eq hsize, List.length_append, List.length_singleton]
  · have hnext : (vs.length + 1) % size = (start + (vs.rtake size).length + 1) % size := by
      rw [← Nat.mod_add_mod, ← h.pos_eq, ← hpos, Nat.mod_add_mod]
    rw [rtake_append hsize, List.length_append, List.length_singleton, h.pos_eq, succ_mod_eq hsize, hnext]
    split
    · rw [Nat.add_assoc]
    · rename_i hfull
      have hlen : (vs.rtake size).length = size := le_antisymm hc.length_le (not_lt.1 hfull)
      rw [List.length_tail, hlen, Nat.sub_add_cancel hsize, Nat.mod_add_mod]
      congr 1
      omega

/-- **Read once around from its index the ring gives the last values**, the oldest first. -/
theorem Ring.read_around (h : Ring array base size pos vs) :
    (List.range size).filterMap (fun i => array (base + (i + pos) % size)) = vs.rtake size := by
  obtain ⟨start, hc, hpos⟩ := h.cyclic
  rw [← hc.read_around]
  refine List.filterMap_congr (fun i _ => ?_)
  rw [← hpos, Nat.add_mod_mod, Nat.add_comm i]

/-! ### Blocks of values and their folds -/

/-- The left fold of values. -/
def foldAll (op : T → T → T) (zero : T) : List T → T
  | []      => zero
  | x :: xs => xs.foldl op x

/-- **The folds of the complete blocks** of `n` values, in time order. -/
def folds (op : T → T → T) (zero : T) (n : Nat) (vs : List T) : List T :=
  (List.range (vs.length / n)).map (fun b => foldAll op zero ((vs.drop (b * n)).take n))

@[simp] theorem length_folds (op : T → T → T) (zero : T) (n : Nat) (vs : List T) :
    (folds op zero n vs).length = vs.length / n := by rw [folds, List.length_map, List.length_range]

@[simp] theorem folds_nil (op : T → T → T) (zero : T) (n : Nat) : folds op zero n [] = [] := by
  rw [folds, List.length_nil, Nat.zero_div]
  rfl

theorem map_getD (zero : T) (l : List T) : (List.range l.length).map (fun i => (l[i]?).getD zero) = l := by
  induction l with
  | nil => rfl
  | cons x l ih =>
    rw [List.length_cons, List.range_succ_eq_map, List.map_cons, List.map_map]
    exact congrArg (x :: ·) ih

theorem foldl_range' {l : List T} (hl : 0 < l.length) :
    (List.range' 1 (l.length - 1)).foldl (fun tmp i => op tmp ((l[i]?).getD zero)) ((l[0]?).getD zero) =
      foldAll op zero l := by
  cases l with
  | nil => exact absurd hl (Nat.lt_irrefl 0)
  | cons x xs =>
    have hmap : (List.range xs.length).map ((fun i => ((x :: xs)[i]?).getD zero) ∘ (1 + ·)) = xs := by
      conv_rhs => rw [← map_getD zero xs]
      refine List.map_congr_left (fun i _ => ?_)
      show ((x :: xs)[1 + i]?).getD zero = (xs[i]?).getD zero
      rw [Nat.add_comm, List.getElem?_cons_succ]
    rw [foldAll, List.length_cons, Nat.add_sub_cancel, List.range'_eq_map_range]
    conv_rhs => rw [← hmap]
    rw [List.foldl_map, List.foldl_map]
    rfl

/-- No block is complete. -/
theorem folds_append_of_ne {n : Nat} (hn : 0 < n) (h : (vs.length + 1) % n ≠ 0) :
    folds op zero n (vs ++ [v]) = folds op zero n vs := by
  have hdiv : (vs.length + 1) / n = vs.length / n := by
    rw [Nat.succ_div, if_neg (fun hd => h (Nat.mod_eq_zero_of_dvd hd)), Nat.add_zero]
  rw [folds, folds, List.length_append, List.length_singleton, hdiv]
  refine List.map_congr_left (fun b hb => ?_)
  have hle : (b + 1) * n ≤ vs.length := (Nat.le_div_iff_mul_le hn).1 (List.mem_range.1 hb)
  rw [Nat.add_mul, Nat.one_mul] at hle
  rw [List.drop_append_of_le_length (by omega), List.take_append_of_le_length (by rw [List.length_drop]; omega)]

/-- **One more block is complete**: it is the last values. -/
theorem folds_append_of_eq {n : Nat} (hn : 0 < n) (h : (vs.length + 1) % n = 0) :
    folds op zero n (vs ++ [v]) = folds op zero n vs ++ [foldAll op zero ((vs ++ [v]).rtake n)] := by
  have hdvd := Nat.dvd_of_mod_eq_zero h
  have hdiv : (vs.length + 1) / n = vs.length / n + 1 := by rw [Nat.succ_div, if_pos hdvd]
  have hmul := Nat.div_mul_cancel hdvd
  rw [hdiv, Nat.add_mul, Nat.one_mul] at hmul
  have hlast : ((vs ++ [v]).drop (vs.length / n * n)).take n = (vs ++ [v]).rtake n := by
    rw [List.rtake, List.length_append, List.length_singleton, show vs.length + 1 - n = vs.length / n * n by omega]
    exact List.take_of_length_le (by rw [List.length_drop, List.length_append, List.length_singleton]; omega)
  rw [folds, folds, List.length_append, List.length_singleton, hdiv, List.range_succ, List.map_append,
    List.map_singleton,
    hlast]
  congr 1
  refine List.map_congr_left (fun b hb => ?_)
  have hle : (b + 1) * n ≤ vs.length := (Nat.le_div_iff_mul_le hn).1 (List.mem_range.1 hb)
  rw [Nat.add_mul, Nat.one_mul] at hle
  rw [List.drop_append_of_le_length (by omega), List.take_append_of_le_length (by rw [List.length_drop]; omega)]

/-- **When the index is back at 0 the loop over the ring folds the last block.** -/
theorem Ring.foldRing (op : T → T → T) (zero : T) (h : Ring s.array base size 0 vs) (hvs : vs ≠ []) {slot : Nat → Nat}
    (hslot : ∀ i, slot i = base + i) : s.foldRing op zero slot size = foldAll op zero (vs.rtake size) := by
  obtain ⟨start, hc, hpos⟩ := h.cyclic
  have hsize : 0 < size := Nat.zero_lt_of_lt hc.start_lt
  have hlen : (vs.rtake size).length = size := by
    have hle := Nat.le_of_dvd (List.length_pos_iff.2 hvs) (Nat.dvd_of_mod_eq_zero h.pos_eq.symm)
    rw [length_rtake]
    omega
  have hstart : start = 0 := by rwa [hlen, Nat.add_mod_right, Nat.mod_eq_of_lt hc.start_lt] at hpos
  subst hstart
  have hread : ∀ i < size, s.read zero (slot i) = ((vs.rtake size)[i]?).getD zero := by
    intro i hi
    have hsl := hc.slot i hi
    rw [Nat.zero_add, Nat.mod_eq_of_lt hi] at hsl
    rw [read, hslot, hsl]
  rw [← foldl_range' (by rw [hlen]; exact hsize), hlen, Series.foldRing, hread 0 hsize]
  refine List.foldl_ext _ _ _ (fun tmp i hi => ?_)
  rw [List.mem_range'_1] at hi
  rw [hread i (by omega)]

/-- What the values of a ring give to the next one. -/
theorem Ring.folds_append (op : T → T → T) (zero : T) (h : Ring array base size pos vs) (hsize : 0 < size) (v : T) :
    folds op zero size (vs ++ [v]) =
      if pos + 1 ≥ size then folds op zero size vs ++ [foldAll op zero ((vs ++ [v]).rtake size)]
      else folds op zero size vs := by
  have hmod := succ_mod_eq hsize vs.length
  have hlt := Nat.mod_lt vs.length hsize
  rw [h.pos_eq]
  by_cases hfull : vs.length % size + 1 ≥ size
  · rw [if_pos hfull] at hmod ⊢
    exact folds_append_of_eq hsize hmod.symm
  · rw [if_neg hfull] at hmod ⊢
    exact folds_append_of_ne hsize (by omega)

/-! ### The four rings -/

/-- The day ring was given the values `ds`. -/
def Days (s : Series T) (ds : List T) : Prop := Ring s.array 144 30 s.nday ds

/-- The hour ring was given the values `hs`, and the day ring their folds. -/
structure Hours (op : T → T → T) (zero : T) (s : Series T) (hs : List T) : Prop where
  hour : Ring s.array 120 24 s.nhour hs
  days : s.Days (folds op zero 24 hs)

/-- The minute ring was given the values `ms`, and the hour ring their folds. -/
structure Minutes (op : T → T → T) (zero : T) (s : Series T) (ms : List T) : Prop where
  minute : Ring s.array 60 60 s.nminute ms
  hours : s.Hours op zero (folds op zero 60 ms)

/-- **The series was given the values `vs`.** -/
structure Seconds (op : T → T → T) (zero : T) (s : Series T) (vs : List T) : Prop where
  second : Ring s.array 0 60 s.nsecond vs
  minutes : s.Minutes op zero (folds op zero 60 vs)

theorem construct_seconds : (construct : Series T).Seconds op zero [] := by
  refine ⟨ring_nil (by decide), ?_, ?_, ?_⟩
  · rw [folds_nil]
    exact ring_nil (by decide)
  · rw [folds_nil, folds_nil]
    exact ring_nil (by decide)
  · rw [folds_nil, folds_nil, folds_nil]
    exact ring_nil (by decide)

variable {s' : Series T}

theorem Days.frame (h : s.Days vs) (hs : ∀ n ≥ 144, s'.array n = s.array n) (hd : s'.nday = s.nday) : s'.Days vs := by
  rw [Days, hd]
  exact Ring.frame h (fun n _ => hs _ (by omega))

theorem Hours.frame (h : s.Hours op zero vs) (hs : ∀ n ≥ 120, s'.array n = s.array n) (hh : s'.nhour = s.nhour)
    (hd : s'.nday = s.nday) : s'.Hours op zero vs := by
  refine ⟨?_, h.days.frame (fun n hn => hs n (by omega)) hd⟩
  rw [hh]
  exact h.hour.frame (fun n _ => hs _ (by omega))

theorem Minutes.frame (h : s.Minutes op zero vs) (hs : ∀ n ≥ 60, s'.array n = s.array n) (hm : s'.nminute = s.nminute)
    (hh : s'.nhour = s.nhour) (hd : s'.nday = s.nday) : s'.Minutes op zero vs := by
  refine ⟨?_, h.hours.frame (fun n hn => hs n (by omega)) hh hd⟩
  rw [hm]
  exact h.minute.frame (fun n _ => hs _ (by omega))

/-- What a carry into a later ring leaves alone: the slots before `base`. -/
structure Below (base : Nat) (s s' : Series T) : Prop where
  array : ∀ n < base, s'.array n = s.array n
  nsecond : s'.nsecond = s.nsecond
  nminute : base ≥ 120 → s'.nminute = s.nminute
  nhour : base ≥ 144 → s'.nhour = s.nhour

theorem set_array (s : Series T) {slot n : Nat} (hn : n ≠ slot) : (s.set slot v).array n = s.array n :=
  Function.update_of_ne hn _ _

theorem appendDay_eq (s : Series T) (v : T) :
    s.appendDay v = { s.set (day s.nday) v with nday := if s.nday + 1 ≥ 30 then 0 else s.nday + 1 } := by
  by_cases hd : s.nday + 1 ≥ 30
  · rw [if_pos hd]
    exact if_pos hd
  · rw [if_neg hd]
    exact if_neg hd

theorem appendDay_below (s : Series T) (v : T) : Below 144 s (s.appendDay v) := by
  rw [appendDay_eq]
  exact ⟨fun n hn => s.set_array (by unfold day; omega), rfl, fun _ => rfl, fun _ => rfl⟩

theorem Days.append (h : s.Days vs) (v : T) : (s.appendDay v).Days (vs ++ [v]) := by
  rw [appendDay_eq]
  exact Ring.write h (by decide) v

theorem appendHour_eq (s : Series T) (v : T) : s.appendHour op zero v =
    if s.nhour + 1 ≥ 24 then
      let s₁ := { s.set (hour s.nhour) v with nhour := 0 }
      s₁.appendDay (s₁.foldRing op zero hour 24)
    else { s.set (hour s.nhour) v with nhour := s.nhour + 1 } := rfl

theorem appendHour_below (op : T → T → T) (zero : T) (s : Series T) (v : T) : Below 120 s (s.appendHour op zero v) := by
  have hset : ∀ n < 120, (s.set (hour s.nhour) v).array n = s.array n :=
    fun n hn => s.set_array (by unfold hour; omega)
  rw [appendHour_eq]
  split
  · have hb := appendDay_below { s.set (hour s.nhour) v with nhour := 0 }
      (foldRing op zero { s.set (hour s.nhour) v with nhour := 0 } hour 24)
    exact ⟨fun n hn => (hb.array n (by omega)).trans (hset n hn), hb.nsecond, fun _ => hb.nminute (by decide),
      fun hc => absurd hc (by decide)⟩
  · exact ⟨hset, rfl, fun _ => rfl, fun hc => absurd hc (by decide)⟩

/-- **A value goes into a ring, and when it has gone round its fold to the next one**: `s₁` is the series with the
value written and the index one further, `s₀` that with the index back at 0. -/
theorem Ring.carry (next : Series T → List T → Prop) (append : Series T → T → Series T) (slot : Nat → Nat)
    (s₀ s₁ : Series T) (h : Ring s.array base size pos vs) (hsize : 0 < size) (hslot : ∀ i, slot i = base + i)
    (h₀ : s₀.array = (s.set (slot pos) v).array) (h₁ : s₁.array = (s.set (slot pos) v).array)
    (hn₁ : next s₁ (folds op zero size vs))
    (happend : ∀ tmp, next (append s₀ tmp) (folds op zero size vs ++ [tmp]))
    (hbelow : ∀ tmp, ∀ n < base + size, (append s₀ tmp).array n = s₀.array n) :
    Ring (if pos + 1 ≥ size then append s₀ (s₀.foldRing op zero slot size) else s₁).array base size
        (if pos + 1 ≥ size then 0 else pos + 1) (vs ++ [v]) ∧
      next (if pos + 1 ≥ size then append s₀ (s₀.foldRing op zero slot size) else s₁)
        (folds op zero size (vs ++ [v])) := by
  have hring := h.write hsize v
  have hfolds := h.folds_append op zero hsize v
  have hset : (s.set (slot pos) v).array = Function.update s.array (base + pos) (some v) := by rw [set, hslot]
  rw [hset] at h₀ h₁
  by_cases hfull : pos + 1 ≥ size
  · simp only [if_pos hfull] at hring hfolds ⊢
    rw [← h₀] at hring
    have htmp := hring.foldRing op zero (by simp) hslot
    refine ⟨hring.frame (fun n hn => hbelow _ _ (by omega)), ?_⟩
    rw [hfolds, ← htmp]
    exact happend _
  · simp only [if_neg hfull] at hring hfolds ⊢
    rw [h₁, hfolds]
    exact ⟨hring, hn₁⟩

/-- **An hour is appended**, and after 24 of them their fold to the days. -/
theorem Hours.append (h : s.Hours op zero vs) (v : T) : (s.appendHour op zero v).Hours op zero (vs ++ [v]) := by
  have hset : ∀ n ≥ 144, (s.set (Series.hour s.nhour) v).array n = s.array n := by
    have hlt : s.nhour < 24 := by rw [h.hour.pos_eq]; exact Nat.mod_lt _ (by decide)
    exact fun n hn => s.set_array (by unfold Series.hour; omega)
  obtain ⟨hring, hnext⟩ := h.hour.carry Days appendDay Series.hour { s.set (Series.hour s.nhour) v with nhour := 0 }
    { s.set (Series.hour s.nhour) v with nhour := s.nhour + 1 } (v := v) (by decide) (fun _ => rfl) rfl rfl
    (h.days.frame hset rfl) (fun tmp => Days.append (by exact h.days.frame hset rfl) tmp)
    (fun tmp n hn => (appendDay_below _ tmp).array n hn)
  have hcount : (s.appendHour op zero v).nhour = if s.nhour + 1 ≥ 24 then 0 else s.nhour + 1 := by
    rw [appendHour_eq]
    split
    · exact (appendDay_below _ _).nhour (by decide)
    · rfl
  exact ⟨by rw [hcount]; exact hring, hnext⟩

theorem appendMinute_eq (s : Series T) (v : T) : s.appendMinute op zero v =
    if s.nminute + 1 ≥ 60 then
      let s₁ := { s.set (minute s.nminute) v with nminute := 0 }
      s₁.appendHour op zero (s₁.foldRing op zero minute 60)
    else { s.set (minute s.nminute) v with nminute := s.nminute + 1 } := rfl

theorem appendMinute_below (s : Series T) (v : T) : Below 60 s (s.appendMinute op zero v) := by
  have hset : ∀ n < 60, (s.set (minute s.nminute) v).array n = s.array n :=
    fun n hn => s.set_array (by unfold minute; omega)
  rw [appendMinute_eq]
  split
  · have hb := appendHour_below op zero { s.set (minute s.nminute) v with nminute := 0 }
      (foldRing op zero { s.set (minute s.nminute) v with nminute := 0 } minute 60)
    exact ⟨fun n hn => (hb.array n (by omega)).trans (hset n hn), hb.nsecond, fun hc => absurd hc (by decide),
      fun hc => absurd hc (by decide)⟩
  · exact ⟨hset, rfl, fun hc => absurd hc (by decide), fun hc => absurd hc (by decide)⟩

/-- **A minute is appended**, and after 60 of them their fold to the hours. -/
theorem Minutes.append (h : s.Minutes op zero vs) (v : T) :
    (s.appendMinute op zero v).Minutes op zero (vs ++ [v]) := by
  have hset : ∀ n ≥ 120, (s.set (Series.minute s.nminute) v).array n = s.array n := by
    have hlt : s.nminute < 60 := by rw [h.minute.pos_eq]; exact Nat.mod_lt _ (by decide)
    exact fun n hn => s.set_array (by unfold Series.minute; omega)
  obtain ⟨hring, hnext⟩ := h.minute.carry (Hours op zero) (appendHour op zero) Series.minute
    { s.set (Series.minute s.nminute) v with nminute := 0 }
    { s.set (Series.minute s.nminute) v with nminute := s.nminute + 1 } (v := v) (by decide) (fun _ => rfl) rfl rfl
    (h.hours.frame hset rfl rfl) (fun tmp => Hours.append (by exact h.hours.frame hset rfl rfl) tmp)
    (fun tmp n hn => (appendHour_below op zero _ tmp).array n hn)
  have hcount : (s.appendMinute op zero v).nminute = if s.nminute + 1 ≥ 60 then 0 else s.nminute + 1 := by
    rw [appendMinute_eq]
    split
    · exact (appendHour_below op zero _ _).nminute (by decide)
    · rfl
  exact ⟨by rw [hcount]; exact hring, hnext⟩

theorem append_eq (s : Series T) (v : T) : s.append op zero v =
    if s.nsecond + 1 ≥ 60 then
      let s₁ := { s.set (second s.nsecond) v with nsecond := 0 }
      s₁.appendMinute op zero (s₁.foldRing op zero second 60)
    else { s.set (second s.nsecond) v with nsecond := s.nsecond + 1 } := rfl

/-- **A value is appended**, and after 60 of them their fold to the minutes. -/
theorem Seconds.append (h : s.Seconds op zero vs) (v : T) : (s.append op zero v).Seconds op zero (vs ++ [v]) := by
  have hset : ∀ n ≥ 60, (s.set (Series.second s.nsecond) v).array n = s.array n := by
    have hlt : s.nsecond < 60 := by rw [h.second.pos_eq]; exact Nat.mod_lt _ (by decide)
    exact fun n hn => s.set_array (by unfold Series.second; omega)
  obtain ⟨hring, hnext⟩ := h.second.carry (Minutes op zero) (appendMinute op zero) Series.second
    { s.set (Series.second s.nsecond) v with nsecond := 0 }
    { s.set (Series.second s.nsecond) v with nsecond := s.nsecond + 1 } (v := v) (by decide)
    (fun i => (Nat.zero_add i).symm) rfl rfl (h.minutes.frame hset rfl rfl rfl)
    (fun tmp => Minutes.append (by exact h.minutes.frame hset rfl rfl rfl) tmp)
    (fun tmp n hn => (appendMinute_below _ tmp).array n (by omega))
  have hcount : (s.append op zero v).nsecond = if s.nsecond + 1 ≥ 60 then 0 else s.nsecond + 1 := by
    rw [append_eq]
    split
    · exact (appendMinute_below _ _).nsecond
    · rfl
  exact ⟨by rw [hcount]; exact hring, hnext⟩

theorem seconds_foldl (op : T → T → T) (zero : T) : ∀ (ws vs : List T) (s : Series T), s.Seconds op zero vs →
    (ws.foldl (Series.append op zero) s).Seconds op zero (vs ++ ws)
  | [], vs, s, h      => by rwa [List.append_nil]
  | w :: ws, vs, s, h => by
    rw [List.foldl_cons, List.append_cons]
    exact seconds_foldl op zero ws _ _ (h.append w)

/-! ### What `describe` prints -/

/-- A list of values as `describe` prints it, from number `c` on. -/
def trend (print : Option T → String) : Nat → List (Option T) → String
  | _, []      => ""
  | c, v :: vs => (if c ≠ 0 then "," else "") ++ ("[" ++ toString c ++ "," ++ print v ++ "]") ++ trend print (c + 1) vs

theorem describeLoop_eq (print : Option T → String) (s : Series T) (slot : Nat → Nat) :
    ∀ n i c, describeLoop print s slot n i c = trend print c ((List.range' i n).map (fun i => s.array (slot i)))
  | 0, i, c     => rfl
  | n + 1, i, c => by
    rw [describeLoop, describeLoop_eq print s slot n, List.range'_succ, List.map_cons, trend]

theorem trend_append (print : Option T → String) :
    ∀ (vs ws : List (Option T)) (c : Nat), trend print c (vs ++ ws) = trend print c vs ++ trend print (c + vs.length) ws
  | [], ws, c      => by rw [List.nil_append, trend, String.empty_append, List.length_nil, Nat.add_zero]
  | v :: vs, ws, c => by
    rw [List.cons_append, trend, trend, trend_append print vs ws, List.length_cons, ← String.append_assoc,
      show c + 1 + vs.length = c + (vs.length + 1) by omega]

/-- The values of a ring in the order `describe` prints them. -/
def around (s : Series T) (slot : Nat → Nat) (pos size : Nat) : List (Option T) :=
  (List.range size).map (fun i => s.array (slot ((i + pos) % size)))

/-- **`describe` goes once around each ring.** -/
theorem describe_eq (print : Option T → String) (s : Series T) : s.describe print =
    "\x7b\"label\":\"trend\",\"data\":[" ++ trend print 0 (s.around day s.nday 30 ++ s.around hour s.nhour 24 ++
      s.around minute s.nminute 60 ++ s.around second s.nsecond 60) ++ "]\x7d" := by
  unfold describe
  conv_lhs => simp only [describeLoop_eq]
  conv_rhs => simp only [trend_append, around, List.length_append, List.length_map, List.length_range',
    List.range_eq_range']
  simp only [Nat.zero_add, Nat.reduceAdd]
  -- opaque strings: the four loops are not to be run
  generalize trend print 0 _ = days, trend print 30 _ = hours, trend print 54 _ = minutes, trend print 114 _ = seconds
  simp only [String.append_assoc]

theorem Ring.around (h : Ring s.array base size pos vs) {slot : Nat → Nat} (hslot : ∀ i, slot i = base + i) :
    (s.around slot pos size).reduceOption = vs.rtake size := by
  show ((List.range size).map (fun i => s.array (slot ((i + pos) % size)))).filterMap id = _
  rw [List.filterMap_map, ← h.read_around]
  refine List.filterMap_congr (fun i _ => ?_)
  show s.array (slot ((i + pos) % size)) = _
  rw [hslot]

/-- **A series that was given `vs`**: the indices count it in mixed radix; the rings hold the last seconds, minutes,
hours and days, each the fold of a complete block of the ring before; `describe` prints them, the oldest first. -/
theorem series_holds (op : T → T → T) (zero : T) (vs : List T) :
    ∃ s, vs.foldl (append op zero) construct = s ∧
      s.nsecond = vs.length % 60 ∧ s.nminute = vs.length / 60 % 60 ∧ s.nhour = vs.length / 3600 % 24 ∧
      s.nday = vs.length / 86400 % 30 ∧
      (s.around second s.nsecond 60).reduceOption = vs.rtake 60 ∧
      (s.around minute s.nminute 60).reduceOption = (folds op zero 60 vs).rtake 60 ∧
      (s.around hour s.nhour 24).reduceOption = (folds op zero 60 (folds op zero 60 vs)).rtake 24 ∧
      (s.around day s.nday 30).reduceOption = (folds op zero 24 (folds op zero 60 (folds op zero 60 vs))).rtake 30 ∧
      ∀ print, s.describe print =
        "\x7b\"label\":\"trend\",\"data\":[" ++ trend print 0 (s.around day s.nday 30 ++ s.around hour s.nhour 24 ++
          s.around minute s.nminute 60 ++ s.around second s.nsecond 60) ++ "]\x7d" := by
  have h := seconds_foldl op zero vs [] construct construct_seconds
  rw [List.nil_append] at h
  refine ⟨_, rfl, h.second.pos_eq, ?_, ?_, ?_, h.second.around (fun i => (Nat.zero_add i).symm),
    h.minutes.minute.around (fun _ => rfl), h.minutes.hours.hour.around (fun _ => rfl),
    Ring.around h.minutes.hours.days (fun _ => rfl), fun print => describe_eq print _⟩
  · rw [h.minutes.minute.pos_eq, length_folds]
  · rw [h.minutes.hours.hour.pos_eq, length_folds, length_folds, Nat.div_div_eq_div_mul]
  · rw [Ring.pos_eq h.minutes.hours.days, length_folds, length_folds, length_folds, Nat.div_div_eq_div_mul,
      Nat.div_div_eq_div_mul]

end Series
end ContentionProf
