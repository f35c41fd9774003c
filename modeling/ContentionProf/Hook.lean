import ContentionProf.Common
import Mathlib.Data.Rat.Defs
import Mathlib.Logic.Function.Basic
/-!
# Hook — the records of contended acquisitions (`contention.cpp`)

`pthread_mutex_lock_impl` records a contended acquisition in one of three slots of the thread, or in one slot of
`g_mutex_map` shared by every mutex with the same hash; `pthread_mutex_unlock_impl` looks the record up again.  Here
are the two stores and what one call does when nothing interleaves with it; `HookStep` takes the same pieces one slot
access at a time.

Ghost data, which no branch reads: `Acq` describes one acquisition of a mutex, a mutex remembers its latest one, a
site the one that wrote it and a map slot the thread that filled it.  `log` lists the finished unlock calls.
-/
namespace ContentionProf
namespace Hook

/-- `TLS_MAX_COUNT`. -/
def tlsMaxCount : Nat := 3

/-- `MUTEX_MAP_SIZE`. -/
def mutexMapSize : U64 := 1024#64

/-- `PTR_BITS`. -/
def ptrBits : Nat := 48

/-- Where the site of an acquisition is kept. -/
inductive Place
  | nowhere
  | tls
  | map
deriving DecidableEq, Repr

/-- **One acquisition of a mutex** (ghost): who, in which session, and what the lock hook made of it.  `contended` says
that `pthread_mutex_trylock` returned `EBUSY`. -/
structure Acq where
  id : Nat
  thread : Thread
  version : Nat
  contended : Bool
  range : U64
  wait : U64
  place : Place
deriving DecidableEq, Repr

/-- An acquisition from before the run, without a record. -/
def Acq.unrecorded : Acq := ⟨0, 0, 0, false, 0, 0, .nowhere⟩

/-- `pthread_contention_site_t`, with the acquisition that wrote it (ghost). -/
structure Site where
  durationNs : U64
  samplingRange : U64
  acq : Option Acq
deriving DecidableEq, Repr

/-- `{0, 0}`. -/
def Site.zero : Site := ⟨0, 0, none⟩

def isContentionSiteValid (cs : Site) : Bool := cs.samplingRange != 0

def makeContentionSiteInvalid (cs : Site) : Site := { cs with samplingRange := 0 }

/-- What `submit_contention` puts into the `SampledContention`. -/
structure Sample where
  durationNs : U64
  count : ℚ
deriving DecidableEq

/-- `submit_contention`, the two scaled fields: `none` is the division by zero. -/
def submitContention (cs : Site) : Option Sample :=
  if cs.samplingRange = 0 then none
  else some ⟨cs.durationNs * collectorSamplingBase / cs.samplingRange,
    (collectorSamplingBase.toNat : ℚ) / cs.samplingRange.toNat⟩

/-! ## The thread's list -/

structure MutexAndContentionSite where
  mutex : Addr
  csite : Site
deriving DecidableEq

/-- `tls_csites`: the entries `list 0 .. list (count - 1)` are live, the others keep what they held. -/
structure TLSPthreadContentionSites where
  count : Nat
  cpVersion : Nat
  list : Nat → MutexAndContentionSite
  count_le : count ≤ tlsMaxCount

namespace TLSPthreadContentionSites

variable (f : TLSPthreadContentionSites)

def empty : TLSPthreadContentionSites := ⟨0, 0, fun _ => ⟨0, .zero⟩, Nat.zero_le _⟩

/-- Lines 131–134: a list of an earlier session is emptied. -/
def refresh (version : Nat) : TLSPthreadContentionSites :=
  if f.cpVersion ≠ version then { f with cpVersion := version, count := 0, count_le := Nat.zero_le _ } else f

/-- Lines 135–143: the next free entry names the mutex; its site is invalidated when the acquisition is not sampled and
otherwise keeps its old content until the lock is acquired. -/
def append (m : Addr) (range : U64) : TLSPthreadContentionSites × Option Nat :=
  if h : f.count < tlsMaxCount then
    let csite := (f.list f.count).csite
    ({ f with
        count := f.count + 1
        list := Function.update f.list f.count ⟨m, if range = 0 then makeContentionSiteInvalid csite else csite⟩
        count_le := h }, some f.count)
  else (f, none)

def setSite (k : Nat) (cs : Site) : TLSPthreadContentionSites :=
  { f with list := Function.update f.list k { f.list k with csite := cs } }

/-- The loop of line 173, from entry `n - 1` down. -/
def scan (list : Nat → MutexAndContentionSite) (m : Addr) : Nat → Option Nat
  | 0     => none
  | n + 1 => if (list n).mutex = m then some n else scan list m n

def find (m : Addr) : Option Nat := scan f.list m f.count

/-- Line 179: the last entry moves into the hole. -/
def remove (k : Nat) : TLSPthreadContentionSites :=
  { f with
    count := f.count - 1
    list := Function.update f.list k (f.list (f.count - 1))
    count_le := Nat.le_trans (Nat.sub_le _ _) f.count_le }

end TLSPthreadContentionSites

/-! ## The map -/

/-- A slot of `g_mutex_map`; `filler` is the thread whose CAS wrote `versioned_mutex` last (ghost). -/
structure MutexMapEntry where
  versionedMutex : U64
  csite : Site
  filler : Thread
deriving DecidableEq

def hashMutexPtr (m : Addr) : U64 := fmix64 m

def mapIndex (m : Addr) : U64 := hashMutexPtr m &&& (mutexMapSize - 1)

/-- `g_cp_version & ((1 << (64 - PTR_BITS)) - 1)`. -/
def versionBits (version : Nat) : U64 := BitVec.ofNat 64 version &&& (((1 : U64) <<< (64 - ptrBits)) - 1)

/-- The bits above `PTR_BITS`. -/
def slotVersion (w : U64) : U64 := w >>> ptrBits

/-- Line 74: the slot is empty or of another session. -/
def takeable (version : Nat) (expected : U64) : Bool :=
  expected == 0 || slotVersion expected != versionBits version

/-- Line 75: `(g_cp_version << PTR_BITS) | mutex`. -/
def versioned (version : Nat) (m : Addr) : U64 := (BitVec.ofNat 64 version <<< ptrBits) ||| m

/-- Lines 86–87: the bits below `PTR_BITS` are the mutex. -/
def namesMutex (w : U64) (m : Addr) : Bool := w &&& (((1 : U64) <<< ptrBits) - 1) == m

/-- What the packing assumes of a mutex address: it is not null and fits below `PTR_BITS`. -/
def ValidAddr (m : Addr) : Prop := m ≠ 0 ∧ m.toNat < 2 ^ ptrBits

instance (m : Addr) : Decidable (ValidAddr m) := inferInstanceAs (Decidable (_ ∧ _))

theorem namesMutex_iff (w : U64) (m : Addr) : namesMutex w m = true ↔ w.toNat % 2 ^ 48 = m.toNat := by
  unfold namesMutex ptrBits
  rw [beq_iff_eq, ← BitVec.toNat_inj, BitVec.toNat_and]
  have hmask : (((1 : U64) <<< 48) - 1).toNat = 2 ^ 48 - 1 := by decide
  rw [hmask, Nat.and_two_pow_sub_one_eq_mod]

theorem versioned_toNat (version : Nat) {m : Addr} (hm : ValidAddr m) :
    (versioned version m).toNat = (version % 2 ^ 16) * 2 ^ 48 + m.toNat := by
  have hlt : m.toNat < 2 ^ 48 := hm.2
  unfold versioned ptrBits
  rw [BitVec.toNat_or, BitVec.toNat_shiftLeft, BitVec.toNat_ofNat, Nat.shiftLeft_eq]
  have hshift : version % 2 ^ 64 * 2 ^ 48 % 2 ^ 64 = 2 ^ 48 * (version % 2 ^ 16) := by omega
  rw [hshift, ← Nat.two_pow_add_eq_or_of_lt hlt]
  omega

theorem slotVersion_toNat (w : U64) : (slotVersion w).toNat = w.toNat / 2 ^ 48 := by
  unfold slotVersion ptrBits
  rw [BitVec.toNat_ushiftRight, Nat.shiftRight_eq_div_pow]

theorem versionBits_toNat (version : Nat) : (versionBits version).toNat = version % 2 ^ 16 := by
  unfold versionBits ptrBits
  rw [BitVec.toNat_and, BitVec.toNat_ofNat]
  have hmask : (((1 : U64) <<< (64 - 48)) - 1).toNat = 2 ^ 16 - 1 := by decide
  rw [hmask, Nat.and_two_pow_sub_one_eq_mod]
  omega

theorem ValidAddr.toNat_pos {m : Addr} (h : ValidAddr m) : 0 < m.toNat :=
  Nat.pos_of_ne_zero (fun h0 => h.1 (BitVec.toNat_inj.1 h0))

/-- **A packed word names its mutex and its session.** -/
theorem namesMutex_versioned (version : Nat) {m : Addr} (hm : ValidAddr m) :
    namesMutex (versioned version m) m = true := by
  have hlt : m.toNat < 2 ^ 48 := hm.2
  rw [namesMutex_iff, versioned_toNat version hm]
  omega

theorem slotVersion_versioned (version : Nat) {m : Addr} (hm : ValidAddr m) :
    slotVersion (versioned version m) = versionBits version := by
  have hlt : m.toNat < 2 ^ 48 := hm.2
  rw [← BitVec.toNat_inj, slotVersion_toNat, versionBits_toNat, versioned_toNat version hm]
  omega

theorem versioned_ne_zero (version : Nat) {m : Addr} (hm : ValidAddr m) : versioned version m ≠ 0 := by
  intro h
  have h0 := versioned_toNat version hm
  rw [h] at h0
  have := hm.toNat_pos
  simp at h0
  omega

theorem namesMutex_unique {w : U64} {m n : Addr} (hm : namesMutex w m = true) (hn : namesMutex w n = true) : m = n := by
  rw [namesMutex_iff] at hm hn
  exact BitVec.toNat_inj.1 (hm.symm.trans hn)

theorem versioned_inj {v : Nat} {m n : Addr} (hm : ValidAddr m) (hn : ValidAddr n) (h : versioned v m = versioned v n) :
    m = n := by
  have h1 := namesMutex_versioned v hm
  rw [h] at h1
  exact namesMutex_unique h1 (namesMutex_versioned v hn)

theorem ne_zero_of_namesMutex {w : U64} {m : Addr} (hm : ValidAddr m) (h : namesMutex w m = true) : w ≠ 0 := by
  rintro rfl
  rw [namesMutex_iff] at h
  have := hm.toNat_pos
  simp at h
  omega

/-! ## Memory -/

/-- A mutex as pthread keeps it, with its latest acquisition (ghost). -/
structure Mutex where
  owner : Option Thread
  count : Nat
  acq : Acq

/-- A finished `pthread_mutex_unlock_impl`: the acquisition it ends and the site it submitted, if any, with the two
clock readings around the real unlock. -/
structure Unlocked where
  thread : Thread
  mutex : Addr
  acq : Acq
  version : Nat
  submitted : Option Site
  startNs : U64
  endNs : U64
deriving DecidableEq

structure Mem where
  /-- `g_cp != nullptr`. -/
  cp : Bool
  cpVersion : Nat
  map : U64 → MutexMapEntry
  mutexes : Addr → Mutex
  tls : Thread → TLSPthreadContentionSites
  nacq : Nat
  log : List Unlocked

namespace Mem

variable (s : Mem)

def setTls (t : Thread) (f : TLSPthreadContentionSites) : Mem := { s with tls := Function.update s.tls t f }

def setSlot (i : U64) (e : MutexMapEntry) : Mem := { s with map := Function.update s.map i e }

def setAcq (m : Addr) (a : Acq) : Mem :=
  { s with mutexes := Function.update s.mutexes m { s.mutexes m with acq := a } }

/-- What `pthread_mutex_trylock` answers with `EBUSY` and what the real lock waits for: the mutex is locked, and not
by a caller that may lock it again. -/
def busy (recursive : Addr → Bool) (t : Thread) (m : Addr) : Bool :=
  match (s.mutexes m).owner with
  | none   => false
  | some u => !(u == t && recursive m)

def acquire (t : Thread) (m : Addr) (contended : Bool) (range : U64) : Mem :=
  { s with
    mutexes := Function.update s.mutexes m
      ⟨some t, (s.mutexes m).count + 1, ⟨s.nacq, t, s.cpVersion, contended, range, 0, .nowhere⟩⟩
    nacq := s.nacq + 1 }

def release (m : Addr) : Mem :=
  { s with
    mutexes := Function.update s.mutexes m
      { s.mutexes m with
        owner := if (s.mutexes m).count ≤ 1 then none else (s.mutexes m).owner
        count := (s.mutexes m).count - 1 } }

def logUnlocked (u : Unlocked) : Mem := { s with log := u :: s.log }

/-- Lines 156–157 for an entry of the thread's list. -/
def fillTls (t : Thread) (m : Addr) (k : Nat) (range wait : U64) : Mem :=
  let a := { (s.mutexes m).acq with wait := wait, place := .tls }
  (s.setAcq m a).setTls t ((s.tls t).setSite k ⟨wait, range, some a⟩)

/-- The write half of `add_pthread_contention_site`: the CAS put `desired` into the slot. -/
def claim (t : Thread) (m : Addr) (desired : U64) : Mem :=
  (s.setAcq m { (s.mutexes m).acq with place := .map }).setSlot (mapIndex m)
    { s.map (mapIndex m) with versionedMutex := desired, filler := t }

/-- Line 156 for a slot of the map. -/
def fillDuration (m : Addr) (wait : U64) : Mem :=
  (s.setAcq m { (s.mutexes m).acq with wait := wait }).setSlot (mapIndex m)
    { s.map (mapIndex m) with csite := { (s.map (mapIndex m)).csite with durationNs := wait } }

/-- Line 157 for a slot of the map. -/
def fillRange (m : Addr) (range : U64) : Mem :=
  s.setSlot (mapIndex m)
    { s.map (mapIndex m) with
      csite := { (s.map (mapIndex m)).csite with samplingRange := range, acq := some (s.mutexes m).acq } }

/-- Line 91. -/
def invalidate (m : Addr) : Mem :=
  s.setSlot (mapIndex m)
    { s.map (mapIndex m) with csite := makeContentionSiteInvalid (s.map (mapIndex m)).csite }

/-- Line 92. -/
def clear (m : Addr) : Mem := s.setSlot (mapIndex m) { s.map (mapIndex m) with versionedMutex := 0 }

/-! ### What each operation changes -/

section Fields

variable (t u : Thread) (m n : Addr) (i : U64) (e : MutexMapEntry) (f : TLSPthreadContentionSites) (a : Acq) (b : Bool)
  (k : Nat) (r w : U64) (x : Unlocked)

@[simp] theorem setTls_map : (s.setTls t f).map = s.map := rfl
@[simp] theorem setTls_mutexes : (s.setTls t f).mutexes = s.mutexes := rfl
@[simp] theorem setTls_cp : (s.setTls t f).cp = s.cp := rfl
@[simp] theorem setTls_cpVersion : (s.setTls t f).cpVersion = s.cpVersion := rfl
@[simp] theorem setTls_log : (s.setTls t f).log = s.log := rfl
@[simp] theorem setTls_nacq : (s.setTls t f).nacq = s.nacq := rfl
theorem setTls_tls : (s.setTls t f).tls u = if u = t then f else s.tls u := Function.update_apply ..

@[simp] theorem setSlot_mutexes : (s.setSlot i e).mutexes = s.mutexes := rfl
@[simp] theorem setSlot_tls : (s.setSlot i e).tls = s.tls := rfl
@[simp] theorem setSlot_cp : (s.setSlot i e).cp = s.cp := rfl
@[simp] theorem setSlot_cpVersion : (s.setSlot i e).cpVersion = s.cpVersion := rfl
@[simp] theorem setSlot_log : (s.setSlot i e).log = s.log := rfl
@[simp] theorem setSlot_nacq : (s.setSlot i e).nacq = s.nacq := rfl
theorem setSlot_map (j : U64) : (s.setSlot i e).map j = if j = i then e else s.map j := Function.update_apply ..

@[simp] theorem setAcq_map : (s.setAcq m a).map = s.map := rfl
@[simp] theorem setAcq_tls : (s.setAcq m a).tls = s.tls := rfl
@[simp] theorem setAcq_cp : (s.setAcq m a).cp = s.cp := rfl
@[simp] theorem setAcq_cpVersion : (s.setAcq m a).cpVersion = s.cpVersion := rfl
@[simp] theorem setAcq_log : (s.setAcq m a).log = s.log := rfl
@[simp] theorem setAcq_nacq : (s.setAcq m a).nacq = s.nacq := rfl
theorem setAcq_mutexes : (s.setAcq m a).mutexes n = if n = m then { s.mutexes m with acq := a } else s.mutexes n :=
  Function.update_apply ..

@[simp] theorem setAcq_owner : ((s.setAcq m a).mutexes n).owner = (s.mutexes n).owner := by
  rw [setAcq_mutexes]; split
  · subst n; rfl
  · rfl

@[simp] theorem setAcq_count : ((s.setAcq m a).mutexes n).count = (s.mutexes n).count := by
  rw [setAcq_mutexes]; split
  · subst n; rfl
  · rfl

@[simp] theorem acquire_map : (s.acquire t m b r).map = s.map := rfl
@[simp] theorem acquire_tls : (s.acquire t m b r).tls = s.tls := rfl
@[simp] theorem acquire_cp : (s.acquire t m b r).cp = s.cp := rfl
@[simp] theorem acquire_cpVersion : (s.acquire t m b r).cpVersion = s.cpVersion := rfl
@[simp] theorem acquire_log : (s.acquire t m b r).log = s.log := rfl
@[simp] theorem acquire_nacq : (s.acquire t m b r).nacq = s.nacq + 1 := rfl
theorem acquire_mutexes : (s.acquire t m b r).mutexes n =
    if n = m then ⟨some t, (s.mutexes m).count + 1, ⟨s.nacq, t, s.cpVersion, b, r, 0, .nowhere⟩⟩ else s.mutexes n :=
  Function.update_apply ..

theorem acquire_owner : ((s.acquire t m b r).mutexes n).owner = if n = m then some t else (s.mutexes n).owner := by
  rw [acquire_mutexes]; split <;> rfl

@[simp] theorem release_map : (s.release m).map = s.map := rfl
@[simp] theorem release_tls : (s.release m).tls = s.tls := rfl
@[simp] theorem release_cp : (s.release m).cp = s.cp := rfl
@[simp] theorem release_cpVersion : (s.release m).cpVersion = s.cpVersion := rfl
@[simp] theorem release_log : (s.release m).log = s.log := rfl
@[simp] theorem release_nacq : (s.release m).nacq = s.nacq := rfl
theorem release_mutexes : (s.release m).mutexes n =
    if n = m then
      { s.mutexes m with
        owner := if (s.mutexes m).count ≤ 1 then none else (s.mutexes m).owner
        count := (s.mutexes m).count - 1 }
    else s.mutexes n := Function.update_apply ..

@[simp] theorem logUnlocked_map : (s.logUnlocked x).map = s.map := rfl
@[simp] theorem logUnlocked_mutexes : (s.logUnlocked x).mutexes = s.mutexes := rfl
@[simp] theorem logUnlocked_tls : (s.logUnlocked x).tls = s.tls := rfl
@[simp] theorem logUnlocked_cp : (s.logUnlocked x).cp = s.cp := rfl
@[simp] theorem logUnlocked_cpVersion : (s.logUnlocked x).cpVersion = s.cpVersion := rfl
@[simp] theorem logUnlocked_nacq : (s.logUnlocked x).nacq = s.nacq := rfl
@[simp] theorem logUnlocked_log : (s.logUnlocked x).log = x :: s.log := rfl

end Fields

end Mem

/-! ## The two hooks, uninterrupted -/

/-- `add_pthread_contention_site`. -/
def addPthreadContentionSite (s : Mem) (t : Thread) (m : Addr) : Option Mem :=
  if takeable s.cpVersion (s.map (mapIndex m)).versionedMutex then some (s.claim t m (versioned s.cpVersion m))
  else none

/-- `remove_pthread_contention_site`, with the saved site. -/
def removePthreadContentionSite (s : Mem) (m : Addr) : Option (Mem × Site) :=
  if namesMutex (s.map (mapIndex m)).versionedMutex m then
    some ((s.invalidate m).clear m, (s.map (mapIndex m)).csite)
  else none

/-- What one lock call meets: whether trylock answered `EBUSY`, what `is_collectable` returned, the return code of the
call that decides (trylock's, or the real lock's after `EBUSY`) and the two clock readings around the real lock. -/
structure LockInput where
  busy : Bool
  range : U64
  res : Nat
  startNs : U64
  nowNs : U64
deriving DecidableEq

/-- `pthread_mutex_lock_impl` as one step; `none` when the call cannot return yet. -/
def pthreadMutexLockImpl (recursive : Addr → Bool) (s : Mem) (t : Thread) (m : Addr) (i : LockInput) : Option Mem :=
  if !s.cp || !i.busy then
    -- line 118, or what trylock answered
    if i.res ≠ 0 then some s
    else if s.busy recursive t m then none
    else some (s.acquire t m false 0)
  else if (s.mutexes m).owner = some t ∧ recursive m then none
  else
    let p := ((s.tls t).refresh s.cpVersion).append m i.range
    let s₁ := s.setTls t p.1
    if i.res ≠ 0 then some s₁
    else if s.busy recursive t m then none
    else
      let s₂ := s₁.acquire t m true i.range
      if i.range = 0 then some s₂
      else
        match p.2 with
        | some k => some (s₂.fillTls t m k i.range (i.nowNs - i.startNs))
        | none   =>
          match addPthreadContentionSite s₂ t m with
          | none    => some s₂
          | some s₃ => some ((s₃.fillDuration m (i.nowNs - i.startNs)).fillRange m i.range)

/-- The clock readings of one unlock call. -/
structure UnlockInput where
  startNs : U64
  endNs : U64
deriving DecidableEq

/-- The real unlock: it fails, and changes nothing, for a caller that does not own the mutex. -/
def realUnlock (s : Mem) (t : Thread) (m : Addr) : Mem := if (s.mutexes m).owner = some t then s.release m else s

@[simp] theorem realUnlock_log (s : Mem) (t : Thread) (m : Addr) : (realUnlock s t m).log = s.log := by
  unfold realUnlock
  split <;> rfl

/-- Lines 189–196: the real unlock, then the saved site is submitted if the clock was read. -/
def finishUnlock (s : Mem) (t : Thread) (m : Addr) (saved : Site) (startNs endNs : U64) : Mem :=
  let site := if startNs = 0 then none else some { saved with durationNs := saved.durationNs + (endNs - startNs) }
  (realUnlock s t m).logUnlocked ⟨t, m, (s.mutexes m).acq, s.cpVersion, site, startNs, endNs⟩

/-- `pthread_mutex_unlock_impl` as one step. -/
def pthreadMutexUnlockImpl (s : Mem) (t : Thread) (m : Addr) (i : UnlockInput) : Mem :=
  if !s.cp then finishUnlock s t m .zero 0 i.endNs
  else
    match (s.tls t).find m with
    | some k =>
      let cs := ((s.tls t).list k).csite
      let s₁ := s.setTls t ((s.tls t).remove k)
      if isContentionSiteValid cs then finishUnlock s₁ t m cs i.startNs i.endNs
      else finishUnlock s₁ t m .zero 0 i.endNs
    | none   =>
      match removePthreadContentionSite s m with
      | some (s₁, saved) => finishUnlock s₁ t m saved i.startNs i.endNs
      | none             => finishUnlock s t m .zero 0 i.endNs

end Hook
end ContentionProf
