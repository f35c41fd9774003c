import ContentionProf.Hook
import ContentionProf.Scramble
import ContentionProf.Words
import Mathlib.Data.List.GetD
/-!
# Hashes — of a call stack and of a mutex (`common/murmurhash3.cpp`, `collector.h`, `common/common.cpp`)

`MurmurHash3_x86_32` reads its key as little-endian words.  Every step is invertible in `h1`, and in the word that it
takes in; so is every step of `fmix64`.
-/
namespace ContentionProf
namespace MurmurHash

abbrev U32 := BitVec 32

abbrev U8 := BitVec 8

def rotl32 (x : U32) (r : Nat) : U32 := (x <<< r) ||| (x >>> (32 - r))

/-- The byte at an offset; no caller reads beyond the end. -/
def byteAt (key : List U8) (i : Nat) : U8 := key.getD i 0

def getblock32 (p : List U8) (i : Nat) : U32 :=
  byteAt p (4 * i + 3) ++ byteAt p (4 * i + 2) ++ byteAt p (4 * i + 1) ++ byteAt p (4 * i)

def fmix32 (h : U32) : U32 :=
  let h := h ^^^ (h >>> 16)
  let h := h * 0x85ebca6b#32
  let h := h ^^^ (h >>> 13)
  let h := h * 0xc2b2ae35#32
  h ^^^ (h >>> 16)

def c1 : U32 := 0xcc9e2d51#32

def c2 : U32 := 0x1b873593#32

/-- `k1 *= c1; k1 = ROTL32(k1, 15); k1 *= c2`. -/
def mixK1 (k1 : U32) : U32 := rotl32 (k1 * c1) 15 * c2

/-- The body of the loop. -/
def body (h1 k1 : U32) : U32 := rotl32 (h1 ^^^ mixK1 k1) 13 * 5 + 0xe6546b64#32

/-- The `switch`, whose cases fall through. -/
def tail (data : List U8) (len : Nat) (h1 : U32) : U32 :=
  let t (i : Nat) : U32 := (byteAt data (len / 4 * 4 + i)).setWidth 32
  match len % 4 with
  | 0 => h1
  | 1 => h1 ^^^ mixK1 (t 0)
  | 2 => h1 ^^^ mixK1 (t 1 <<< 8 ^^^ t 0)
  | _ => h1 ^^^ mixK1 (t 2 <<< 16 ^^^ t 1 <<< 8 ^^^ t 0)

/-- `MurmurHash3_x86_32` of the first `len` bytes. -/
def murmurHash3X86 (key : List U8) (len : Nat) (seed : U32) : U32 :=
  let h1 := (List.range (len / 4)).foldl (fun h1 i => body h1 (getblock32 key i)) seed
  let h1 := tail key len h1
  fmix32 (h1 ^^^ BitVec.ofNat 32 len)

/-- A `void*` in memory. -/
def bytes (p : U64) : List U8 := (List.range 8).map (fun i => p.extractLsb' (8 * i) 8)

/-- `SampledContention::hash_code`, with the frames that count. -/
def hashCode (framesCount : Nat) (stack : List U64) : U64 :=
  if framesCount = 0 then 0
  else (murmurHash3X86 (stack.flatMap bytes) (8 * framesCount) (BitVec.ofNat 32 framesCount)).setWidth 64

/-! ## Steps that lose nothing -/

open Scramble

theorem getLsbD_rotl32 {x : U32} {r j : Nat} (hr : 0 < r) (hr' : r < 32) (hj : j < 32) :
    (rotl32 x r).getLsbD ((j + r) % 32) = x.getLsbD j := by
  rw [rotl32, BitVec.getLsbD_or, BitVec.getLsbD_shiftLeft, BitVec.getLsbD_ushiftRight]
  by_cases h : j + r < 32
  · rw [Nat.mod_eq_of_lt h, BitVec.getLsbD_of_ge x (32 - r + (j + r)) (by omega)]
    simp [h]
  · have hmod : (j + r) % 32 = j + r - 32 := by omega
    have hlt : j + r - 32 < r := by omega
    rw [hmod, show 32 - r + (j + r - 32) = j by omega]
    simp [hlt]

theorem rotl32_injective {r : Nat} (hr : 0 < r) (hr' : r < 32) : Function.Injective (fun x => rotl32 x r) := by
  intro x y h
  have h : rotl32 x r = rotl32 y r := h
  refine BitVec.eq_of_getLsbD_eq (fun j hj => ?_)
  rw [← getLsbD_rotl32 hr hr' hj, ← getLsbD_rotl32 (x := y) hr hr' hj, h]

theorem mixK1_injective : Function.Injective mixK1 := by
  have h₁ : IsUnit c1 := .of_mul_eq_one 0xdee13bb1#32 (by decide)
  have h₂ : IsUnit c2 := .of_mul_eq_one 0x56ed309b#32 (by decide)
  intro x y h
  exact h₁.mul_left_injective (rotl32_injective (by decide) (by decide) (h₂.mul_left_injective h))

theorem fmix32_injective : Function.Injective fmix32 := by
  have h₁ : IsUnit (0x85ebca6b#32) := .of_mul_eq_one 0xa5cb9243#32 (by decide)
  have h₂ : IsUnit (0xc2b2ae35#32) := .of_mul_eq_one 0x7ed1b41d#32 (by decide)
  intro x y h
  have h := h₂.mul_left_injective (xor_ushiftRight_injective (by decide) h)
  have h := h₁.mul_left_injective (xor_ushiftRight_injective (by decide) h)
  exact xor_ushiftRight_injective (by decide) h

/-- The rest of the body, after the xor. -/
theorem body_eq_iff {h1 h1' k1 k1' : U32} : body h1 k1 = body h1' k1' ↔ h1 ^^^ mixK1 k1 = h1' ^^^ mixK1 k1' := by
  have h5 : IsUnit (5 : U32) := .of_mul_eq_one 0xcccccccd#32 (by decide)
  constructor
  · intro h
    exact rotl32_injective (by decide) (by decide) (h5.mul_left_injective (add_right_cancel h))
  · intro h
    rw [body, h, ← body]

theorem body_injective (k1 : U32) : Function.Injective (fun h1 => body h1 k1) := fun _ _ h =>
  BitVec.xor_left_inj _ |>.1 (body_eq_iff.1 h)

theorem body_word_injective (h1 : U32) : Function.Injective (body h1) := fun _ _ h =>
  mixK1_injective (BitVec.xor_right_inj _ |>.1 (body_eq_iff.1 h))

theorem append_inj {n m : Nat} {a a' : BitVec n} {b b' : BitVec m} (h : a ++ b = a' ++ b') : a = a' ∧ b = b' := by
  have hl := congrArg (BitVec.extractLsb' m n) h
  have hr := congrArg (BitVec.extractLsb' 0 m) h
  rw [BitVec.extractLsb'_append_eq_left, BitVec.extractLsb'_append_eq_left] at hl
  rw [BitVec.extractLsb'_append_eq_right, BitVec.extractLsb'_append_eq_right] at hr
  exact ⟨hl, hr⟩

/-- **A word has its bytes.** -/
theorem word_inj {a a' b b' c c' d d' : U8} (h : (a ++ b ++ c ++ d : U32) = a' ++ b' ++ c' ++ d') :
    a = a' ∧ b = b' ∧ c = c' ∧ d = d' := by
  obtain ⟨h₃, hd⟩ := append_inj h
  obtain ⟨h₂, hc⟩ := append_inj h₃
  obtain ⟨ha, hb⟩ := append_inj h₂
  exact ⟨ha, hb, hc, hd⟩

/-- The word of the `switch`. -/
theorem xor_bytes (b2 b1 b0 : U8) :
    b2.setWidth 32 <<< 16 ^^^ b1.setWidth 32 <<< 8 ^^^ b0.setWidth 32 = (0#8 ++ b2 ++ b1 ++ b0 : U32) := by
  refine BitVec.eq_of_getLsbD_eq (fun j hj => ?_)
  simp only [BitVec.getLsbD_xor, BitVec.getLsbD_shiftLeft, BitVec.getLsbD_setWidth, BitVec.getLsbD_append,
    BitVec.getLsbD_zero]
  by_cases h0 : j < 8
  · simp [h0, show j < 16 by omega, show j < 32 by omega]
  by_cases h1 : j < 16
  · simp [h0, h1, show j - 8 < 8 by omega, show j - 8 < 32 by omega, hj, BitVec.getLsbD_of_ge b0 j (by omega)]
  by_cases h2 : j < 24
  · simp [h0, h1, show ¬ j - 8 < 8 by omega, show j - 16 < 8 by omega, show j - 16 < 32 by omega, hj,
      show j - 8 - 8 = j - 16 by omega, BitVec.getLsbD_of_ge b0 j (by omega),
      BitVec.getLsbD_of_ge b1 (j - 8) (by omega), show j - 8 < 32 by omega]
  · simp [h0, h1, show ¬ j - 8 < 8 by omega, show ¬ j - 8 - 8 < 8 by omega, hj,
      BitVec.getLsbD_of_ge b0 j (by omega), BitVec.getLsbD_of_ge b1 (j - 8) (by omega),
      BitVec.getLsbD_of_ge b2 (j - 16) (by omega)]

/-- A byte of the tail, 0 beyond the end. -/
def tailByte (data : List U8) (len i : Nat) : U8 := if i < len % 4 then byteAt data (len / 4 * 4 + i) else 0

theorem tail_eq (data : List U8) (len : Nat) (h1 : U32) : tail data len h1 =
    if len % 4 = 0 then h1
    else h1 ^^^ mixK1 (0#8 ++ tailByte data len 2 ++ tailByte data len 1 ++ tailByte data len 0) := by
  have hlt : len % 4 < 4 := Nat.mod_lt _ (by decide)
  rw [← xor_bytes]
  unfold tail tailByte
  generalize len % 4 = r at hlt ⊢
  match r, hlt with
  | 0, _ => rfl
  | 1, _ => simp
  | 2, _ => simp
  | 3, _ => simp

theorem tail_injective (data : List U8) (len : Nat) : Function.Injective (tail data len) := by
  intro x y h
  rw [tail_eq, tail_eq] at h
  split at h
  · exact h
  · exact BitVec.xor_left_inj _ |>.1 h

/-- **A fold that takes in one other word ends elsewhere**, where no step loses anything. -/
theorem foldl_ne {α β : Type} {f g : α → β → α} {j : β} (hf : ∀ i, Function.Injective (fun h => f h i))
    (hj : ∀ h, f h j ≠ g h j) : ∀ {l : List β} {h h' : α}, l.Nodup → (∀ i ∈ l, i ≠ j → ∀ h, g h i = f h i) →
    (j ∈ l ∧ h = h') ∨ (j ∉ l ∧ h ≠ h') → l.foldl f h ≠ l.foldl g h'
  | [], h, h', _, _, hor          => hor.elim (fun hl => nomatch hl.1) (fun hr => hr.2)
  | i :: l, h, h', hnd, hg, hor => by
    obtain ⟨hi, hnd⟩ := List.nodup_cons.1 hnd
    rw [List.foldl_cons, List.foldl_cons]
    refine foldl_ne hf hj hnd (fun k hk => hg k (List.mem_cons_of_mem _ hk)) ?_
    by_cases hij : i = j
    · subst hij
      refine .inr ⟨hi, ?_⟩
      rcases hor with ⟨-, rfl⟩ | ⟨hno, -⟩
      · exact hj h
      · exact absurd List.mem_cons_self hno
    · rw [hg i List.mem_cons_self hij h']
      rcases hor with ⟨hin, rfl⟩ | ⟨hno, hne⟩
      · exact .inl ⟨(List.mem_cons.1 hin).resolve_left (fun he => hij he.symm), rfl⟩
      · exact .inr ⟨fun hin => hno (List.mem_cons_of_mem _ hin), fun he => hne (hf i he)⟩

/-! ## The hash -/

/-- The loop. -/
def blocks (key : List U8) (n : Nat) (h1 : U32) : U32 :=
  (List.range n).foldl (fun h1 i => body h1 (getblock32 key i)) h1

theorem murmurHash3X86_eq_iff {key key' : List U8} {len : Nat} {seed seed' : U32} :
    murmurHash3X86 key len seed = murmurHash3X86 key' len seed' ↔
      tail key len (blocks key (len / 4) seed) = tail key' len (blocks key' (len / 4) seed') := by
  unfold murmurHash3X86 blocks
  dsimp only
  rw [fmix32_injective.eq_iff, BitVec.xor_left_inj]

theorem foldl_injective {α β : Type} {f : α → β → α} (hf : ∀ i, Function.Injective (fun h => f h i)) :
    ∀ l : List β, Function.Injective (fun h => l.foldl f h)
  | [], _, _, h     => h
  | i :: l, _, _, h => hf i (foldl_injective hf l h)

theorem blocks_injective (key : List U8) (n : Nat) : Function.Injective (blocks key n) :=
  foldl_injective (fun _ => body_injective _) _

instance : Finite U32 :=
  .of_equiv (Fin (2 ^ 32)) { toFun := BitVec.ofFin, invFun := BitVec.toFin, left_inv := fun _ => rfl
                             right_inv := fun _ => rfl }

theorem getblock32_congr {p q : List U8} {i : Nat} (h : ∀ k, k / 4 = i → byteAt p k = byteAt q k) :
    getblock32 p i = getblock32 q i := by
  unfold getblock32
  rw [h (4 * i + 3) (by omega), h (4 * i + 2) (by omega), h (4 * i + 1) (by omega), h (4 * i) (by omega)]

/-- **Every hash value has one seed**: nothing of the seed is lost. -/
theorem murmurHash3X86_bijective (key : List U8) (len : Nat) : Function.Bijective (murmurHash3X86 key len) :=
  Function.Injective.bijective_of_finite (fun _ _ h =>
    blocks_injective key _ (tail_injective key len (murmurHash3X86_eq_iff.1 h)))

/-- **Keys that differ within one word never collide**: same length and seed, and all differences in one aligned word,
or all in the tail. -/
theorem murmurHash3X86_ne {key key' : List U8} {len j : Nat} (seed : U32) (hj : j < len)
    (hne : byteAt key j ≠ byteAt key' j) (hsame : ∀ k, k < len → k / 4 ≠ j / 4 → byteAt key k = byteAt key' k) :
    murmurHash3X86 key len seed ≠ murmurHash3X86 key' len seed := by
  rw [Ne, murmurHash3X86_eq_iff]
  by_cases hblock : j / 4 < len / 4
  · -- one block differs, and the tail does not
    have htail : ∀ h1, tail key' len h1 = tail key len h1 := by
      intro h1
      have hbyte : ∀ i, tailByte key' len i = tailByte key len i := by
        intro i
        unfold tailByte
        split
        · exact (hsame _ (by omega) (by omega)).symm
        · rfl
      rw [tail_eq, tail_eq, hbyte, hbyte, hbyte]
    rw [htail, (tail_injective key len).eq_iff]
    unfold blocks
    refine foldl_ne (j := j / 4) (fun i => body_injective _) (fun h he => ?_) List.nodup_range (fun i hi hij h => ?_)
      (.inl ⟨List.mem_range.2 hblock, rfl⟩)
    · obtain ⟨h₃, h₂, h₁, h₀⟩ := word_inj (body_word_injective h he)
      have hrem : j % 4 < 4 := Nat.mod_lt _ (by decide)
      have hjmod : j = 4 * (j / 4) + j % 4 := (Nat.div_add_mod j 4).symm
      rw [hjmod] at hne
      match hr : j % 4, hrem with
      | 0, _ => rw [hr] at hne; exact hne h₀
      | 1, _ => rw [hr] at hne; exact hne h₁
      | 2, _ => rw [hr] at hne; exact hne h₂
      | 3, _ => rw [hr] at hne; exact hne h₃
    · have hlt := List.mem_range.1 hi
      rw [getblock32_congr (fun k hk => (hsame k (by omega) (by omega)).symm)]
  · -- the blocks are the same, and the tail is not
    have hblocks : blocks key' (len / 4) seed = blocks key (len / 4) seed := by
      refine List.foldl_ext _ _ _ (fun h i hi => ?_)
      have hlt := List.mem_range.1 hi
      rw [getblock32_congr (fun k hk => (hsame k (by omega) (by omega)).symm)]
    rw [hblocks, tail_eq, tail_eq, if_neg (by omega), if_neg (by omega), BitVec.xor_right_inj, mixK1_injective.eq_iff]
    intro he
    obtain ⟨-, h₂, h₁, h₀⟩ := word_inj he
    have hrem : j % 4 < len % 4 := by omega
    have hlen : len % 4 < 4 := Nat.mod_lt _ (by decide)
    have hjmod : j = len / 4 * 4 + j % 4 := by omega
    have hbyte : ∀ i, i = j % 4 → tailByte key len i ≠ tailByte key' len i := by
      rintro i rfl
      unfold tailByte
      rw [if_pos hrem, if_pos hrem, ← hjmod]
      exact hne
    have hcases : j % 4 = 0 ∨ j % 4 = 1 ∨ j % 4 = 2 := by omega
    rcases hcases with hr | hr | hr
    · exact hbyte 0 hr.symm h₀
    · exact hbyte 1 hr.symm h₁
    · exact hbyte 2 hr.symm h₂

/-! ## Call stacks -/

/-- The frame at an index, null beyond the end. -/
def frame (stack : List U64) (i : Nat) : U64 := stack.getD i 0

/-- The low and the high half of an address. -/
def half (p : U64) (h : Nat) : U32 := p.extractLsb' (32 * h) 32

theorem byteAt_bytes (stack : List U64) (k : Nat) :
    byteAt (stack.flatMap bytes) k = (frame stack (k / 8)).extractLsb' (8 * (k % 8)) 8 := by
  unfold byteAt frame
  induction stack generalizing k with
  | nil => simp
  | cons p stack ih =>
    have hlen : (bytes p).length = 8 := by simp [bytes]
    rw [List.flatMap_cons]
    by_cases hk : k < 8
    · rw [List.getD_append _ _ _ _ (by rw [hlen]; exact hk), Nat.div_eq_of_lt hk, Nat.mod_eq_of_lt hk]
      simp [bytes, hk]
    · rw [List.getD_append_right _ _ _ _ (by rw [hlen]; omega), hlen, ih, show k / 8 = (k - 8) / 8 + 1 by omega,
        show (k - 8) % 8 = k % 8 by omega]
      rfl

/-- The words of a key that is a stack are the halves of its frames. -/
theorem getblock32_bytes (stack : List U64) (i : Nat) :
    getblock32 (stack.flatMap bytes) i = half (frame stack (i / 2)) (i % 2) := by
  have hbyte : ∀ b, b < 4 → byteAt (stack.flatMap bytes) (4 * i + b) =
      (frame stack (i / 2)).extractLsb' (32 * (i % 2) + 8 * b) 8 := by
    intro b hb
    rw [byteAt_bytes, show (4 * i + b) / 8 = i / 2 by omega, show 8 * ((4 * i + b) % 8) = 32 * (i % 2) + 8 * b by omega]
  unfold getblock32 half
  have h0 := hbyte 0 (by decide)
  rw [Nat.add_zero] at h0
  rw [hbyte 3 (by decide), hbyte 2 (by decide), hbyte 1 (by decide), h0]
  rw [BitVec.extractLsb'_append_extractLsb'_eq_extractLsb' (by omega),
    BitVec.extractLsb'_append_extractLsb'_eq_extractLsb' (by omega),
    BitVec.extractLsb'_append_extractLsb'_eq_extractLsb' (by omega)]
  rfl

theorem byteAt_of_getblock32 {p q : List U8} {i : Nat} (h : getblock32 p i = getblock32 q i) {k : Nat}
    (hk : k / 4 = i) : byteAt p k = byteAt q k := by
  obtain ⟨h₃, h₂, h₁, h₀⟩ := word_inj h
  have hcases : k = 4 * i ∨ k = 4 * i + 1 ∨ k = 4 * i + 2 ∨ k = 4 * i + 3 := by omega
  rcases hcases with rfl | rfl | rfl | rfl
  · exact h₀
  · exact h₁
  · exact h₂
  · exact h₃

/-- **Stacks of one depth that differ in half a frame never collide**: one frame differs, in its low or in its high 32
bits only. -/
theorem hashCode_ne {n f b : Nat} {stack stack' : List U64} (hf : f < n) (hb : b < 2)
    (hne : half (frame stack f) b ≠ half (frame stack' f) b)
    (hsame : ∀ i, i < n → ∀ c, c < 2 → (i, c) ≠ (f, b) → half (frame stack i) c = half (frame stack' i) c) :
    hashCode n stack ≠ hashCode n stack' := by
  have hi : 2 * f + b < 8 * n / 4 := by omega
  have hfb : (2 * f + b) / 2 = f ∧ (2 * f + b) % 2 = b := by omega
  have hblock : getblock32 (stack.flatMap bytes) (2 * f + b) ≠ getblock32 (stack'.flatMap bytes) (2 * f + b) := by
    rw [getblock32_bytes, getblock32_bytes, hfb.1, hfb.2]
    exact hne
  have hbyte : ∃ j, j / 4 = 2 * f + b ∧ byteAt (stack.flatMap bytes) j ≠ byteAt (stack'.flatMap bytes) j := by
    by_contra hno
    exact hblock (getblock32_congr (fun k hk => by_contra (fun hk' => hno ⟨k, hk, hk'⟩)))
  obtain ⟨j, hj, hjne⟩ := hbyte
  have hlt : j < 8 * n := by omega
  have hmurmur := murmurHash3X86_ne (BitVec.ofNat 32 n) hlt hjne (fun k hk hkj => by
    refine byteAt_of_getblock32 (i := k / 4) ?_ rfl
    rw [getblock32_bytes, getblock32_bytes]
    refine hsame _ (by omega) _ (Nat.mod_lt _ (by decide)) (fun he => ?_)
    obtain ⟨h₁, h₂⟩ := Prod.mk.inj he
    omega)
  intro h
  rw [hashCode, hashCode, if_neg (by omega), if_neg (by omega)] at h
  refine hmurmur (BitVec.eq_of_toNat_eq ?_)
  have hnat := congrArg BitVec.toNat h
  rwa [BitVec.toNat_setWidth_of_le (by decide), BitVec.toNat_setWidth_of_le (by decide)] at hnat

/-- Two stacks through one module. -/
theorem hashCode_ne_module : hashCode 3 [0x7f0000001000, 0x7f0000002000, 0x7f0000003000] ≠
    hashCode 3 [0x7f0000001000, 0x7f0000002008, 0x7f0000003000] := by
  refine hashCode_ne (f := 1) (b := 0) (by decide) (by decide) (by decide) ?_
  decide

end MurmurHash

/-! ## The map of mutexes -/

namespace Hook

open Scramble

theorem fmix64_injective : Function.Injective fmix64 := by
  have h₁ : IsUnit (0xff51afd7ed558ccd#64) := .of_mul_eq_one 0x4f74430c22a54005#64 (by decide)
  have h₂ : IsUnit (0xc4ceb9fe1a85ec53#64) := .of_mul_eq_one 0x9cb4b2f8129337db#64 (by decide)
  intro x y h
  have h := h₂.mul_left_injective (xor_ushiftRight_injective (by decide) h)
  have h := h₁.mul_left_injective (xor_ushiftRight_injective (by decide) h)
  exact xor_ushiftRight_injective (by decide) h

theorem toNat_mapIndex (m : Addr) : (mapIndex m).toNat = (fmix64 m).toNat % 1024 := by
  show (fmix64 m &&& (mutexMapSize - 1)).toNat = _
  rw [BitVec.toNat_and]
  exact Nat.and_two_pow_sub_one_eq_mod _ 10

/-- **The map is used evenly**: the hash of a mutex is a permutation of the words, and every slot of `g_mutex_map` is
that of one word in 1024. -/
theorem mapIndex_even : Function.Bijective hashMutexPtr ∧
    ∀ i, i < 1024 → (Finset.univ.filter (fun m : Addr => (mapIndex m).toNat = i)).card = 2 ^ 54 := by
  have hbij : Function.Bijective hashMutexPtr := Finite.injective_iff_bijective.1 fmix64_injective
  refine ⟨hbij, fun i hi => ?_⟩
  have hsame : (Finset.univ.filter (fun m : Addr => (mapIndex m).toNat = i)).card =
      (Finset.univ.filter (fun w : U64 => w.toNat % 1024 = i)).card := by
    refine Finset.card_bij (fun m _ => fmix64 m) (fun m hm => ?_) (fun m _ m' _ h => fmix64_injective h)
      (fun w hw => ?_)
    · rw [Finset.mem_filter] at hm ⊢
      exact ⟨Finset.mem_univ _, (toNat_mapIndex m).symm.trans hm.2⟩
    · obtain ⟨m, rfl⟩ := hbij.2 w
      refine ⟨m, ?_, rfl⟩
      rw [Finset.mem_filter] at hw ⊢
      exact ⟨Finset.mem_univ _, (toNat_mapIndex m).trans hw.2⟩
  rw [hsame, card_words (fun n => n % 1024 = i), ← card_class (k := 2 ^ 54) (by decide) hi]
  refine congrArg Finset.card (Finset.filter_congr (fun n hn => ?_))
  rw [BitVec.toNat_ofNat, Nat.mod_eq_of_lt (Finset.mem_range.1 hn)]

end Hook
end ContentionProf
