import StrideXv6.Bytes
import Mathlib.Logic.Function.Basic

/-!
# `memmove`, twice (`ulib.c`, `string.c`)

Both versions copy byte by byte. Going up, a byte that was already written may be read
again: if the destination begins inside of the source, its first bytes are repeated
(`copyUp_apply`). Going down is the same in a mirror (`copyDown_eq`), where it is the end
of the destination that must not be inside of the source. The kernel chooses between the
two, the user library always goes up.
-/

namespace StrideXv6

open Bytes

/-- A byte for each address. -/
abbrev Bytemap : Type := BitVec 32 → Byte

/-- `while(n-- > 0) *d++ = *s++;` -/
def copyUp (m : Bytemap) (d s : BitVec 32) : ℕ → Bytemap
  | 0 => m
  | n + 1 => copyUp (Function.update m d (m s)) (d + 1) (s + 1) n

/-- `while(n-- > 0) *--d = *--s;` -/
def copyDown (m : Bytemap) (d s : BitVec 32) : ℕ → Bytemap
  | 0 => m
  | n + 1 => copyDown (Function.update m (d - 1) (m (s - 1))) (d - 1) (s - 1) n

/-- `memmove` of the user library, where `n` is an `int`: what is returned, and the memory. -/
def UserLib.memmove (m : Bytemap) (vdst vsrc n : BitVec 32) : BitVec 32 × Bytemap :=
  (vdst, copyUp m vdst vsrc n.toInt.toNat)

/-- `memmove` of the kernel, where `n` is a `uint`. -/
def KernelLib.memmove (m : Bytemap) (dst src n : BitVec 32) : BitVec 32 × Bytemap :=
  if src < dst ∧ src + n > dst then (dst, copyDown m (dst + n) (src + n) n.toNat)
  else (dst, copyUp m dst src n.toNat)

/-- The bytes from `dst` on are those that were there from `src` on; all others are as before. -/
structure IsMove (m : Bytemap) (dst src : BitVec 32) (n : ℕ) (m' : Bytemap) : Prop where
  moved : ∀ i < n, m' (dst + BitVec.ofNat 32 i) = m (src + BitVec.ofNat 32 i)
  others : ∀ a, (∀ i < n, a ≠ dst + BitVec.ofNat 32 i) → m' a = m a

variable {m : Bytemap} {d s a : BitVec 32} {n : ℕ}

/-- The next place in a range that repeats. -/
theorem succ_mod {k l : ℕ} (hl : l < 4294967296) (hk : k + 1 < 4294967296) :
    (k % l + 1 = l ∧ (k + 1) % l = 0) ∨
      (k % l + 1) % 4294967296 ≠ l ∧ (k + 1) % l = k % l + 1 := by
  rcases Nat.eq_zero_or_pos l with rfl | hpos
  · rw [Nat.mod_zero, Nat.mod_zero, Nat.mod_eq_of_lt hk]
    exact .inr ⟨Nat.succ_ne_zero k, rfl⟩
  · have hlt := Nat.mod_lt k hpos
    by_cases h : k % l + 1 = l
    · refine .inl ⟨h, ?_⟩
      rw [← Nat.mod_add_mod, h, Nat.mod_self]
    · refine .inr ⟨by omega, ?_⟩
      rw [← Nat.mod_add_mod, Nat.mod_eq_of_lt (by omega)]

/-- Going up, each byte is the one that was at its place modulo the distance. -/
theorem copyUp_apply (hn : n ≤ 4294967296) : copyUp m d s n a =
    if (a - d).toNat < n then m (s + BitVec.ofNat 32 ((a - d).toNat % (d - s).toNat)) else m a := by
  induction n generalizing m d s with
  | zero => rw [if_neg (Nat.not_lt_zero _), copyUp]
  | succ n ih =>
    have hdist : d + 1 - (s + 1) = d - s := by bv_omega
    rw [copyUp, ih (by omega), hdist]
    by_cases ha : a = d
    · -- the byte that is written now is not written again
      subst ha
      have hlast : (a - (a + 1)).toNat = 4294967295 := by bv_omega
      have hzero : (a - a).toNat = 0 := by rw [BitVec.sub_self]; rfl
      rw [hlast, hzero, if_neg (by omega), if_pos (by omega), Function.update_self, Nat.zero_mod]
      simp
    · have hpred : (a - d).toNat = (a - (d + 1)).toNat + 1 := by bv_omega
      rw [hpred]
      by_cases hlt : (a - (d + 1)).toNat < n
      · rw [if_pos hlt, if_pos (by omega)]
        have hk : (a - (d + 1)).toNat + 1 < 4294967296 := hpred ▸ (a - d).isLt
        -- either the byte to read is the one that was just written, or it is as before
        rcases succ_mod (d - s).isLt hk with ⟨hwritten, hmod⟩ | ⟨hother, hmod⟩
        · have haddr : s + 1 + BitVec.ofNat 32 ((a - (d + 1)).toNat % (d - s).toNat) = d := by
            bv_omega
          rw [haddr, hmod, Function.update_self]
          simp
        · have haddr : s + 1 + BitVec.ofNat 32 ((a - (d + 1)).toNat % (d - s).toNat) ≠ d := by
            bv_omega
          rw [Function.update_of_ne haddr, hmod]
          congr 1
          bv_omega
      · rw [if_neg hlt, if_neg (by omega), Function.update_of_ne ha]

/-- Going down is going up in a mirror. -/
theorem copyDown_eq : copyDown m d s n a = copyUp (fun x => m (~~~x)) (-d) (-s) n (~~~a) := by
  induction n generalizing m d s with
  | zero => rw [copyDown, copyUp, BitVec.not_not]
  | succ n ih =>
    have hmirror : ∀ x : BitVec 32, ~~~(-x) = x - 1 := fun x => by bv_omega
    have hnext : ∀ x : BitVec 32, -(x - 1) = -x + 1 := fun x => by bv_omega
    have hupdate : (fun x => Function.update m (d - 1) (m (s - 1)) (~~~x)) =
        Function.update (fun x => m (~~~x)) (-d) (m (s - 1)) := by
      funext x
      by_cases hx : x = -d
      · rw [hx, Function.update_self, hmirror, Function.update_self]
      · have hne : ~~~x ≠ d - 1 := by bv_omega
        rw [Function.update_of_ne hx, Function.update_of_ne hne]
    rw [copyDown, ih, copyUp, hupdate, hnext, hnext, hmirror]

/-- An address of the destination. -/
theorem sub_toNat {i : ℕ} (hi : i < 4294967296) : (d + BitVec.ofNat 32 i - d).toNat = i := by
  bv_omega

theorem eq_add_sub : a = d + BitVec.ofNat 32 (a - d).toNat := by
  rw [BitVec.ofNat_toNat, BitVec.setWidth_eq]
  bv_omega

/-- Memory that is known byte by byte. -/
theorem isMove_of_apply {m' : Bytemap} (hn : n ≤ 4294967296) (h : ∀ a, m' a =
    if (a - d).toNat < n then m (s + BitVec.ofNat 32 (a - d).toNat) else m a) :
    IsMove m d s n m' where
  moved i hi := by rw [h, sub_toNat (by omega), if_pos hi]
  others a ha := by
    rw [h, if_neg fun hlt => ha _ hlt eq_add_sub]

/-- Going up moves the bytes exactly if those that are read again are the right ones. -/
theorem isMove_copyUp (hn : n ≤ 4294967296) : IsMove m d s n (copyUp m d s n) ↔
    ∀ i < n, m (s + BitVec.ofNat 32 (i % (d - s).toNat)) = m (s + BitVec.ofNat 32 i) := by
  constructor
  · intro h i hi
    rw [← h.moved i hi, copyUp_apply hn, sub_toNat (by omega), if_pos hi]
  · intro h
    refine isMove_of_apply hn fun a => ?_
    rw [copyUp_apply hn]
    split
    · next hlt => rw [h _ hlt]
    · rfl

/-- The place of an address, counted from the end. -/
theorem mirror_place (a d : BitVec 32) (n : ℕ) :
    ~~~a - -(d + BitVec.ofNat 32 n) = BitVec.ofNat 32 n - 1 - (a - d) := by
  bv_omega

/-- Going down does, if the source does not end inside of the destination. -/
theorem isMove_copyDown (hn : n ≤ (s - d).toNat) :
    IsMove m d s n (copyDown m (d + BitVec.ofNat 32 n) (s + BitVec.ofNat 32 n) n) := by
  have hlt := (s - d).isLt
  refine isMove_of_apply (by omega) fun a => ?_
  rw [copyDown_eq, copyUp_apply (by omega)]
  have hdist : -(d + BitVec.ofNat 32 n) - -(s + BitVec.ofNat 32 n) = s - d := by bv_omega
  have hplace : ∀ x : BitVec 32, (BitVec.ofNat 32 n - 1 - x).toNat < n ↔ x.toNat < n := by
    intro x
    constructor <;> intro h <;> bv_omega
  simp only [mirror_place, hplace, hdist, BitVec.not_not]
  split
  · next ha =>
    have hindex : ∀ x : BitVec 32, x.toNat < n →
        (BitVec.ofNat 32 n - 1 - x).toNat = n - 1 - x.toNat := by
      intro x hx
      bv_omega
    rw [hindex _ ha, Nat.mod_eq_of_lt (by omega)]
    congr 1
    bv_omega
  · rfl

section Versions

variable {dst src n : BitVec 32}

/-- Outside of an overlap, going up reads no byte again. -/
theorem mod_distance (hsrc : src.toNat + n.toNat ≤ 4294967296)
    (h : ¬ (src < dst ∧ dst.toNat < src.toNat + n.toNat)) {i : ℕ} (hi : i < n.toNat) :
    i % (dst - src).toNat = i := by
  rcases Nat.eq_zero_or_pos (dst - src).toNat with hzero | hpos
  · rw [hzero, Nat.mod_zero]
  · refine Nat.mod_eq_of_lt ?_
    rw [not_and_or, Nat.not_lt] at h
    rcases h with h | h <;> bv_omega

/-- The kernel's `memmove` is right. -/
theorem KernelLib.isMove_memmove (hdst : dst.toNat + n.toNat ≤ 4294967296)
    (hsrc : src.toNat + n.toNat ≤ 4294967296) :
    IsMove m dst src n.toNat (KernelLib.memmove m dst src n).2 := by
  have hlt := n.isLt
  unfold KernelLib.memmove
  split
  · next h =>
    have hn : BitVec.ofNat 32 n.toNat = n := by rw [BitVec.ofNat_toNat, BitVec.setWidth_eq]
    have hdown : IsMove m dst src n.toNat (copyDown m (dst + BitVec.ofNat 32 n.toNat)
        (src + BitVec.ofNat 32 n.toNat) n.toNat) := isMove_copyDown (by bv_omega)
    rw [hn] at hdown
    exact hdown
  · next h =>
    refine (isMove_copyUp hlt.le).mpr fun i hi => ?_
    rw [mod_distance hsrc (fun hover => h ⟨hover.1, ?_⟩) hi]
    -- the end of the source is behind the beginning of the destination, so it does not wrap
    have hend : (src + n).toNat = src.toNat + n.toNat := by
      obtain ⟨hlow, hover⟩ := hover
      bv_omega
    exact BitVec.lt_def.mpr (hend ▸ hover.2)

theorem UserLib.memmove_eq (hn : n.toNat < 2147483648) :
    (UserLib.memmove m dst src n).2 = copyUp m dst src n.toNat := by
  unfold UserLib.memmove
  rw [BitVec.toInt_eq_toNat_of_lt (by omega), Int.toNat_natCast]

/-- **The two versions of `memmove`** both move the bytes, overlapping or not, if and only if
the destination does not begin inside of the source or the source repeats itself there. -/
theorem memmove_both_iff (m : Bytemap) (dst src n : BitVec 32) (hn : n.toNat < 2147483648)
    (hdst : dst.toNat + n.toNat ≤ 4294967296) (hsrc : src.toNat + n.toNat ≤ 4294967296) :
    (IsMove m dst src n.toNat (UserLib.memmove m dst src n).2 ∧
      IsMove m dst src n.toNat (KernelLib.memmove m dst src n).2) ↔
    ¬ (src < dst ∧ dst.toNat < src.toNat + n.toNat) ∨
      ∀ i < n.toNat, m (src + BitVec.ofNat 32 (i % (dst - src).toNat)) =
        m (src + BitVec.ofNat 32 i) := by
  rw [and_iff_left (KernelLib.isMove_memmove hdst hsrc), UserLib.memmove_eq hn,
    isMove_copyUp n.isLt.le]
  refine ⟨.inr, ?_⟩
  rintro (h | h)
  · intro i hi
    rw [mod_distance hsrc h hi]
  · exact h

end Versions

/-- Memory where each byte is the low byte of its address. -/
def lowBytes : Bytemap := fun a => a.setWidth 8

/-- Bytes are moved down by one, through an overlap. -/
theorem memmove_both_down :
    IsMove lowBytes 4096#32 4097#32 3 (UserLib.memmove lowBytes 4096#32 4097#32 3#32).2 ∧
      IsMove lowBytes 4096#32 4097#32 3 (KernelLib.memmove lowBytes 4096#32 4097#32 3#32).2 :=
  (memmove_both_iff lowBytes 4096#32 4097#32 3#32 (by decide) (by decide) (by decide)).mpr (.inl (by decide))

/-- Bytes are moved up by one: the user library repeats the first one. -/
theorem memmove_user_repeats :
    (UserLib.memmove lowBytes 4097#32 4096#32 2#32).2 4098#32 = 0#8 ∧
    (KernelLib.memmove lowBytes 4097#32 4096#32 2#32).2 4098#32 = 1#8 ∧
    ¬ IsMove lowBytes 4097#32 4096#32 2 (UserLib.memmove lowBytes 4097#32 4096#32 2#32).2 := by
  refine ⟨by decide, by decide, fun h => ?_⟩
  exact absurd (h.moved 1 (by decide)) (by decide)

end StrideXv6
