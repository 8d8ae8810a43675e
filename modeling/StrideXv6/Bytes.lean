import Mathlib.Data.List.Basic
import Mathlib.Logic.Function.Basic
import Mathlib.Tactic.IntervalCases

/-!
# Data in bytes

Arrays of bytes as functions from offsets: little-endian numbers in them, records
written over a part of them, and bitmaps. The lemmas say what is read after a
write, so that nobody has to look at bytes again.
-/

namespace Bytes

/-- A byte. -/
abbrev Byte : Type := BitVec 8

/-! ## Numbers -/

/-- The `j`th byte of a number. -/
def byte (x j : ℕ) : Byte := BitVec.ofNat 8 (x / 256 ^ j)

/-- The 16-bit number at an offset. -/
def half (d : ℕ → Byte) (o : ℕ) : ℕ := (d o).toNat + 256 * (d (o + 1)).toNat

/-- The 32-bit number at an offset. -/
def word (d : ℕ → Byte) (o : ℕ) : ℕ := half d o + 65536 * half d (o + 2)

variable {d d' : ℕ → Byte} {o x : ℕ}

theorem half_lt : half d o < 65536 := by
  have h0 := (d o).isLt
  have h1 := (d (o + 1)).isLt
  unfold half
  omega

theorem word_lt : word d o < 4294967296 := by
  have h0 : half d o < 65536 := half_lt
  have h1 : half d (o + 2) < 65536 := half_lt
  unfold word
  omega

theorem half_congr (h : ∀ j, j < 2 → d (o + j) = d' (o + j)) : half d o = half d' o := by
  have h0 := h 0 (by decide)
  have h1 := h 1 (by decide)
  rw [Nat.add_zero] at h0
  rw [half, half, h0, h1]

theorem word_congr (h : ∀ j, j < 4 → d (o + j) = d' (o + j)) : word d o = word d' o := by
  have hlow : half d o = half d' o := half_congr fun j hj => h j (by omega)
  have hhigh : half d (o + 2) = half d' (o + 2) := half_congr fun j hj => by
    rw [Nat.add_assoc]
    exact h (2 + j) (by omega)
  rw [word, word, hlow, hhigh]

theorem half_eq (h : ∀ j, j < 2 → d (o + j) = byte x j) : half d o = x % 65536 := by
  have h0 := h 0 (by decide)
  have h1 := h 1 (by decide)
  rw [Nat.add_zero] at h0
  rw [half, h0, h1, byte, byte, BitVec.toNat_ofNat, BitVec.toNat_ofNat]
  omega

theorem byte_add (x i j : ℕ) : byte x (i + j) = byte (x / 256 ^ i) j := by
  rw [byte, byte, Nat.pow_add, Nat.div_div_eq_div_mul]

theorem word_eq (h : ∀ j, j < 4 → d (o + j) = byte x j) : word d o = x % 4294967296 := by
  have hlow : half d o = x % 65536 := half_eq fun j hj => h j (by omega)
  have hhigh : half d (o + 2) = x / 256 ^ 2 % 65536 := half_eq fun j hj => by
    rw [Nat.add_assoc, h (2 + j) (by omega), byte_add]
  rw [word, hlow, hhigh]
  omega

/-! ## Records -/

/-- Write the bytes `f` over the `n` bytes from `o` on. -/
def splice (d : ℕ → Byte) (o n : ℕ) (f : ℕ → Byte) : ℕ → Byte :=
  fun k => if o ≤ k ∧ k < o + n then f (k - o) else d k

variable {n k : ℕ} {f : ℕ → Byte}

theorem splice_inside (h : k < n) : splice d o n f (o + k) = f k := by
  rw [splice, if_pos ⟨Nat.le_add_right _ _, Nat.add_lt_add_left h o⟩, Nat.add_sub_cancel_left]

theorem splice_outside (h : k < o ∨ o + n ≤ k) : splice d o n f k = d k := by
  unfold splice
  rw [if_neg]
  omega

/-! ## Bitmaps

Bit `i` is bit `i % 8` of byte `i / 8`. -/

/-- The mask of bit `i` in its byte. -/
def mask (i : ℕ) : Byte := 1#8 <<< (i % 8)

/-- Is the bit set? -/
def testBit (d : ℕ → Byte) (i : ℕ) : Bool := d (i / 8) &&& mask i != 0#8

/-- Set the bit. -/
def setBit (d : ℕ → Byte) (i : ℕ) : ℕ → Byte :=
  Function.update d (i / 8) (d (i / 8) ||| mask i)

/-- Clear the bit. -/
def clearBit (d : ℕ → Byte) (i : ℕ) : ℕ → Byte :=
  Function.update d (i / 8) (d (i / 8) &&& ~~~mask i)

/-- A bitmap whose first `n` bits are set, one after the other. -/
def fillBits (n : ℕ) : ℕ → Byte := (List.range n).foldl setBit fun _ => 0#8

variable {i j : ℕ}

theorem mask_getLsbD (hk : k < 8) : (mask i).getLsbD k = decide (k = i % 8) := by
  have hi : i % 8 < 8 := Nat.mod_lt _ (by decide)
  unfold mask
  generalize i % 8 = m at hi
  interval_cases m <;> interval_cases k <;> rfl

/-- The mask picks one bit. -/
theorem testBit_eq : testBit d i = (d (i / 8)).getLsbD (i % 8) := by
  have hi : i % 8 < 8 := Nat.mod_lt _ (by decide)
  unfold testBit
  rw [Bool.eq_iff_iff, bne_iff_ne]
  constructor
  · intro hne
    by_contra hbit
    refine hne (BitVec.eq_of_getLsbD_eq fun k hk => ?_)
    rw [BitVec.getLsbD_and, mask_getLsbD hk, BitVec.getLsbD_zero]
    by_cases hki : k = i % 8
    · rw [hki, Bool.eq_false_iff.mpr hbit, Bool.false_and]
    · rw [decide_eq_false hki, Bool.and_false]
  · intro hbit hzero
    have hget := congrArg (fun x : Byte => x.getLsbD (i % 8)) hzero
    simp only [BitVec.getLsbD_and, mask_getLsbD hi, BitVec.getLsbD_zero, hbit, decide_true,
      Bool.and_true] at hget
    cases hget

theorem testBit_setBit : testBit (setBit d i) j = (decide (j = i) || testBit d j) := by
  have hj : j % 8 < 8 := Nat.mod_lt _ (by decide)
  rw [testBit_eq, testBit_eq, setBit, Function.update_apply]
  by_cases hbyte : j / 8 = i / 8
  · rw [if_pos hbyte, BitVec.getLsbD_or, mask_getLsbD hj, hbyte, Bool.or_comm]
    congr 1
    rw [decide_eq_decide]
    omega
  · rw [if_neg hbyte, decide_eq_false fun h => hbyte (by rw [h]), Bool.false_or]

theorem testBit_clearBit : testBit (clearBit d i) j = (decide (j ≠ i) && testBit d j) := by
  have hj : j % 8 < 8 := Nat.mod_lt _ (by decide)
  rw [testBit_eq, testBit_eq, clearBit, Function.update_apply]
  by_cases hbyte : j / 8 = i / 8
  · rw [if_pos hbyte, BitVec.getLsbD_and, BitVec.getLsbD_not, mask_getLsbD hj, hbyte,
      decide_eq_true hj, Bool.true_and, Bool.and_comm]
    congr 1
    rw [← decide_not, decide_eq_decide]
    omega
  · have hne : j ≠ i := fun h => hbyte (by rw [h])
    rw [if_neg hbyte, decide_eq_true hne, Bool.true_and]

theorem testBit_zero : testBit (fun _ => 0#8) j = false := by
  rw [testBit_eq, BitVec.getLsbD_zero]

theorem testBit_fillBits : testBit (fillBits n) j = decide (j < n) := by
  induction n with
  | zero => exact testBit_zero
  | succ n ih =>
    unfold fillBits at ih ⊢
    rw [List.range_succ, List.foldl_append, List.foldl_cons, List.foldl_nil, testBit_setBit, ih,
      ← Bool.decide_or, decide_eq_decide]
    omega

end Bytes
