import StrideXv6.Disk

/-!
# The blocks of a file

The places of a file where blocks are named are its *slots*: the direct addresses
and the entries of the indirect block, in the order of the data, and last the
address of the indirect block itself. `Disk.slot` is the block that is named
there, and `Disk.content` the data of the file: a byte in a block that is not
there reads as zero.

A *placement* names blocks at places. It keeps blocks `Apart` if no block is at two of them.
-/

namespace StrideXv6

open Bytes

/-! ## Placements -/

section Apart

variable {κ : Type} {σ τ : κ → ℕ} {a b : κ} {n : ℕ}

/-- No block is in two places; `0` stands for none. -/
def Apart (σ : κ → ℕ) : Prop := ∀ a b, σ a ≠ 0 → σ a = σ b → a = b

/-- A block that is nowhere can be put somewhere. -/
theorem Apart.update [DecidableEq κ] (h : Apart σ) (hn : ∀ c, σ c ≠ n) :
    Apart (Function.update σ a n) := by
  intro b c hb hbc
  simp only [Function.update_apply] at hb hbc
  split at hbc
  · next hba =>
    split at hbc
    · next hca => rw [hba, hca]
    · exact absurd hbc.symm (hn c)
  · next hba =>
    rw [if_neg hba] at hb
    split at hbc
    · exact absurd hbc (hn b)
    · exact h b c hb hbc

end Apart

/-! ## Slots -/

namespace Disk

/-- The block in slot `k` of an inode. -/
def slot (d : Disk) (x : Dinode) (k : ℕ) : ℕ :=
  if x.type = .free then 0
  else if k < NDIRECT then x.addrs k
  else if k < MAXFILE then
    if x.addrs NDIRECT = 0 then 0 else d.addr (x.addrs NDIRECT) (k - NDIRECT)
  else if k = MAXFILE then x.addrs NDIRECT
  else 0

/-- The data of a file. -/
def content (d : Disk) (x : Dinode) (off : ℕ) : Byte :=
  if off / BSIZE < MAXFILE ∧ d.slot x (off / BSIZE) ≠ 0 then
    d.block (d.slot x (off / BSIZE)) (off % BSIZE)
  else 0#8

variable {d d' : Disk} {x y : Dinode} {k b a : ℕ}

theorem slot_direct (ht : x.type ≠ .free) (hk : k < NDIRECT) : d.slot x k = x.addrs k := by
  rw [slot, if_neg ht, if_pos hk]

theorem slot_indirect (ht : x.type ≠ .free) : d.slot x MAXFILE = x.addrs NDIRECT := by
  rw [slot, if_neg ht, if_neg (by decide), if_neg (by decide), if_pos rfl]

theorem slot_entry (ht : x.type ≠ .free) (hk : k < NINDIRECT) (hx : x.addrs NDIRECT ≠ 0) :
    d.slot x (NDIRECT + k) = d.addr (x.addrs NDIRECT) k := by
  rw [slot, if_neg ht, if_neg (by omega), if_pos (by unfold MAXFILE; omega), if_neg hx,
    Nat.add_sub_cancel_left]

theorem slot_free (ht : x.type = .free) : d.slot x k = 0 := by
  rw [slot, if_pos ht]

/-- Slots are read from the inode and the indirect block. -/
theorem slot_congr (ht : y.type = x.type) (haddrs : ∀ n, n ≤ NDIRECT → y.addrs n = x.addrs n)
    (hblock : x.type ≠ .free → x.addrs NDIRECT ≠ 0 →
      d'.block (x.addrs NDIRECT) = d.block (x.addrs NDIRECT)) :
    d'.slot y k = d.slot x k := by
  by_cases hfree : x.type = .free
  · rw [slot_free (ht.trans hfree), slot_free hfree]
  rw [slot, slot, ht, haddrs NDIRECT le_rfl, if_neg hfree, if_neg hfree]
  split
  · next hk => exact haddrs k hk.le
  · split
    · split
      · rfl
      · next hne => rw [addr, addr, hblock hfree hne]
    · rfl

/-- A block other than the indirect block is written. -/
theorem slot_put {f : ℕ → Byte} (hb : d.slot x MAXFILE ≠ b) :
    (d.put b f).slot x k = d.slot x k := by
  refine slot_congr rfl (fun _ _ => rfl) fun ht hne => ?_
  rw [slot_indirect ht] at hb
  rw [put_block, if_neg hb]

/-- A direct address changes. -/
theorem slot_setDirect (ht : x.type ≠ .free) (hk : k < NDIRECT) :
    d.slot { x with addrs := Function.update x.addrs k a } = Function.update (d.slot x) k a := by
  funext j
  have hne : NDIRECT ≠ k := by omega
  rw [Function.update_apply, slot, slot]
  simp only [if_neg ht, Function.update_of_ne hne]
  by_cases hj : j = k
  · subst hj
    rw [if_pos hk, if_pos rfl, Function.update_self]
  · rw [Function.update_of_ne hj, if_neg hj]

/-- An indirect block without entries is added. -/
theorem slot_setIndirect (ht : x.type ≠ .free) (hx : x.addrs NDIRECT = 0)
    (hzero : ∀ i, d.addr a i = 0) :
    d.slot { x with addrs := Function.update x.addrs NDIRECT a } =
      Function.update (d.slot x) MAXFILE a := by
  funext j
  rw [Function.update_apply, slot, slot]
  simp only [if_neg ht, Function.update_self, hx, hzero, ite_self, if_true]
  by_cases hj : j < NDIRECT
  · have hne : j ≠ MAXFILE := by unfold MAXFILE; omega
    rw [if_pos hj, if_pos hj, if_neg hne, Function.update_of_ne (by omega)]
  · rw [if_neg hj, if_neg hj]
    by_cases hj' : j = MAXFILE
    · rw [if_neg (by omega), if_pos hj']
    · rw [if_neg hj', ite_self]

/-- An entry of the indirect block changes. -/
theorem slot_setAddr {i : ℕ} (ht : x.type ≠ .free) (hx : x.addrs NDIRECT ≠ 0) (hi : i < NINDIRECT)
    (ha : a < 4294967296) :
    (d.setAddr (x.addrs NDIRECT) i a).slot x = Function.update (d.slot x) (NDIRECT + i) a := by
  funext j
  rw [Function.update_apply, slot, slot, if_neg ht, if_neg ht, if_neg hx]
  by_cases hj : j < NDIRECT
  · rw [if_pos hj, if_pos hj, if_neg (by omega)]
  · rw [if_neg hj, if_neg hj, addr_setAddr, Nat.mod_eq_of_lt ha]
    by_cases hji : j = NDIRECT + i
    · have hlt : NDIRECT + i < MAXFILE := by unfold MAXFILE; omega
      subst hji
      rw [if_pos hlt, if_pos ⟨rfl, Nat.add_sub_cancel_left ..⟩, if_pos rfl]
    · have hne : ¬ (x.addrs NDIRECT = x.addrs NDIRECT ∧ j - NDIRECT = i) := by omega
      rw [if_neg hji, if_neg hne, if_neg hx]

/-! ### Data -/

/-- Data is read from the blocks in the slots. -/
theorem content_congr (hslot : ∀ k, k < MAXFILE → d'.slot y k = d.slot x k)
    (hblock : ∀ k, k < MAXFILE → d.slot x k ≠ 0 → d'.block (d.slot x k) = d.block (d.slot x k)) :
    d'.content y = d.content x := by
  funext off
  unfold content
  by_cases hk : off / BSIZE < MAXFILE
  · rw [hslot _ hk]
    split
    · next hne => rw [hblock _ hk hne.2]
    · rfl
  · rw [if_neg fun h => hk h.1, if_neg fun h => hk h.1]

/-- A block of the file is written. -/
theorem content_put {f : ℕ → Byte} (hp : Apart (d.slot x)) (hk : k < MAXFILE)
    (hne : d.slot x k ≠ 0) (off : ℕ) :
    (d.put (d.slot x k) f).content x off =
      if off / BSIZE = k then f (off % BSIZE) else d.content x off := by
  have hslot : ∀ j, (d.put (d.slot x k) f).slot x j = d.slot x j := fun j => by
    refine slot_put fun he => ?_
    have := hp k MAXFILE hne he.symm
    omega
  unfold content
  rw [hslot]
  by_cases hoff : off / BSIZE = k
  · rw [if_pos hoff, hoff, if_pos ⟨hk, hne⟩, put_block, if_pos rfl]
  · rw [if_neg hoff]
    split
    · next hlt =>
      rw [put_block, if_neg]
      exact fun he => hoff (hp _ _ hlt.2 he)
    · rfl

/-! ## The inodes -/

/-- The inodes that there are; all other numbers are free. -/
def node (d : Disk) (i : ℕ) : Dinode := if 0 < i ∧ i < d.ninodes then d.dinode i else {}

theorem node_fits {i : ℕ} : (d.node i).Fits := by
  unfold node
  split
  · exact dinode_fits
  · exact ⟨by decide, by decide, rfl, by decide, fun _ => Nat.zero_lt_succ _, fun _ _ => rfl⟩

/-- The blocks from here on hold no inodes. -/
def inodeEnd (d : Disk) : ℕ := d.ninodes / IPB + 3

theorem iblock_lt {i : ℕ} (hi : i < d.ninodes) : IBLOCK i < d.inodeEnd := by
  unfold IBLOCK inodeEnd IPB BSIZE DINODE
  omega

theorem node_put {f : ℕ → Byte} (hb : d.inodeEnd ≤ b) : (d.put b f).node = d.node := by
  have hb1 : b ≠ 1 := by
    unfold inodeEnd IPB BSIZE DINODE at hb
    omega
  funext i
  unfold node ninodes
  rw [superblock_put hb1]
  split
  · next hi =>
    have := iblock_lt hi.2
    exact dinode_put (by omega)
  · rfl

theorem superblock_setDinode {i : ℕ} : (d.setDinode i y).superblock = d.superblock :=
  superblock_put (by unfold IBLOCK IPB BSIZE DINODE; omega)

theorem node_setDinode {i : ℕ} (hi : 0 < i) (hlt : i < d.ninodes) (hy : y.Fits) :
    (d.setDinode i y).node = Function.update d.node i y := by
  funext j
  rw [Function.update_apply]
  unfold node ninodes
  rw [superblock_setDinode]
  by_cases hj : j = i
  · subst hj
    rw [if_pos ⟨hi, hlt⟩, if_pos rfl, dinode_setDinode hy]
  · rw [if_neg hj, dinode_setDinode_of_ne hj]

end Disk

end StrideXv6
