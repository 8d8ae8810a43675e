import StrideXv6.Blocks
import StrideXv6.Regions
import Mathlib.Data.Finset.Card

/-!
# A disk with its inodes

The inodes of a running system are not those on the disk: some are in memory and ahead
of it. So what has to hold of blocks is said of a disk together with a table of inodes
(`Disk.Tidy`): no block is in two slots, the blocks in slots are in the data region and
marked in the bitmap, and so is everything before that region.

`Disk.alloc` is what `balloc` does to the disk. A block from there is put into an empty
slot of an inode; `Fills` is what that, done any number of times, amounts to. All the
data reads as before.
-/

namespace StrideXv6

open Bytes

namespace Disk

variable {d d' : Disk} {b c : ℕ} {f : ℕ → Byte}

/-! ## The data region -/

theorem inodeEnd_le_dataStart : d.inodeEnd ≤ d.superblock.dataStart := Nat.le_add_right ..

theorem inodeEnd_le_bblock : d.inodeEnd ≤ BBLOCK b d.ninodes :=
  Nat.add_le_add_right (Nat.le_add_left ..) 3

theorem bblock_lt_dataStart (hb : b < d.size) : BBLOCK b d.ninodes < d.superblock.dataStart := by
  have : b / BPB ≤ d.size / BPB := Nat.div_le_div_right hb.le
  unfold Superblock.dataStart BBLOCK
  change b / BPB + d.ninodes / IPB + 3 < d.ninodes / IPB + 3 + (d.size / BPB + 1)
  omega

theorem two_lt_inodeEnd : 2 < d.inodeEnd := Nat.le_add_left ..

/-- A block of the data region that is in use. -/
structure Taken (d : Disk) (b : ℕ) : Prop where
  low : d.superblock.dataStart ≤ b
  lt : b < d.size
  used : d.used d.ninodes b = true

/-! ### Writing to the region -/

theorem superblock_put_data (hb : d.superblock.dataStart ≤ b) :
    (d.put b f).superblock = d.superblock := by
  have := d.inodeEnd_le_dataStart
  have := d.two_lt_inodeEnd
  exact superblock_put (by omega)

theorem node_put_data (hb : d.superblock.dataStart ≤ b) : (d.put b f).node = d.node :=
  node_put (d.inodeEnd_le_dataStart.trans hb)

theorem used_put_data (hb : d.superblock.dataStart ≤ b) (hc : c < d.size) :
    (d.put b f).used d.ninodes c = d.used d.ninodes c := by
  have := bblock_lt_dataStart hc
  exact used_put (by omega)

theorem Taken.put (h : d.Taken c) (hb : d.superblock.dataStart ≤ b) : (d.put b f).Taken c := by
  have hsb : (d.put b f).superblock = d.superblock := superblock_put_data hb
  have hn : (d.put b f).ninodes = d.ninodes := congrArg Superblock.ninodes hsb
  refine ⟨by rw [hsb]; exact h.low, ?_, ?_⟩
  · change c < (d.put b f).superblock.size
    rw [hsb]
    exact h.lt
  · rw [hn, used_put_data hb h.lt]
    exact h.used

/-! ### Writing to the bitmap -/

theorem superblock_bitmap : (d.put (BBLOCK b d.ninodes) f).superblock = d.superblock := by
  have := inodeEnd_le_bblock (d := d) (b := b)
  have := d.two_lt_inodeEnd
  exact superblock_put (by omega)

theorem node_bitmap : (d.put (BBLOCK b d.ninodes) f).node = d.node := node_put inodeEnd_le_bblock

theorem block_bitmap (hb : b < d.size) (hc : d.superblock.dataStart ≤ c) :
    (d.put (BBLOCK b d.ninodes) f).block c = d.block c := by
  have := bblock_lt_dataStart hb
  rw [put_block, if_neg (by omega)]

/-! ## Allocation -/

/-- What `balloc` does with the block it finds. -/
def alloc (d : Disk) (b : ℕ) : Disk := (d.mark d.ninodes b).put b fun _ => 0#8

/-- Everything before the data region is in use. -/
def LowUsed (d : Disk) : Prop := ∀ b, b < d.superblock.dataStart → d.used d.ninodes b = true

/-- The blocks that `balloc` can find. -/
def freeBlocks (d : Disk) : Finset ℕ :=
  (Finset.range d.size).filter fun b => d.used d.ninodes b = false

/-- How many there are. -/
def free (d : Disk) : ℕ := d.freeBlocks.card

/-- A block that `balloc` finds. -/
structure Found (d : Disk) (b : ℕ) : Prop where
  low : d.superblock.dataStart ≤ b
  lt : b < d.size
  unused : d.used d.ninodes b = false

theorem found_of_firstFree (hlow : d.LowUsed) (h : d.firstFree d.size d.ninodes = some b) :
    d.Found b := by
  obtain ⟨hlt, hfree, -⟩ := firstFree_eq_some h
  refine ⟨Nat.not_lt.mp fun hb => ?_, hlt, hfree⟩
  rw [hlow b hb] at hfree
  cases hfree

theorem free_pos_iff : 0 < d.free ↔ ∃ b, d.firstFree d.size d.ninodes = some b := by
  rw [free, Finset.card_pos]
  constructor
  · rintro ⟨b, hb⟩
    obtain ⟨hlt, hfree⟩ := Finset.mem_filter.mp hb
    cases hfirst : d.firstFree d.size d.ninodes with
    | some c => exact ⟨c, rfl⟩
    | none =>
      rw [firstFree_eq_none hfirst b (Finset.mem_range.mp hlt)] at hfree
      cases hfree
  · rintro ⟨b, hb⟩
    obtain ⟨hlt, hfree, -⟩ := firstFree_eq_some hb
    exact ⟨b, Finset.mem_filter.mpr ⟨Finset.mem_range.mpr hlt, hfree⟩⟩

namespace Found

variable (h : d.Found b)
include h

theorem not_taken : ¬ d.Taken b := fun ht => by
  have := ht.used
  rw [h.unused] at this
  cases this

theorem ne_zero : b ≠ 0 := by
  have := h.low
  have := d.inodeEnd_le_dataStart
  have := d.two_lt_inodeEnd
  omega

theorem mark_low : (d.mark d.ninodes b).superblock.dataStart ≤ b := by
  rw [mark, superblock_bitmap]
  exact h.low

theorem superblock_alloc : (d.alloc b).superblock = d.superblock := by
  rw [alloc, superblock_put_data h.mark_low, mark, superblock_bitmap]

theorem ninodes_alloc : (d.alloc b).ninodes = d.ninodes := congrArg Superblock.ninodes h.superblock_alloc

theorem size_alloc : (d.alloc b).size = d.size := congrArg Superblock.size h.superblock_alloc

theorem node_alloc : (d.alloc b).node = d.node := by
  rw [alloc, node_put_data h.mark_low, mark, node_bitmap]

omit h in
theorem block_alloc_self : (d.alloc b).block b = fun _ => 0#8 := by
  rw [alloc, put_block, if_pos rfl]

theorem block_alloc (hc : d.superblock.dataStart ≤ c) (hne : c ≠ b) :
    (d.alloc b).block c = d.block c := by
  rw [alloc, put_block, if_neg hne, mark, block_bitmap h.lt hc]

theorem used_alloc (hc : c < d.size) :
    (d.alloc b).used d.ninodes c = (decide (c = b) || d.used d.ninodes c) := by
  have hn : (d.mark d.ninodes b).ninodes = d.ninodes :=
    congrArg Superblock.ninodes (superblock_bitmap (d := d))
  have hs : (d.mark d.ninodes b).size = d.size :=
    congrArg Superblock.size (superblock_bitmap (d := d))
  have hput := used_put_data (f := fun _ => 0#8) h.mark_low (c := c) (by rwa [hs])
  rw [hn] at hput
  rw [alloc, hput, used_mark]

theorem taken_alloc (hc : d.Taken c) : (d.alloc b).Taken c := by
  refine ⟨by rw [h.superblock_alloc]; exact hc.low, by rw [h.size_alloc]; exact hc.lt, ?_⟩
  rw [h.ninodes_alloc, h.used_alloc hc.lt, hc.used, Bool.or_true]

theorem taken_alloc_self : (d.alloc b).Taken b := by
  refine ⟨by rw [h.superblock_alloc]; exact h.low, by rw [h.size_alloc]; exact h.lt, ?_⟩
  rw [h.ninodes_alloc, h.used_alloc h.lt, decide_eq_true rfl, Bool.true_or]

theorem free_alloc : d.free = (d.alloc b).free + 1 := by
  have hset : (d.alloc b).freeBlocks = d.freeBlocks.erase b := by
    ext c
    simp only [freeBlocks, h.size_alloc, h.ninodes_alloc, Finset.mem_erase, Finset.mem_filter,
      Finset.mem_range]
    constructor
    · rintro ⟨hc, hfree⟩
      rw [h.used_alloc hc, Bool.or_eq_false_iff, decide_eq_false_iff_not] at hfree
      exact ⟨hfree.1, hc, hfree.2⟩
    · rintro ⟨hne, hc, hfree⟩
      exact ⟨hc, by rw [h.used_alloc hc, hfree, decide_eq_false hne]; rfl⟩
  have hmem : b ∈ d.freeBlocks :=
    Finset.mem_filter.mpr ⟨Finset.mem_range.mpr h.lt, h.unused⟩
  rw [free, free, hset, Finset.card_erase_add_one hmem]

end Found

theorem free_put_data (hb : d.superblock.dataStart ≤ b) : (d.put b f).free = d.free := by
  have hsb : (d.put b f).superblock = d.superblock := superblock_put_data hb
  have hn : (d.put b f).ninodes = d.ninodes := congrArg Superblock.ninodes hsb
  have hs : (d.put b f).size = d.size := congrArg Superblock.size hsb
  have hset : (d.put b f).freeBlocks = d.freeBlocks := by
    ext c
    simp only [freeBlocks, hs, hn, Finset.mem_filter, Finset.mem_range]
    refine and_congr_right fun hc => ?_
    rw [used_put_data hb hc]
  rw [free, free, hset]

/-! ## Inodes -/

/-- A table of inodes whose blocks are all different, and in use. -/
structure Tidy (d : Disk) (N : ℕ → Dinode) : Prop where
  apart : Apart fun a : ℕ × ℕ => d.slot (N a.1) a.2
  taken : ∀ i k, d.slot (N i) k ≠ 0 → d.Taken (d.slot (N i) k)
  low : d.LowUsed
  fits : ∀ i, (N i).Fits
  size : ∀ i, (N i).size ≤ MAXFILE * BSIZE

variable {N : ℕ → Dinode} {i j k l : ℕ} {x x' y : Dinode}

theorem Tidy.apart_self (h : d.Tidy N) (i : ℕ) : Apart (d.slot (N i)) := fun k l hk hkl => by
  have := h.apart (i, k) (i, l) hk hkl
  exact congrArg Prod.snd this

/-- A block is in one inode only. -/
theorem Tidy.inode_eq (h : d.Tidy N) (hk : d.slot (N i) k ≠ 0)
    (hkl : d.slot (N i) k = d.slot (N j) l) : i = j ∧ k = l := by
  have := h.apart (i, k) (j, l) hk hkl
  exact ⟨congrArg Prod.fst this, congrArg Prod.snd this⟩

theorem Tidy.ne_found (h : d.Tidy N) (hb : d.Found b) : d.slot (N i) k ≠ b := fun he =>
  hb.not_taken (he ▸ h.taken i k (by rw [he]; exact hb.ne_zero))

/-- What happens to inode `i` while it goes from `x` to `x'` leaves all others alone, and
the blocks of `i` where they are. -/
structure Revises (N : ℕ → Dinode) (i : ℕ) (d : Disk) (x : Dinode) (d' : Disk) (x' : Dinode) :
    Prop where
  superblock : d'.superblock = d.superblock
  /-- nothing goes to the inodes on disk -/
  node : d'.node = d.node
  info : x' = { x with addrs := x'.addrs }
  addrs : ∀ n, x.addrs n ≠ 0 → x'.addrs n = x.addrs n
  slot : ∀ k, d.slot x k ≠ 0 → d'.slot x' k = d.slot x k
  others : ∀ j, j ≠ i → d'.slot (N j) = d.slot (N j)
  data : ∀ j k, j ≠ i → d.slot (N j) k ≠ 0 → d'.block (d.slot (N j) k) = d.block (d.slot (N j) k)
  tidy : d'.Tidy (Function.update N i x')

/-- Zeroed blocks are put into empty slots of inode `i`. -/
structure Fills (N : ℕ → Dinode) (i : ℕ) (d : Disk) (x : Dinode) (d' : Disk) (x' : Dinode) :
    Prop extends Revises N i d x d' x' where
  kept : ∀ k, k < MAXFILE → d.slot x k ≠ 0 → d'.block (d.slot x k) = d.block (d.slot x k)
  zero : ∀ k, k < MAXFILE → d.slot x k = 0 → d'.slot x' k ≠ 0 → d'.block (d'.slot x' k) = fun _ => 0#8

theorem Revises.type (h : Revises N i d x d' x') : x'.type = x.type := by rw [h.info]

theorem Revises.size (h : Revises N i d x d' x') : x'.size = x.size := by rw [h.info]

theorem Revises.refl (h : d.Tidy (Function.update N i x)) : Revises N i d x d x where
  superblock := rfl
  node := rfl
  info := rfl
  addrs _ _ := rfl
  slot _ _ := rfl
  others _ _ := rfl
  data _ _ _ _ := rfl
  tidy := h

theorem Revises.trans {d'' : Disk} {x'' : Dinode} (h : Revises N i d x d' x')
    (h' : Revises N i d' x' d'' x'') : Revises N i d x d'' x'' where
  superblock := h'.superblock.trans h.superblock
  node := h'.node.trans h.node
  info := by
    rw [h'.info, h.info]
  addrs n hn := by
    have := h.addrs n hn
    rw [h'.addrs n (by rwa [this]), this]
  slot k hk := by
    have := h.slot k hk
    rw [h'.slot k (by rwa [this]), this]
  others j hj := (h'.others j hj).trans (h.others j hj)
  data j k hj hk := by
    have hs := h.others j hj
    rw [← h.data j k hj hk, ← congrFun hs k]
    exact h'.data j k hj (by rwa [hs])
  tidy := h'.tidy

theorem Fills.refl (h : d.Tidy (Function.update N i x)) : Fills N i d x d x where
  toRevises := .refl h
  kept _ _ _ := rfl
  zero _ _ hk hk' := absurd hk hk'

theorem Fills.trans {d'' : Disk} {x'' : Dinode} (h : Fills N i d x d' x')
    (h' : Fills N i d' x' d'' x'') : Fills N i d x d'' x'' where
  toRevises := h.toRevises.trans h'.toRevises
  kept k hk hne := by
    have hs := h.slot k hne
    rw [← h.kept k hk hne, ← hs]
    exact h'.kept k hk (by rwa [hs])
  zero k hk h0 hne := by
    by_cases hmid : d'.slot x' k = 0
    · exact h'.zero k hk hmid hne
    · rw [h'.slot k hmid, h'.kept k hk hmid, h.zero k hk h0 hmid]

/-- All the data reads as before. -/
theorem Fills.content (h : Fills N i d x d' x') : d'.content x' = d.content x := by
  funext off
  unfold Disk.content
  by_cases hlt : off / BSIZE < MAXFILE
  · by_cases hs : d.slot x (off / BSIZE) = 0
    · have hnone : ¬ (off / BSIZE < MAXFILE ∧ d.slot x (off / BSIZE) ≠ 0) := fun hne => hne.2 hs
      rw [if_neg hnone]
      split
      · next hne => rw [h.zero _ hlt hs hne.2]
      · rfl
    · have hs' := h.slot _ hs
      rw [hs', if_pos ⟨hlt, hs⟩, if_pos ⟨hlt, hs⟩, h.kept _ hlt hs]
  · rw [if_neg fun hne => hlt hne.1, if_neg fun hne => hlt hne.1]

/-- An inode of which less may be known, such as its copy on disk. -/
structure Behind (y x : Dinode) : Prop where
  info : y = { x with addrs := y.addrs }
  addrs : ∀ n, y.addrs n = 0 ∨ y.addrs n = x.addrs n

theorem Behind.refl (x : Dinode) : Behind x x := ⟨rfl, fun _ => .inr rfl⟩

/-! ## One more block -/

/-- A block from `balloc` is put into the empty slot `k`. -/
theorem Tidy.fills (h : d.Tidy (Function.update N i x)) (hb : d.Found b)
    (hsb : d'.superblock = d.superblock) (hnode : d'.node = d.node)
    (hinfo : x' = { x with addrs := x'.addrs })
    (haddrs : ∀ n, x.addrs n ≠ 0 → x'.addrs n = x.addrs n) (hfits : x'.Fits)
    (hk : d.slot x k = 0) (hslot : d'.slot x' = Function.update (d.slot x) k b)
    (hused : ∀ c, c < d.size → d'.used d.ninodes c = (d.alloc b).used d.ninodes c)
    (hblock : ∀ c, d.Taken c → c ≠ d.slot x MAXFILE → d'.block c = d.block c)
    (hzero : k < MAXFILE → d'.block b = fun _ => 0#8) : Fills N i d x d' x' := by
  have hn : d'.ninodes = d.ninodes := congrArg Superblock.ninodes hsb
  have hs : d'.size = d.size := congrArg Superblock.size hsb
  have hself : ∀ {z : Dinode}, Function.update N i z i = z := Function.update_self ..
  have hne : ∀ {j : ℕ} {z : Dinode}, j ≠ i → Function.update N i z j = N j := fun hj =>
    Function.update_of_ne hj ..
  have htaken : ∀ c, (d.alloc b).Taken c → d'.Taken c := by
    intro c hc
    have hlow := hc.low
    have hlt := hc.lt
    have hcu := hc.used
    rw [hb.superblock_alloc] at hlow
    rw [hb.size_alloc] at hlt
    rw [hb.ninodes_alloc] at hcu
    exact ⟨by rwa [hsb], by rwa [hs], by rwa [hn, hused c hlt]⟩
  have hotherTaken : ∀ j l, j ≠ i → d.slot (N j) l ≠ 0 → d.Taken (d.slot (N j) l) := by
    intro j l hj hl
    have := h.taken j l
    rw [hne hj] at this
    exact this hl
  have hotherBlock : ∀ j l, j ≠ i → d.slot (N j) l ≠ 0 →
      d'.block (d.slot (N j) l) = d.block (d.slot (N j) l) := by
    intro j l hj hl
    refine hblock _ (hotherTaken j l hj hl) fun he => ?_
    have := (h.inode_eq (i := j) (j := i) (k := l) (l := MAXFILE) (by rwa [hne hj])
      (by rw [hne hj, hself]; exact he)).1
    exact hj this
  have hothers : ∀ j, j ≠ i → d'.slot (N j) = d.slot (N j) := by
    intro j hj
    funext l
    refine slot_congr rfl (fun _ _ => rfl) fun ht hind => ?_
    have := hotherBlock j MAXFILE hj (by rwa [slot_indirect ht])
    rwa [slot_indirect ht] at this
  have hselfTaken : ∀ l, d.slot x l ≠ 0 → d.Taken (d.slot x l) := by
    intro l hl
    have := h.taken i l
    rw [hself] at this
    exact this hl
  refine { superblock := hsb, node := hnode, info := hinfo, addrs := haddrs, slot := ?_,
           others := hothers, data := hotherBlock, tidy := ?_, kept := ?_, zero := ?_ }
  · intro l hl
    rw [hslot, Function.update_of_ne]
    rintro rfl
    exact hl hk
  · -- the slots are those of before, with `b` added
    have hall : (fun a : ℕ × ℕ => d'.slot (Function.update N i x' a.1) a.2) =
        Function.update (fun a : ℕ × ℕ => d.slot (Function.update N i x a.1) a.2) (i, k) b := by
      funext a
      obtain ⟨j, l⟩ := a
      by_cases hj : j = i
      · subst hj
        simp only [Function.update_self, hslot, Function.update_apply, Prod.mk.injEq, true_and,
          if_true]
      · have hpair : (j, l) ≠ (i, k) := fun he => hj (congrArg Prod.fst he)
        rw [Function.update_of_ne hpair]
        simp only [hne hj, hothers j hj]
    refine ⟨?_, fun j l hl => ?_, ?_, fun j => ?_, fun j => ?_⟩
    · rw [hall]
      exact h.apart.update fun a => h.ne_found hb
    · by_cases hj : j = i
      · subst hj
        rw [hself] at hl ⊢
        rw [hslot, Function.update_apply] at hl ⊢
        split
        · exact htaken b hb.taken_alloc_self
        · next hlk =>
          rw [if_neg hlk] at hl
          exact htaken _ (hb.taken_alloc (hselfTaken l hl))
      · rw [hne hj] at hl ⊢
        rw [hothers j hj] at hl ⊢
        exact htaken _ (hb.taken_alloc (hotherTaken j l hj hl))
    · intro c hc
      rw [hsb] at hc
      rw [hn, hused c ((hc.trans_le hb.low).trans hb.lt),
        hb.used_alloc ((hc.trans_le hb.low).trans hb.lt), h.low c hc, Bool.or_true]
    · by_cases hj : j = i
      · subst hj
        rwa [hself]
      · have := h.fits j
        rwa [hne hj] at this ⊢
    · by_cases hj : j = i
      · subst hj
        have := h.size j
        rw [hself] at this ⊢
        rw [hinfo]
        exact this
      · have := h.size j
        rwa [hne hj] at this ⊢
  · intro l hl hls
    refine hblock _ (hselfTaken l hls) fun he => ?_
    have hap := h.apart_self i
    rw [hself] at hap
    have := hap l MAXFILE hls he
    omega
  · intro l hl h0 hl'
    rw [hslot, Function.update_apply] at hl' ⊢
    split
    · next hlk =>
      subst hlk
      exact hzero hl
    · next hlk =>
      rw [if_neg hlk] at hl'
      exact absurd h0 hl'

/-- A direct block is added. -/
theorem Tidy.fills_direct (h : d.Tidy (Function.update N i x)) (hb : d.Found b)
    (ht : x.type ≠ .free) (hk : k < NDIRECT) (h0 : x.addrs k = 0) :
    Fills N i d x (d.alloc b) { x with addrs := Function.update x.addrs k b } ∧
      (d.alloc b).slot { x with addrs := Function.update x.addrs k b } =
        Function.update (d.slot x) k b := by
  have hx : x.Fits := by
    have := h.fits i
    rwa [Function.update_self] at this
  have hslot : (d.alloc b).slot { x with addrs := Function.update x.addrs k b } =
      Function.update (d.slot x) k b := by
    rw [slot_setDirect ht hk]
    congr 1
    funext l
    refine slot_congr rfl (fun _ _ => rfl) fun _ hind => ?_
    have htk := h.taken i MAXFILE
    rw [Function.update_self, slot_indirect ht] at htk
    have hne := h.ne_found hb (i := i) (k := MAXFILE)
    rw [Function.update_self, slot_indirect ht] at hne
    exact hb.block_alloc (htk hind).low hne
  have hsize : b < 4294967296 := hb.lt.trans word_lt
  refine ⟨h.fills hb hb.superblock_alloc hb.node_alloc rfl (fun n hn => ?_)
    (hx.setAddr hk.le hsize) (by rwa [slot_direct ht hk]) hslot (fun _ _ => rfl) (fun c hc _ => ?_)
    fun _ => Found.block_alloc_self, hslot⟩
  · refine Function.update_of_ne ?_ ..
    rintro rfl
    exact hn h0
  · refine hb.block_alloc hc.low ?_
    rintro rfl
    exact hb.not_taken hc

/-- The indirect block is added. -/
theorem Tidy.fills_indirect (h : d.Tidy (Function.update N i x)) (hb : d.Found b)
    (ht : x.type ≠ .free) (h0 : x.addrs NDIRECT = 0) :
    Fills N i d x (d.alloc b) { x with addrs := Function.update x.addrs NDIRECT b } ∧
      (d.alloc b).slot { x with addrs := Function.update x.addrs NDIRECT b } =
        Function.update (d.slot x) MAXFILE b := by
  have hx : x.Fits := by
    have := h.fits i
    rwa [Function.update_self] at this
  have hslot : (d.alloc b).slot { x with addrs := Function.update x.addrs NDIRECT b } =
      Function.update (d.slot x) MAXFILE b := by
    have hzero : ∀ l, (d.alloc b).addr b l = 0 := fun _ => addr_zero
    rw [slot_setIndirect ht h0 hzero]
    congr 1
    funext l
    exact slot_congr rfl (fun _ _ => rfl) fun _ hind => absurd h0 hind
  have hsize : b < 4294967296 := hb.lt.trans word_lt
  refine ⟨h.fills hb hb.superblock_alloc hb.node_alloc rfl (fun n hn => ?_)
    (hx.setAddr le_rfl hsize) (by rwa [slot_indirect ht]) hslot (fun _ _ => rfl) (fun c hc _ => ?_)
    fun _ => Found.block_alloc_self, hslot⟩
  · refine Function.update_of_ne ?_ ..
    rintro rfl
    exact hn h0
  · refine hb.block_alloc hc.low ?_
    rintro rfl
    exact hb.not_taken hc

/-- A block is added to the indirect block. -/
theorem Tidy.fills_entry (h : d.Tidy (Function.update N i x)) (hb : d.Found b)
    (ht : x.type ≠ .free) (hk : k < NINDIRECT) (hx : x.addrs NDIRECT ≠ 0)
    (h0 : d.addr (x.addrs NDIRECT) k = 0) :
    Fills N i d x ((d.alloc b).setAddr (x.addrs NDIRECT) k b) x ∧
      ((d.alloc b).setAddr (x.addrs NDIRECT) k b).slot x =
        Function.update (d.slot x) (NDIRECT + k) b := by
  have hfits : x.Fits := by
    have := h.fits i
    rwa [Function.update_self] at this
  have htk : d.Taken (x.addrs NDIRECT) := by
    have htk := h.taken i MAXFILE
    rw [Function.update_self, slot_indirect ht] at htk
    exact htk hx
  have hne : x.addrs NDIRECT ≠ b := by
    rintro rfl
    exact hb.not_taken htk
  have hsize : b < 4294967296 := hb.lt.trans word_lt
  have hslot : ((d.alloc b).setAddr (x.addrs NDIRECT) k b).slot x =
      Function.update (d.slot x) (NDIRECT + k) b := by
    rw [slot_setAddr ht hx hk hsize]
    congr 1
    funext l
    exact slot_congr rfl (fun _ _ => rfl) fun _ _ => hb.block_alloc htk.low hne
  have hlow : (d.alloc b).superblock.dataStart ≤ x.addrs NDIRECT := by
    rw [hb.superblock_alloc]
    exact htk.low
  refine ⟨h.fills hb ?_ ?_ rfl (fun n _ => rfl) hfits ?_ hslot (fun c hc => ?_) (fun c hc hcx => ?_)
    fun _ => ?_, hslot⟩
  · rw [setAddr, superblock_put_data hlow, hb.superblock_alloc]
  · rw [setAddr, node_put_data hlow, hb.node_alloc]
  · rwa [slot_entry ht hk hx]
  · have := used_put_data (f := splice ((d.alloc b).block (x.addrs NDIRECT)) (4 * k) 4 (byte b))
      hlow (c := c) (by rwa [hb.size_alloc])
    rw [hb.ninodes_alloc] at this
    exact this
  · rw [slot_indirect ht] at hcx
    rw [setAddr, put_block, if_neg hcx]
    refine hb.block_alloc hc.low ?_
    rintro rfl
    exact hb.not_taken hc
  · rw [setAddr, put_block, if_neg (Ne.symm hne), Found.block_alloc_self]

/-- Data is written to a block of the file. -/
theorem Tidy.put_data (h : d.Tidy (Function.update N i x)) (hk : k < MAXFILE)
    (hne : d.slot x k ≠ 0) : Revises N i d x (d.put (d.slot x k) f) x := by
  have hself : Function.update N i x i = x := Function.update_self ..
  have htk : d.Taken (d.slot x k) := by
    have := h.taken i k
    rw [hself] at this
    exact this hne
  -- the block is no other inode's, and no indirect block
  have hind : ∀ j, d.slot (Function.update N i x j) MAXFILE ≠ d.slot x k := fun j he => by
    have := (h.inode_eq (i := i) (k := k) (j := j) (l := MAXFILE) (by rwa [hself])
      (by rw [hself]; exact he.symm)).2
    omega
  have hslots : ∀ j, (d.put (d.slot x k) f).slot (Function.update N i x j) =
      d.slot (Function.update N i x j) := fun j => funext fun l => slot_put (hind j)
  have hslotx : (d.put (d.slot x k) f).slot x = d.slot x := by
    have := hslots i
    rwa [hself] at this
  have hnej : ∀ j, j ≠ i → Function.update N i x j = N j := fun j hj => Function.update_of_ne hj ..
  have hothers : ∀ j, j ≠ i → (d.put (d.slot x k) f).slot (N j) = d.slot (N j) := fun j hj => by
    have := hslots j
    rwa [hnej j hj] at this
  refine { superblock := superblock_put_data htk.low, node := node_put_data htk.low, info := rfl,
           addrs := fun _ _ => rfl, slot := fun l _ => by rw [hslotx], others := hothers,
           data := fun j l hj hl => ?_, tidy := ⟨?_, fun j l hl => ?_, ?_, h.fits, h.size⟩ }
  · rw [put_block, if_neg]
    intro he
    exact hj (h.inode_eq (i := j) (k := l) (j := i) (l := k) (by rwa [hnej j hj])
      (by rw [hnej j hj, hself]; exact he)).1
  · simp only [hslots]
    exact h.apart
  · rw [hslots] at hl ⊢
    exact (h.taken j l hl).put htk.low
  · intro c hc
    have hsb : (d.put (d.slot x k) f).superblock = d.superblock := superblock_put_data htk.low
    have hn : (d.put (d.slot x k) f).ninodes = d.ninodes := congrArg Superblock.ninodes hsb
    rw [hsb] at hc
    rw [hn, used_put_data htk.low ((hc.trans_le htk.low).trans htk.lt), h.low c hc]

/-! ## An inode goes to disk -/

section Store

variable {z : Dinode} (hlt : i < d.ninodes)
include hlt

theorem block_setDinode (hc : d.superblock.dataStart ≤ c) : (d.setDinode i y).block c = d.block c := by
  have := iblock_lt hlt
  have := d.inodeEnd_le_dataStart
  rw [setDinode, put_block, if_neg (by omega)]

theorem used_setDinode : (d.setDinode i y).used d.ninodes c = d.used d.ninodes c := by
  have := iblock_lt hlt
  have := inodeEnd_le_bblock (d := d) (b := c)
  exact used_put (by omega)

theorem Taken.setDinode (h : d.Taken c) : (d.setDinode i y).Taken c := by
  have hsb : (d.setDinode i y).superblock = d.superblock := superblock_setDinode
  have hn : (d.setDinode i y).ninodes = d.ninodes := congrArg Superblock.ninodes hsb
  have hs : (d.setDinode i y).size = d.size := congrArg Superblock.size hsb
  exact ⟨by rw [hsb]; exact h.low, by rw [hs]; exact h.lt, by rw [hn, used_setDinode hlt]; exact h.used⟩

/-- The blocks of other inodes stay where they are. -/
theorem slot_setDinode (hz : d.slot z MAXFILE ≠ 0 → d.Taken (d.slot z MAXFILE)) :
    (d.setDinode i y).slot z = d.slot z := by
  funext k
  refine slot_congr rfl (fun _ _ => rfl) fun ht hne => ?_
  rw [slot_indirect ht] at hz
  exact block_setDinode hlt (hz hne).low

/-- What is stored has the blocks of before. -/
theorem Tidy.setDinode (h : d.Tidy (Function.update N i x)) (ht : y.type = x.type)
    (haddrs : y.addrs = x.addrs) (hfits : y.Fits) (hsize : y.size ≤ MAXFILE * BSIZE) :
    (d.setDinode i y).Tidy (Function.update N i y) ∧ (d.setDinode i y).slot y = d.slot x ∧
      ∀ j, j ≠ i → (d.setDinode i y).slot (N j) = d.slot (N j) := by
  have hself : ∀ {z : Dinode}, Function.update N i z i = z := Function.update_self ..
  have hne : ∀ {j : ℕ} {z : Dinode}, j ≠ i → Function.update N i z j = N j := fun hj =>
    Function.update_of_ne hj ..
  have hxy : d.slot y = d.slot x := funext fun k =>
    slot_congr ht (fun n _ => by rw [haddrs]) fun _ _ => rfl
  have hy : (d.setDinode i y).slot y = d.slot x := by
    rw [slot_setDinode hlt, hxy]
    rw [hxy]
    have := h.taken i MAXFILE
    rwa [hself] at this
  have hothers : ∀ j, j ≠ i → (d.setDinode i y).slot (N j) = d.slot (N j) := fun j hj => by
    have := h.taken j MAXFILE
    rw [hne hj] at this
    exact slot_setDinode hlt this
  have hslots : ∀ j, (d.setDinode i y).slot (Function.update N i y j) =
      d.slot (Function.update N i x j) := by
    intro j
    by_cases hj : j = i
    · subst hj
      rw [hself, hself, hy]
    · rw [hne hj, hne hj, hothers j hj]
  have hsb : (d.setDinode i y).superblock = d.superblock := superblock_setDinode
  have hn : (d.setDinode i y).ninodes = d.ninodes := congrArg Superblock.ninodes hsb
  refine ⟨⟨?_, fun j k hk => ?_, fun c hc => ?_, fun j => ?_, fun j => ?_⟩, hy, hothers⟩
  · simp only [hslots]
    exact h.apart
  · rw [hslots] at hk ⊢
    exact (h.taken j k hk).setDinode hlt
  · rw [hsb] at hc
    rw [hn, used_setDinode hlt]
    exact h.low c hc
  · by_cases hj : j = i
    · subst hj
      rwa [hself]
    · have := h.fits j
      rwa [hne hj] at this ⊢
  · by_cases hj : j = i
    · subst hj
      rwa [hself]
    · have := h.size j
      rwa [hne hj] at this ⊢

end Store

end Disk

end StrideXv6
