import StrideXv6.Consistency

/-!
# Files as byte arrays (`bmap`, `readi`, `writei`)

To a program a file is an array of bytes that can grow. `Files.bytes` is that array, read off
the disk through the block numbers in the inode. `bmap` gives a file blocks and leaves the bytes
as they are; `writei` changes those it is told to; `readi` returns what is there.

The blocks are taken from the disk as the last write left them, without the buffers in
between: that `bget` finds one is taken for granted here.
-/

namespace StrideXv6

open Bracket Bytes

namespace Disk

/-- How many blocks `bmap` takes for block `bn` of an inode. -/
def cost (d : Disk) (x : Dinode) (bn : ℕ) : ℕ :=
  (if d.slot x bn = 0 then 1 else 0) + if NDIRECT ≤ bn ∧ x.addrs NDIRECT = 0 then 1 else 0

/-- What `bmap` does when it returns `b` for block `bn`. -/
structure Maps (N : ℕ → Dinode) (i : ℕ) (d : Disk) (x : Dinode) (bn b : ℕ) (d' : Disk)
    (x' : Dinode) : Prop extends Fills N i d x d' x' where
  here : d'.slot x' bn = b
  ne : b ≠ 0
  only : ∀ k, k < MAXFILE → k ≠ bn → d'.slot x' k = d.slot x k
  indirect : NDIRECT ≤ bn → x'.addrs NDIRECT ≠ 0
  direct : bn < NDIRECT → x'.addrs NDIRECT = x.addrs NDIRECT
  free : d.free = d'.free + d.cost x bn
  same : d.slot x bn ≠ 0 → d' = d ∧ x' = x

variable {N : ℕ → Dinode} {i bn b k : ℕ} {d : Disk} {x : Dinode}

theorem slot_entry_ne (ht : x.type ≠ .free) (h : d.slot x (NDIRECT + k) ≠ 0) (hk : k < NINDIRECT) :
    x.addrs NDIRECT ≠ 0 := by
  intro h0
  apply h
  rw [slot, if_neg ht, if_neg (by omega), if_pos (by unfold MAXFILE; omega), if_pos h0]

/-- The block is there already. -/
theorem Tidy.maps (h : d.Tidy (Function.update N i x)) (ht : x.type ≠ .free) (hbn : bn < MAXFILE)
    (hne : d.slot x bn ≠ 0) : Maps N i d x bn (d.slot x bn) d x where
  toFills := .refl h
  here := rfl
  ne := hne
  only _ _ _ := rfl
  indirect hle := by
    obtain ⟨k, rfl⟩ := Nat.exists_eq_add_of_le hle
    exact slot_entry_ne ht hne (by unfold MAXFILE at hbn; omega)
  direct _ := rfl
  free := by
    have : ¬ (NDIRECT ≤ bn ∧ x.addrs NDIRECT = 0) := by
      rintro ⟨hle, h0⟩
      obtain ⟨k, rfl⟩ := Nat.exists_eq_add_of_le hle
      exact slot_entry_ne ht hne (by unfold MAXFILE at hbn; omega) h0
    rw [cost, if_neg hne, if_neg this]
    rfl
  same _ := ⟨rfl, rfl⟩

/-- A direct block is allocated. -/
theorem Tidy.maps_direct (h : d.Tidy (Function.update N i x)) (hb : d.Found b)
    (ht : x.type ≠ .free) (hk : k < NDIRECT) (h0 : x.addrs k = 0) :
    Maps N i d x k b (d.alloc b) { x with addrs := Function.update x.addrs k b } := by
  obtain ⟨hfills, hslot⟩ := h.fills_direct hb ht hk h0
  have h0' : d.slot x k = 0 := by rwa [slot_direct ht hk]
  refine { toFills := hfills, here := ?_, ne := hb.ne_zero, only := fun l _ hl => ?_,
           indirect := fun hle => absurd hk (Nat.not_lt.mpr hle), direct := fun _ => ?_,
           free := ?_, same := fun hne => absurd h0' hne }
  · rw [hslot, Function.update_self]
  · rw [hslot, Function.update_of_ne hl]
  · exact Function.update_of_ne (Nat.ne_of_gt hk) ..
  · rw [hb.free_alloc, cost, if_pos h0', if_neg fun hle => absurd hk (Nat.not_lt.mpr hle.1)]

/-- A block of the indirect block is allocated. -/
theorem Tidy.maps_entry (h : d.Tidy (Function.update N i x)) (hb : d.Found b)
    (ht : x.type ≠ .free) (hk : k < NINDIRECT) (hx : x.addrs NDIRECT ≠ 0)
    (h0 : d.addr (x.addrs NDIRECT) k = 0) :
    Maps N i d x (NDIRECT + k) b ((d.alloc b).setAddr (x.addrs NDIRECT) k b) x := by
  obtain ⟨hfills, hslot⟩ := h.fills_entry hb ht hk hx h0
  have h0' : d.slot x (NDIRECT + k) = 0 := by rwa [slot_entry ht hk hx]
  have hlow : (d.alloc b).superblock.dataStart ≤ x.addrs NDIRECT := by
    have htk := h.taken i MAXFILE
    rw [Function.update_self, slot_indirect ht] at htk
    rw [hb.superblock_alloc]
    exact (htk hx).low
  refine { toFills := hfills, here := ?_, ne := hb.ne_zero, only := fun l _ hl => ?_,
           indirect := fun _ => hx, direct := fun _ => rfl, free := ?_,
           same := fun hne => absurd h0' hne }
  · rw [hslot, Function.update_self]
  · rw [hslot, Function.update_of_ne hl]
  · rw [setAddr, free_put_data hlow, hb.free_alloc, cost, if_pos h0', if_neg fun hle => hx hle.2]

/-- Both blocks are missing, -/
theorem cost_of_indirect (ht : x.type ≠ .free) (h0 : x.addrs NDIRECT = 0) (hk : k < NINDIRECT) :
    d.slot x (NDIRECT + k) = 0 ∧ d.cost x (NDIRECT + k) = 2 := by
  have hzero : d.slot x (NDIRECT + k) = 0 := by
    by_contra hne
    exact slot_entry_ne ht hne hk h0
  rw [cost, if_pos hzero, if_pos ⟨Nat.le_add_right .., h0⟩]
  exact ⟨hzero, rfl⟩

/-- and one, after the indirect block was added. -/
theorem cost_indirect {c : ℕ} (h : d.Tidy (Function.update N i x)) (hc : d.Found c)
    (ht : x.type ≠ .free) (h0 : x.addrs NDIRECT = 0) (hk : k < NINDIRECT) :
    (d.alloc c).cost { x with addrs := Function.update x.addrs NDIRECT c } (NDIRECT + k) = 1 := by
  have hlt : NDIRECT + k < MAXFILE := by unfold MAXFILE; omega
  have hslot : (d.alloc c).slot { x with addrs := Function.update x.addrs NDIRECT c }
      (NDIRECT + k) = 0 := by
    rw [(h.fills_indirect hc ht h0).2, Function.update_of_ne (by omega),
      (cost_of_indirect ht h0 hk).1]
  have hne : Function.update x.addrs NDIRECT c NDIRECT ≠ 0 := by
    rw [Function.update_self]
    exact hc.ne_zero
  rw [cost, if_pos hslot, if_neg fun he => hne he.2]

/-- The indirect block was added first. -/
theorem Maps.of_indirect {d' : Disk} {x' : Dinode} {c : ℕ}
    (h : d.Tidy (Function.update N i x)) (hc : d.Found c) (ht : x.type ≠ .free)
    (h0 : x.addrs NDIRECT = 0) (hk : k < NINDIRECT)
    (hm : Maps N i (d.alloc c) { x with addrs := Function.update x.addrs NDIRECT c } (NDIRECT + k) b
      d' x') :
    Maps N i d x (NDIRECT + k) b d' x' := by
  obtain ⟨hfills, hslot⟩ := h.fills_indirect hc ht h0
  obtain ⟨hzero, hcost⟩ := cost_of_indirect (d := d) ht h0 hk
  refine { toFills := hfills.trans hm.toFills, here := hm.here, ne := hm.ne,
           only := fun l hl hne => ?_, indirect := hm.indirect,
           direct := fun hlt => absurd hlt (by omega), free := ?_,
           same := fun hne => absurd hzero hne }
  · rw [hm.only l hl hne, hslot, Function.update_of_ne (by omega)]
  · rw [hc.free_alloc, hm.free, cost_indirect h hc ht h0 hk, hcost]

end Disk

/-! ## `bmap` -/

section Bmap

variable {ι β : Type} [DecidableEq ι] {p : ι} {bad : Halt → Prop} {s : Files ι} {ip : Fin NINODE}
  {N : ℕ → Dinode} {i bn k n a : ℕ} {d : Disk} {x : Dinode}

/-- The inode is read. -/
theorem ends_inode {f : Inode → FsCode ι β} {Q : β → Files ι → Prop}
    (hf : Ends (.alone (fsRun p) bad) Q (s.revise ip d x) (f { s.icache ip with copy := x })) :
    Ends (.alone (fsRun p) bad) Q (s.revise ip d x) (ask (.inode ip) >>= f) :=
  ends_op (fun _ => by simp only [FsOp.run, Files.revise_icache_self]) hf

/-- An address of the inode is read, -/
theorem ends_addr {f : ℕ → FsCode ι β} {Q : β → Files ι → Prop}
    (hf : Ends (.alone (fsRun p) bad) Q (s.revise ip d x) (f (x.addrs n))) :
    Ends (.alone (fsRun p) bad) Q (s.revise ip d x) (ask (.addr ip n) >>= f) :=
  ends_op (fun _ => by simp only [FsOp.run, Files.revise_icache_self]) hf

/-- and changed. -/
theorem ends_setInode {f : Unit → FsCode ι β} {Q : β → Files ι → Prop} {g : Dinode → Dinode}
    (hf : Ends (.alone (fsRun p) bad) Q (s.revise ip d (g x)) (f ())) :
    Ends (.alone (fsRun p) bad) Q (s.revise ip d x) (ask (.setInode ip g) >>= f) := by
  have hrun : ∀ n, (FsOp.setInode ip g).run p n (s.revise ip d x) =
      .ok ((), s.revise ip d (g x)) := fun n => by
    simp only [FsOp.run, Files.setInode, Files.revise, Function.update_idem, Function.update_self]
  exact ends_op hrun hf

/-- A block is allocated. -/
theorem ends_balloc_bind {f : ℕ → FsCode ι β} {Q : β → Files ι → Prop}
    (hlow : d.LowUsed) (hroom : bad outOfBlocks → 0 < d.free)
    (hf : ∀ b, d.Found b → Ends (.alone (fsRun p) bad) Q (s.revise ip (d.alloc b) x) (f b)) :
    Ends (.alone (fsRun p) bad) Q (s.revise ip d x) (balloc >>= f) := by
  refine (ends_balloc (s := s.revise ip d x)
    (Q := fun b s' => d.Found b ∧ s' = s.revise ip (d.alloc b) x) hlow hroom
    fun b hb => ⟨hb, rfl⟩).bind ?_
  rintro b _ ⟨hb, rfl⟩
  exact hf b hb

/-- The end of `bmap`: an entry of the indirect block. -/
theorem ends_entry {ind : ℕ} (hind : x.addrs NDIRECT = ind) (htidy : d.Tidy (Function.update N i x))
    (ht : x.type ≠ .free) (hk : k < NINDIRECT) (hx : ind ≠ 0)
    (hroom : bad outOfBlocks → d.cost x (NDIRECT + k) ≤ d.free) :
    Ends (.alone (fsRun p) bad) (fun b s' => ∃ d' x', s' = s.revise ip d' x' ∧
      Disk.Maps N i d x (NDIRECT + k) b d' x') (s.revise ip d x) (do
        let a ← ask (.readAddr ind k)
        if a ≠ 0 then return a
        let a ← balloc
        ask (.writeAddr ind k a)
        ask (.logWrite ind)
        return a) := by
  subst hind
  have hslot : d.slot x (NDIRECT + k) = d.addr (x.addrs NDIRECT) k := Disk.slot_entry ht hk hx
  refine ends_op (r := d.addr (x.addrs NDIRECT) k) (fun _ => rfl) ?_
  by_cases h0 : d.addr (x.addrs NDIRECT) k = 0
  · rw [if_neg (not_not.mpr h0)]
    refine ends_balloc_bind htidy.low (fun hb => ?_) fun b hb => ?_
    · have := hroom hb
      rw [Disk.cost, hslot, if_pos h0] at this
      omega
    · exact ends_op (fun _ => rfl) (ends_op (fun _ => rfl)
        ⟨_, _, rfl, htidy.maps_entry hb ht hk hx h0⟩)
  · rw [if_pos h0, ← hslot]
    refine ⟨d, x, rfl, htidy.maps ht ?_ (hslot ▸ h0)⟩
    unfold MAXFILE
    omega

/-- `bmap` returns the block in the slot, which it fills if it has to. -/
theorem ends_bmap (htidy : d.Tidy (Function.update N i x)) (ht : x.type ≠ .free)
    (hbn : bn < MAXFILE) (hroom : bad outOfBlocks → d.cost x bn ≤ d.free) :
    Ends (.alone (fsRun p) bad) (fun b s' => ∃ d' x', s' = s.revise ip d' x' ∧
      Disk.Maps N i d x bn b d' x') (s.revise ip d x) (bmap ip bn) := by
  unfold bmap
  by_cases hdir : bn < NDIRECT
  · rw [if_pos hdir]
    refine ends_addr ?_
    by_cases h0 : x.addrs bn = 0
    · rw [if_neg (not_not.mpr h0)]
      refine ends_balloc_bind htidy.low (fun hb => ?_) fun b hb => ?_
      · have := hroom hb
        rw [Disk.cost, Disk.slot_direct ht hdir, if_pos h0] at this
        omega
      · exact ends_setInode ⟨_, _, rfl, htidy.maps_direct hb ht hdir h0⟩
    · rw [if_pos h0]
      have hslot : d.slot x bn = x.addrs bn := Disk.slot_direct ht hdir
      rw [← hslot] at h0 ⊢
      exact ⟨d, x, rfl, htidy.maps ht hbn h0⟩
  · obtain ⟨k, rfl⟩ := Nat.exists_eq_add_of_le (Nat.not_lt.mp hdir)
    have hk : k < NINDIRECT := by unfold MAXFILE at hbn; omega
    rw [if_neg hdir, Nat.add_sub_cancel_left, if_pos hk]
    refine ends_addr ?_
    by_cases h0 : x.addrs NDIRECT = 0
    · rw [if_neg (not_not.mpr h0)]
      have hcost := (Disk.cost_of_indirect (d := d) ht h0 hk).2
      refine ends_balloc_bind htidy.low (fun hb => ?_) fun c hc => ?_
      · have := hroom hb
        omega
      · have hfills := (htidy.fills_indirect hc ht h0).1
        have hself : Function.update x.addrs NDIRECT c NDIRECT = c := Function.update_self ..
        refine ends_setInode ?_
        refine (ends_entry hself hfills.tidy ht hk hc.ne_zero fun hb => ?_).mono ?_
        · have := hroom hb
          rw [hc.free_alloc] at this
          rw [Disk.cost_indirect htidy hc ht h0 hk]
          omega
        · rintro b _ ⟨d', x', rfl, hm⟩
          exact ⟨d', x', rfl, .of_indirect htidy hc ht h0 hk hm⟩
    · rw [if_pos h0]
      exact ends_entry rfl htidy ht hk h0 hroom

end Bmap

/-! ## The blocks of a range -/

/-- The pieces that the loops of `readi` and `writei` move: the block of the file, where
in it they begin, and how long they are. -/
def pieces (off n : ℕ) : List (ℕ × ℕ × ℕ) :=
  if n = 0 then []
  else
    (off / BSIZE, off % BSIZE, min n (BSIZE - off % BSIZE)) ::
      pieces (off + min n (BSIZE - off % BSIZE)) (n - min n (BSIZE - off % BSIZE))
termination_by n
decreasing_by
  have : off % BSIZE < BSIZE := Nat.mod_lt _ (by decide)
  omega

theorem mem_blocksOf {off n bn : ℕ} :
    bn ∈ blocksOf off n ↔ ∃ o, off ≤ o ∧ o < off + n ∧ o / BSIZE = bn := by
  unfold blocksOf
  split
  · next h0 =>
    simp only [List.not_mem_nil, false_iff, not_exists]
    omega
  · next h0 =>
    rw [List.mem_range'_1]
    unfold BSIZE
    constructor
    · intro h
      by_cases hlow : bn * 512 < off
      · exact ⟨off, by omega⟩
      · exact ⟨bn * 512, by omega⟩
    · rintro ⟨o, ho⟩
      omega

theorem nodup_blocksOf (off n : ℕ) : (blocksOf off n).Nodup := by
  unfold blocksOf
  split
  · exact List.nodup_nil
  · exact List.nodup_range'

/-- The blocks of the pieces. -/
theorem map_pieces (off n : ℕ) : (pieces off n).map Prod.fst = blocksOf off n := by
  induction off, n using pieces.induct with
  | case1 off => rw [pieces, if_pos rfl, blocksOf, if_pos rfl, List.map_nil]
  | case2 off n h0 ih =>
    rw [pieces, if_neg h0, List.map_cons, ih]
    unfold blocksOf BSIZE
    rw [if_neg h0]
    by_cases hone : n ≤ 512 - off % 512
    · have hmin : min n (512 - off % 512) = n := Nat.min_eq_left hone
      have hlen : (off + n - 1) / 512 - off / 512 + 1 = 1 := by omega
      rw [hmin, Nat.sub_self, if_pos rfl, hlen]
      rfl
    · have hmin : min n (512 - off % 512) = 512 - off % 512 := Nat.min_eq_right (by omega)
      have hlen : (off + n - 1) / 512 - off / 512 + 1 =
          ((off + (512 - off % 512) + (n - (512 - off % 512)) - 1) / 512 -
            (off + (512 - off % 512)) / 512 + 1) + 1 := by omega
      have hnext : (off + (512 - off % 512)) / 512 = off / 512 + 1 := by omega
      rw [hmin, if_neg (by omega), hlen, hnext]
      rfl

/-- A piece is the part of the range that is in one block. -/
theorem mem_pieces {off n bn o m : ℕ} (h : (bn, o, m) ∈ pieces off n) :
    0 < m ∧ off ≤ bn * BSIZE + o ∧ o + m ≤ BSIZE ∧ bn * BSIZE + o + m ≤ off + n ∧
      (o = 0 ∨ bn * BSIZE + o = off) ∧ (o + m = BSIZE ∨ bn * BSIZE + o + m = off + n) := by
  induction off, n using pieces.induct with
  | case1 off =>
    rw [pieces, if_pos rfl] at h
    cases h
  | case2 off n h0 ih =>
    rw [pieces, if_neg h0] at h
    unfold BSIZE at ih ⊢
    rcases List.mem_cons.mp h with heq | hmem
    · unfold BSIZE at heq
      cases heq
      omega
    · have := ih hmem
      omega

/-- The pieces are all of the range, in order. -/
theorem flatMap_pieces {α : Type} (c : ℕ → α) (off n : ℕ) :
    (pieces off n).flatMap (fun piece => (List.range piece.2.2).map fun k =>
      c (piece.1 * BSIZE + piece.2.1 + k)) = (List.range n).map fun k => c (off + k) := by
  induction off, n using pieces.induct with
  | case1 off => rw [pieces, if_pos rfl]; rfl
  | case2 off n h0 ih =>
    rw [pieces, if_neg h0, List.flatMap_cons, ih]
    have hoff : off / BSIZE * BSIZE + off % BSIZE = off := Nat.div_add_mod' off BSIZE
    have hle : min n (BSIZE - off % BSIZE) ≤ n := Nat.min_le_left ..
    generalize min n (BSIZE - off % BSIZE) = m at hle
    obtain ⟨r, rfl⟩ := Nat.exists_eq_add_of_le hle
    rw [List.range_add, List.map_append, List.map_map, Nat.add_sub_cancel_left]
    simp only [hoff, Function.comp_def, Nat.add_assoc]

/-- What `readi` moves out of these blocks. -/
def copied (d : Disk) (off n : ℕ) (blocks : List ℕ) : List Byte :=
  ((pieces off n).zip blocks).flatMap fun (piece, b) =>
    (List.range piece.2.2).map fun k => d.block b (piece.2.1 + k)

namespace Disk

variable {N : ℕ → Dinode} {i : ℕ} {d : Disk} {x : Dinode} {off n : ℕ}

theorem copied_eq (h : ∀ bn ∈ blocksOf off n, bn < MAXFILE ∧ d.slot x bn ≠ 0) :
    copied d off n ((blocksOf off n).map (d.slot x)) =
      (List.range n).map fun k => d.content x (off + k) := by
  rw [← flatMap_pieces (d.content x), copied, ← map_pieces, List.map_map,
    ← List.map_prod_left_eq_zip, List.flatMap_map]
  refine List.flatMap_congr fun piece hpiece => List.map_congr_left fun k hk => ?_
  obtain ⟨bn, o, m⟩ := piece
  obtain ⟨hbn, hne⟩ := h bn (by rw [← map_pieces]; exact List.mem_map_of_mem hpiece)
  have hp := mem_pieces hpiece
  have hlt : k < m := List.mem_range.mp hk
  have hdiv : (bn * BSIZE + o + k) / BSIZE = bn := by unfold BSIZE at hp ⊢; omega
  have hmod : (bn * BSIZE + o + k) % BSIZE = o + k := by unfold BSIZE at hp ⊢; omega
  simp only [Function.comp_apply, content, hdiv, hmod, if_pos (And.intro hbn hne)]

/-- How many blocks are missing in these places of a file, the indirect block included. -/
def needs (d : Disk) (x : Dinode) (bns : List ℕ) : ℕ :=
  bns.countP (fun bn => d.slot x bn = 0) +
    if (∃ bn ∈ bns, NDIRECT ≤ bn) ∧ x.addrs NDIRECT = 0 then 1 else 0

/-- What is left to allocate after `bmap`. -/
theorem Maps.needs {bn b : ℕ} {bns : List ℕ} {d' : Disk} {x' : Dinode}
    (h : Maps N i d x bn b d' x') (hbn : bn ∉ bns) (hlt : ∀ k ∈ bns, k < MAXFILE) :
    d.needs x (bn :: bns) = d.cost x bn + d'.needs x' bns := by
  have hcount : bns.countP (fun k => d'.slot x' k = 0) = bns.countP fun k => d.slot x k = 0 := by
    refine List.countP_congr fun k hk => ?_
    have hne : k ≠ bn := fun he => hbn (he ▸ hk)
    rw [h.only k (hlt k hk) hne]
  have hind : (if (∃ k ∈ bn :: bns, NDIRECT ≤ k) ∧ x.addrs NDIRECT = 0 then 1 else 0) =
      (if NDIRECT ≤ bn ∧ x.addrs NDIRECT = 0 then 1 else 0) +
        if (∃ k ∈ bns, NDIRECT ≤ k) ∧ x'.addrs NDIRECT = 0 then 1 else 0 := by
    by_cases hle : NDIRECT ≤ bn
    · have hx' := h.indirect hle
      simp only [hx', and_false, if_false, List.mem_cons, exists_eq_or_imp, hle, true_or, true_and,
        Nat.add_zero]
    · rw [h.direct (Nat.not_le.mp hle)]
      simp only [List.mem_cons, exists_eq_or_imp, hle, false_or, false_and, if_false, Nat.zero_add]
  unfold Disk.needs cost
  rw [hind, hcount, List.countP_cons]
  simp only [decide_eq_true_eq]
  omega

theorem needs_perm {l l' : List ℕ} (h : l.Perm l') : d.needs x l = d.needs x l' := by
  unfold needs
  rw [h.countP_eq]
  simp only [h.mem_iff]

/-- What is left to allocate of a list with the place in it. -/
theorem Maps.needs_of_mem {bn b : ℕ} {bns : List ℕ} {d' : Disk} {x' : Dinode}
    (h : Maps N i d x bn b d' x') (hbn : bn ∈ bns) (hnodup : bns.Nodup)
    (hlt : ∀ k ∈ bns, k < MAXFILE) : d.needs x bns = d.cost x bn + d'.needs x' bns := by
  have hperm := List.perm_cons_erase hbn
  have hnot : bn ∉ bns.erase bn := fun hmem => (List.Nodup.mem_erase_iff hnodup).mp hmem |>.1 rfl
  have hlt' : ∀ k ∈ bns.erase bn, k < MAXFILE := fun k hk => hlt k (List.mem_of_mem_erase hk)
  have hzero : d'.needs x' (bn :: bns.erase bn) = d'.needs x' (bns.erase bn) := by
    have hslot : ¬ d'.slot x' bn = 0 := h.here ▸ h.ne
    have hiff : ((∃ k ∈ bn :: bns.erase bn, NDIRECT ≤ k) ∧ x'.addrs NDIRECT = 0) ↔
        (∃ k ∈ bns.erase bn, NDIRECT ≤ k) ∧ x'.addrs NDIRECT = 0 := by
      refine and_congr_left fun h0 => ?_
      simp only [List.mem_cons, exists_eq_or_imp]
      exact or_iff_right fun hle => h.indirect hle h0
    unfold Disk.needs
    rw [List.countP_cons]
    simp only [hslot, decide_false, Bool.false_eq_true, if_false, Nat.add_zero]
    rw [if_congr hiff rfl rfl]
  rw [needs_perm hperm, h.needs hnot hlt', needs_perm (d := d') hperm, hzero]

theorem cost_le_needs {bn : ℕ} {bns : List ℕ} : d.cost x bn ≤ d.needs x (bn :: bns) := by
  unfold cost needs
  rw [List.countP_cons]
  have hfirst : (if d.slot x bn = 0 then 1 else 0) ≤
      if decide (d.slot x bn = 0) = true then 1 else 0 := by simp only [decide_eq_true_eq, le_refl]
  have hsecond : (if NDIRECT ≤ bn ∧ x.addrs NDIRECT = 0 then 1 else 0) ≤
      if (∃ k ∈ bn :: bns, NDIRECT ≤ k) ∧ x.addrs NDIRECT = 0 then 1 else 0 := by
    by_cases h : NDIRECT ≤ bn ∧ x.addrs NDIRECT = 0
    · rw [if_pos h, if_pos ⟨⟨bn, List.mem_cons_self .., h.1⟩, h.2⟩]
    · rw [if_neg h]
      exact Nat.zero_le _
  omega

theorem needs_eq_zero {bns : List ℕ} (ht : x.type ≠ .free)
    (h : ∀ bn ∈ bns, bn < MAXFILE ∧ d.slot x bn ≠ 0) : d.needs x bns = 0 := by
  have hcount : bns.countP (fun bn => d.slot x bn = 0) = 0 :=
    List.countP_eq_zero.mpr fun bn hbn => by simpa using (h bn hbn).2
  have hind : ¬ ((∃ bn ∈ bns, NDIRECT ≤ bn) ∧ x.addrs NDIRECT = 0) := by
    rintro ⟨⟨bn, hbn, hle⟩, h0⟩
    obtain ⟨k, rfl⟩ := Nat.exists_eq_add_of_le hle
    obtain ⟨hlt, hne⟩ := h _ hbn
    exact slot_entry_ne ht hne (by unfold MAXFILE at hlt; omega) h0
  rw [needs, hcount, if_neg hind]

/-- Some places of a file are filled. -/
structure MapsAll (N : ℕ → Dinode) (i : ℕ) (d : Disk) (x : Dinode) (bns : List ℕ) (d' : Disk)
    (x' : Dinode) : Prop extends Fills N i d x d' x' where
  mapped : ∀ bn ∈ bns, d'.slot x' bn ≠ 0
  same : (∀ bn ∈ bns, d.slot x bn ≠ 0) → d' = d ∧ x' = x
  /-- where there was room for more than this, there is for the rest -/
  room : ∀ l : List ℕ, l.Nodup → (∀ k ∈ l, k < MAXFILE) → bns ⊆ l → d.needs x l ≤ d.free →
    d'.needs x' l ≤ d'.free

end Disk

/-! ## `readi` -/

section Readi

variable {ι : Type} [DecidableEq ι] {p : ι} {bad : Halt → Prop} {s : Files ι} {ip : Fin NINODE}
  {N : ℕ → Dinode} {i off n : ℕ} {d : Disk} {x : Dinode} {bns : List ℕ}

/-- The loop of `readi`. -/
theorem ends_mapEach (htidy : d.Tidy (Function.update N i x)) (ht : x.type ≠ .free)
    (hnodup : bns.Nodup) (hlt : ∀ bn ∈ bns, bn < MAXFILE)
    (hroom : bad outOfBlocks → d.needs x bns ≤ d.free) :
    Ends (.alone (fsRun p) bad) (fun bs s' => ∃ d' x', s' = s.revise ip d' x' ∧
      bs = bns.map (d'.slot x') ∧ Disk.MapsAll N i d x bns d' x') (s.revise ip d x)
      (Code.mapEach bns (bmap ip)) := by
  induction bns generalizing d x with
  | nil =>
    exact ⟨d, x, rfl, rfl, .refl htidy, fun _ h => (nomatch h), fun _ => ⟨rfl, rfl⟩,
      fun _ _ _ _ h => h⟩
  | cons bn bns ih =>
    obtain ⟨hnot, hnodup⟩ := List.nodup_cons.mp hnodup
    have hlt' : ∀ k ∈ bns, k < MAXFILE := fun k hk => hlt k (List.mem_cons_of_mem _ hk)
    have hbn := hlt bn (List.mem_cons_self ..)
    refine (ends_bmap htidy ht hbn fun hb => Disk.cost_le_needs.trans (hroom hb)).bind ?_
    · rintro b _ ⟨d1, x1, rfl, hm⟩
      refine (ih hm.tidy (by rw [hm.type]; exact ht) hnodup hlt' fun hb => ?_).bind ?_
      · have := hroom hb
        rw [hm.needs hnot hlt', hm.free] at this
        omega
      · rintro bs _ ⟨d2, x2, rfl, rfl, hall⟩
        have hb : d2.slot x2 bn = b := by
          rw [hall.slot bn (by rw [hm.here]; exact hm.ne), hm.here]
        refine ⟨d2, x2, rfl, by rw [List.map_cons, hb], hm.toFills.trans hall.toFills, ?_, ?_, ?_⟩
        · intro k hk
          rcases List.mem_cons.mp hk with rfl | hk
          · rw [hb]
            exact hm.ne
          · exact hall.mapped k hk
        · intro hmapped
          obtain ⟨rfl, rfl⟩ := hm.same (hmapped bn (List.mem_cons_self ..))
          exact hall.same fun k hk => hmapped k (List.mem_cons_of_mem _ hk)
        · intro l hl hlt hsub hle
          refine hall.room l hl hlt (fun k hk => hsub (List.mem_cons_of_mem _ hk)) ?_
          rw [hm.needs_of_mem (hsub (List.mem_cons_self ..)) hl hlt, hm.free] at hle
          omega

/-- When `readi` returns `-1`. -/
def Dinode.RefusesRead (x : Dinode) (off n : ℕ) : Prop :=
  x.size < off ∨ (off + n) % 4294967296 < off

instance (x : Dinode) (off n : ℕ) : Decidable (x.RefusesRead off n) :=
  inferInstanceAs (Decidable (x.size < off ∨ (off + n) % 4294967296 < off))

/-- The blocks that `readi` looks at. -/
def Dinode.readBlocks (x : Dinode) (off n : ℕ) : List ℕ := blocksOf off (min n (x.size - off))

theorem lt_maxfile_of_readBlocks (hsize : x.size ≤ MAXFILE * BSIZE) {bn : ℕ}
    (h : bn ∈ x.readBlocks off n) : bn < MAXFILE ∧ bn * BSIZE < x.size := by
  obtain ⟨o, ho, hlt, rfl⟩ := mem_blocksOf.mp h
  unfold BSIZE at *
  omega

/-- What `readi` does. -/
theorem ends_readi (htidy : d.Tidy (Function.update N i x)) (ht : x.type ≠ .free)
    (hdev : x.type ≠ .dev)
    (hroom : bad outOfBlocks → ¬ x.RefusesRead off n → d.needs x (x.readBlocks off n) ≤ d.free) :
    Ends (.alone (fsRun p) bad) (fun r s' => ∃ d' x', s' = s.revise ip d' x' ∧
      if x.RefusesRead off n then r = none ∧ d' = d ∧ x' = x
      else r = some (min n (x.size - off), (x.readBlocks off n).map (d'.slot x')) ∧
        Disk.MapsAll N i d x (x.readBlocks off n) d' x') (s.revise ip d x) (readi ip off n) := by
  refine ends_inode ?_
  rw [if_neg hdev]
  by_cases href : x.size < off ∨ (off + n) % 4294967296 < off
  · rw [if_pos href]
    exact ⟨d, x, rfl, (if_pos href).mpr ⟨rfl, rfl, rfl⟩⟩
  · rw [if_neg href]
    have hsize : x.size ≤ MAXFILE * BSIZE := by
      have := htidy.size i
      rwa [Function.update_self] at this
    refine (ends_mapEach htidy ht (nodup_blocksOf ..)
      (fun bn hbn => (lt_maxfile_of_readBlocks hsize hbn).1) fun hb => hroom hb href).bind ?_
    rintro _ _ ⟨d', x', rfl, rfl, hall⟩
    exact ⟨d', x', rfl, (if_neg href).mpr ⟨rfl, hall⟩⟩

end Readi

/-! ## `writei` -/

namespace Disk

variable {N : ℕ → Dinode} {i off n bn b : ℕ} {d d' d'' : Disk} {x x' x'' : Dinode} {bns : List ℕ}
  {G : ℕ → ℕ → Byte → Byte}

/-- Some blocks of a file are written, each byte by `G`. -/
structure Writes (N : ℕ → Dinode) (i : ℕ) (G : ℕ → ℕ → Byte → Byte) (d : Disk) (x : Dinode)
    (bns : List ℕ) (d' : Disk) (x' : Dinode) : Prop extends Revises N i d x d' x' where
  mapped : ∀ bn ∈ bns, d'.slot x' bn ≠ 0
  only : ∀ k, k < MAXFILE → k ∉ bns → d'.slot x' k = d.slot x k
  same : (∀ bn ∈ bns, d.slot x bn ≠ 0) → x' = x
  content : ∀ o, d'.content x' o =
    if o / BSIZE ∈ bns then G (o / BSIZE) (o % BSIZE) (d.content x o) else d.content x o

theorem Writes.nil (h : d.Tidy (Function.update N i x)) : Writes N i G d x [] d x where
  toRevises := .refl h
  mapped _ h := nomatch h
  only _ _ _ := rfl
  same _ := rfl
  content o := by rw [if_neg (List.not_mem_nil)]

/-- One block is written. -/
theorem Maps.writes (h : Maps N i d x bn b d' x') (hbn : bn < MAXFILE) :
    Writes N i G d x [bn] (d'.put b fun k => G bn k (d'.block b k)) x' ∧
      (d'.put b fun k => G bn k (d'.block b k)).slot x' = d'.slot x' ∧
      (d'.put b fun k => G bn k (d'.block b k)).free = d'.free := by
  have hne : d'.slot x' bn ≠ 0 := h.here ▸ h.ne
  have hself : Function.update N i x' i = x' := Function.update_self ..
  have hap := h.tidy.apart_self i
  rw [hself] at hap
  have htk := h.tidy.taken i bn
  rw [hself] at htk
  have hrev := h.tidy.put_data (f := fun k => G bn k (d'.block (d'.slot x' bn) k)) hbn hne
  have hslot : (d'.put (d'.slot x' bn) fun k => G bn k (d'.block (d'.slot x' bn) k)).slot x' =
      d'.slot x' := by
    funext k
    refine slot_put fun he => ?_
    have := hap bn MAXFILE hne he.symm
    omega
  have hfree := free_put_data (f := fun k => G bn k (d'.block (d'.slot x' bn) k)) (htk hne).low
  rw [h.here] at hrev hslot hfree
  refine ⟨{ toRevises := h.toRevises.trans hrev, mapped := ?_, only := ?_, same := ?_,
            content := ?_ }, hslot, hfree⟩
  · intro k hk
    rw [List.mem_singleton.mp hk, hslot]
    exact hne
  · intro k hk hkn
    rw [hslot, h.only k hk fun he => hkn (List.mem_singleton.mpr he)]
  · intro hall
    exact (h.same (hall bn (List.mem_singleton.mpr rfl))).2
  · intro o
    rw [← h.content]
    have hput := content_put (f := fun k => G bn k (d'.block (d'.slot x' bn) k)) hap hbn hne o
    rw [h.here] at hput
    rw [hput]
    by_cases ho : o / BSIZE = bn
    · have hcon : d'.content x' o = d'.block b (o % BSIZE) := by
        rw [Disk.content, ho, h.here, if_pos ⟨hbn, h.ne⟩]
      rw [if_pos ho, if_pos (List.mem_singleton.mpr ho), hcon, ho]
    · rw [if_neg ho, if_neg fun hm => ho (List.mem_singleton.mp hm)]

/-- One block after the other. -/
theorem Writes.cons (h : Writes N i G d x [bn] d' x') (h' : Writes N i G d' x' bns d'' x'')
    (hnot : bn ∉ bns) :
    Writes N i G d x (bn :: bns) d'' x'' where
  toRevises := h.toRevises.trans h'.toRevises
  mapped k hk := by
    rcases List.mem_cons.mp hk with rfl | hk
    · have := h.mapped k (List.mem_singleton.mpr rfl)
      rwa [h'.slot k this]
    · exact h'.mapped k hk
  only k hk hkn := by
    rw [List.mem_cons, not_or] at hkn
    rw [h'.only k hk hkn.2, h.only k hk fun he => hkn.1 (List.mem_singleton.mp he)]
  same hall := by
    have hx := h.same fun k hk => by
      rw [List.mem_singleton.mp hk]
      exact hall bn (List.mem_cons_self ..)
    rw [h'.same fun k hk => ?_, hx]
    have hne := hall k (List.mem_cons_of_mem _ hk)
    rwa [h.slot k hne]
  content o := by
    rw [h'.content, h.content]
    by_cases hob : o / BSIZE = bn
    · rw [if_neg (by rw [hob]; exact hnot), if_pos (List.mem_singleton.mpr hob),
        if_pos (List.mem_cons.mpr (.inl hob))]
    · rw [if_neg fun hm => hob (List.mem_singleton.mp hm)]
      refine if_congr ?_ rfl rfl
      rw [List.mem_cons, or_iff_right hob]

end Disk

section Writei

variable {ι : Type} [DecidableEq ι] {p : ι} {bad : Halt → Prop} {s : Files ι} {ip : Fin NINODE}
  {N : ℕ → Dinode} {i off n : ℕ} {d : Disk} {x : Dinode} {bns : List ℕ}
  {G : ℕ → ℕ → Byte → Byte} {fill : ℕ → ℕ → FsCode ι Unit}

/-- `fill` changes the bytes of a block by `G`. -/
def FillsBy (p : ι) (fill : ℕ → ℕ → FsCode ι Unit) (G : ℕ → ℕ → Byte → Byte) : Prop :=
  ∀ (bad : Halt → Prop) (s : Files ι) (bn b : ℕ), bn < MAXFILE →
    Ends (.alone (fsRun p) bad)
      (fun _ s' => s' = { s with disk := s.disk.put b fun k => G bn k (s.disk.block b k) }) s
      (fill bn b)

/-- The loop of `writei`. -/
theorem ends_writeLoop (hfill : FillsBy p fill G) (htidy : d.Tidy (Function.update N i x))
    (ht : x.type ≠ .free) (hnodup : bns.Nodup) (hlt : ∀ bn ∈ bns, bn < MAXFILE)
    (hroom : bad outOfBlocks → d.needs x bns ≤ d.free) :
    Ends (.alone (fsRun p) bad) (fun _ s' => ∃ d' x', s' = s.revise ip d' x' ∧
      Disk.Writes N i G d x bns d' x') (s.revise ip d x)
      (Code.forEach bns fun bn => do
        let b ← bmap ip bn
        fill bn b
        ask (.logWrite b)) := by
  induction bns generalizing d x with
  | nil => exact ⟨d, x, rfl, .nil htidy⟩
  | cons bn bns ih =>
    obtain ⟨hnot, hnodup⟩ := List.nodup_cons.mp hnodup
    have hlt' : ∀ k ∈ bns, k < MAXFILE := fun k hk => hlt k (List.mem_cons_of_mem _ hk)
    have hbn := hlt bn (List.mem_cons_self ..)
    refine Ends.bind (R := fun _ s' => ∃ d' x', s' = s.revise ip d' x' ∧
      Disk.Writes N i G d x [bn] d' x' ∧ (bad outOfBlocks → d'.needs x' bns ≤ d'.free)) ?_ ?_
    · refine (ends_bmap htidy ht hbn fun hb => Disk.cost_le_needs.trans (hroom hb)).bind ?_
      rintro b _ ⟨d', x', rfl, hm⟩
      obtain ⟨hw, hslot, hfree⟩ := hm.writes (G := G) hbn
      refine (hfill bad _ bn b hbn).bind ?_
      rintro _ _ rfl
      refine ends_last (fun _ => rfl) ⟨_, _, rfl, hw, fun hb => ?_⟩
      have := hroom hb
      rw [hm.needs hnot hlt', hm.free] at this
      change (d'.put b fun k => G bn k (d'.block b k)).needs x' bns ≤
        (d'.put b fun k => G bn k (d'.block b k)).free
      rw [hfree, Disk.needs, hslot]
      unfold Disk.needs at this
      omega
    · rintro _ _ ⟨d', x', rfl, hw, hroom'⟩
      refine (ih hw.tidy (by rw [hw.type]; exact ht) hnodup hlt' hroom').mono ?_
      rintro _ _ ⟨d'', x'', rfl, hw'⟩
      exact ⟨d'', x'', rfl, hw.cons hw' hnot⟩

/-- When `writei` returns `-1`. -/
def Dinode.RefusesWrite (x : Dinode) (off n : ℕ) : Prop :=
  x.size < off ∨ (off + n) % 4294967296 < off ∨ MAXFILE * BSIZE < off + n

instance (x : Dinode) (off n : ℕ) : Decidable (x.RefusesWrite off n) :=
  inferInstanceAs (Decidable (x.size < off ∨ (off + n) % 4294967296 < off ∨
    MAXFILE * BSIZE < off + n))

/-- What `writei` does when it writes: the size goes up if it has to, and the inode is
on disk then. -/
structure Disk.Wrote (N : ℕ → Dinode) (i : ℕ) (G : ℕ → ℕ → Byte → Byte) (d : Disk) (x : Dinode)
    (off n : ℕ) (d' : Disk) (x' : Dinode) : Prop where
  superblock : d'.superblock = d.superblock
  info : x' = { x with size := max x.size (off + n), addrs := x'.addrs }
  addrs : ∀ n, x.addrs n ≠ 0 → x'.addrs n = x.addrs n
  slot : ∀ k, d.slot x k ≠ 0 → d'.slot x' k = d.slot x k
  mapped : ∀ bn ∈ blocksOf off n, d'.slot x' bn ≠ 0
  only : ∀ k, k < MAXFILE → k ∉ blocksOf off n → d'.slot x' k = d.slot x k
  others : ∀ j, j ≠ i → d'.slot (N j) = d.slot (N j)
  data : ∀ j k, j ≠ i → d.slot (N j) k ≠ 0 → d'.block (d.slot (N j) k) = d.block (d.slot (N j) k)
  tidy : d'.Tidy (Function.update N i x')
  content : ∀ o, d'.content x' o = if o / BSIZE ∈ blocksOf off n
    then G (o / BSIZE) (o % BSIZE) (d.content x o) else d.content x o
  node : d'.node = if x.size < off + n then Function.update d.node i x' else d.node
  same : off + n ≤ x.size → (∀ bn ∈ blocksOf off n, d.slot x bn ≠ 0) → x' = x

namespace Disk.Wrote

variable {d' : Disk} {x' : Dinode}

/-- The size stays. -/
theorem of_writes (h : Disk.Writes N i G d x (blocksOf off n) d' x') (hle : off + n ≤ x.size) :
    Disk.Wrote N i G d x off n d' x' where
  superblock := h.superblock
  info := by
    rw [Nat.max_eq_left hle]
    exact h.info
  addrs := h.addrs
  slot := h.slot
  mapped := h.mapped
  only := h.only
  others := h.others
  data := h.data
  tidy := h.tidy
  content := h.content
  node := by rw [if_neg (Nat.not_lt.mpr hle), h.node]
  same _ := h.same

/-- The size goes up. -/
theorem of_grown (h : Disk.Writes N i G d x (blocksOf off n) d' x') (hlt : x.size < off + n)
    (hmax : off + n ≤ MAXFILE * BSIZE) (hi : 0 < i) (hin : i < d.ninodes) :
    Disk.Wrote N i G d x off n (d'.setDinode i { x' with size := off + n })
      { x' with size := off + n } := by
  have hsb := h.superblock
  have hin' : i < d'.ninodes := by rwa [Disk.ninodes, hsb]
  have hfits : Dinode.Fits { x' with size := off + n } := by
    have hx' := h.tidy.fits i
    rw [Function.update_self] at hx'
    refine { hx' with size := ?_ }
    unfold MAXFILE NDIRECT NINDIRECT BSIZE at hmax
    change off + n < 4294967296
    omega
  obtain ⟨htidy, hslot, hothers⟩ := h.tidy.setDinode (y := { x' with size := off + n }) hin' rfl rfl
    hfits hmax
  have hblock : ∀ k, d'.slot x' k ≠ 0 → (d'.setDinode i { x' with size := off + n }).block
      (d'.slot x' k) = d'.block (d'.slot x' k) := by
    intro k hk
    have htk := h.tidy.taken i k
    rw [Function.update_self] at htk
    exact Disk.block_setDinode hin' (htk hk).low
  refine { superblock := ?_, info := ?_, addrs := h.addrs, slot := ?_, mapped := ?_, only := ?_,
           others := ?_, data := ?_, tidy := htidy, content := ?_, node := ?_, same := ?_ }
  · rw [Disk.superblock_setDinode, hsb]
  · rw [Nat.max_eq_right hlt.le]
    have := h.info
    rw [this]
  · intro k hk
    rw [hslot]
    exact h.slot k hk
  · intro k hk
    rw [hslot]
    exact h.mapped k hk
  · intro k hk hkn
    rw [hslot]
    exact h.only k hk hkn
  · intro j hj
    rw [hothers j hj]
    exact h.others j hj
  · intro j k hj hk
    have htk := h.tidy.taken j k
    rw [Function.update_of_ne hj, h.others j hj] at htk
    rw [Disk.block_setDinode hin' (htk hk).low]
    exact h.data j k hj hk
  · intro o
    rw [← h.content o]
    have hcon : (d'.setDinode i { x' with size := off + n }).content { x' with size := off + n } =
        d'.content x' :=
      Disk.content_congr (fun k _ => by rw [hslot]) fun k _ hk => hblock k hk
    rw [hcon]
  · rw [if_pos hlt, Disk.node_setDinode hi hin' hfits, h.node]
  · intro hle
    omega

theorem type (h : Disk.Wrote N i G d x off n d' x') : x'.type = x.type := by rw [h.info]

theorem size (h : Disk.Wrote N i G d x off n d' x') : x'.size = max x.size (off + n) := by
  rw [h.info]

theorem content_other {j : ℕ} (h : Disk.Wrote N i G d x off n d' x') (hj : j ≠ i) :
    d'.content (N j) = d.content (N j) :=
  Disk.content_congr (fun k _ => by rw [h.others j hj]) fun k _ hk => h.data j k hj hk

theorem behind (h : Disk.Wrote N i G d x off n d' x') (hy : Disk.Behind (d.node i) x) :
    Disk.Behind (d'.node i) x' := by
  rw [h.node]
  by_cases hlt : x.size < off + n
  · rw [if_pos hlt, Function.update_self]
    exact .refl x'
  · rw [if_neg hlt]
    have hmax : max x.size (off + n) = x.size := Nat.max_eq_left (Nat.not_lt.mp hlt)
    have hinfo := h.info
    rw [hmax] at hinfo
    refine ⟨?_, fun k => ?_⟩
    · have := hy.info
      rw [this, hinfo]
    · rcases hy.addrs k with h0 | heq
      · exact .inl h0
      · by_cases hk : x.addrs k = 0
        · exact .inl (heq.trans hk)
        · exact .inr (heq.trans (h.addrs k hk).symm)

end Disk.Wrote

/-- What `writei` does. -/
theorem ends_writei (hfill : FillsBy p fill G) (htidy : d.Tidy (Function.update N i x))
    (hi : 0 < i) (hin : i < d.ninodes) (hinum : (s.icache ip).inum = i)
    (ht : x.type ≠ .free) (hdev : x.type ≠ .dev)
    (hroom : bad outOfBlocks → ¬ x.RefusesWrite off n → d.needs x (blocksOf off n) ≤ d.free) :
    Ends (.alone (fsRun p) bad) (fun r s' => ∃ d' x', s' = s.revise ip d' x' ∧
      if x.RefusesWrite off n then r = none ∧ d' = d ∧ x' = x
      else r = some n ∧ Disk.Wrote N i G d x off n d' x') (s.revise ip d x)
      (writei ip off n fill) := by
  refine ends_inode ?_
  rw [if_neg hdev]
  by_cases href : x.size < off ∨ (off + n) % 4294967296 < off
  · rw [if_pos href]
    have href' : x.RefusesWrite off n := href.elim .inl fun h => .inr (.inl h)
    exact ⟨d, x, rfl, (if_pos href').mpr ⟨rfl, rfl, rfl⟩⟩
  rw [if_neg href]
  by_cases hmax : MAXFILE * BSIZE < off + n
  · rw [if_pos hmax]
    have href' : x.RefusesWrite off n := .inr (.inr hmax)
    exact ⟨d, x, rfl, (if_pos href').mpr ⟨rfl, rfl, rfl⟩⟩
  rw [if_neg hmax]
  have hnot : ¬ x.RefusesWrite off n := fun h => h.elim (fun h => href (.inl h)) fun h =>
    h.elim (fun h => href (.inr h)) hmax
  have hlt : ∀ bn ∈ blocksOf off n, bn < MAXFILE := fun bn hbn => by
    obtain ⟨o, ho, hon, rfl⟩ := mem_blocksOf.mp hbn
    unfold BSIZE at *
    omega
  refine (ends_writeLoop hfill htidy ht (nodup_blocksOf ..) hlt fun hb => hroom hb hnot).bind ?_
  rintro _ _ ⟨d', x', rfl, hw⟩
  by_cases hgrow : 0 < n ∧ x.size < off + n
  · rw [if_pos hgrow]
    refine ends_setInode ?_
    refine Ends.bind (R := fun _ s' => s' = s.revise ip (d'.setDinode i { x' with size := off + n })
      { x' with size := off + n }) ?_ ?_
    · refine ends_op (fun _ => rfl) (ends_op (fun _ => rfl) (ends_last (fun _ => rfl) ?_))
      simp only [Files.revise, Function.update_self, hinum]
    · rintro _ _ rfl
      exact ⟨_, _, rfl, (if_neg hnot).mpr ⟨rfl, .of_grown hw hgrow.2 (Nat.not_lt.mp hmax) hi hin⟩⟩
  · rw [if_neg hgrow]
    refine ⟨d', x', rfl, (if_neg hnot).mpr ⟨rfl, .of_writes hw ?_⟩⟩
    have := fun h => hnot (.inl h)
    omega

end Writei

/-! ## Byte arrays -/

/-- Every block below the size is there. -/
def Disk.NoHoles (d : Disk) (x : Dinode) : Prop := ∀ k, k * BSIZE < x.size → d.slot x k ≠ 0

theorem Disk.Wrote.noHoles {N : ℕ → Dinode} {i off n : ℕ} {G : ℕ → ℕ → Byte → Byte} {d d' : Disk}
    {x x' : Dinode} (h : Disk.Wrote N i G d x off n d' x') (hx : d.NoHoles x) (hoff : off ≤ x.size) :
    d'.NoHoles x' := by
  intro k hk
  rw [h.size] at hk
  by_cases hlt : k * BSIZE < x.size
  · have hne := hx k hlt
    rwa [h.slot k hne]
  · refine h.mapped k (mem_blocksOf.mpr ⟨k * BSIZE, by omega, by omega, ?_⟩)
    unfold BSIZE
    omega

section ByteArray

variable {ι : Type} [DecidableEq ι] {p : ι} {s s' : Files ι} {ip : Fin NINODE}

/-- The bytes of a file. -/
def Files.bytes (s : Files ι) (i : ℕ) : ℕ → Byte := s.disk.content (s.node i)

/-- What `filewrite` has `writei` do with a block. -/
def writeSource (src : ℕ → Byte) (off n bn b : ℕ) : FsCode ι Unit :=
  ask (.writeData b (overlay src off n bn))

theorem fillsBy_writeSource (src : ℕ → Byte) (off n : ℕ) :
    FillsBy p (writeSource src off n) fun bn k y => overlay src off n bn (fun _ => y) k := by
  intro bad s bn b _
  exact ends_last (fun _ => rfl) rfl

/-- The bytes `src` are at `off`, and everything else is as before. -/
structure Written (s s' : Files ι) (ip : Fin NINODE) (off n : ℕ) (src : ℕ → Byte) : Prop where
  size : (s'.node (s.icache ip).inum).size = max (s.node (s.icache ip).inum).size (off + n)
  bytes : ∀ o, s'.bytes (s.icache ip).inum o =
    if off ≤ o ∧ o < off + n then src (o - off) else s.bytes (s.icache ip).inum o
  others : ∀ j, j ≠ (s.icache ip).inum → s'.node j = s.node j ∧ s'.bytes j = s.bytes j
  rest : s' = s.revise ip s'.disk (s'.icache ip).copy
  consistent : s'.Consistent
  noHoles : s.disk.NoHoles (s.node (s.icache ip).inum) →
    s'.disk.NoHoles (s'.node (s.icache ip).inum)

/-- Writing to one inode leaves the others alone. -/
theorem Disk.Wrote.node_other {N : ℕ → Dinode} {i j off n : ℕ} {G : ℕ → ℕ → Byte → Byte}
    {d d' : Disk} {x x' : Dinode} (h : Disk.Wrote N i G d x off n d' x') (hj : j ≠ i) :
    d'.node j = d.node j := by
  rw [h.node]
  split
  · exact Function.update_of_ne hj ..
  · rfl

omit [DecidableEq ι] in
/-- Writing keeps what the code relies on. -/
theorem Files.Consistent.wrote {off n : ℕ} {G : ℕ → ℕ → Byte → Byte} {d : Disk} {x : Dinode}
    (h : s.Consistent) (hip : s.Loaded ip)
    (hw : Disk.Wrote s.node (s.icache ip).inum G s.disk (s.icache ip).copy off n d x) :
    (s.revise ip d x).Consistent := by
  refine h.revise hip hw.superblock hw.tidy ?_ (fun j hj => hw.node_other hj)
    (hw.behind (h.behind ip hip.ref hip.valid))
  rw [hw.type]
  exact h.typed ip hip.ref hip.valid

omit [DecidableEq ι] in
theorem written_of_wrote {off n : ℕ} {src : ℕ → Byte} {d : Disk} {x : Dinode} (h : s.Consistent)
    (hip : s.Loaded ip) (href : ¬ (s.icache ip).copy.RefusesWrite off n)
    (hw : Disk.Wrote s.node (s.icache ip).inum
      (fun bn k y => overlay src off n bn (fun _ => y) k) s.disk (s.icache ip).copy off n d x) :
    Written s (s.revise ip d x) ip off n src := by
  have hnode : (s.revise ip d x).node = Function.update s.node (s.icache ip).inum x :=
    h.node_revise hip fun j hj => hw.node_other hj
  have hself : (s.revise ip d x).node (s.icache ip).inum = x := by
    rw [hnode, Function.update_self]
  have hcopy := h.node_of_loaded hip
  refine ⟨?_, fun o => ?_, fun j hj => ?_, ?_, ?_, fun hholes => ?_⟩
  · rw [hself, hcopy, hw.size]
  · have hcon := hw.content o
    rw [Files.bytes, Files.bytes, hself, hcopy]
    change d.content x o = _
    rw [hcon]
    have hdiv : o / BSIZE * BSIZE + o % BSIZE = o := Nat.div_add_mod' o BSIZE
    have hmod : o % BSIZE < BSIZE := Nat.mod_lt _ (by decide)
    by_cases ho : off ≤ o ∧ o < off + n
    · have hmem : o / BSIZE ∈ blocksOf off n := mem_blocksOf.mpr ⟨o, ho.1, ho.2, rfl⟩
      rw [if_pos hmem, if_pos ho, overlay, hdiv, if_pos ⟨hmod, ho⟩]
    · have hout : overlay src off n (o / BSIZE) (fun _ => s.disk.content (s.icache ip).copy o)
          (o % BSIZE) = s.disk.content (s.icache ip).copy o := by
        rw [overlay, hdiv]
        exact if_neg fun hin => ho hin.2
      rw [if_neg ho, hout, ite_self]
  · have hne : (s.revise ip d x).node j = s.node j := by rw [hnode, Function.update_of_ne hj]
    exact ⟨hne, by rw [Files.bytes, Files.bytes, hne]; exact hw.content_other hj⟩
  · rw [Files.revise_icache_self]
    rfl
  · exact h.wrote hip hw
  · rw [hself]
    rw [hcopy] at hholes
    exact hw.noHoles hholes (Nat.not_lt.mp fun hlt => href (.inl hlt))

/-- How many blocks `writei` allocates. -/
def Files.needs (s : Files ι) (ip : Fin NINODE) (off n : ℕ) : ℕ :=
  s.disk.needs (s.icache ip).copy (blocksOf off n)

/-- What `writei` comes to: `-1` and nothing else, or the bytes are written; it ends in a
panic only if there are not enough blocks. -/
def WritesBytes (p : ι) (s : Files ι) (ip : Fin NINODE) (off n : ℕ) (src : ℕ → Byte)
    (ns : List ℕ) : Prop :=
  match (writei ip off n (writeSource src off n)).exec (fsRun p) ns s with
  | .ok (r, _, s') =>
    if (s.icache ip).copy.RefusesWrite off n then r = none ∧ s' = s
    else r = some n ∧ Written s s' ip off n src
  | .error e => e = outOfBlocks ∧ s.disk.free < s.needs ip off n

/-- What `readi` comes to: the bytes that are there, or `-1`, and nothing changes. -/
def ReadsBytes (p : ι) (s : Files ι) (ip : Fin NINODE) (off n : ℕ) (ns : List ℕ) : Prop :=
  match (readi ip off n).exec (fsRun p) ns s with
  | .ok (r, _, s') => s' = s ∧
    if (s.icache ip).copy.RefusesRead off n then r = none
    else ∃ blocks, r = some (min n ((s.icache ip).copy.size - off), blocks) ∧
      copied s.disk off (min n ((s.icache ip).copy.size - off)) blocks =
        (List.range (min n ((s.icache ip).copy.size - off))).map fun k =>
          s.bytes (s.icache ip).inum (off + k)
  | .error _ => False

end ByteArray

/-! ## A small disk -/

/-- An empty disk of `size` blocks, the first four of which are in use. -/
def blankDisk (size : ℕ) : Disk where
  block b :=
    if b = 1 then Superblock.bytes ⟨size, 0, 2, 0⟩ else if b = 3 then fillBits 4 else fun _ => 0#8

/-- The same with an inode, which is cached and locked. -/
def tinyFiles (size : ℕ) (x : Dinode) : Files Unit where
  disk := (blankDisk size).setDinode 1 x
  icache := Function.update (fun _ => {}) ⟨0, NINODE_pos⟩
    { dev := ROOTDEV, inum := 1, ref := 1, busy := true, valid := true, copy := x }
  ftable := fun _ => {}
  pages := fun _ => none
  procs := fun _ => {}

section Tiny

variable {size : ℕ} {x : Dinode}

theorem superblock_blankDisk (hsize : size < 4294967296) :
    (blankDisk size).superblock = ⟨size, 0, 2, 0⟩ := by
  have hbytes : (blankDisk size).block 1 = Superblock.bytes ⟨size, 0, 2, 0⟩ := rfl
  rw [Disk.superblock_of_bytes hbytes, Nat.mod_eq_of_lt hsize]
  rfl

theorem node_blankDisk (hsize : size < 4294967296) (i : ℕ) : (blankDisk size).node i = {} := by
  have hn : (blankDisk size).ninodes = 2 := congrArg Superblock.ninodes (superblock_blankDisk hsize)
  unfold Disk.node
  rw [hn]
  split
  · next hi =>
    obtain rfl : i = 1 := by omega
    exact Mkfs.dinodeAt_zero _
  · rfl

theorem used_blankDisk {b : ℕ} (hb : b < BPB) : (blankDisk size).used 2 b = decide (b < 4) := by
  have hblock : BBLOCK b 2 = 3 := by
    rw [BBLOCK, Nat.div_eq_of_lt hb]
    rfl
  rw [Disk.used, hblock, Nat.mod_eq_of_lt hb]
  exact testBit_fillBits

theorem Disk.slot_eq_zero {d : Disk} (haddrs : ∀ n, x.addrs n = 0) (k : ℕ) : d.slot x k = 0 := by
  simp only [Disk.slot, haddrs, if_true, ite_self]

theorem tinyFiles_icache_of_ne {ip : Fin NINODE} (h : ip ≠ ⟨0, by decide⟩) :
    (tinyFiles size x).icache ip = {} := by
  change Function.update (fun _ => ({} : Inode)) _ _ ip = _
  rw [Function.update_of_ne h]

theorem tinyFiles_ref {ip : Fin NINODE} (h : 0 < ((tinyFiles size x).icache ip).ref) :
    ip = ⟨0, by decide⟩ := by
  by_contra hne
  rw [tinyFiles_icache_of_ne hne] at h
  exact absurd h (by decide)

theorem tinyFiles_icache : (tinyFiles size x).icache ⟨0, by decide⟩ =
    { dev := ROOTDEV, inum := 1, ref := 1, busy := true, valid := true, copy := x } := rfl

theorem ninodes_tinyFiles (hsize : size < BPB) : (tinyFiles size x).disk.ninodes = 2 := by
  have hsb : (tinyFiles size x).disk.superblock = ⟨size, 0, 2, 0⟩ :=
    Disk.superblock_setDinode.trans (superblock_blankDisk (hsize.trans (by decide)))
  rw [Disk.ninodes, hsb]

theorem node_tinyFiles (hsize : size < BPB) (hfits : x.Fits) :
    (tinyFiles size x).disk.node = Function.update (fun _ => {}) 1 x ∧
      (tinyFiles size x).node = Function.update (fun _ => {}) 1 x := by
  have hsize' : size < 4294967296 := hsize.trans (by decide)
  have hn : (blankDisk size).ninodes = 2 := congrArg Superblock.ninodes (superblock_blankDisk hsize')
  have hdisk : (tinyFiles size x).disk.node = Function.update (fun _ => {}) 1 x := by
    have hset : (tinyFiles size x).disk.node = Function.update (blankDisk size).node 1 x :=
      Disk.node_setDinode (by decide) (by rw [hn]; decide) hfits
    rw [hset, funext (node_blankDisk hsize')]
  refine ⟨hdisk, funext fun i => ?_⟩
  unfold Files.node
  cases hc : (tinyFiles size x).cached i with
  | none => rw [hdisk]
  | some ip =>
    obtain ⟨hip, hinum⟩ := Files.cached_eq_some hc
    obtain rfl := tinyFiles_ref hip.ref
    obtain rfl : 1 = i := hinum
    rw [Function.update_self]
    rfl

/-- An inode without blocks. -/
theorem consistent_tinyFiles (hlow : 4 ≤ size) (hsize : size < BPB) (hfits : x.Fits)
    (ht : x.type ≠ .free) (hx : x.size ≤ MAXFILE * BSIZE) (haddrs : ∀ n, x.addrs n = 0) :
    (tinyFiles size x).Consistent := by
  have hn := ninodes_tinyFiles (x := x) hsize
  obtain ⟨hdisk, hnode⟩ := node_tinyFiles hsize hfits
  have hzero : ∀ i k, (tinyFiles size x).disk.slot ((tinyFiles size x).node i) k = 0 := by
    intro i k
    rw [hnode, Function.update_apply]
    split
    · exact Disk.slot_eq_zero haddrs k
    · exact Disk.slot_free rfl
  refine ⟨⟨fun a b ha => absurd (hzero a.1 a.2) ha, fun i k hk => absurd (hzero i k) hk, ?_, ?_, ?_⟩,
    ?_, ?_, ?_, ?_, ?_⟩
  · intro b hb
    have hstart : (tinyFiles size x).disk.superblock.dataStart = 4 := by
      have hsb : (tinyFiles size x).disk.superblock = ⟨size, 0, 2, 0⟩ :=
        Disk.superblock_setDinode.trans (superblock_blankDisk (hsize.trans (by decide)))
      rw [hsb, Superblock.dataStart]
      simp only [Nat.div_eq_of_lt hsize]
      rfl
    rw [hstart] at hb
    rw [hn]
    have hne : IBLOCK 1 ≠ BBLOCK b 2 := by
      unfold BBLOCK IBLOCK BPB IPB BSIZE DINODE
      omega
    have hlt : b < BPB := by omega
    rw [show (tinyFiles size x).disk.used 2 b = (blankDisk size).used 2 b from Disk.used_put hne,
      used_blankDisk hlt, decide_eq_true hb]
  · intro i
    rw [hnode, Function.update_apply]
    split
    · exact hfits
    · exact ⟨by decide, by decide, rfl, by decide, fun _ => Nat.zero_lt_succ _, fun _ _ => rfl⟩
  · intro i
    rw [hnode, Function.update_apply]
    split
    · exact hx
    · exact Nat.zero_le _
  · intro ip
    by_cases hip : ip = ⟨0, by decide⟩
    · rw [hip, tinyFiles_icache]
      exact Int.zero_le_ofNat 1
    · rw [tinyFiles_icache_of_ne hip]
  · intro ip jp hip hjp _
    rw [tinyFiles_ref hip, tinyFiles_ref hjp]
  · intro ip hip
    rw [tinyFiles_ref hip, tinyFiles_icache, hn]
    exact ⟨rfl, Nat.one_pos, Nat.one_lt_two⟩
  · intro ip hip _
    rw [tinyFiles_ref hip, tinyFiles_icache]
    exact ht
  · intro ip hip _
    rw [tinyFiles_ref hip, tinyFiles_icache, hdisk]
    exact .refl x

end Tiny

/-- An empty file. -/
def blankFile : Dinode := { type := .file, nlink := 1 }

theorem blankFile_fits : blankFile.Fits :=
  ⟨by decide, by decide, by decide, by decide, fun _ => Nat.zero_lt_succ _, fun _ _ => rfl⟩

end StrideXv6
