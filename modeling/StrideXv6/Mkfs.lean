import StrideXv6.Blocks
import StrideXv6.Buffer

/-!
# Making a file system (`mkfs.c`)

`mkfs` writes the image the kernel boots from: a superblock, the inodes of the
root directory and of the files it is given, their blocks, and the bitmap. It
allocates blocks in order, so what is written is *sound* at any time: every block
named by an inode is below `freeblock`, and none is named twice.

The program gives up (`none`) if an assertion fails or a sector cannot be read.
-/

namespace StrideXv6

open Bytes

/-! ## The program -/

def NINODES : ℕ := 200

/-- The state of `mkfs`: the image, and what is free. -/
structure Mkfs : Type where
  disk : Disk
  freeinode : ℕ
  freeblock : ℕ

namespace Mkfs

def nbitmap : ℕ := FSSIZE / (BSIZE * 8) + 1

def ninodeblocks : ℕ := NINODES / IPB + 1

def nlog : ℕ := LOGSIZE

/-- Number of meta blocks (inode, bitmap, and 2 extra). -/
def nmeta : ℕ := 2 + ninodeblocks + nbitmap

/-- Number of data blocks. -/
def nblocks : ℕ := FSSIZE - nlog - nmeta

def sb : Superblock where
  size := FSSIZE
  nblocks := nblocks
  ninodes := NINODES
  nlog := nlog

/-- The sector at the offset `sec * BSIZE`, which is a 32-bit number. -/
def sector (sec : ℕ) : ℕ := sec * BSIZE % 4294967296 / BSIZE

/-- `rsect`: there is nothing to read behind the end of the image. -/
def rsect (m : Mkfs) (sec : ℕ) : Option (ℕ → Byte) :=
  if sector sec < FSSIZE then some (m.disk.block (sector sec)) else none

/-- `wsect`. -/
def wsect (m : Mkfs) (sec : ℕ) (buf : ℕ → Byte) : Mkfs :=
  { m with disk := m.disk.put (sector sec) buf }

/-- `winode`. -/
def winode (m : Mkfs) (inum : ℕ) (x : Dinode) : Option Mkfs := do
  let buf ← m.rsect (IBLOCK inum)
  return m.wsect (IBLOCK inum) (splice buf (inum % IPB * DINODE) DINODE x.bytes)

/-- `rinode`. -/
def rinode (m : Mkfs) (inum : ℕ) : Option Dinode := do
  let buf ← m.rsect (IBLOCK inum)
  return dinodeAt buf (inum % IPB * DINODE)

/-- `ialloc`. -/
def ialloc (m : Mkfs) (type : IType) : Option (Mkfs × ℕ) := do
  let inum := m.freeinode
  let m ← { m with freeinode := m.freeinode + 1 }.winode inum { type := type, nlink := 1 }
  return (m, inum)

/-- Take the next block. -/
def nextBlock (m : Mkfs) : Mkfs := { m with freeblock := m.freeblock + 1 }

/-- Allocate the indirect block, if it is not there. -/
def indirectFor (m : Mkfs) (din : Dinode) : Mkfs × Dinode :=
  if din.addrs NDIRECT = 0 then
    (m.nextBlock, { din with addrs := Function.update din.addrs NDIRECT m.freeblock })
  else (m, din)

/-- The block for the data from `fbn * BSIZE` on, in the loop of `iappend`. -/
def blockFor (m : Mkfs) (din : Dinode) (fbn : ℕ) : Option (Mkfs × Dinode × ℕ) :=
  if fbn < NDIRECT then
    if din.addrs fbn = 0 then
      some (m.nextBlock, { din with addrs := Function.update din.addrs fbn m.freeblock }, m.freeblock)
    else some (m, din, din.addrs fbn)
  else do
    let (m, din) := m.indirectFor din
    let indirect ← m.rsect (din.addrs NDIRECT)
    if word indirect (4 * (fbn - NDIRECT)) = 0 then
      let indirect := splice indirect (4 * (fbn - NDIRECT)) 4 (byte m.freeblock)
      return (m.nextBlock.wsect (din.addrs NDIRECT) indirect, din, m.freeblock)
    else return (m, din, word indirect (4 * (fbn - NDIRECT)))

/-- The loop of `iappend`; each turn takes a byte at least. -/
def appendLoop : ℕ → Mkfs → Dinode → ℕ → List Byte → Option (Mkfs × Dinode × ℕ)
  | 0, m, din, off, _ => some (m, din, off)
  | fuel + 1, m, din, off, p =>
    if p = [] then some (m, din, off)
    else
      let fbn := off / BSIZE
      if fbn ≥ MAXFILE then none
      else do
        let (m, din, x) ← m.blockFor din fbn
        let n1 := min p.length ((fbn + 1) * BSIZE - off)
        let buf ← m.rsect x
        let m := m.wsect x (splice buf (off - fbn * BSIZE) n1 fun k => p.getD k 0#8)
        appendLoop fuel m din (off + n1) (p.drop n1)

/-- `iappend`. -/
def iappend (m : Mkfs) (inum : ℕ) (p : List Byte) : Option Mkfs := do
  let din ← m.rinode inum
  let (m, din, off) ← appendLoop p.length m din din.size p
  m.winode inum { din with size := off }

/-- A directory entry, as data. -/
def entry (de : Dirent) : List Byte := (List.range DIRENT).map de.bytes

/-- The loop that copies a file, a block at a time. -/
def copyLoop : ℕ → Mkfs → ℕ → List Byte → Option Mkfs
  | 0, m, _, _ => some m
  | fuel + 1, m, inum, data =>
    if data = [] then some m
    else do
      let m ← m.iappend inum (data.take BSIZE)
      copyLoop fuel m inum (data.drop BSIZE)

/-- The name of a file: a leading `_` is skipped. -/
def fileName (arg : List Byte) : Name := if arg.head? = some 95#8 then arg.tail else arg

/-- The loop of `main` over the files. -/
def addFile (m : Mkfs) (file : List Byte × List Byte) : Option Mkfs := do
  if 47#8 ∈ file.1 then none
  else
    let (m, inum) ← m.ialloc .file
    let m ← m.iappend ROOTINO (entry ⟨inum, fileName file.1⟩)
    copyLoop file.2.length m inum file.2

/-- `balloc`: the bitmap. -/
def balloc (m : Mkfs) (used : ℕ) : Option Mkfs :=
  if used < BSIZE * 8 then some (m.wsect (ninodeblocks + 2) (fillBits used)) else none

/-- The empty image with its superblock. -/
def start : Mkfs where
  disk := Disk.put ⟨fun _ _ => 0#8⟩ 1 sb.bytes
  freeinode := 1
  freeblock := nmeta

/-- The root directory. -/
def root : Option Mkfs := do
  let (m, rootino) ← start.ialloc .dir
  if rootino ≠ ROOTINO then none
  else
    let m ← m.iappend rootino (entry ⟨rootino, [46#8]⟩)
    m.iappend rootino (entry ⟨rootino, [46#8, 46#8]⟩)

/-- The end of `main`: the size of the root directory is fixed. -/
def finish (m : Mkfs) : Option Mkfs := do
  let din ← m.rinode ROOTINO
  let m ← m.winode ROOTINO { din with size := (din.size / BSIZE + 1) * BSIZE }
  m.balloc m.freeblock

end Mkfs

/-- `main`, with the names and the contents of the files. -/
def mkfs (files : List (List Byte × List Byte)) : Option Mkfs := do
  let m ← Mkfs.root
  let m ← files.foldlM Mkfs.addFile m
  m.finish

namespace Mkfs

/-! ## Blocks are allocated once -/

variable {m m' : Mkfs} {node : ℕ → Dinode} {i j k b : ℕ} {din din' : Dinode}

theorem sector_eq (h : b ≤ FSSIZE + 1) : sector b = b := by
  unfold sector BSIZE
  unfold FSSIZE at h
  omega

/-- The superblock is in place, and the blocks of the inodes have been allocated,
each of them once. -/
structure Sound (m : Mkfs) (node : ℕ → Dinode) : Prop where
  sb : m.disk.superblock = sb
  low : nmeta ≤ m.freeblock
  zero : ∀ b, m.freeblock ≤ b → ∀ o, m.disk.block b o = 0#8
  apart : Apart fun a : ℕ × ℕ => m.disk.slot (node a.1) a.2
  range : ∀ i k, m.disk.slot (node i) k ≠ 0 →
    nmeta ≤ m.disk.slot (node i) k ∧ m.disk.slot (node i) k < m.freeblock

namespace Sound

theorem slot_ne (h : Sound m node) (hne : m.disk.slot (node i) k ≠ 0) (hj : (j, b) ≠ (i, k)) :
    m.disk.slot (node j) b ≠ m.disk.slot (node i) k :=
  fun he => hj (h.apart (i, k) (j, b) hne he.symm).symm

theorem slot_lt (h : Sound m node) (i k : ℕ) : m.disk.slot (node i) k < m.freeblock := by
  by_cases hne : m.disk.slot (node i) k = 0
  · have := h.low
    rw [hne]
    unfold nmeta at this
    omega
  · exact (h.range i k hne).2

/-- The next block is put into a slot. -/
theorem take {d : Disk} {node' : ℕ → Dinode} (h : Sound m node)
    (hsb : d.superblock = m.disk.superblock)
    (hzero : ∀ b, m.freeblock ≤ b → d.block b = m.disk.block b)
    (hslot : ∀ j l, d.slot (node' j) l = if j = i ∧ l = k then m.freeblock
      else m.disk.slot (node j) l) :
    Sound ⟨d, m.freeinode, m.freeblock + 1⟩ node' where
  sb := hsb.trans h.sb
  low := Nat.le_succ_of_le h.low
  zero b hb o := by
    change m.freeblock + 1 ≤ b at hb
    rw [hzero b (by omega)]
    exact h.zero b (by omega) o
  apart := by
    have heq : (fun a : ℕ × ℕ => d.slot (node' a.1) a.2) =
        Function.update (fun a : ℕ × ℕ => m.disk.slot (node a.1) a.2) (i, k) m.freeblock := by
      funext a
      rw [hslot, Function.update_apply]
      simp only [Prod.ext_iff]
    change Apart fun a : ℕ × ℕ => d.slot (node' a.1) a.2
    rw [heq]
    exact h.apart.update fun c => (h.slot_lt c.1 c.2).ne
  range j l hjl := by
    change d.slot (node' j) l ≠ 0 at hjl
    change nmeta ≤ d.slot (node' j) l ∧ d.slot (node' j) l < m.freeblock + 1
    rw [hslot] at hjl ⊢
    split at hjl
    · next he =>
      rw [if_pos he]
      exact ⟨h.low, Nat.lt_succ_self _⟩
    · next he =>
      rw [if_neg he]
      have := h.range j l hjl
      omega

/-- A block of the inode `i` is written: the slots of the other inodes are as they were. -/
theorem put_other {f : ℕ → Byte} (h : Sound m node) (hne : m.disk.slot (node i) k ≠ 0) (hj : j ≠ i) :
    (m.disk.put (m.disk.slot (node i) k) f).slot (node j) = m.disk.slot (node j) :=
  funext fun _ => Disk.slot_put (h.slot_ne hne fun he => hj (congrArg Prod.fst he))

/-- A block with data is written. -/
theorem put_data {f : ℕ → Byte} (h : Sound m node) (hk : k < MAXFILE)
    (hne : m.disk.slot (node i) k ≠ 0) :
    Sound { m with disk := m.disk.put (m.disk.slot (node i) k) f } node := by
  have hslot : ∀ j l, (m.disk.put (m.disk.slot (node i) k) f).slot (node j) l =
      m.disk.slot (node j) l := fun j l =>
    Disk.slot_put (h.slot_ne hne fun he => by cases he; exact absurd hk (lt_irrefl _))
  have hrange := h.range i k hne
  refine ⟨?_, h.low, fun b hb o => ?_, ?_, fun j l => ?_⟩
  · have h1 : m.disk.slot (node i) k ≠ 1 := by
      intro he
      rw [he] at hrange
      exact absurd hrange.1 (by decide)
    exact (Disk.superblock_put h1).trans h.sb
  · change m.freeblock ≤ b at hb
    change (m.disk.put _ f).block b o = 0#8
    rw [Disk.put_block, if_neg (by omega)]
    exact h.zero b hb o
  · change Apart fun a : ℕ × ℕ => (m.disk.put _ f).slot (node a.1) a.2
    simp only [hslot]
    exact h.apart
  · change (m.disk.put _ f).slot (node j) l ≠ 0 → nmeta ≤ (m.disk.put _ f).slot (node j) l ∧
      (m.disk.put _ f).slot (node j) l < m.freeblock
    rw [hslot]
    exact h.range j l

end Sound

/-- Data is added to inode `i`: from the inode `x` we come to `x'`. -/
structure Extends (node : ℕ → Dinode) (i : ℕ) (m : Mkfs) (x : Dinode) (m' : Mkfs) (x' : Dinode) :
    Prop where
  sound : Sound m' (Function.update node i x')
  /-- only data blocks are written -/
  low : ∀ b, b < nmeta → m'.disk.block b = m.disk.block b
  freeinode : m'.freeinode = m.freeinode
  type : x'.type = x.type
  fits : x.Fits → x'.Fits

namespace Extends

variable {m₁ m₂ m₃ : Mkfs} {x₁ x₂ x₃ : Dinode}

theorem refl (h : Sound m (Function.update node i din)) : Extends node i m din m din :=
  ⟨h, fun _ _ => rfl, rfl, rfl, fun h => h⟩

theorem trans (h : Extends node i m₁ x₁ m₂ x₂) (h' : Extends node i m₂ x₂ m₃ x₃) :
    Extends node i m₁ x₁ m₃ x₃ where
  sound := h'.sound
  low b hb := (h'.low b hb).trans (h.low b hb)
  freeinode := h'.freeinode.trans h.freeinode
  type := h'.type.trans h.type
  fits hx := h'.fits (h.fits hx)

/-- A new block in a slot. -/
theorem take {d : Disk} {addrs : ℕ → ℕ} (h : Sound m (Function.update node i din))
    (hlow : ∀ b, b < nmeta → d.block b = m.disk.block b)
    (hzero : ∀ b, m.freeblock ≤ b → d.block b = m.disk.block b)
    (hself : d.slot { din with addrs := addrs } = Function.update (m.disk.slot din) k m.freeblock)
    (hother : ∀ j, j ≠ i → d.slot (node j) = m.disk.slot (node j))
    (hfits : din.Fits → Dinode.Fits { din with addrs := addrs }) :
    Extends node i m din ⟨d, m.freeinode, m.freeblock + 1⟩ { din with addrs := addrs } where
  sound := by
    have hsb : d.superblock = m.disk.superblock := by
      simp only [Disk.superblock, hlow 1 (by decide)]
    refine h.take (i := i) (k := k) hsb hzero fun j l => ?_
    by_cases hj : j = i
    · subst hj
      rw [Function.update_self, Function.update_self, hself, Function.update_apply]
      simp only [true_and]
    · rw [Function.update_of_ne hj, Function.update_of_ne hj, hother j hj,
        if_neg fun he => hj he.1]
  low := hlow
  freeinode := rfl
  type := rfl
  fits := hfits

end Extends

section BlockFor

variable {fbn x : ℕ} (h : Sound m (Function.update node i din)) (ht : din.type ≠ .free)
  (hhigh : m.freeblock ≤ FSSIZE)

include h ht hhigh

theorem addDirect (hk : k < NDIRECT) :
    Extends node i m din m.nextBlock
      { din with addrs := Function.update din.addrs k m.freeblock } := by
  have hself := Disk.slot_setDirect (d := m.disk) (a := m.freeblock) ht hk
  refine Extends.take h (fun _ _ => rfl) (fun _ _ => rfl) hself (fun _ _ => rfl)
    fun hx => hx.setAddr hk.le ?_
  unfold FSSIZE at hhigh
  omega

theorem addIndirect (h0 : din.addrs NDIRECT = 0) :
    Extends node i m din m.nextBlock
      { din with addrs := Function.update din.addrs NDIRECT m.freeblock } := by
  have hzero : ∀ i, m.disk.addr m.freeblock i = 0 := by
    intro i
    unfold Disk.addr word half
    simp only [h.zero _ le_rfl]
    rfl
  have hself := Disk.slot_setIndirect (d := m.disk) ht h0 hzero
  refine Extends.take h (fun _ _ => rfl) (fun _ _ => rfl) hself (fun _ _ => rfl)
    fun hx => hx.setAddr le_rfl ?_
  unfold FSSIZE at hhigh
  omega

theorem addEntry (hk : k < NINDIRECT) (hx : din.addrs NDIRECT ≠ 0) :
    Extends node i m din
      ⟨m.disk.setAddr (din.addrs NDIRECT) k m.freeblock, m.freeinode, m.freeblock + 1⟩ din := by
  have hlt : m.freeblock < 4294967296 := by
    unfold FSSIZE at hhigh
    omega
  have hself := Disk.slot_setAddr (d := m.disk) (a := m.freeblock) ht hx hk hlt
  -- the indirect block is the last slot of the inode
  have hind : m.disk.slot (Function.update node i din i) MAXFILE = din.addrs NDIRECT := by
    rw [Function.update_self, Disk.slot_indirect ht]
  have hne : m.disk.slot (Function.update node i din i) MAXFILE ≠ 0 := hind ▸ hx
  have hrange := h.range i MAXFILE hne
  have hother := fun j (hj : j ≠ i) => h.put_other (j := j)
    (f := splice (m.disk.block (din.addrs NDIRECT)) (4 * k) 4 (byte m.freeblock)) hne hj
  rw [hind] at hrange hother
  have hblock : ∀ b, b ≠ din.addrs NDIRECT →
      (m.disk.setAddr (din.addrs NDIRECT) k m.freeblock).block b = m.disk.block b := fun b hb => by
    rw [Disk.setAddr, Disk.put_block, if_neg hb]
  refine Extends.take h (fun b hb => hblock b (by omega)) (fun b hb => hblock b (by omega)) hself
    (fun j hj => ?_) fun hx => hx
  have := hother j hj
  rwa [Function.update_of_ne hj] at this

theorem indirectFor_eq (hb : m.indirectFor din = (m', din')) :
    Extends node i m din m' din' ∧ din'.addrs NDIRECT ≠ 0 ∧ din'.type ≠ .free ∧ m'.freeblock ≤ FSSIZE + 1 ∧
      (din'.addrs NDIRECT < FSSIZE → m'.freeblock ≤ FSSIZE) := by
  unfold indirectFor at hb
  split at hb
  · next h0 =>
    cases hb
    refine ⟨addIndirect h ht hhigh h0, ?_, ht, Nat.succ_le_succ hhigh, ?_⟩ <;>
      simp only [Function.update_self]
    · have := h.low
      unfold nmeta at this
      omega
    · exact fun hx => hx
  · next hne =>
    cases hb
    exact ⟨.refl h, hne, ht, Nat.le_succ_of_le hhigh, fun _ => hhigh⟩

/-- The block for the data is in its slot. -/
theorem blockFor_eq_some (hfbn : fbn < MAXFILE) (hb : m.blockFor din fbn = some (m', din', x)) :
    Extends node i m din m' din' ∧ m'.disk.slot din' fbn = x ∧ x ≠ 0 ∧ m'.freeblock ≤ FSSIZE + 1 ∧
      (x < FSSIZE → m'.freeblock ≤ FSSIZE) := by
  have hpos : ∀ {m : Mkfs} {node : ℕ → Dinode}, Sound m node → m.freeblock ≠ 0 := fun h => by
    have := h.low
    unfold nmeta at this
    omega
  unfold blockFor at hb
  split at hb
  · next hdirect =>
    split at hb
    · cases hb
      refine ⟨addDirect h ht hhigh hdirect, ?_, hpos h, Nat.succ_le_succ hhigh, fun hx => hx⟩
      change m.disk.slot { din with addrs := Function.update din.addrs fbn m.freeblock } fbn = _
      rw [Disk.slot_setDirect ht hdirect, Function.update_self]
    · next hne =>
      cases hb
      exact ⟨.refl h, Disk.slot_direct ht hdirect, hne, Nat.le_succ_of_le hhigh,
        fun _ => hhigh⟩
  · next hdirect =>
    cases hind : m.indirectFor din with
    | mk m₁ din₁ =>
    rw [hind] at hb
    obtain ⟨hext, hne, ht₁, hend, hhigh₁⟩ := indirectFor_eq h ht hhigh hind
    obtain ⟨k, rfl⟩ : ∃ k, fbn = NDIRECT + k := ⟨fbn - NDIRECT, by omega⟩
    have hk : k < NINDIRECT := by
      unfold MAXFILE at hfbn
      omega
    have hsector : sector (din₁.addrs NDIRECT) = din₁.addrs NDIRECT := by
      have hlt := hext.sound.slot_lt i MAXFILE
      rw [Function.update_self, Disk.slot_indirect ht₁] at hlt
      exact sector_eq (by omega)
    obtain ⟨indirect, hread, hb⟩ := Option.bind_eq_some_iff.mp hb
    rw [rsect, hsector] at hread
    split at hread
    · next hlt =>
      cases hread
      rw [Nat.add_sub_cancel_left] at hb
      split at hb
      · cases hb
        have hext' := addEntry hext.sound ht₁ (hhigh₁ hlt) hk hne
        have hwrite : m₁.nextBlock.wsect (din'.addrs NDIRECT)
            (splice (m₁.disk.block (din'.addrs NDIRECT)) (4 * k) 4 (byte m₁.freeblock)) =
              ⟨m₁.disk.setAddr (din'.addrs NDIRECT) k m₁.freeblock, m₁.freeinode,
                m₁.freeblock + 1⟩ := by
          rw [wsect, hsector]
          rfl
        rw [hwrite]
        refine ⟨hext.trans hext', ?_, hpos hext.sound,
          Nat.succ_le_succ (hhigh₁ hlt), fun hx => hx⟩
        have hlt32 : m₁.freeblock < 4294967296 := by
          unfold FSSIZE at hend
          omega
        change (m₁.disk.setAddr (din'.addrs NDIRECT) k m₁.freeblock).slot din' (NDIRECT + k) = _
        rw [Disk.slot_setAddr ht₁ hne hk hlt32, Function.update_self]
      · next hne' =>
        cases hb
        refine ⟨hext, ?_, hne', hend, fun _ => hhigh₁ hlt⟩
        exact Disk.slot_entry ht₁ hk hne
    · cases hread

end BlockFor

/-- Data is written to a block of the file. -/
theorem Extends.put_data {f : ℕ → Byte} (h : Sound m (Function.update node i din))
    (hk : k < MAXFILE) (hne : m.disk.slot din k ≠ 0) :
    Extends node i m din { m with disk := m.disk.put (m.disk.slot din k) f } din := by
  have hself : m.disk.slot (Function.update node i din i) k = m.disk.slot din k := by
    rw [Function.update_self]
  have hne' : m.disk.slot (Function.update node i din i) k ≠ 0 := hself ▸ hne
  have hsound := h.put_data (f := f) hk hne'
  have hrange := h.range i k hne'
  rw [hself] at hsound hrange
  refine ⟨hsound, fun b hb => ?_, rfl, rfl, fun hx => hx⟩
  change (m.disk.put _ f).block b = _
  rw [Disk.put_block, if_neg (by omega)]

/-- The loop takes new blocks only, and no more than there are. -/
theorem appendLoop_eq_some {fuel : ℕ} :
    ∀ {m m' : Mkfs} {din din' : Dinode} {off off' : ℕ} {p : List Byte},
      Sound m (Function.update node i din) → din.type ≠ .free → m.freeblock ≤ FSSIZE →
      off ≤ MAXFILE * BSIZE → p.length ≤ fuel →
      appendLoop fuel m din off p = some (m', din', off') →
      Extends node i m din m' din' ∧ m'.freeblock ≤ FSSIZE ∧ off' = off + p.length ∧
        off' ≤ MAXFILE * BSIZE := by
  induction fuel with
  | zero =>
    intro m m' din din' off off' p h ht hhigh hoff hfuel hl
    obtain rfl : p = [] := List.eq_nil_of_length_eq_zero (Nat.le_zero.mp hfuel)
    cases hl
    exact ⟨.refl h, hhigh, rfl, hoff⟩
  | succ fuel ih =>
    intro m m' din din' off off' p h ht hhigh hoff hfuel hl
    unfold appendLoop at hl
    split at hl
    · next hp =>
      cases hl
      subst hp
      exact ⟨.refl h, hhigh, rfl, hoff⟩
    next hp =>
    dsimp only at hl
    split at hl
    · cases hl
    next hfbn =>
    rw [Nat.not_le] at hfbn
    obtain ⟨⟨m₁, din₁, x⟩, hblock, hl⟩ := Option.bind_eq_some_iff.mp hl
    obtain ⟨hext, hslot, hx0, hend, hhigh₁⟩ := blockFor_eq_some h ht hhigh hfbn hblock
    dsimp only at hl
    obtain ⟨buf, hread, hl⟩ := Option.bind_eq_some_iff.mp hl
    subst hslot
    have hsector : sector (m₁.disk.slot din₁ (off / BSIZE)) = m₁.disk.slot din₁ (off / BSIZE) := by
      have hlt := hext.sound.slot_lt i (off / BSIZE)
      rw [Function.update_self] at hlt
      exact sector_eq (by omega)
    rw [rsect, hsector] at hread
    split at hread
    swap
    · cases hread
    next hlt =>
    cases hread
    rw [wsect, hsector] at hl
    have hpos : 0 < BSIZE := by decide
    have hlow : off / BSIZE * BSIZE ≤ off := Nat.div_mul_le_self ..
    have hup : off < (off / BSIZE + 1) * BSIZE := Nat.lt_mul_of_div_lt (Nat.lt_succ_self _) hpos
    have hmax : (off / BSIZE + 1) * BSIZE ≤ MAXFILE * BSIZE := Nat.mul_le_mul_right _ hfbn
    have hlen : p.length ≠ 0 := fun h0 => hp (List.eq_nil_of_length_eq_zero h0)
    generalize hn : min p.length ((off / BSIZE + 1) * BSIZE - off) = n at hl
    have hext₂ := Extends.put_data (f := splice (m₁.disk.block (m₁.disk.slot din₁ (off / BSIZE)))
      (off - off / BSIZE * BSIZE) n fun k => p.getD k 0#8) hext.sound hfbn hx0
    have htype : din₁.type ≠ .free := hext.type ▸ ht
    have hdrop : (p.drop n).length = p.length - n := List.length_drop
    obtain ⟨hext', hhigh', hoff', hle'⟩ := ih hext₂.sound htype (hhigh₁ hlt) (by omega) (by omega) hl
    exact ⟨hext.trans (hext₂.trans hext'), hhigh', by omega, hle'⟩

/-! ## Inodes -/

/-- A block below the data is written. -/
theorem Sound.put_low {f : ℕ → Byte} (h : Sound m node) (hb : b < nmeta) (h0 : 1 < b) :
    Sound { m with disk := m.disk.put b f } node := by
  have hne : ∀ j l, m.disk.slot (node j) l ≠ b := by
    intro j l he
    by_cases hz : m.disk.slot (node j) l = 0
    · omega
    · have := (h.range j l hz).1
      omega
  have hslot : ∀ j, (m.disk.put b f).slot (node j) = m.disk.slot (node j) := fun j =>
    funext fun l => Disk.slot_put (hne j MAXFILE)
  refine ⟨(Disk.superblock_put h0.ne').trans h.sb, h.low, fun c hc o => ?_, ?_, fun j l => ?_⟩
  · change m.freeblock ≤ c at hc
    change (m.disk.put b f).block c o = 0#8
    have := h.low
    rw [Disk.put_block, if_neg (by omega)]
    exact h.zero c hc o
  · change Apart fun a : ℕ × ℕ => (m.disk.put b f).slot (node a.1) a.2
    simp only [hslot]
    exact h.apart
  · change (m.disk.put b f).slot (node j) l ≠ 0 → nmeta ≤ (m.disk.put b f).slot (node j) l ∧
      (m.disk.put b f).slot (node j) l < m.freeblock
    rw [hslot]
    exact h.range j l

theorem iblock_lt_nmeta (hi : i < NINODES) : IBLOCK i < nmeta ∧ 1 < IBLOCK i := by
  unfold NINODES at hi
  have hn : nmeta = 29 := by decide
  unfold IBLOCK IPB BSIZE DINODE
  omega

/-- Nothing is allocated that was not given away. -/
structure Good (m : Mkfs) : Prop where
  sound : Sound m m.disk.node
  high : m.freeblock ≤ FSSIZE
  pos : 0 < m.freeinode
  free : ∀ i, m.freeinode ≤ i → m.disk.node i = {}
  small : ∀ i, (m.disk.node i).size ≤ MAXFILE * BSIZE

theorem Sound.ninodes (h : Sound m node) : m.disk.ninodes = NINODES := by
  rw [Disk.ninodes, h.sb]
  rfl

/-- Only what the slots of the inodes are matters. -/
theorem Sound.congr {node' : ℕ → Dinode} (h : Sound m node)
    (hslot : ∀ j, m.disk.slot (node' j) = m.disk.slot (node j)) : Sound m node' where
  sb := h.sb
  low := h.low
  zero := h.zero
  apart := by
    simp only [hslot]
    exact h.apart
  range j l := by
    rw [hslot]
    exact h.range j l

/-- Inodes are below the data. -/
theorem node_of_low (h : Sound m node) (hlow : ∀ b, b < nmeta → m'.disk.block b = m.disk.block b) :
    m'.disk.node = m.disk.node := by
  funext i
  have hsb : m'.disk.superblock = m.disk.superblock := by
    simp only [Disk.superblock, hlow 1 (by decide)]
  unfold Disk.node Disk.ninodes
  rw [hsb]
  split
  · next hi =>
    have hlt : i < NINODES := h.ninodes ▸ hi.2
    rw [Disk.dinode, hlow _ (iblock_lt_nmeta hlt).1]
    rfl
  · rfl

theorem Sound.node_eq (h : Sound m node) (h0 : 0 < i) (hi : i < NINODES) :
    m.disk.node i = m.disk.dinode i := by
  rw [Disk.node, if_pos ⟨h0, h.ninodes ▸ hi⟩]

theorem rsect_iblock (hi : i < NINODES) :
    m.rsect (IBLOCK i) = some (m.disk.block (IBLOCK i)) ∧ sector (IBLOCK i) = IBLOCK i := by
  have hlt := (iblock_lt_nmeta hi).1
  have hn : nmeta = 29 := by decide
  have hsector : sector (IBLOCK i) = IBLOCK i := by
    refine sector_eq ?_
    unfold FSSIZE
    omega
  rw [rsect, hsector, if_pos (by unfold FSSIZE; omega)]
  exact ⟨rfl, rfl⟩

theorem rinode_eq (h : Sound m node) (h0 : 0 < i) (hi : i < NINODES) :
    m.rinode i = some (m.disk.node i) := by
  rw [rinode, (rsect_iblock hi).1, h.node_eq h0 hi]
  rfl

theorem winode_eq (hi : i < NINODES) :
    m.winode i din = some { m with disk := m.disk.setDinode i din } := by
  rw [winode, (rsect_iblock hi).1]
  change some (m.wsect _ _) = _
  rw [wsect, (rsect_iblock (m := m) hi).2]
  rfl

/-- The inode is stored: now it is as it was built. -/
theorem Sound.setDinode (h : Sound m (Function.update m.disk.node i din)) (h0 : 0 < i)
    (hi : i < NINODES) (hx : din.Fits) :
    Sound { m with disk := m.disk.setDinode i din } (m.disk.setDinode i din).node ∧
      (m.disk.setDinode i din).node = Function.update m.disk.node i din := by
  obtain ⟨hlt, hgt⟩ := iblock_lt_nmeta hi
  have hsound := h.put_low
    (f := splice (m.disk.block (IBLOCK i)) (i % IPB * DINODE) DINODE din.bytes) hlt hgt
  have hnode := Disk.node_setDinode (d := m.disk) h0 (h.ninodes ▸ hi) hx
  refine ⟨?_, hnode⟩
  rw [hnode]
  exact hsound

/-- Data is added to a file: no inode changes its type, and none is allocated. -/
structure Appended (m m' : Mkfs) : Prop where
  good : Good m'
  freeinode : m'.freeinode = m.freeinode
  type : ∀ j, (m'.disk.node j).type = (m.disk.node j).type

theorem iappend_eq_some {p : List Byte} (h : Good m) (h0 : 0 < i) (hi : i < NINODES)
    (hfree : i < m.freeinode) (ht : (m.disk.node i).type ≠ .free) (ha : m.iappend i p = some m') :
    Appended m m' := by
  rw [iappend, rinode_eq h.sound h0 hi] at ha
  obtain ⟨_, hnode, ha⟩ := Option.bind_eq_some_iff.mp ha
  cases hnode
  obtain ⟨⟨m₁, din, off⟩, hloop, ha⟩ := Option.bind_eq_some_iff.mp ha
  have hstart : Sound m (Function.update m.disk.node i (m.disk.node i)) := by
    rw [Function.update_eq_self]
    exact h.sound
  obtain ⟨hext, hhigh, rfl, hsmall⟩ := appendLoop_eq_some hstart ht h.high (h.small i) le_rfl hloop
  change m₁.winode i _ = some m' at ha
  rw [winode_eq hi] at ha
  cases ha
  -- the loop has not touched the inodes
  have hnode := node_of_low h.sound hext.low
  have hfits : Dinode.Fits { din with size := (m.disk.node i).size + p.length } := by
    have hx := hext.fits Disk.node_fits
    refine ⟨hx.major, hx.minor, hx.nlink, hsmall.trans_lt (by decide), hx.addrs, hx.last⟩
  have hsound : Sound m₁ (Function.update m₁.disk.node i
      { din with size := (m.disk.node i).size + p.length }) := by
    rw [hnode]
    refine hext.sound.congr fun j => ?_
    by_cases hj : j = i
    · subst hj
      rw [Function.update_self, Function.update_self]
      rfl
    · rw [Function.update_of_ne hj, Function.update_of_ne hj]
  obtain ⟨hgood, hnode'⟩ := hsound.setDinode h0 hi hfits
  rw [hnode] at hnode'
  generalize hd : m₁.disk.setDinode i { din with size := (m.disk.node i).size + p.length } = d at *
  have hself : d.node i = { din with size := (m.disk.node i).size + p.length } := by
    rw [hnode', Function.update_self]
  have hother : ∀ j, j ≠ i → d.node j = m.disk.node j := fun j hj => by
    rw [hnode', Function.update_of_ne hj]
  refine ⟨⟨hgood, hhigh, ?_, fun j hj => ?_, fun j => ?_⟩, hext.freeinode, fun j => ?_⟩
  · rw [hext.freeinode]
    exact h.pos
  · rw [hext.freeinode] at hj
    rw [hother j (by omega)]
    exact h.free j hj
  · by_cases hj : j = i
    · rw [hj, hself]
      exact hsmall
    · rw [hother j hj]
      exact h.small j
  · by_cases hj : j = i
    · rw [hj, hself]
      exact hext.type
    · rw [hother j hj]

/-- A new inode has no blocks. -/
theorem slot_new (d : Disk) (type : IType) (k : ℕ) : d.slot { type := type, nlink := 1 } k = 0 := by
  simp [Disk.slot]

theorem slot_default (d : Disk) (k : ℕ) : d.slot {} k = 0 := by
  simp [Disk.slot]

/-- What `ialloc` does. -/
structure Allocated (m : Mkfs) (type : IType) (m' : Mkfs) : Prop where
  good : Good m'
  freeinode : m'.freeinode = m.freeinode + 1
  node : m'.disk.node = Function.update m.disk.node m.freeinode { type := type, nlink := 1 }

theorem ialloc_eq_some {type : IType} (h : Good m) (hi : m.freeinode < NINODES)
    (ha : m.ialloc type = some (m', i)) : i = m.freeinode ∧ Allocated m type m' := by
  rw [ialloc, winode_eq hi] at ha
  cases ha
  have hold : m.disk.node m.freeinode = {} := h.free _ le_rfl
  have hfits : Dinode.Fits { type := type, nlink := 1 } :=
    ⟨Nat.zero_lt_succ _, Nat.zero_lt_succ _, rfl, Nat.zero_lt_succ _, fun _ => Nat.zero_lt_succ _,
      fun _ _ => rfl⟩
  have hsame : ∀ j, m.disk.slot (Function.update m.disk.node m.freeinode
      { type := type, nlink := 1 } j) = m.disk.slot (m.disk.node j) := by
    intro j
    by_cases hj : j = m.freeinode
    · rw [hj, Function.update_self, hold]
      funext k
      rw [slot_new, slot_default]
    · rw [Function.update_of_ne hj]
  obtain ⟨hsound, hnode⟩ := (h.sound.congr hsame).setDinode h.pos hi hfits
  refine ⟨rfl, ⟨⟨hsound.sb, hsound.low, hsound.zero, hsound.apart, hsound.range⟩, h.high,
    Nat.succ_pos _, fun j hj => ?_, fun j => ?_⟩, rfl, hnode⟩
  · change m.freeinode + 1 ≤ j at hj
    change (m.disk.setDinode _ _).node j = {}
    rw [hnode, Function.update_of_ne (by omega)]
    exact h.free j (by omega)
  · change ((m.disk.setDinode _ _).node j).size ≤ _
    rw [hnode, Function.update_apply]
    split
    · exact Nat.zero_le _
    · exact h.small j

theorem copyLoop_eq_some {fuel : ℕ} (h0 : 0 < i) (hi : i < NINODES) :
    ∀ {m m' : Mkfs} {data : List Byte}, Good m → i < m.freeinode →
      (m.disk.node i).type ≠ .free → copyLoop fuel m i data = some m' → Appended m m' := by
  have hrefl : ∀ {m : Mkfs}, Good m → Appended m m := fun h => ⟨h, rfl, fun _ => rfl⟩
  induction fuel with
  | zero =>
    intro m m' data h hfree ht hc
    cases hc
    exact hrefl h
  | succ fuel ih =>
    intro m m' data h hfree ht hc
    unfold copyLoop at hc
    split at hc
    · cases hc
      exact hrefl h
    · obtain ⟨m₁, happend, hc⟩ := Option.bind_eq_some_iff.mp hc
      have hstep := iappend_eq_some h h0 hi hfree ht happend
      have hrest := ih hstep.good (hstep.freeinode ▸ hfree) (hstep.type i ▸ ht) hc
      exact ⟨hrest.good, hrest.freeinode.trans hstep.freeinode,
        fun j => (hrest.type j).trans (hstep.type j)⟩

/-! ## The root directory -/

/-- The image with the root directory and `n` files. -/
structure Built (n : ℕ) (m : Mkfs) : Prop where
  good : Good m
  freeinode : m.freeinode = n + 2
  type : (m.disk.node ROOTINO).type = .dir

theorem Built.addFile {n : ℕ} {file : List Byte × List Byte} (h : Built n m)
    (hfit : n + 2 < NINODES) (ha : m.addFile file = some m') : Built (n + 1) m' := by
  unfold Mkfs.addFile at ha
  split at ha
  · cases ha
  obtain ⟨⟨m₁, inum⟩, halloc, ha⟩ := Option.bind_eq_some_iff.mp ha
  obtain ⟨m₂, happend, hcopy⟩ := Option.bind_eq_some_iff.mp ha
  obtain ⟨rfl, h₁⟩ := ialloc_eq_some h.good (h.freeinode ▸ hfit) halloc
  have hroot : ROOTINO < m.freeinode := by
    rw [h.freeinode, ROOTINO]
    omega
  have htype₁ : (m₁.disk.node ROOTINO).type = .dir := by
    rw [h₁.node, Function.update_of_ne hroot.ne, h.type]
  have h₂ := iappend_eq_some h₁.good (by decide) (by decide)
    (by rw [h₁.freeinode]; omega) (by rw [htype₁]; exact IType.noConfusion) happend
  have htype₂ : (m₂.disk.node m.freeinode).type = .file := by
    rw [h₂.type, h₁.node, Function.update_self]
  have h₃ := copyLoop_eq_some h.good.pos (h.freeinode ▸ hfit) h₂.good
    (by rw [h₂.freeinode, h₁.freeinode]; exact Nat.lt_succ_self _)
    (by rw [htype₂]; exact IType.noConfusion) hcopy
  refine ⟨h₃.good, ?_, ?_⟩
  · rw [h₃.freeinode, h₂.freeinode, h₁.freeinode, h.freeinode]
  · rw [h₃.type, h₂.type, htype₁]

theorem start_superblock : start.disk.superblock = sb := by
  have hblock : start.disk.block 1 = sb.bytes := by rw [start, Disk.put_block, if_pos rfl]
  exact Disk.superblock_of_bytes hblock

theorem dinodeAt_zero (o : ℕ) : dinodeAt (fun _ => 0#8) o = {} := by
  unfold dinodeAt word half
  simp only [BitVec.toNat_zero, Nat.mul_zero, Nat.add_zero, ite_self]
  rfl

theorem start_node (i : ℕ) : start.disk.node i = {} := by
  unfold Disk.node
  split
  · have hne : IBLOCK i ≠ 1 := by
      unfold IBLOCK IPB BSIZE DINODE
      omega
    rw [Disk.dinode, start, Disk.put_block, if_neg hne]
    exact dinodeAt_zero _
  · rfl

theorem good_start : Good start := by
  have hslot : ∀ i k, start.disk.slot (start.disk.node i) k = 0 := fun i k => by
    rw [start_node, slot_default]
  refine ⟨⟨start_superblock, le_rfl, fun b hb o => ?_, ?_, fun i k hk => ?_⟩, by decide, by decide,
    fun i _ => start_node i, fun i => ?_⟩
  · have hne : b ≠ 1 := by
      rintro rfl
      exact absurd hb (by decide)
    rw [start, Disk.put_block, if_neg hne]
  · intro a b ha
    exact absurd (hslot a.1 a.2) ha
  · exact absurd (hslot i k) hk
  · rw [start_node]
    exact Nat.zero_le _

/-- The root directory is built. -/
theorem built_root (hr : root = some m) : Built 0 m := by
  unfold root at hr
  obtain ⟨⟨m₁, inum⟩, halloc, hr⟩ := Option.bind_eq_some_iff.mp hr
  obtain ⟨rfl, h₁⟩ := ialloc_eq_some good_start (by decide) halloc
  dsimp only at hr
  split at hr
  · cases hr
  obtain ⟨m₂, happend, happend'⟩ := Option.bind_eq_some_iff.mp hr
  change m₁.iappend ROOTINO _ = some m₂ at happend
  change m₂.iappend ROOTINO _ = some m at happend'
  have htype₁ : (m₁.disk.node ROOTINO).type = .dir := by
    have hnode : m₁.disk.node ROOTINO = { type := .dir, nlink := 1 } := by
      rw [h₁.node]
      exact Function.update_self ..
    rw [hnode]
  have hfree₁ : m₁.freeinode = 2 := h₁.freeinode
  have h₂ := iappend_eq_some h₁.good (by decide) (by decide) (hfree₁ ▸ by decide)
    (by rw [htype₁]; exact IType.noConfusion) happend
  have h₃ := iappend_eq_some h₂.good (by decide) (by decide) (by rw [h₂.freeinode, hfree₁]; decide)
    (by rw [h₂.type, htype₁]; exact IType.noConfusion) happend'
  exact ⟨h₃.good, by rw [h₃.freeinode, h₂.freeinode, hfree₁], by rw [h₃.type, h₂.type, htype₁]⟩

/-! ## The image -/

theorem built_foldlM {files : List (List Byte × List Byte)} :
    ∀ {n : ℕ} {m : Mkfs}, Built n m → n + files.length + 2 ≤ NINODES →
      files.foldlM addFile m = some m' → Built (n + files.length) m' := by
  induction files with
  | nil =>
    intro n m h _ hf
    cases hf
    exact h
  | cons file files ih =>
    intro n m h hfit hf
    rw [List.length_cons] at hfit ⊢
    rw [List.foldlM_cons] at hf
    obtain ⟨m₁, hadd, hf⟩ := Option.bind_eq_some_iff.mp hf
    have := ih (h.addFile (by omega) hadd) (by omega) hf
    rwa [Nat.add_right_comm] at this

/-- What `mkfs` makes: inodes whose blocks were allocated once, and a bitmap of the blocks that
were given away. -/
structure Made (m : Mkfs) : Prop where
  sound : Sound m m.disk.node
  used : ∀ b, b < BPB → m.disk.used NINODES b = decide (b < m.freeblock)

theorem Built.finish {n : ℕ} (h : Built n m) (hf : m.finish = some m') : Made m' := by
  rw [Mkfs.finish, rinode_eq h.good.sound (by decide) (by decide)] at hf
  obtain ⟨_, hnode, hf⟩ := Option.bind_eq_some_iff.mp hf
  cases hnode
  rw [winode_eq (by decide)] at hf
  obtain ⟨m₁, hm₁, hf⟩ := Option.bind_eq_some_iff.mp hf
  cases hm₁
  rw [balloc] at hf
  split at hf
  swap
  · cases hf
  cases hf
  have hsmall := h.good.small ROOTINO
  have hround : ((m.disk.node ROOTINO).size / BSIZE + 1) * BSIZE ≤ (MAXFILE + 1) * BSIZE :=
    Nat.mul_le_mul_right _ (Nat.succ_le_succ (Nat.div_le_of_le_mul (by rwa [Nat.mul_comm])))
  have hfits : Dinode.Fits { m.disk.node ROOTINO with
      size := ((m.disk.node ROOTINO).size / BSIZE + 1) * BSIZE } := by
    have hx : (m.disk.node ROOTINO).Fits := Disk.node_fits
    exact ⟨hx.major, hx.minor, hx.nlink, hround.trans_lt (by decide), hx.addrs, hx.last⟩
  -- the size does not matter for the blocks
  have hsame : ∀ j, m.disk.slot (Function.update m.disk.node ROOTINO { m.disk.node ROOTINO with
      size := ((m.disk.node ROOTINO).size / BSIZE + 1) * BSIZE } j) =
        m.disk.slot (m.disk.node j) := by
    intro j
    by_cases hj : j = ROOTINO
    · rw [hj, Function.update_self]
      rfl
    · rw [Function.update_of_ne hj]
  have hsound := ((h.good.sound.congr hsame).setDinode (by decide) (by decide) hfits).1
  generalize m.disk.setDinode ROOTINO { m.disk.node ROOTINO with
    size := ((m.disk.node ROOTINO).size / BSIZE + 1) * BSIZE } = d at *
  have hsound' := hsound.put_low (b := ninodeblocks + 2) (f := fillBits m.freeblock) (by decide)
    (by decide)
  have hend : d.inodeEnd = 28 := by
    rw [Disk.inodeEnd, hsound.ninodes]
    rfl
  have hnode' : (d.put (ninodeblocks + 2) (fillBits m.freeblock)).node = d.node :=
    Disk.node_put (hend ▸ by decide)
  rw [wsect, sector_eq (by decide)]
  refine ⟨hnode'.symm ▸ hsound', fun b hb => ?_⟩
  have hblock : BBLOCK b NINODES = ninodeblocks + 2 := by
    have : b / BPB = 0 := Nat.div_eq_of_lt hb
    rw [BBLOCK, this]
    rfl
  rw [Disk.used, hblock, Disk.put_block, if_pos rfl, testBit_fillBits, Nat.mod_eq_of_lt hb]

/-- **The image**: with files that fit, `mkfs` makes what it should. -/
theorem made_of_mkfs {files : List (List Byte × List Byte)} (hfit : files.length + 2 ≤ NINODES)
    (hm : mkfs files = some m) : Made m := by
  unfold mkfs at hm
  obtain ⟨m₁, hroot, hm⟩ := Option.bind_eq_some_iff.mp hm
  obtain ⟨m₂, hfold, hm⟩ := Option.bind_eq_some_iff.mp hm
  exact (built_foldlM (built_root hroot) (by omega) hfold).finish hm

end Mkfs

end StrideXv6
