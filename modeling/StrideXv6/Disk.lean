import StrideXv6.Bytes

/-!
# The on-disk format (`fs.h`)

A disk as the file system code sees it through the buffer cache: blocks of bytes.
The structures of `fs.h` are read from these bytes and written over them, so that
a block has whatever meaning its reader gives it; that no block is given two is
nothing the format knows.
-/

namespace StrideXv6

open Bytes

/-! ## Constants -/

/-- The inode number of the root directory. -/
def ROOTINO : ℕ := 1

/-- Block size. -/
def BSIZE : ℕ := 512

def NDIRECT : ℕ := 12

def NINDIRECT : ℕ := BSIZE / 4

def MAXFILE : ℕ := NDIRECT + NINDIRECT

/-- `sizeof(struct dinode)` -/
def DINODE : ℕ := 64

/-- Inodes per block. -/
def IPB : ℕ := BSIZE / DINODE

/-- The block containing inode `i`. -/
def IBLOCK (i : ℕ) : ℕ := i / IPB + 2

/-- Bitmap bits per block. -/
def BPB : ℕ := BSIZE * 8

/-- The block containing the bit for block `b`. -/
def BBLOCK (b ninodes : ℕ) : ℕ := b / BPB + ninodes / IPB + 3

/-- The length of a name. -/
def DIRSIZ : ℕ := 14

/-- `sizeof(struct dirent)` -/
def DIRENT : ℕ := 16

/-! ## Structures -/

/-- `struct superblock`. -/
structure Superblock : Type where
  /-- size of the image in blocks -/
  size : ℕ
  /-- number of data blocks -/
  nblocks : ℕ
  /-- number of inodes -/
  ninodes : ℕ
  /-- number of log blocks -/
  nlog : ℕ
  deriving DecidableEq, Repr

/-- The bytes of the superblock. -/
def Superblock.bytes (sb : Superblock) (k : ℕ) : Byte :=
  if k < 4 then byte sb.size k
  else if k < 8 then byte sb.nblocks (k - 4)
  else if k < 12 then byte sb.ninodes (k - 8)
  else if k < 16 then byte sb.nlog (k - 12)
  else 0#8

/-- What an inode is for; `free` is type `0`. -/
inductive IType : Type where
  | free
  | dir
  | file
  | dev
  deriving DecidableEq, Repr

/-- The number that is stored. -/
def IType.code : IType → ℕ
  | free => 0
  | dir => 1
  | file => 2
  | dev => 3

/-- What a number stands for. Nobody stores a number above `3`; it would be
treated much like a file. -/
def IType.ofCode : ℕ → IType
  | 0 => free
  | 1 => dir
  | 3 => dev
  | _ => file

@[simp] theorem IType.ofCode_code (t : IType) : IType.ofCode t.code = t := by cases t <;> rfl

theorem IType.code_lt (t : IType) : t.code < 65536 := by cases t <;> decide

/-- A number kept in a `short`. -/
def short (z : ℤ) : ℤ := z.bmod 65536

theorem short_short (z : ℤ) : short (short z) = short z := by
  simp only [short, Int.bmod_bmod]

/-- `struct dinode`. -/
structure Dinode : Type where
  type : IType := .free
  major : ℕ := 0
  minor : ℕ := 0
  /-- number of links to the inode in the file system -/
  nlink : ℤ := 0
  /-- size of the file in bytes -/
  size : ℕ := 0
  /-- data block addresses, the indirect block's last -/
  addrs : ℕ → ℕ := fun _ => 0

/-- The bytes of an inode. -/
def Dinode.bytes (x : Dinode) (k : ℕ) : Byte :=
  if k < 2 then byte x.type.code k
  else if k < 4 then byte x.major (k - 2)
  else if k < 6 then byte x.minor (k - 4)
  else if k < 8 then byte (x.nlink % 65536).toNat (k - 6)
  else if k < 12 then byte x.size (k - 8)
  else byte (x.addrs ((k - 12) / 4)) ((k - 12) % 4)

/-- The inode at an offset. -/
def dinodeAt (d : ℕ → Byte) (o : ℕ) : Dinode where
  type := .ofCode (half d o)
  major := half d (o + 2)
  minor := half d (o + 4)
  nlink := short (half d (o + 6))
  size := word d (o + 8)
  addrs n := if n ≤ NDIRECT then word d (o + 12 + 4 * n) else 0

/-- A name, as bytes. -/
abbrev Name : Type := List Byte

/-- `struct dirent`. -/
structure Dirent : Type where
  inum : ℕ := 0
  name : Name := []
  deriving DecidableEq, Repr

/-- The bytes of a directory entry; names are filled up with zeros. -/
def Dirent.bytes (de : Dirent) (k : ℕ) : Byte :=
  if k < 2 then byte de.inum k else de.name.getD (k - 2) 0#8

/-- The directory entry at an offset; a name ends where a zero is. -/
def direntAt (d : ℕ → Byte) (o : ℕ) : Dirent where
  inum := half d o
  name := ((List.range DIRSIZ).map fun k => d (o + 2 + k)).takeWhile (· ≠ 0#8)

/-! ### Reading what was written -/

section ReadWrite

variable {d d' : ℕ → Byte} {o : ℕ}

theorem dinodeAt_congr (h : ∀ k, k < DINODE → d (o + k) = d' (o + k)) :
    dinodeAt d o = dinodeAt d' o := by
  have hhalf : ∀ i, i + 2 ≤ DINODE → half d (o + i) = half d' (o + i) := fun i hi =>
    half_congr fun j hj => by rw [Nat.add_assoc]; exact h _ (by omega)
  have hword : ∀ i, i + 4 ≤ DINODE → word d (o + i) = word d' (o + i) := fun i hi =>
    word_congr fun j hj => by rw [Nat.add_assoc]; exact h _ (by omega)
  have haddrs : (fun n => if n ≤ NDIRECT then word d (o + 12 + 4 * n) else 0) =
      fun n => if n ≤ NDIRECT then word d' (o + 12 + 4 * n) else 0 := by
    funext n
    split
    · next hn =>
      unfold NDIRECT at hn
      rw [Nat.add_assoc, hword _ (by unfold DINODE; omega)]
    · rfl
  unfold dinodeAt
  rw [haddrs, hhalf 2 (by decide), hhalf 4 (by decide), hhalf 6 (by decide), hword 8 (by decide),
    show half d o = half d' o from hhalf 0 (by decide)]

/-- The bytes of an inode, read back. -/
theorem dinodeAt_bytes {x : Dinode} (h : ∀ k, k < DINODE → d (o + k) = x.bytes k) :
    (dinodeAt d o).type = x.type ∧ (dinodeAt d o).major = x.major % 65536 ∧
      (dinodeAt d o).minor = x.minor % 65536 ∧
      (dinodeAt d o).nlink = short x.nlink ∧ (dinodeAt d o).size = x.size % 4294967296 ∧
      ∀ n, n ≤ NDIRECT → (dinodeAt d o).addrs n = x.addrs n % 4294967296 := by
  refine ⟨?_, ?_, ?_, ?_, ?_, fun n hn => ?_⟩
  · have hhalf : half d o = x.type.code % 65536 := half_eq fun j hj => by
      rw [h j (by unfold DINODE; omega), Dinode.bytes, if_pos hj]
    simp only [dinodeAt, hhalf, Nat.mod_eq_of_lt x.type.code_lt, IType.ofCode_code]
  · refine half_eq fun j hj => ?_
    rw [Nat.add_assoc, h _ (by unfold DINODE; omega), Dinode.bytes, if_neg (by omega),
      if_pos (by omega), Nat.add_sub_cancel_left]
  · refine half_eq fun j hj => ?_
    rw [Nat.add_assoc, h _ (by unfold DINODE; omega), Dinode.bytes, if_neg (by omega),
      if_neg (by omega), if_pos (by omega), Nat.add_sub_cancel_left]
  · have hhalf : half d (o + 6) = (x.nlink % 65536).toNat % 65536 := half_eq fun j hj => by
      rw [Nat.add_assoc, h _ (by unfold DINODE; omega), Dinode.bytes, if_neg (by omega),
        if_neg (by omega), if_neg (by omega), if_pos (by omega), Nat.add_sub_cancel_left]
    have hcast : (((x.nlink % 65536).toNat % 65536 : ℕ) : ℤ) = x.nlink % 65536 := by omega
    simp only [dinodeAt, hhalf, hcast, short]
    exact Int.emod_bmod ..
  · refine word_eq fun j hj => ?_
    rw [Nat.add_assoc, h _ (by unfold DINODE; omega), Dinode.bytes, if_neg (by omega),
      if_neg (by omega), if_neg (by omega), if_neg (by omega), if_pos (by omega),
      Nat.add_sub_cancel_left]
  · simp only [dinodeAt, if_pos hn]
    unfold NDIRECT at hn
    refine word_eq fun j hj => ?_
    rw [Nat.add_assoc, Nat.add_assoc, h _ (by unfold DINODE; omega), Dinode.bytes,
      if_neg (by omega), if_neg (by omega), if_neg (by omega), if_neg (by omega),
      if_neg (by omega), Nat.add_sub_cancel_left]
    congr 2 <;> omega

/-- Everything that is stored of an inode fits where it is stored. -/
structure Dinode.Fits (x : Dinode) : Prop where
  major : x.major < 65536
  minor : x.minor < 65536
  nlink : short x.nlink = x.nlink
  size : x.size < 4294967296
  addrs : ∀ n, x.addrs n < 4294967296
  last : ∀ n, NDIRECT < n → x.addrs n = 0

theorem Dinode.Fits.setAddr {x : Dinode} {k b : ℕ} (hx : x.Fits) (hk : k ≤ NDIRECT)
    (hb : b < 4294967296) : Dinode.Fits { x with addrs := Function.update x.addrs k b } := by
  refine ⟨hx.major, hx.minor, hx.nlink, hx.size, fun n => ?_, fun n hn => ?_⟩
  · simp only [Function.update_apply]
    split
    · exact hb
    · exact hx.addrs n
  · have hne : n ≠ k := fun he => absurd hn (by omega)
    simp only [Function.update_of_ne hne]
    exact hx.last n hn

theorem dinodeAt_fits (d : ℕ → Byte) (o : ℕ) : (dinodeAt d o).Fits := by
  unfold dinodeAt
  refine ⟨half_lt, half_lt, ?_, word_lt, fun n => ?_, fun n hn => ?_⟩
  · dsimp only
    rw [short_short]
  · dsimp only
    split
    · exact word_lt
    · exact Nat.zero_lt_succ _
  · exact if_neg (Nat.not_le.mpr hn)

theorem dinodeAt_bytes_of_fits {x : Dinode} (hx : x.Fits)
    (h : ∀ k, k < DINODE → d (o + k) = x.bytes k) : dinodeAt d o = x := by
  obtain ⟨htype, hmajor, hminor, hnlink, hsize, haddrs⟩ := dinodeAt_bytes h
  have hall : (dinodeAt d o).addrs = x.addrs := by
    funext n
    by_cases hn : n ≤ NDIRECT
    · rw [haddrs n hn, Nat.mod_eq_of_lt (hx.addrs n)]
    · rw [hx.last n (Nat.not_le.mp hn)]
      exact if_neg hn
  rw [Nat.mod_eq_of_lt hx.major] at hmajor
  rw [Nat.mod_eq_of_lt hx.minor] at hminor
  rw [hx.nlink] at hnlink
  rw [Nat.mod_eq_of_lt hx.size] at hsize
  cases x
  cases hd : dinodeAt d o
  rw [hd] at htype hmajor hminor hnlink hsize hall
  cases htype
  cases hmajor
  cases hminor
  cases hnlink
  cases hsize
  cases hall
  rfl

end ReadWrite

/-! ## Disks -/

/-- A disk. -/
structure Disk : Type where
  block : ℕ → ℕ → Byte

namespace Disk

variable (d : Disk)

/-- Change a block. -/
def put (b : ℕ) (x : ℕ → Byte) : Disk := ⟨Function.update d.block b x⟩

/-- The superblock. -/
def superblock : Superblock where
  size := word (d.block 1) 0
  nblocks := word (d.block 1) 4
  ninodes := word (d.block 1) 8
  nlog := word (d.block 1) 12

/-- The number of blocks. -/
def size : ℕ := d.superblock.size

/-- The number of inodes. -/
def ninodes : ℕ := d.superblock.ninodes

/-- An inode. -/
def dinode (inum : ℕ) : Dinode := dinodeAt (d.block (IBLOCK inum)) (inum % IPB * DINODE)

/-- Write an inode. -/
def setDinode (inum : ℕ) (x : Dinode) : Disk :=
  d.put (IBLOCK inum) (splice (d.block (IBLOCK inum)) (inum % IPB * DINODE) DINODE x.bytes)

/-- The bit of block `b`. -/
def used (ninodes b : ℕ) : Bool := testBit (d.block (BBLOCK b ninodes)) (b % BPB)

/-- Set it. -/
def mark (ninodes b : ℕ) : Disk :=
  d.put (BBLOCK b ninodes) (setBit (d.block (BBLOCK b ninodes)) (b % BPB))

/-- Clear it. -/
def unmark (ninodes b : ℕ) : Disk :=
  d.put (BBLOCK b ninodes) (clearBit (d.block (BBLOCK b ninodes)) (b % BPB))

/-- The first block that is not in use: the loops of `balloc` go through the
blocks in order. -/
def firstFree (size ninodes : ℕ) : Option ℕ := (List.range size).find? fun b => !d.used ninodes b

/-- The `i`th address in an indirect block. -/
def addr (b i : ℕ) : ℕ := word (d.block b) (4 * i)

def setAddr (b i a : ℕ) : Disk := d.put b (splice (d.block b) (4 * i) 4 (byte a))

/-- The `i`th directory entry in a block. -/
def dirent (b i : ℕ) : Dirent := direntAt (d.block b) (i * DIRENT)

def setDirent (b i : ℕ) (de : Dirent) : Disk :=
  d.put b (splice (d.block b) (i * DIRENT) DIRENT de.bytes)

/-! ### What a write leaves alone -/

variable {d} {b c i j n : ℕ} {x : ℕ → Byte}

theorem put_block : (d.put b x).block c = if c = b then x else d.block c :=
  Function.update_apply ..

theorem superblock_put (h : b ≠ 1) : (d.put b x).superblock = d.superblock := by
  simp only [superblock, put_block, if_neg h.symm]

theorem dinode_put (h : b ≠ IBLOCK i) : (d.put b x).dinode i = d.dinode i := by
  simp only [dinode, put_block, if_neg h.symm]

theorem used_put (h : b ≠ BBLOCK c n) : (d.put b x).used n c = d.used n c := by
  simp only [used, put_block, if_neg h.symm]

theorem addr_put (h : b ≠ c) : (d.put b x).addr c i = d.addr c i := by
  simp only [addr, put_block, if_neg h.symm]

/-! ### What it changes -/

/-- The bytes of the superblock, read back. -/
theorem superblock_of_bytes {sb : Superblock} (h : d.block 1 = sb.bytes) :
    d.superblock = ⟨sb.size % 4294967296, sb.nblocks % 4294967296, sb.ninodes % 4294967296,
      sb.nlog % 4294967296⟩ := by
  have hsize : word sb.bytes 0 = sb.size % 4294967296 := word_eq fun j hj => by
    rw [Nat.zero_add, Superblock.bytes, if_pos hj]
  have hblocks : word sb.bytes 4 = sb.nblocks % 4294967296 := word_eq fun j hj => by
    rw [Superblock.bytes, if_neg (by omega), if_pos (by omega), Nat.add_sub_cancel_left]
  have hinodes : word sb.bytes 8 = sb.ninodes % 4294967296 := word_eq fun j hj => by
    rw [Superblock.bytes, if_neg (by omega), if_neg (by omega), if_pos (by omega),
      Nat.add_sub_cancel_left]
  have hlog : word sb.bytes 12 = sb.nlog % 4294967296 := word_eq fun j hj => by
    rw [Superblock.bytes, if_neg (by omega), if_neg (by omega), if_neg (by omega),
      if_pos (by omega), Nat.add_sub_cancel_left]
  rw [superblock, h, hsize, hblocks, hinodes, hlog]

theorem dinode_fits : (d.dinode i).Fits := dinodeAt_fits ..

theorem dinode_setDinode {y : Dinode} (hy : y.Fits) : (d.setDinode i y).dinode i = y := by
  refine dinodeAt_bytes_of_fits hy fun k hk => ?_
  rw [setDinode, put_block, if_pos rfl]
  exact splice_inside hk

/-- Inodes do not overlap. -/
theorem dinode_setDinode_of_ne {y : Dinode} (h : j ≠ i) :
    (d.setDinode i y).dinode j = d.dinode j := by
  by_cases hblock : IBLOCK j = IBLOCK i
  · refine dinodeAt_congr fun k hk => ?_
    rw [setDinode, put_block, if_pos hblock, hblock]
    refine splice_outside ?_
    have hmod : j % IPB ≠ i % IPB := by
      unfold IBLOCK at hblock
      unfold IPB BSIZE DINODE at *
      omega
    unfold DINODE at *
    omega
  · exact dinode_put (Ne.symm hblock)

/-- Bits are in one place only. -/
theorem bit_ne (hblock : BBLOCK c n = BBLOCK b n) : c % BPB = b % BPB ↔ c = b := by
  unfold BBLOCK at hblock
  unfold BPB BSIZE at *
  omega

theorem used_mark : (d.mark n b).used n c = (decide (c = b) || d.used n c) := by
  by_cases hblock : BBLOCK c n = BBLOCK b n
  · rw [used, mark, put_block, if_pos hblock, testBit_setBit, used, hblock]
    congr 1
    exact decide_eq_decide.mpr (bit_ne hblock)
  · rw [mark, used_put (Ne.symm hblock), decide_eq_false fun h => hblock (by rw [h]),
      Bool.false_or]

theorem used_unmark : (d.unmark n b).used n c = (decide (c ≠ b) && d.used n c) := by
  by_cases hblock : BBLOCK c n = BBLOCK b n
  · rw [used, unmark, put_block, if_pos hblock, testBit_clearBit, used, hblock]
    congr 1
    exact decide_eq_decide.mpr (not_congr (bit_ne hblock))
  · have hne : c ≠ b := fun h => hblock (by rw [h])
    rw [unmark, used_put (Ne.symm hblock), decide_eq_true hne, Bool.true_and]

theorem addr_setAddr {a : ℕ} :
    (d.setAddr b i a).addr c j = if c = b ∧ j = i then a % 4294967296 else d.addr c j := by
  by_cases hc : c = b
  · subst hc
    by_cases hj : j = i
    · subst hj
      rw [if_pos ⟨rfl, rfl⟩, addr, setAddr, put_block, if_pos rfl]
      exact word_eq fun k hk => splice_inside hk
    · rw [if_neg fun h => hj h.2, addr, setAddr, put_block, if_pos rfl]
      exact word_congr fun k hk => splice_outside (by omega)
  · rw [if_neg fun h => hc h.1, setAddr, addr_put (Ne.symm hc)]

/-- A zeroed block has no addresses. -/
theorem addr_zero : (d.put b fun _ => 0#8).addr b i = 0 := by
  rw [addr, put_block, if_pos rfl]
  rfl

/-! ### The first free block -/

theorem firstFree_eq_some {size : ℕ} (h : d.firstFree size n = some b) :
    b < size ∧ d.used n b = false ∧ ∀ c, c < b → d.used n c = true := by
  obtain ⟨hfree, i, hi, hget, hbefore⟩ := List.find?_eq_some_iff_getElem.mp h
  rw [List.getElem_range] at hget
  subst hget
  rw [List.length_range] at hi
  refine ⟨hi, by simpa using hfree, fun c hc => ?_⟩
  have := hbefore c hc
  simpa using this

theorem firstFree_eq_none {size : ℕ} (h : d.firstFree size n = none) :
    ∀ c, c < size → d.used n c = true := by
  intro c hc
  have := List.find?_eq_none.mp h c (List.mem_range.mpr hc)
  simpa using this

end Disk

end StrideXv6
