import StrideXv6.Bracket
import StrideXv6.Disk
import StrideXv6.Recovery

/-!
# The file system, step by step (`fs.c`)

What the kernel code in `fs.c`, `file.c` and `sysfile.c` works on: the contents
of the root device, as the buffer cache shows them; the inode cache; the table of
open files; the pages of pipes; and what the processes hold of these.

What is done under one lock, or while one buffer is held, is one operation
(`FsOp`): `FsOp.run` says what it does and what it answers, or why it does not
come to that. The functions of `fs.c` are then code that asks for these
operations. None of them has a bracket: what is inside a transaction is up to
their callers.
-/

namespace StrideXv6

open Bracket

/-! ## Data -/

/-- The number of cached inodes. -/
def NINODE : ℕ := 50

theorem NINODE_pos : 0 < NINODE := by decide

/-- Open files per system. -/
def NFILE : ℕ := 100

/-- Open files per process. -/
def NOFILE : ℕ := 16

/-- The one device that can be read and written. -/
def CONSOLE : ℕ := 1

/-- A path as `skipelem` takes it apart. -/
structure Path : Type where
  absolute : Bool
  elems : List Name
  deriving DecidableEq, Repr

/-- `struct inode`: the in-memory copy. -/
structure Inode : Type where
  dev : ℕ := 0
  inum : ℕ := 0
  /-- reference count -/
  ref : ℤ := 0
  /-- `I_BUSY` -/
  busy : Bool := false
  /-- `I_VALID` -/
  valid : Bool := false
  /-- copy of the disk inode -/
  copy : Dinode := {}

/-- The kinds of open files. -/
inductive FileType : Type where
  | none
  | pipe
  | inode
  deriving DecidableEq, Repr

/-- `struct file`. -/
structure File : Type where
  type : FileType := .none
  /-- reference count -/
  ref : ℤ := 0
  readable : Bool := false
  writable : Bool := false
  /-- the page of the pipe -/
  pipe : ℕ := 0
  ip : Fin NINODE := ⟨0, NINODE_pos⟩
  off : ℕ := 0

/-- `struct pipe`, without the data. -/
structure Pipe : Type where
  /-- the read end is still open -/
  readopen : Bool := true
  /-- the write end is still open -/
  writeopen : Bool := true
  deriving DecidableEq, Repr

/-- Where a process is in its life, as far as files are concerned. -/
inductive Life : Type where
  | unused
  | embryo
  | live
  | zombie
  deriving DecidableEq, Repr

/-- What a process holds of the file system. -/
structure Holding : Type where
  life : Life := .unused
  cwd : Option (Fin NINODE) := none
  ofile : Fin NOFILE → Option (Fin NFILE) := fun _ => none

/-- The file system with its users. -/
structure Files (ι : Type) : Type where
  disk : Disk
  /-- `icache.inode` -/
  icache : Fin NINODE → Inode
  /-- `ftable.file` -/
  ftable : Fin NFILE → File
  /-- the pages allocated for pipes -/
  pages : ℕ → Option Pipe
  procs : ι → Holding

/-- After `userinit`: the first process is in the root directory. -/
def Files.boot {ι : Type} [DecidableEq ι] (disk : Disk) (initproc : ι) : Files ι where
  disk := disk
  icache := Function.update (fun _ => {}) ⟨0, NINODE_pos⟩
    { dev := ROOTDEV, inum := ROOTINO, ref := 1 }
  ftable := fun _ => {}
  pages := fun _ => none
  procs := Function.update (fun _ => {}) initproc { life := .live, cwd := some ⟨0, NINODE_pos⟩ }

/-! ## Operations -/

/-- What kernel code asks for. -/
inductive FsOp (ι : Type) : Type where
  /-- `log_write` of a block -/
  | logWrite : ℕ → FsOp ι
  /-- read the superblock -/
  | readsb
  /-- the loops of `balloc`: mark the first free block -/
  | mark : (size ninodes : ℕ) → FsOp ι
  /-- clear the bit of a block -/
  | unmark : (block ninodes : ℕ) → FsOp ι
  /-- zero a block -/
  | zero : ℕ → FsOp ι
  /-- the body of the loop of `ialloc` -/
  | claim : ℕ → IType → FsOp ι
  | readAddr : (block i : ℕ) → FsOp ι
  | writeAddr : (block i addr : ℕ) → FsOp ι
  | readDirent : (block i : ℕ) → FsOp ι
  | writeDirent : (block i : ℕ) → Dirent → FsOp ι
  /-- change the data in a block -/
  | writeData : ℕ → ((ℕ → Bytes.Byte) → ℕ → Bytes.Byte) → FsOp ι
  /-- `iget` -/
  | iget : (dev inum : ℕ) → FsOp ι
  /-- `idup` -/
  | idup : Fin NINODE → FsOp ι
  /-- the first half of `ilock`: wait for `I_BUSY` -/
  | lock : Fin NINODE → FsOp ι
  /-- its second half: read the inode -/
  | load : Fin NINODE → FsOp ι
  /-- `iunlock` -/
  | unlock : Fin NINODE → FsOp ι
  /-- the beginning of `iput`: has the inode to be freed? -/
  | putTest : Fin NINODE → FsOp ι
  /-- its end, after the inode was freed -/
  | putFreed : Fin NINODE → FsOp ι
  /-- read the fields of a locked inode -/
  | inode : Fin NINODE → FsOp ι
  /-- read one of its addresses -/
  | addr : Fin NINODE → ℕ → FsOp ι
  /-- change its fields -/
  | setInode : Fin NINODE → (Dinode → Dinode) → FsOp ι
  /-- copy it to its disk inode -/
  | store : Fin NINODE → FsOp ι
  /-- `filealloc` -/
  | filealloc
  /-- `filedup` -/
  | filedup : Fin NFILE → FsOp ι
  /-- the first half of `fileclose` -/
  | filedrop : Fin NFILE → FsOp ι
  /-- read the fields of an open file -/
  | file : Fin NFILE → FsOp ι
  /-- change them -/
  | setFile : Fin NFILE → (File → File) → FsOp ι
  /-- `kalloc` of a page, for a pipe with both ends open -/
  | kalloc
  /-- `pipeclose` -/
  | pipeclose : ℕ → (writable : Bool) → FsOp ι
  /-- read `proc->cwd` -/
  | cwd
  | setCwd : Option (Fin NINODE) → FsOp ι
  /-- read `proc->ofile[fd]` -/
  | ofile : Fin NOFILE → FsOp ι
  | setOfile : Fin NOFILE → Option (Fin NFILE) → FsOp ι
  /-- `fdalloc` -/
  | fdalloc : Fin NFILE → FsOp ι
  /-- take an unused process slot -/
  | allocproc : ι → FsOp ι
  /-- change what another process, still an embryo, holds -/
  | setProc : ι → (Holding → Holding) → FsOp ι
  /-- become a zombie -/
  | die
  /-- find out what is not modelled -/
  | choose
  /-- `panic` -/
  | panic : String → FsOp ι

/-- The types of the answers. -/
abbrev FsOp.Ret {ι : Type} : FsOp ι → Type
  | readsb => ℕ × ℕ
  | mark _ _ => Option ℕ
  | unmark _ _ => Bool
  | claim _ _ => Bool
  | readAddr _ _ => ℕ
  | readDirent _ _ => Dirent
  | iget _ _ => Fin NINODE
  | putTest _ => Bool
  | inode _ => Inode
  | addr _ _ => ℕ
  | filealloc => Option (Fin NFILE)
  | filedrop _ => Option File
  | file _ => File
  | kalloc => Option ℕ
  | cwd => Option (Fin NINODE)
  | ofile _ => Option (Fin NFILE)
  | fdalloc _ => Option (Fin NOFILE)
  | allocproc _ => Bool
  | choose => ℕ
  | panic _ => Empty
  | _ => Unit

/-- The operations as a signature. -/
abbrev fsSig (ι : Type) : Sig where
  Op := FsOp ι
  Ret := FsOp.Ret

/-- Code of `fs.c`. -/
abbrev FsCode (ι : Type) : Type → Type := Code (fsSig ι)

/-- Ask for an operation. -/
def ask {ι : Type} (o : FsOp ι) : FsCode ι o.Ret := .op o .pure

namespace Files

variable {ι : Type} [DecidableEq ι]

/-- Change a cached inode. -/
def setInode (s : Files ι) (ip : Fin NINODE) (i : Inode) : Files ι :=
  { s with icache := Function.update s.icache ip i }

/-- Change an open file. -/
def setFile (s : Files ι) (f : Fin NFILE) (x : File) : Files ι :=
  { s with ftable := Function.update s.ftable f x }

/-- Change what a process holds. -/
def setProc (s : Files ι) (p : ι) (x : Holding) : Files ι :=
  { s with procs := Function.update s.procs p x }

/-- The test in `iput`: no links and no other references. -/
def LastPut (s : Files ι) (ip : Fin NINODE) : Prop :=
  (s.icache ip).ref = 1 ∧ (s.icache ip).valid = true ∧ (s.icache ip).copy.nlink = 0

instance (s : Files ι) (ip : Fin NINODE) : Decidable (s.LastPut ip) :=
  inferInstanceAs (Decidable ((s.icache ip).ref = 1 ∧ (s.icache ip).valid = true ∧
    (s.icache ip).copy.nlink = 0))

/-- The loop of `iget`: a cached inode, or the first empty slot. -/
def igetSlot (s : Files ι) (dev inum : ℕ) : Option (Fin NINODE) :=
  match (List.finRange NINODE).find? fun ip =>
      decide (0 < (s.icache ip).ref ∧ (s.icache ip).dev = dev ∧ (s.icache ip).inum = inum) with
  | some ip => some ip
  | none => (List.finRange NINODE).find? fun ip => decide ((s.icache ip).ref = 0)

end Files

/-- Close one end of a pipe: what becomes of its page. -/
def Pipe.close (x : Pipe) (writable : Bool) : Option Pipe :=
  let x : Pipe := if writable then { x with writeopen := false } else { x with readopen := false }
  if x.readopen = false ∧ x.writeopen = false then none else some x

/-- What an operation of process `p` answers and does, unless the process has to
wait or the kernel panics; `choice` decides what is not modelled. -/
def FsOp.run {ι : Type} [DecidableEq ι] (p : ι) (choice : ℕ) (s : Files ι) :
    (o : FsOp ι) → Except Halt (o.Ret × Files ι)
  | logWrite _ => .ok ((), s)
  | readsb => .ok ((s.disk.size, s.disk.ninodes), s)
  | mark size ninodes =>
    match s.disk.firstFree size ninodes with
    | none => .ok (none, s)
    | some b => .ok (some b, { s with disk := s.disk.mark ninodes b })
  | unmark b ninodes => .ok (s.disk.used ninodes b, { s with disk := s.disk.unmark ninodes b })
  | zero b => .ok ((), { s with disk := s.disk.put b fun _ => 0#8 })
  | claim inum type =>
    if (s.disk.dinode inum).type = .free then
      .ok (true, { s with disk := s.disk.setDinode inum { type := type } })
    else .ok (false, s)
  | readAddr b i => .ok (s.disk.addr b i, s)
  | writeAddr b i a => .ok ((), { s with disk := s.disk.setAddr b i a })
  | readDirent b i => .ok (s.disk.dirent b i, s)
  | writeDirent b i de => .ok ((), { s with disk := s.disk.setDirent b i de })
  | writeData b f => .ok ((), { s with disk := s.disk.put b (f (s.disk.block b)) })
  | iget dev inum =>
    match s.igetSlot dev inum with
    | none => .error (.panic "iget: no inodes")
    | some ip =>
      if 0 < (s.icache ip).ref then
        .ok (ip, s.setInode ip { s.icache ip with ref := (s.icache ip).ref + 1 })
      else
        .ok (ip, s.setInode ip { s.icache ip with
          dev := dev, inum := inum, ref := 1, busy := false, valid := false })
  | idup ip => .ok ((), s.setInode ip { s.icache ip with ref := (s.icache ip).ref + 1 })
  | lock ip =>
    if (s.icache ip).ref < 1 then .error (.panic "ilock")
    else if (s.icache ip).busy then .error .asleep
    else .ok ((), s.setInode ip { s.icache ip with busy := true })
  | load ip =>
    if (s.icache ip).valid then .ok ((), s)
    else if (s.disk.dinode (s.icache ip).inum).type = .free then .error (.panic "ilock: no type")
    else .ok ((), s.setInode ip
      { s.icache ip with valid := true, copy := s.disk.dinode (s.icache ip).inum })
  | unlock ip =>
    if (s.icache ip).busy = false ∨ (s.icache ip).ref < 1 then .error (.panic "iunlock")
    else .ok ((), s.setInode ip { s.icache ip with busy := false })
  | putTest ip =>
    if s.LastPut ip then
      if (s.icache ip).busy then .error (.panic "iput busy")
      else .ok (true, s.setInode ip { s.icache ip with busy := true })
    else .ok (false, s.setInode ip { s.icache ip with ref := (s.icache ip).ref - 1 })
  | putFreed ip => .ok ((), s.setInode ip
      { s.icache ip with busy := false, valid := false, ref := (s.icache ip).ref - 1 })
  | inode ip => .ok (s.icache ip, s)
  | addr ip n => .ok ((s.icache ip).copy.addrs n, s)
  | setInode ip f => .ok ((), s.setInode ip { s.icache ip with copy := f (s.icache ip).copy })
  | store ip => .ok ((), { s with disk := s.disk.setDinode (s.icache ip).inum (s.icache ip).copy })
  | filealloc =>
    match (List.finRange NFILE).find? fun f => decide ((s.ftable f).ref = 0) with
    | none => .ok (none, s)
    | some f => .ok (some f, s.setFile f { s.ftable f with ref := 1 })
  | filedup f =>
    if (s.ftable f).ref < 1 then .error (.panic "filedup")
    else .ok ((), s.setFile f { s.ftable f with ref := (s.ftable f).ref + 1 })
  | filedrop f =>
    if (s.ftable f).ref < 1 then .error (.panic "fileclose")
    else if 0 < (s.ftable f).ref - 1 then
      .ok (none, s.setFile f { s.ftable f with ref := (s.ftable f).ref - 1 })
    else .ok (some (s.ftable f), s.setFile f { s.ftable f with ref := 0, type := .none })
  | file f => .ok (s.ftable f, s)
  | setFile f g => .ok ((), s.setFile f (g (s.ftable f)))
  | kalloc =>
    -- no memory, or any page that is free
    match choice with
    | 0 => .ok (none, s)
    | g + 1 =>
      if s.pages g = none then .ok (some g, { s with pages := Function.update s.pages g (some {}) })
      else .error .asleep
  | pipeclose g writable => .ok ((), { s with
      pages := Function.update s.pages g ((s.pages g).bind fun x => x.close writable) })
  | cwd => .ok ((s.procs p).cwd, s)
  | setCwd ip => .ok ((), s.setProc p { s.procs p with cwd := ip })
  | ofile fd => .ok ((s.procs p).ofile fd, s)
  | setOfile fd f => .ok ((), s.setProc p
      { s.procs p with ofile := Function.update (s.procs p).ofile fd f })
  | fdalloc f =>
    match (List.finRange NOFILE).find? fun fd => ((s.procs p).ofile fd).isNone with
    | none => .ok (none, s)
    | some fd => .ok (some fd, s.setProc p
        { s.procs p with ofile := Function.update (s.procs p).ofile fd (some f) })
  | allocproc q =>
    if (s.procs q).life = .unused then .ok (true, s.setProc q { s.procs q with life := .embryo })
    else .ok (false, s)
  | setProc q g => .ok ((), s.setProc q (g (s.procs q)))
  | die => .ok ((), s.setProc p { s.procs p with life := .zombie })
  | choose => .ok (choice, s)
  | panic msg => .error (.panic msg)

/-! ## The functions of `fs.c` -/

section Code

variable {ι : Type}

/-- `panic`. -/
def panic {α : Type} (msg : String) : FsCode ι α := .op (.panic msg) Empty.elim

/-- Zero a block. -/
def bzero (bno : ℕ) : FsCode ι Unit := do
  ask (.zero bno)
  ask (.logWrite bno)

/-- Allocate a zeroed disk block. -/
def balloc : FsCode ι ℕ := do
  let (size, ninodes) ← ask .readsb
  match ← ask (.mark size ninodes) with
  | some b => do
    ask (.logWrite (BBLOCK b ninodes))
    bzero b
    return b
  | none => panic "balloc: out of blocks"

/-- Free a disk block. -/
def bfree (b : ℕ) : FsCode ι Unit := do
  let (_, ninodes) ← ask .readsb
  if !(← ask (.unmark b ninodes)) then panic "freeing free block"
  ask (.logWrite (BBLOCK b ninodes))

/-- Copy a modified in-memory inode to disk. -/
def iupdate (ip : Fin NINODE) : FsCode ι Unit := do
  ask (.store ip)
  let i ← ask (.inode ip)
  ask (.logWrite (IBLOCK i.inum))

/-- Allocate a new inode with the given type. -/
def ialloc (dev : ℕ) (type : IType) : FsCode ι (Fin NINODE) := do
  let (_, ninodes) ← ask .readsb
  let found ← Code.firstSome (List.range' 1 (ninodes - 1)) fun inum => do
    if ← ask (.claim inum type) then
      ask (.logWrite (IBLOCK inum))
      return some inum
    else return none
  match found with
  | some inum => ask (.iget dev inum)
  | none => panic "ialloc: no inodes"

/-- Lock the given inode. -/
def ilock (ip : Fin NINODE) : FsCode ι Unit := do
  ask (.lock ip)
  ask (.load ip)

/-- Unlock the given inode. -/
def iunlock (ip : Fin NINODE) : FsCode ι Unit := ask (.unlock ip)

/-- `ip->addrs[n] = a`. -/
def setAddr (ip : Fin NINODE) (n a : ℕ) : FsCode ι Unit :=
  ask (.setInode ip fun d => { d with addrs := Function.update d.addrs n a })

/-- Truncate inode (discard contents). -/
def itrunc (ip : Fin NINODE) : FsCode ι Unit := do
  Code.forEach (List.range NDIRECT) fun i => do
    let a ← ask (.addr ip i)
    if a ≠ 0 then
      bfree a
      setAddr ip i 0
  let a ← ask (.addr ip NDIRECT)
  if a ≠ 0 then
    Code.forEach (List.range NINDIRECT) fun j => do
      let b ← ask (.readAddr a j)
      if b ≠ 0 then bfree b
    bfree a
    setAddr ip NDIRECT 0
  ask (.setInode ip fun d => { d with size := 0 })
  iupdate ip

/-- Drop a reference to an in-memory inode. -/
def iput (ip : Fin NINODE) : FsCode ι Unit := do
  if ← ask (.putTest ip) then
    itrunc ip
    ask (.setInode ip fun d => { d with type := .free })
    iupdate ip
    ask (.putFreed ip)

/-- Unlock, then put. -/
def iunlockput (ip : Fin NINODE) : FsCode ι Unit := do
  iunlock ip
  iput ip

/-- The address of the `bn`th block of an inode, which is allocated if there is
none. -/
def bmap (ip : Fin NINODE) (bn : ℕ) : FsCode ι ℕ := do
  if bn < NDIRECT then
    let a ← ask (.addr ip bn)
    if a ≠ 0 then return a
    let a ← balloc
    setAddr ip bn a
    return a
  else if bn - NDIRECT < NINDIRECT then
    let a ← ask (.addr ip NDIRECT)
    let ind ← if a ≠ 0 then pure a else do
      let a ← balloc
      setAddr ip NDIRECT a
      pure a
    let a ← ask (.readAddr ind (bn - NDIRECT))
    if a ≠ 0 then return a
    let a ← balloc
    ask (.writeAddr ind (bn - NDIRECT) a)
    ask (.logWrite ind)
    return a
  else panic "bmap: out of range"

/-- The blocks that the loops of `readi` and `writei` go through. -/
def blocksOf (off n : ℕ) : List ℕ :=
  if n = 0 then []
  else List.range' (off / BSIZE) ((off + n - 1) / BSIZE - off / BSIZE + 1)

/-- `consoleread`: the inode is unlocked meanwhile. How much is read, if anything,
is not modelled. -/
def consoleread (ip : Fin NINODE) (n : ℕ) : FsCode ι (Option ℕ) := do
  iunlock ip
  let r ← ask .choose
  ilock ip
  return if r = 0 then none else some (min (r - 1) n)

/-- `consolewrite`. -/
def consolewrite (ip : Fin NINODE) (n : ℕ) : FsCode ι (Option ℕ) := do
  iunlock ip
  ilock ip
  return some n

/-- Read from inode: the number of bytes and the blocks they are in, or `none`
for `-1`. -/
def readi (ip : Fin NINODE) (off n : ℕ) : FsCode ι (Option (ℕ × List ℕ)) := do
  let i ← ask (.inode ip)
  if i.copy.type = .dev then
    if i.copy.major = CONSOLE then return (← consoleread ip n).map fun n => (n, [])
    else return none
  else if i.copy.size < off ∨ (off + n) % 4294967296 < off then return none
  else
    let n := min n (i.copy.size - off)
    let blocks ← Code.mapEach (blocksOf off n) (bmap ip)
    return some (n, blocks)

/-- Write to inode; `fill` is what is done to the contents of a block, given which
one of the inode's it is. -/
def writei (ip : Fin NINODE) (off n : ℕ) (fill : (bn b : ℕ) → FsCode ι Unit) :
    FsCode ι (Option ℕ) := do
  let i ← ask (.inode ip)
  if i.copy.type = .dev then
    if i.copy.major = CONSOLE then consolewrite ip n else return none
  else if i.copy.size < off ∨ (off + n) % 4294967296 < off then return none
  else if MAXFILE * BSIZE < off + n then return none
  else
    Code.forEach (blocksOf off n) fun bn => do
      let b ← bmap ip bn
      fill bn b
      ask (.logWrite b)
    if 0 < n ∧ i.copy.size < off + n then
      ask (.setInode ip fun d => { d with size := off + n })
      iupdate ip
    return some n

/-- Read the directory entry at `off`, which is in one block; `msg` is for a short
read. -/
def readEntry (dp : Fin NINODE) (off : ℕ) (msg : String) : FsCode ι Dirent := do
  match ← readi dp off DIRENT with
  | some (n, b :: _) =>
    if n ≠ DIRENT then panic msg
    ask (.readDirent b (off % BSIZE / DIRENT))
  | _ => panic msg

/-- Write the directory entry at `off`. -/
def writeEntry (dp : Fin NINODE) (off : ℕ) (de : Dirent) (msg : String) : FsCode ι Unit := do
  let r ← writei dp off DIRENT fun _ b => ask (.writeDirent b (off % BSIZE / DIRENT) de)
  if r ≠ some DIRENT then panic msg

/-- The offsets of the entries of a directory of this size. -/
def entriesOf (size : ℕ) : List ℕ :=
  (List.range ((size + DIRENT - 1) / DIRENT)).map (· * DIRENT)

/-- Look for a directory entry: the inode and the offset. -/
def dirlookup (dp : Fin NINODE) (name : Name) : FsCode ι (Option (Fin NINODE × ℕ)) := do
  let d ← ask (.inode dp)
  if d.copy.type ≠ .dir then panic "dirlookup not DIR"
  Code.firstSome (entriesOf d.copy.size) fun off => do
    let de ← readEntry dp off "dirlink read"
    if de.inum ≠ 0 ∧ de.name = name then
      let ip ← ask (.iget d.dev de.inum)
      return some (ip, off)
    else return none

/-- Write a new directory entry; `false` for `-1`. -/
def dirlink (dp : Fin NINODE) (name : Name) (inum : ℕ) : FsCode ι Bool := do
  match ← dirlookup dp name with
  | some (ip, _) =>
    iput ip
    return false
  | none =>
    let d ← ask (.inode dp)
    let empty ← Code.firstSome (entriesOf d.copy.size) fun off => do
      let de ← readEntry dp off "dirlink read"
      return if de.inum = 0 then some off else none
    let off := empty.getD ((d.copy.size + DIRENT - 1) / DIRENT * DIRENT)
    writeEntry dp off ⟨inum, name⟩ "dirlink"
    return true

/-- The loop of `namex`. -/
def namexLoop (nameiparent : Bool) : List Name → Fin NINODE → FsCode ι (Option (Fin NINODE × Name))
  | [], ip =>
    if nameiparent then do
      iput ip
      return none
    else return some (ip, [])
  | name :: rest, ip => do
    ilock ip
    let i ← ask (.inode ip)
    if i.copy.type ≠ .dir then
      iunlockput ip
      return none
    else if nameiparent && rest.isEmpty then
      -- stop one level early
      iunlock ip
      return some (ip, name)
    else
      match ← dirlookup ip name with
      | none =>
        iunlockput ip
        return none
      | some (next, _) =>
        iunlockput ip
        namexLoop nameiparent rest next

/-- Look up the inode for a path name, or for its parent together with the last
element. -/
def namex (path : Path) (nameiparent : Bool) : FsCode ι (Option (Fin NINODE × Name)) := do
  if path.absolute then
    let ip ← ask (.iget ROOTDEV ROOTINO)
    namexLoop nameiparent path.elems ip
  else
    match ← ask .cwd with
    | none => panic "null cwd"
    | some ip =>
      ask (.idup ip)
      namexLoop nameiparent path.elems ip

def namei (path : Path) : FsCode ι (Option (Fin NINODE)) := do
  return (← namex path false).map Prod.fst

def nameiparent (path : Path) : FsCode ι (Option (Fin NINODE × Name)) := namex path true

end Code

end StrideXv6
