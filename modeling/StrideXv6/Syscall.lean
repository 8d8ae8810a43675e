import StrideXv6.Inode

/-!
# The system calls on files (`file.c`, `sysfile.c`, `exec.c`, `exit`)

The callers of `fs.c`. Here the brackets are: `begin_op` and `end_op`. A call of
code without brackets is marked with `fs`; functions with transactions of their
own are called without.

Arguments that cannot be fetched are `none`. What depends on memory, on the
contents of regular files, on what is in pipes and on the console is left to
`choose`.
-/

namespace StrideXv6

open Bracket

/-- Kernel code with transactions. -/
abbrev KCode (ι : Type) : Type → Type := Code (fsSig ι).bracket

section Code

variable {ι : Type}

/-- Call code without brackets. -/
def fs {α : Type} (c : FsCode ι α) : KCode ι α := c.lift

/-- `begin_op()` -/
def beginOp : KCode ι Unit := .op .enter .pure

/-- `end_op()` -/
def endOp : KCode ι Unit := .op .leave .pure

/-! ## `file.c` -/

/-- Close a file: what is to be done when the last reference goes. -/
def fileclose (f : Fin NFILE) : KCode ι Unit := do
  match ← fs (ask (.filedrop f)) with
  | none => return
  | some ff =>
    match ff.type with
    | .inode =>
      beginOp
      fs (iput ff.ip)
      endOp
    | .pipe => fs (ask (.pipeclose ff.pipe ff.writable))
    | .none => return

/-- Get metadata about file `f`. -/
def filestat (f : Fin NFILE) : KCode ι ℤ := do
  let x ← fs (ask (.file f))
  if x.type = .inode then
    fs (ilock x.ip)
    let _ ← fs (ask (.inode x.ip))
    fs (iunlock x.ip)
    return 0
  else return -1

/-- `piperead` and `pipewrite`, which have nothing to do with the log. -/
def pipeio : KCode ι ℤ := do
  let r ← fs (ask .choose)
  return (r : ℤ) - 1

/-- Read from file `f`. -/
def fileread (f : Fin NFILE) (n : ℕ) : KCode ι ℤ := do
  let x ← fs (ask (.file f))
  if x.readable = false then return -1
  match x.type with
  | .pipe => pipeio
  | .inode =>
    fs (ilock x.ip)
    let y ← fs (ask (.file f))
    match ← fs (readi x.ip y.off n) with
    | some (r, _) =>
      fs (ask (.setFile f fun x => { x with off := x.off + r }))
      fs (iunlock x.ip)
      return r
    | none =>
      fs (iunlock x.ip)
      return -1
  | .none => fs (panic "fileread")

/-- The most `filewrite` writes in one transaction. -/
def maxWrite : ℕ := (LOGSIZE - 1 - 1 - 2) / 2 * 512

/-- What it writes in each: from where on, and how much. -/
def chunks (n : ℕ) : List (ℕ × ℕ) :=
  (List.range ((n + maxWrite - 1) / maxWrite)).map fun k =>
    (k * maxWrite, min maxWrite (n - k * maxWrite))

/-- The data of block `bn` after `n` bytes from `src` were written at `off`. -/
def overlay (src : ℕ → Bytes.Byte) (off n bn : ℕ) (x : ℕ → Bytes.Byte) (k : ℕ) : Bytes.Byte :=
  if k < BSIZE ∧ off ≤ bn * BSIZE + k ∧ bn * BSIZE + k < off + n then src (bn * BSIZE + k - off)
  else x k

/-- Write `n` bytes of `src` to file `f`, a few blocks at a time. -/
def filewrite (f : Fin NFILE) (n : ℤ) (src : ℕ → Bytes.Byte) : KCode ι ℤ := do
  let x ← fs (ask (.file f))
  if x.writable = false then return -1
  match x.type with
  | .pipe => pipeio
  | .inode =>
    let short ← Code.firstSome (chunks n.toNat) fun (i, n1) => do
      beginOp
      fs (ilock x.ip)
      let y ← fs (ask (.file f))
      let r ← fs (writei x.ip y.off n1 fun bn b =>
        ask (.writeData b (overlay (fun k => src (i + k)) y.off n1 bn)))
      fs (ask (.setFile f fun x => { x with off := x.off + r.getD 0 }))
      fs (iunlock x.ip)
      endOp
      match r with
      | none => return some ()
      | some r => if r ≠ n1 then fs (panic "short filewrite") else return none
    return if short = none ∧ 0 ≤ n then n else -1
  | .none => fs (panic "filewrite")

/-! ## `sysfile.c` -/

/-- A file descriptor and the file it is for. -/
def argfd (fd : ℤ) : FsCode ι (Option (Fin NOFILE × Fin NFILE)) := do
  if h : 0 ≤ fd ∧ fd < NOFILE then
    let fd : Fin NOFILE := ⟨fd.toNat, by omega⟩
    return (← ask (.ofile fd)).map fun f => (fd, f)
  else return none

def sysDup (fd : ℤ) : KCode ι ℤ := do
  match ← fs (argfd fd) with
  | none => return -1
  | some (_, f) =>
    match ← fs (ask (.fdalloc f)) with
    | none => return -1
    | some fd =>
      fs (ask (.filedup f))
      return (fd.val : ℤ)

def sysRead (fd : ℤ) (n : ℕ) : KCode ι ℤ := do
  match ← fs (argfd fd) with
  | none => return -1
  | some (_, f) => fileread f n

def sysWrite (fd n : ℤ) (src : List Bytes.Byte) : KCode ι ℤ := do
  match ← fs (argfd fd) with
  | none => return -1
  | some (_, f) => filewrite f n fun k => src.getD k 0#8

def sysClose (fd : ℤ) : KCode ι ℤ := do
  match ← fs (argfd fd) with
  | none => return -1
  | some (fd, f) =>
    fs (ask (.setOfile fd none))
    fileclose f
    return 0

def sysFstat (fd : ℤ) : KCode ι ℤ := do
  match ← fs (argfd fd) with
  | none => return -1
  | some (_, f) => filestat f

/-- `ip->nlink += k`, and the inode to disk. -/
def addLinks (ip : Fin NINODE) (k : ℤ) : FsCode ι Unit := do
  ask (.setInode ip fun d => { d with nlink := short (d.nlink + k) })
  iupdate ip

/-- The label `bad` of `sys_link`. -/
def linkBad (ip : Fin NINODE) : KCode ι ℤ := do
  fs (ilock ip)
  fs (addLinks ip (-1))
  fs (iunlockput ip)
  endOp
  return -1

/-- Create the path `new` as a link to the same inode as `old`. -/
def sysLink (old new : Option Path) : KCode ι ℤ := do
  match old, new with
  | some old, some new =>
    beginOp
    match ← fs (namei old) with
    | none =>
      endOp
      return -1
    | some ip =>
      fs (ilock ip)
      let i ← fs (ask (.inode ip))
      if i.copy.type = .dir then
        fs (iunlockput ip)
        endOp
        return -1
      else
        fs (addLinks ip 1)
        fs (iunlock ip)
        match ← fs (nameiparent new) with
        | none => linkBad ip
        | some (dp, name) =>
          fs (ilock dp)
          let d ← fs (ask (.inode dp))
          let linked ← if d.dev ≠ i.dev then pure false else fs (dirlink dp name i.inum)
          if linked = false then
            fs (iunlockput dp)
            linkBad ip
          else
            fs (iunlockput dp)
            fs (iput ip)
            endOp
            return 0
  | _, _ => return -1

/-- Is the directory empty except for `.` and `..`? -/
def isdirempty (dp : Fin NINODE) : FsCode ι Bool := do
  let d ← ask (.inode dp)
  let found ← Code.firstSome ((entriesOf d.copy.size).drop 2) fun off => do
    let de ← readEntry dp off "isdirempty: readi"
    return if de.inum ≠ 0 then some () else none
  return found = none

/-- The label `bad` of `sys_unlink`. -/
def unlinkBad (dp : Fin NINODE) : KCode ι ℤ := do
  fs (iunlockput dp)
  endOp
  return -1

/-- Its end: clear the entry, and count the link less. -/
def unlinkEntry (dp ip : Fin NINODE) (i : Inode) (off : ℕ) : FsCode ι Unit := do
  writeEntry dp off {} "unlink: writei"
  if i.copy.type = .dir then addLinks dp (-1)
  iunlockput dp
  addLinks ip (-1)
  iunlockput ip

/-- `.` -/
def dot : Name := [46]

/-- `..` -/
def dotdot : Name := [46, 46]

def sysUnlink (path : Option Path) : KCode ι ℤ := do
  match path with
  | none => return -1
  | some path =>
    beginOp
    match ← fs (nameiparent path) with
    | none =>
      endOp
      return -1
    | some (dp, name) =>
      fs (ilock dp)
      if name = dot ∨ name = dotdot then unlinkBad dp
      else
        match ← fs (dirlookup dp name) with
        | none => unlinkBad dp
        | some (ip, off) =>
          fs (ilock ip)
          let i ← fs (ask (.inode ip))
          if i.copy.nlink < 1 then fs (panic "unlink: nlink < 1")
          let empty ← if i.copy.type = .dir then fs (isdirempty ip) else pure true
          if empty = false then
            fs (iunlockput ip)
            unlinkBad dp
          else
            fs (unlinkEntry dp ip i off)
            endOp
            return 0

/-- Make a new inode with a name; it is locked. -/
def create (path : Path) (type : IType) (major minor : ℕ) : FsCode ι (Option (Fin NINODE)) := do
  match ← nameiparent path with
  | none => return none
  | some (dp, name) =>
    ilock dp
    match ← dirlookup dp name with
    | some (ip, _) =>
      iunlockput dp
      ilock ip
      let i ← ask (.inode ip)
      if type = .file ∧ i.copy.type = .file then return some ip
      else
        iunlockput ip
        return none
    | none =>
      let d ← ask (.inode dp)
      let ip ← ialloc d.dev type
      ilock ip
      ask (.setInode ip fun i =>
        { i with major := major % 65536, minor := minor % 65536, nlink := 1 })
      iupdate ip
      let i ← ask (.inode ip)
      if type = .dir then
        -- create `.` and `..` entries; no link for `.`
        addLinks dp 1
        let dots ← (do
          if ← dirlink ip dot i.inum then dirlink ip dotdot d.inum else return false)
        if dots = false then panic "create dots"
      if (← dirlink dp name i.inum) = false then panic "create: dirlink"
      iunlockput dp
      return some ip

def O_RDONLY : ℕ := 0x000

def O_WRONLY : ℕ := 0x001

def O_RDWR : ℕ := 0x002

def O_CREATE : ℕ := 0x200

/-- The inode that `sys_open` opens, locked. -/
def openInode (path : Path) (omode : ℕ) : FsCode ι (Option (Fin NINODE)) := do
  if omode &&& O_CREATE ≠ 0 then create path .file 0 0
  else
    match ← namei path with
    | none => return none
    | some ip =>
      ilock ip
      let i ← ask (.inode ip)
      if i.copy.type = .dir ∧ omode ≠ O_RDONLY then
        iunlockput ip
        return none
      else return some ip

def sysOpen (path : Option Path) (omode : ℕ) : KCode ι ℤ := do
  match path with
  | none => return -1
  | some path =>
    beginOp
    match ← fs (openInode path omode) with
    | none =>
      endOp
      return -1
    | some ip =>
      match ← fs (ask .filealloc) with
      | none =>
        fs (iunlockput ip)
        endOp
        return -1
      | some f =>
        match ← fs (ask (.fdalloc f)) with
        | none =>
          fileclose f
          fs (iunlockput ip)
          endOp
          return -1
        | some fd =>
          fs (iunlock ip)
          endOp
          fs (ask (.setFile f fun x => { x with
            type := .inode, ip := ip, off := 0
            readable := omode &&& O_WRONLY = 0
            writable := omode &&& O_WRONLY ≠ 0 ∨ omode &&& O_RDWR ≠ 0 }))
          return (fd.val : ℤ)

/-- What `sys_mkdir` and `sys_mknod` do with the inode they make. -/
def sysMake (new : FsCode ι (Option (Fin NINODE))) : KCode ι ℤ := do
  beginOp
  match ← fs new with
  | none =>
    endOp
    return -1
  | some ip =>
    fs (iunlockput ip)
    endOp
    return 0

def sysMkdir (path : Option Path) : KCode ι ℤ :=
  sysMake do
    match path with
    | none => return none
    | some path => create path .dir 0 0

def sysMknod (path : Option Path) (numbers : Option (ℕ × ℕ)) : KCode ι ℤ :=
  sysMake do
    match path, numbers with
    | some path, some (major, minor) => create path .dev major minor
    | _, _ => return none

/-- `iput(proc->cwd)` -/
def iputCwd : FsCode ι Unit := do
  match ← ask .cwd with
  | none => panic "null cwd"
  | some ip => iput ip

/-- The inode of a path that may be missing. -/
def argnamei (path : Option Path) : FsCode ι (Option (Fin NINODE)) := do
  match path with
  | none => return none
  | some path => namei path

def sysChdir (path : Option Path) : KCode ι ℤ := do
  beginOp
  match ← fs (argnamei path) with
  | none =>
    endOp
    return -1
  | some ip =>
    fs (ilock ip)
    let i ← fs (ask (.inode ip))
    if i.copy.type ≠ .dir then
      fs (iunlockput ip)
      endOp
      return -1
    else
      fs (iunlock ip)
      fs iputCwd
      endOp
      fs (ask (.setCwd (some ip)))
      return 0

/-- `pipealloc`: two files, or none. -/
def pipealloc : KCode ι (Option (Fin NFILE × Fin NFILE)) := do
  match ← fs (ask .filealloc) with
  | none => return none
  | some f0 =>
    match ← fs (ask .filealloc) with
    | none =>
      fileclose f0
      return none
    | some f1 =>
      match ← fs (ask .kalloc) with
      | none =>
        fileclose f0
        fileclose f1
        return none
      | some g =>
        fs (ask (.setFile f0 fun x =>
          { x with type := .pipe, readable := true, writable := false, pipe := g }))
        fs (ask (.setFile f1 fun x =>
          { x with type := .pipe, readable := false, writable := true, pipe := g }))
        return some (f0, f1)

def sysPipe : KCode ι ℤ := do
  match ← pipealloc with
  | none => return -1
  | some (rf, wf) =>
    match ← fs (ask (.fdalloc rf)) with
    | none =>
      fileclose rf
      fileclose wf
      return -1
    | some fd0 =>
      match ← fs (ask (.fdalloc wf)) with
      | none =>
        fs (ask (.setOfile fd0 none))
        fileclose rf
        fileclose wf
        return -1
      | some _ => return 0

/-! ## `exec.c` and `proc.c` -/

/-- The size of a page. -/
def PGSIZE : ℕ := 4096

/-- `loaduvm`: read a segment page by page. -/
def loaduvm (ip : Fin NINODE) (off sz : ℕ) : FsCode ι Bool := do
  let failed ← Code.firstSome (List.range ((sz + PGSIZE - 1) / PGSIZE)) fun k => do
    let n := min PGSIZE (sz - k * PGSIZE)
    let r ← readi ip ((off + k * PGSIZE) % 4294967296) n
    return if r.map Prod.fst = some n then none else some ()
  return failed = none

/-- What `exec` reads of the program; `false` for `goto bad`. A result of `-1` of
the first `readi` is not less than `sizeof(elf)`, which is unsigned. -/
def execLoad (ip : Fin NINODE) : FsCode ι Bool := do
  match ← readi ip 0 52 with
  | some (n, _) => if n < 52 then return false
  | none => pure ()
  -- the magic number, and memory for the page table
  if (← ask .choose) = 0 then return false
  let phoff ← ask .choose
  let phnum ← ask .choose
  let failed ← Code.firstSome (List.range phnum) fun k => do
    let r ← readi ip ((phoff + k * 32) % 4294967296) 32
    if r.map Prod.fst ≠ some 32 then return some ()
    -- not to be loaded, not acceptable, or a segment
    match ← ask .choose with
    | 0 => return none
    | 1 => return some ()
    | _ =>
      let off ← ask .choose
      let filesz ← ask .choose
      if ← loaduvm ip off filesz then return none else return some ()
  return failed = none

/-- `exec`: load the program and replace the image. -/
def kexec (path : Path) : KCode ι ℤ := do
  beginOp
  match ← fs (namei path) with
  | none =>
    endOp
    return -1
  | some ip =>
    fs (ilock ip)
    let loaded ← fs (execLoad ip)
    fs (iunlockput ip)
    endOp
    if loaded = false then return -1
    -- the stack and the arguments
    return if (← fs (ask .choose)) = 0 then -1 else 0

def sysExec (path : Option Path) : KCode ι ℤ := do
  match path with
  | none => return -1
  | some path => kexec path

/-- `forks`, as far as files are concerned, when `allocproc` finds the slot `np`. -/
def forkFiles (np : ι) : KCode ι ℤ := do
  if (← fs (ask (.allocproc np))) = false then return -1
  if (← fs (ask .choose)) = 0 then
    -- `copyuvm` failed
    fs (ask (.setProc np fun x => { x with life := .unused }))
    return -1
  Code.forEach (List.finRange NOFILE) fun fd => do
    match ← fs (ask (.ofile fd)) with
    | none => return
    | some f =>
      fs (ask (.filedup f))
      fs (ask (.setProc np fun x => { x with ofile := Function.update x.ofile fd (some f) }))
  match ← fs (ask .cwd) with
  | none => fs (panic "null cwd")
  | some ip =>
    fs (ask (.idup ip))
    fs (ask (.setProc np fun x => { x with cwd := some ip, life := .live }))
    let pid ← fs (ask .choose)
    return pid

/-- `exit`, as far as files are concerned. -/
def exitFiles (isRoundRobin isInit : Bool) : KCode ι ℤ := do
  if isInit then fs (panic "init exiting")
  Code.forEach (List.finRange NOFILE) fun fd => do
    match ← fs (ask (.ofile fd)) with
    | none => return
    | some f =>
      fileclose f
      fs (ask (.setOfile fd none))
  if isRoundRobin then beginOp
  fs iputCwd
  if isRoundRobin then endOp
  fs (ask (.setCwd none))
  fs (ask .die)
  return 0

end Code

/-- The system calls on files, with their arguments. -/
inductive Syscall (ι : Type) : Type where
  /-- into the slot `np` -/
  | fork : (np : ι) → Syscall ι
  | exit
  | pipe
  | read : (fd : ℤ) → (n : ℕ) → Syscall ι
  | exec : Option Path → Syscall ι
  | fstat : (fd : ℤ) → Syscall ι
  | chdir : Option Path → Syscall ι
  | dup : (fd : ℤ) → Syscall ι
  | openFile : Option Path → (omode : ℕ) → Syscall ι
  /-- the first `n` bytes of the buffer -/
  | write : (fd n : ℤ) → List Bytes.Byte → Syscall ι
  | mknod : Option Path → Option (ℕ × ℕ) → Syscall ι
  | unlink : Option Path → Syscall ι
  | link : Option Path → Option Path → Syscall ι
  | mkdir : Option Path → Syscall ι
  | close : (fd : ℤ) → Syscall ι
  deriving DecidableEq, Repr

/-- The code of a system call. -/
def Syscall.code {ι : Type} (isRoundRobin isInit : Bool) : Syscall ι → KCode ι ℤ
  | fork np => forkFiles np
  | exit => exitFiles isRoundRobin isInit
  | pipe => sysPipe
  | read fd n => sysRead fd n
  | exec path => sysExec path
  | fstat fd => sysFstat fd
  | chdir path => sysChdir path
  | dup fd => sysDup fd
  | openFile path omode => sysOpen path omode
  | write fd n src => sysWrite fd n src
  | mknod path numbers => sysMknod path numbers
  | unlink path => sysUnlink path
  | link old new => sysLink old new
  | mkdir path => sysMkdir path
  | close fd => sysClose fd

end StrideXv6
