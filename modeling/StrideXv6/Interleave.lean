import StrideXv6.Syscall
import StrideXv6.Transaction
import Mathlib.Data.Fintype.Prod

/-!
# Log writes of all processes (`log_write`)

Any number of processes make system calls; each is somewhere in the code of one,
and the operations they ask for come in any order. `begin_op` and `end_op` are
carried out by the machine of the transaction protocol, step by step: a process
may have to sleep in the one and to commit in the other. Since `sys_open` can
call `fileclose`, a process can be inside of two transactions; for the protocol
it is then two users of the log, one for each depth.

All code keeps to the discipline that `log_write` is called inside a transaction
only (`fits_syscall`), apart from two places where it depends on what is found:
`exit` puts its directory outside of one, and so may free it, and `fileread`
reads outside of one, and so would allocate a block the file does not have.
`Sys.Sheltered` excludes these two.
-/

namespace StrideXv6

open Bracket Machine

/-! ## The discipline -/

/-- The answers that operations outside of transactions get: no inode is to be
freed, and no block is missing. -/
def FsOp.Outside {ι : Type} : (o : FsOp ι) → o.Ret → Prop
  | putTest _, r => r = false
  | addr _ _, r => r ≠ 0
  | readAddr _ _, r => r ≠ 0
  | _, _ => True

/-- The operation is a call of `log_write`. -/
def FsOp.IsLogWrite {ι : Type} : FsOp ι → Prop
  | logWrite _ => True
  | _ => False

/-- `log_write` is for inside; transactions can be nested once. -/
def logDiscipline (ι : Type) : Discipline (fsSig ι) where
  limit := 2
  guarded := FsOp.IsLogWrite
  outside := FsOp.Outside

section Unguarded

variable {ι : Type}

theorem unguarded_ask {o : FsOp ι} (ho : ¬ (logDiscipline ι).guarded o) :
    Unguarded (logDiscipline ι) (ask o) :=
  ⟨ho, fun _ _ => trivial⟩

theorem unguarded_panic {α : Type} (msg : String) :
    Unguarded (logDiscipline ι) (panic msg : FsCode ι α) :=
  ⟨fun h => h, fun r => r.elim⟩

theorem unguarded_ilock (ip : Fin NINODE) : Unguarded (logDiscipline ι) (ilock ip) :=
  ⟨fun h => h, fun _ _ => unguarded_ask fun h => h⟩

theorem unguarded_iunlock (ip : Fin NINODE) : Unguarded (logDiscipline ι) (iunlock ip) :=
  unguarded_ask fun h => h

/-- No inode is freed. -/
theorem unguarded_iput (ip : Fin NINODE) : Unguarded (logDiscipline ι) (iput ip) := by
  refine ⟨fun h => h, fun r hr => ?_⟩
  obtain rfl : r = false := hr
  trivial

theorem unguarded_iputCwd : Unguarded (logDiscipline ι) iputCwd := by
  refine ⟨fun h => h, fun r _ => ?_⟩
  cases r with
  | none => exact unguarded_panic _
  | some ip => exact unguarded_iput ip

/-- No block is missing. -/
theorem unguarded_bmap (ip : Fin NINODE) (bn : ℕ) : Unguarded (logDiscipline ι) (bmap ip bn) := by
  unfold bmap
  split
  · refine ⟨fun h => h, fun (a : ℕ) (ha : a ≠ 0) => ?_⟩
    change Unguarded _ (if a ≠ 0 then _ else _)
    rw [if_pos ha]
    trivial
  · split
    · refine ⟨fun h => h, fun (a : ℕ) (ha : a ≠ 0) => ?_⟩
      change Unguarded _ (if a ≠ 0 then _ else _)
      rw [if_pos ha]
      refine ⟨fun h => h, fun (b : ℕ) (hb : b ≠ 0) => ?_⟩
      change Unguarded _ (if b ≠ 0 then _ else _)
      rw [if_pos hb]
      trivial
    · exact unguarded_panic _

theorem unguarded_consoleread (ip : Fin NINODE) (n : ℕ) :
    Unguarded (logDiscipline ι) (consoleread ip n) :=
  (unguarded_iunlock ip).bind fun _ => ⟨fun h => h, fun _ _ => (unguarded_ilock ip).bind fun _ => trivial⟩

theorem unguarded_readi (ip : Fin NINODE) (off n : ℕ) : Unguarded (logDiscipline ι) (readi ip off n) := by
  refine ⟨fun h => h, fun i _ => ?_⟩
  change Unguarded _ (if _ then _ else if _ then _ else _)
  split
  · split
    · exact (unguarded_consoleread ip n).bind fun _ => trivial
    · trivial
  · split
    · trivial
    · exact (Unguarded.mapEach (unguarded_bmap ip)).bind fun _ => trivial

theorem unguarded_argfd (fd : ℤ) : Unguarded (logDiscipline ι) (argfd fd) := by
  unfold argfd
  split
  · exact ⟨fun h => h, fun _ _ => trivial⟩
  · trivial

end Unguarded

/-! ## All system calls keep to it -/

section Fits

variable {ι : Type} {d : ℕ} {α β : Type} {Q : β → ℕ → Prop}

/-- The code comes back to the depth it started at. -/
def Level (d : ℕ) (c : KCode ι α) : Prop := Fits (logDiscipline ι) (fun _ e => e = d) d c

theorem fits_unguarded {c : FsCode ι α} {f : α → KCode ι β} (hc : Unguarded (logDiscipline ι) c)
    (hf : ∀ a, Fits (logDiscipline ι) Q d (f a)) : Fits (logDiscipline ι) Q d (fs c >>= f) :=
  (Fits.unguarded hc).seq hf

theorem fits_ask {o : FsOp ι} {f : o.Ret → KCode ι β} (ho : ¬ o.IsLogWrite)
    (hf : ∀ a, Fits (logDiscipline ι) Q d (f a)) :
    Fits (logDiscipline ι) Q d (fs (ask o) >>= f) :=
  fits_unguarded (unguarded_ask ho) hf

/-- Code of `fs.c` inside a transaction. -/
theorem fits_fs {c : FsCode ι α} {f : α → KCode ι β}
    (hf : ∀ a, Fits (logDiscipline ι) Q (d + 1) (f a)) :
    Fits (logDiscipline ι) Q (d + 1) (fs c >>= f) :=
  Fits.lift_bind (Nat.succ_pos d) hf

theorem fits_beginOp {f : Unit → KCode ι β} (hd : d < 2)
    (hf : Fits (logDiscipline ι) Q (d + 1) (f ())) :
    Fits (logDiscipline ι) Q d (beginOp >>= f) :=
  ⟨hd, hf⟩

theorem fits_endOp {f : Unit → KCode ι β} (hf : Fits (logDiscipline ι) Q d (f ())) :
    Fits (logDiscipline ι) Q (d + 1) (endOp >>= f) :=
  ⟨Nat.succ_pos d, hf⟩

theorem level_pure (a : α) : Level d (pure a : KCode ι α) := rfl

theorem level_panic (msg : String) : Level d (fs (panic msg) : KCode ι α) :=
  Fits.unguarded (unguarded_panic msg)

theorem fits_panic {msg : String} {f : α → KCode ι β} :
    Fits (logDiscipline ι) Q d (fs (panic msg) >>= f) :=
  ⟨fun h => h.elim, fun r => r.elim⟩

theorem fits_fileclose (hd : d < 2) (f : Fin NFILE) : Level d (fileclose f : KCode ι Unit) := by
  refine fits_ask (fun h => h) fun r => ?_
  rcases r with _ | ff
  · exact level_pure ()
  · change Level d (match ff.type with | _ => _)
    cases ff.type with
    | none => exact level_pure ()
    | pipe => exact Fits.unguarded (unguarded_ask fun h => h)
    | inode => exact fits_beginOp hd (fits_fs fun _ => fits_endOp (level_pure ()))

theorem fits_filestat (f : Fin NFILE) : Level d (filestat f : KCode ι ℤ) := by
  refine fits_ask (fun h => h) fun x => ?_
  change Level d (if _ then _ else _)
  split
  · refine fits_unguarded (unguarded_ilock _) fun _ => fits_ask (fun h => h) fun _ => ?_
    exact fits_unguarded (unguarded_iunlock _) fun _ => level_pure _
  · exact level_pure _

theorem fits_pipeio : Level d (pipeio : KCode ι ℤ) :=
  fits_ask (fun h => h) fun _ => level_pure _

/-- Reading is done without a transaction. -/
theorem fits_fileread (f : Fin NFILE) (n : ℕ) : Level d (fileread f n : KCode ι ℤ) := by
  refine fits_ask (fun h => h) fun x => ?_
  change Level d (if _ then _ else _)
  split
  · exact level_pure _
  · cases x.type with
    | none => exact level_panic _
    | pipe => exact fits_pipeio
    | inode =>
      refine fits_unguarded (unguarded_ilock _) fun _ => fits_ask (fun h => h) fun y => ?_
      refine fits_unguarded (unguarded_readi _ _ _) fun r => ?_
      rcases r with _ | ⟨r, -⟩
      · exact fits_unguarded (unguarded_iunlock _) fun _ => level_pure _
      · exact fits_ask (fun h => h) fun _ => fits_unguarded (unguarded_iunlock _) fun _ => level_pure _

theorem fits_filewrite (f : Fin NFILE) (n : ℤ) (src : ℕ → Bytes.Byte) :
    Level 0 (filewrite f n src : KCode ι ℤ) := by
  refine fits_ask (fun h => h) fun x => ?_
  change Level 0 (if _ then _ else _)
  split
  · exact level_pure _
  · cases x.type with
    | none => exact level_panic _
    | pipe => exact fits_pipeio
    | inode =>
      -- one transaction for each turn of the loop
      refine (Fits.firstSome fun n1 => ?_).seq fun _ => level_pure _
      refine fits_beginOp (by decide) (fits_fs fun _ => fits_fs fun y => fits_fs fun r => ?_)
      refine fits_fs fun _ => fits_fs fun _ => fits_endOp ?_
      rcases r with _ | r
      · exact level_pure _
      · change Level 0 (if _ then _ else _)
        split
        · exact level_panic _
        · exact level_pure _

theorem fits_sysDup (fd : ℤ) : Level 0 (sysDup fd : KCode ι ℤ) := by
  refine fits_unguarded (unguarded_argfd fd) fun r => ?_
  rcases r with _ | ⟨-, f⟩
  · exact level_pure _
  · refine fits_ask (fun h => h) fun r => ?_
    rcases r with _ | fd
    · exact level_pure _
    · exact fits_ask (fun h => h) fun _ => level_pure _

theorem fits_sysRead (fd : ℤ) (n : ℕ) : Level 0 (sysRead fd n : KCode ι ℤ) := by
  refine fits_unguarded (unguarded_argfd fd) fun r => ?_
  rcases r with _ | ⟨-, f⟩
  · exact level_pure _
  · exact fits_fileread f n

theorem fits_sysWrite (fd n : ℤ) (src : List Bytes.Byte) :
    Level 0 (sysWrite fd n src : KCode ι ℤ) := by
  refine fits_unguarded (unguarded_argfd fd) fun r => ?_
  rcases r with _ | ⟨-, f⟩
  · exact level_pure _
  · exact fits_filewrite f n _

theorem fits_sysClose (fd : ℤ) : Level 0 (sysClose fd : KCode ι ℤ) := by
  refine fits_unguarded (unguarded_argfd fd) fun r => ?_
  rcases r with _ | ⟨fd, f⟩
  · exact level_pure _
  · refine fits_ask (fun h => h) fun _ => ?_
    exact (fits_fileclose (by decide) f).seq fun _ => level_pure _

theorem fits_sysFstat (fd : ℤ) : Level 0 (sysFstat fd : KCode ι ℤ) := by
  refine fits_unguarded (unguarded_argfd fd) fun r => ?_
  rcases r with _ | ⟨-, f⟩
  · exact level_pure _
  · exact fits_filestat f

theorem fits_linkBad (ip : Fin NINODE) :
    Fits (logDiscipline ι) (fun _ e => e = 0) 1 (linkBad ip) :=
  fits_fs fun _ => fits_fs fun _ => fits_fs fun _ => fits_endOp (level_pure _)

theorem fits_sysLink (old new : Option Path) : Level 0 (sysLink old new : KCode ι ℤ) := by
  rcases old with _ | old
  · exact level_pure _
  rcases new with _ | new
  · exact level_pure _
  refine fits_beginOp (by decide) (fits_fs fun r => ?_)
  rcases r with _ | ip
  · exact fits_endOp (level_pure _)
  refine fits_fs fun _ => fits_fs fun i => ?_
  change Fits _ _ 1 (if _ then _ else _)
  split
  · exact fits_fs fun _ => fits_endOp (level_pure _)
  refine fits_fs fun _ => fits_fs fun _ => fits_fs fun r => ?_
  rcases r with _ | ⟨dp, name⟩
  · exact fits_linkBad ip
  refine fits_fs fun _ => fits_fs fun dd => ?_
  have hend : ∀ linked : Bool, Fits (logDiscipline ι) (fun _ e => e = 0) 1
      (if linked = false then do fs (iunlockput dp); linkBad ip
        else do fs (iunlockput dp); fs (iput ip); endOp; return 0) := by
    intro linked
    split
    · exact fits_fs fun _ => fits_linkBad ip
    · exact fits_fs fun _ => fits_fs fun _ => fits_endOp (level_pure _)
  change Fits _ _ 1 (if _ then _ else _)
  split
  · exact hend false
  · exact fits_fs hend

theorem fits_unlinkBad (dp : Fin NINODE) :
    Fits (logDiscipline ι) (fun _ e => e = 0) 1 (unlinkBad dp) :=
  fits_fs fun _ => fits_endOp (level_pure _)

theorem fits_sysUnlink (path : Option Path) : Level 0 (sysUnlink path : KCode ι ℤ) := by
  rcases path with _ | path
  · exact level_pure _
  refine fits_beginOp (by decide) (fits_fs fun r => ?_)
  rcases r with _ | ⟨dp, name⟩
  · exact fits_endOp (level_pure _)
  refine fits_fs fun _ => ?_
  change Fits _ _ 1 (if _ then _ else _)
  split
  · exact fits_unlinkBad dp
  refine fits_fs fun r => ?_
  rcases r with _ | ⟨ip, off⟩
  · exact fits_unlinkBad dp
  refine fits_fs fun _ => fits_fs fun i => ?_
  have hend : ∀ empty : Bool, Fits (logDiscipline ι) (fun _ e => e = 0) 1
      (if empty = false then do fs (iunlockput ip); unlinkBad dp
        else do fs (unlinkEntry dp ip i off); endOp; return 0) := by
    intro empty
    split
    · exact fits_fs fun _ => fits_unlinkBad dp
    · exact fits_fs fun _ => fits_endOp (level_pure _)
  change Fits _ _ 1 (if _ then _ else _)
  split
  · exact fits_panic
  · change Fits _ _ 1 (if _ then _ else _)
    split
    · exact fits_fs hend
    · exact hend true

theorem fits_sysOpen (path : Option Path) (omode : ℕ) :
    Level 0 (sysOpen path omode : KCode ι ℤ) := by
  rcases path with _ | path
  · exact level_pure _
  refine fits_beginOp (by decide) (fits_fs fun r => ?_)
  rcases r with _ | ip
  · exact fits_endOp (level_pure _)
  refine fits_fs fun r => ?_
  rcases r with _ | f
  · exact fits_fs fun _ => fits_endOp (level_pure _)
  refine fits_fs fun r => ?_
  rcases r with _ | fd
  · -- a second transaction, if the new file were still of an inode
    refine (fits_fileclose (by decide) f).seq fun _ => ?_
    exact fits_fs fun _ => fits_endOp (level_pure _)
  · exact fits_fs fun _ => fits_endOp (fits_ask (fun h => h) fun _ => level_pure _)

theorem fits_sysMake (new : FsCode ι (Option (Fin NINODE))) : Level 0 (sysMake new) := by
  refine fits_beginOp (by decide) (fits_fs fun r => ?_)
  rcases r with _ | ip
  · exact fits_endOp (level_pure _)
  · exact fits_fs fun _ => fits_endOp (level_pure _)

theorem fits_sysChdir (path : Option Path) : Level 0 (sysChdir path : KCode ι ℤ) := by
  refine fits_beginOp (by decide) (fits_fs fun r => ?_)
  rcases r with _ | ip
  · exact fits_endOp (level_pure _)
  refine fits_fs fun _ => fits_fs fun i => ?_
  change Fits _ _ 1 (if _ then _ else _)
  split
  · exact fits_fs fun _ => fits_endOp (level_pure _)
  · refine fits_fs fun _ => fits_fs fun _ => fits_endOp ?_
    exact fits_ask (fun h => h) fun _ => level_pure _

theorem fits_pipealloc : Level 0 (pipealloc : KCode ι (Option (Fin NFILE × Fin NFILE))) := by
  refine fits_ask (fun h => h) fun r => ?_
  rcases r with _ | f0
  · exact level_pure _
  refine fits_ask (fun h => h) fun r => ?_
  rcases r with _ | f1
  · exact (fits_fileclose (by decide) f0).seq fun _ => level_pure _
  refine fits_ask (fun h => h) fun r => ?_
  rcases r with _ | g
  · refine (fits_fileclose (by decide) f0).seq fun _ => ?_
    exact (fits_fileclose (by decide) f1).seq fun _ => level_pure _
  · exact fits_ask (fun h => h) fun _ => fits_ask (fun h => h) fun _ => level_pure _

theorem fits_sysPipe : Level 0 (sysPipe : KCode ι ℤ) := by
  refine fits_pipealloc.seq fun r => ?_
  rcases r with _ | ⟨rf, wf⟩
  · exact level_pure _
  have hclose : Level 0 (do fileclose rf; fileclose wf; return -1 : KCode ι ℤ) :=
    (fits_fileclose (by decide) rf).seq fun _ =>
      (fits_fileclose (by decide) wf).seq fun _ => level_pure _
  refine fits_ask (fun h => h) fun r => ?_
  rcases r with _ | fd0
  · exact hclose
  refine fits_ask (fun h => h) fun r => ?_
  rcases r with _ | fd1
  · exact fits_ask (fun h => h) fun _ => hclose
  · exact level_pure _

theorem fits_kexec (path : Path) : Level 0 (kexec path : KCode ι ℤ) := by
  refine fits_beginOp (by decide) (fits_fs fun r => ?_)
  rcases r with _ | ip
  · exact fits_endOp (level_pure _)
  refine fits_fs fun _ => fits_fs fun loaded => fits_fs fun _ => fits_endOp ?_
  change Level 0 (if _ then _ else _)
  split
  · exact level_pure _
  · exact fits_ask (fun h => h) fun _ => level_pure _

theorem fits_sysExec (path : Option Path) : Level 0 (sysExec path : KCode ι ℤ) := by
  rcases path with _ | path
  · exact level_pure _
  · exact fits_kexec path

theorem fits_forkFiles (np : ι) : Level 0 (forkFiles np) := by
  refine fits_ask (fun h => h) fun r => ?_
  change Level 0 (if _ then _ else _)
  split
  · exact level_pure _
  refine fits_ask (fun h => h) fun r => ?_
  change Level 0 (if _ then _ else _)
  split
  · exact fits_ask (fun h => h) fun _ => level_pure _
  refine (Fits.forEach fun fd => ?_).seq fun _ => ?_
  · refine fits_ask (fun h => h) fun r => ?_
    rcases r with _ | f
    · exact level_pure _
    · exact fits_ask (fun h => h) fun _ => Fits.unguarded (unguarded_ask fun h => h)
  · refine fits_ask (fun h => h) fun r => ?_
    rcases r with _ | ip
    · exact level_panic _
    · refine fits_ask (fun h => h) fun _ => fits_ask (fun h => h) fun _ => ?_
      exact fits_ask (fun h => h) fun _ => level_pure _

/-- `exit` in stride mode. -/
theorem fits_exitFiles (isInit : Bool) : Level 0 (exitFiles false isInit : KCode ι ℤ) := by
  change Level 0 (if _ then _ else _)
  split
  · exact fits_panic
  refine (Fits.forEach fun fd => ?_).seq fun _ => ?_
  · refine fits_ask (fun h => h) fun r => ?_
    rcases r with _ | f
    · exact level_pure _
    · exact (fits_fileclose (by decide) f).seq fun _ => Fits.unguarded (unguarded_ask fun h => h)
  · -- the directory is put outside of any transaction
    refine fits_unguarded unguarded_iputCwd fun _ => fits_ask (fun h => h) fun _ => ?_
    exact fits_ask (fun h => h) fun _ => level_pure _

/-- All system calls keep to the discipline. -/
theorem fits_syscall (isInit : Bool) (c : Syscall ι) : Level 0 (c.code false isInit) := by
  cases c with
  | fork np => exact fits_forkFiles np
  | exit => exact fits_exitFiles isInit
  | pipe => exact fits_sysPipe
  | read fd n => exact fits_sysRead fd n
  | exec path => exact fits_sysExec path
  | fstat fd => exact fits_sysFstat fd
  | chdir path => exact fits_sysChdir path
  | dup fd => exact fits_sysDup fd
  | openFile path omode => exact fits_sysOpen path omode
  | write fd n src => exact fits_sysWrite fd n src
  | mknod path numbers => exact fits_sysMake _
  | unlink path => exact fits_sysUnlink path
  | link old new => exact fits_sysLink old new
  | mkdir path => exact fits_sysMake _
  | close fd => exact fits_sysClose fd

end Fits

/-! ## The machine -/

/-- Processes in system calls, in stride mode. -/
structure Sys (ι : Type) : Type where
  files : Files ι
  /-- the log and its users: a process at each depth -/
  txn : Txn (ι × Fin 2)
  /-- how many transactions each process is inside of -/
  depth : ι → ℕ
  /-- what each process has left to do in the kernel; `pure` in user space -/
  code : ι → KCode ι ℤ
  initproc : ι

/-- What can happen next. -/
inductive SysAction (ι : Type) : Type where
  /-- a process makes a system call -/
  | call : ι → Syscall ι → SysAction ι
  /-- a process goes on in the kernel -/
  | step : ι → (choice : ℕ) → SysAction ι
  /-- a sleeper in `begin_op` is woken, for whatever reason -/
  | wake : ι → SysAction ι
  /-- a zombie is waited for -/
  | reap : ι → SysAction ι
  deriving DecidableEq, Repr

namespace Sys

variable {ι : Type} [Fintype ι] [DecidableEq ι]

/-- After `userinit`: the first process is in the root directory. -/
def boot (disk : Disk) (initproc : ι) : Sys ι where
  files := .boot disk initproc
  txn := Txn.init {}
  depth := fun _ => 0
  code := fun _ => .pure 0
  initproc := initproc

local instance twoDepths : NeZero 2 := ⟨by decide⟩

/-- The user of the log that process `p` is at depth `d`. -/
def user (p : ι) (d : ℕ) : ι × Fin 2 := (p, Fin.ofNat 2 d)

/-- Process `p` goes on with the code `c`. -/
def goOn (s : Sys ι) (p : ι) (c : KCode ι ℤ) : Sys ι :=
  { s with code := Function.update s.code p c }

/-- Process `p` is now at depth `d`. -/
def setDepth (s : Sys ι) (p : ι) (d : ℕ) : Sys ι :=
  { s with depth := Function.update s.depth p d }

/-- A step of process `p` in `begin_op`, after which it does `c`. -/
def beginStep (s : Sys ι) (p : ι) (c : KCode ι ℤ) : Option (Sys ι) :=
  let u := user p (s.depth p)
  if 2 ≤ s.depth p then none
  else
    match s.txn.pc u with
    | .outside => (s.txn.step (.beginOp u)).map fun t => { s with txn := t }
    | .entering => (s.txn.step (.enter u)).map fun t =>
      if (t.pc u).Inside then ({ s with txn := t }.setDepth p (s.depth p + 1)).goOn p c
      else { s with txn := t }
    | _ => none

/-- In `write_log`, a block may have the number of the log block that it is copied to. Both are
read from `log.dev`, so that `bread` waits for a buffer that the process holds itself. -/
def waitsForItself (s : Sys ι) (u : ι × Fin 2) : Bool :=
  match s.txn.pc u with
  | .writeLog tail => s.txn.log.lh[tail]? = some (s.txn.log.start + tail + 1)
  | _ => false

/-- A step of process `p` in `end_op`, after which it does `c`. -/
def endStep (s : Sys ι) (p : ι) (c : KCode ι ℤ) : Option (Sys ι) :=
  let u := user p (s.depth p - 1)
  if s.depth p = 0 ∨ s.waitsForItself u then none
  else
    (s.txn.step (if (s.txn.pc u).Inside then .endOp u else .commit u)).map fun t =>
      if t.pc u = .outside then ({ s with txn := t }.setDepth p (s.depth p - 1)).goOn p c
      else { s with txn := t }

/-- What an operation of process `p` does to the log. -/
def logStep (s : Sys ι) (p : ι) : FsOp ι → Option (Txn (ι × Fin 2))
  | .logWrite b =>
    if s.depth p = 0 then some { s.txn with log := s.txn.log.logWrite b }
    else s.txn.step (.logWrite (user p (s.depth p - 1)) b)
  | _ => some s.txn

/-- Process `p` asks for `o` and goes on with `k`. -/
def opStep (s : Sys ι) (p : ι) (choice : ℕ) (o : FsOp ι) (k : o.Ret → KCode ι ℤ) :
    Option (Sys ι) :=
  match o.run p choice s.files, s.logStep p o with
  | .ok (r, files), some txn => some ({ s with files := files, txn := txn }.goOn p (k r))
  | _, _ => none

/-- The next state. -/
def step (s : Sys ι) (a : SysAction ι) : Option (Sys ι) :=
  match a with
  | .call p c =>
    match s.code p with
    | .pure _ =>
      if (s.files.procs p).life = .live then
        some (s.goOn p (c.code false (p = s.initproc)))
      else none
    | .op _ _ => none
  | .step p choice =>
    match s.code p with
    | .pure _ => none
    | .op .enter k => s.beginStep p (k ())
    | .op .leave k => s.endStep p (k ())
    | .op (.op o) k => s.opStep p choice o k
  | .wake p => (s.txn.step (.wake (user p (s.depth p)))).map fun t => { s with txn := t }
  | .reap p =>
    if (s.files.procs p).life = .zombie then
      some { s with files := s.files.setProc p { s.files.procs p with life := .unused } }
    else none

/-- The next operation of process `p`. -/
def next? (s : Sys ι) (p : ι) : Option (FsOp ι) :=
  match s.code p with
  | .op (.op o) _ => some o
  | _ => none

/-- The operation neither puts the last reference to an inode without links nor
looks up a block that the file does not have. -/
def harmless (s : Files ι) : FsOp ι → Bool
  | .putTest ip => !decide (s.LastPut ip)
  | .addr ip n => (s.icache ip).copy.addrs n != 0
  | .readAddr b i => s.disk.addr b i != 0
  | _ => true

/-- A process that goes on outside of transactions does so with a harmless
operation. -/
def Sheltered (s : Sys ι) : SysAction ι → Prop
  | .step p _ => s.depth p = 0 → (s.next? p).all (harmless s.files) = true
  | _ => True

instance (s : Sys ι) : ∀ a, Decidable (s.Sheltered a)
  | .step p _ =>
    inferInstanceAs (Decidable (s.depth p = 0 → (s.next? p).all (harmless s.files) = true))
  | .call _ _ => isTrue trivial
  | .wake _ => isTrue trivial
  | .reap _ => isTrue trivial

/-- The block that process `p` is about to pass to `log_write`. -/
def logging (s : Sys ι) (p : ι) : Option ℕ :=
  match s.next? p with
  | some (.logWrite b) => some b
  | _ => none

/-- If the step is a call of `log_write`, an operation is executing and no commit
is running. -/
def LogWriteCovered (s : Sys ι) : SysAction ι → Prop
  | .step p _ => s.logging p ≠ none →
    1 ≤ s.txn.log.outstanding ∧ s.txn.log.committing = false
  | _ => True

end Sys

/-! ## Where a step leaves the users of the log -/

/-- The user `u` goes to `pc`; the others stay where they are, or are woken. -/
structure OpPc.Moved {υ : Type} (f : υ → OpPc) (u : υ) (pc : OpPc) (f' : υ → OpPc) : Prop where
  self : f' u = pc
  others : ∀ y, y ≠ u → f' y = f y ∨ (f y = .sleeping ∧ f' y = .entering)

namespace Txn

variable {υ : Type} [Fintype υ] [DecidableEq υ] {t t' : Txn υ} {u : υ}

theorem Good.step_eq (h : t.Good) (a : TxnAction υ) :
    t.step a = match a with
      | .beginOp p => if t.pc p = .outside then some (t.goto p .entering) else none
      | .enter p => if t.pc p = .entering then some (t.enter p) else none
      | .wake p => if t.pc p = .sleeping then some (t.goto p .entering) else none
      | .logWrite p b =>
        match t.pc p with
        | .inside op => some (t.logWrite op b)
        | _ => none
      | .endOp p =>
        match t.pc p with
        | .inside _ => some (t.leave p)
        | _ => none
      | .commit p => t.commitStep p := by
  unfold step
  rw [h.inv.panicked]
  rfl

omit [Fintype υ] in
theorem moved_goto (t : Txn υ) (u : υ) (pc : OpPc) : OpPc.Moved t.pc u pc (t.goto u pc).pc where
  self := by rw [goto_pc, if_pos rfl]
  others y hy := Or.inl (by rw [goto_pc, if_neg hy])

omit [Fintype υ] in
/-- The two ends of `end_op`. -/
theorem moved_goto_wakeup (t : Txn υ) (u : υ) :
    OpPc.Moved t.pc u .outside (t.goto u .outside).wakeup.pc where
  self := by rw [wakeup_pc, goto_pc, if_pos rfl, if_neg (by simp)]
  others y hy := by
    rw [wakeup_pc, goto_pc, if_neg hy]
    split
    · next h => exact Or.inr ⟨h, rfl⟩
    · exact Or.inl rfl

omit [Fintype υ] in
theorem moved_enter (t : Txn υ) (u : υ) :
    ∃ pc, (pc.Inside ∨ pc = .sleeping) ∧ OpPc.Moved t.pc u pc (t.enter u).pc := by
  unfold enter
  split
  · exact ⟨.sleeping, Or.inr rfl, moved_goto ..⟩
  · exact ⟨.inside t.nextOp, Or.inl trivial, moved_goto ..⟩

theorem moved_leave (h : t.Good) (hu : (t.pc u).Inside) :
    ∃ pc, (pc.Committing ∨ pc = .outside) ∧ OpPc.Moved t.pc u pc (t.leave u).pc := by
  rcases t.leave_cases u (h.inv.not_committing hu) with ⟨-, he⟩ | ⟨-, he⟩ <;> rw [he]
  · exact ⟨.commit, Or.inl trivial, moved_goto ..⟩
  · exact ⟨.outside, Or.inr rfl, moved_goto_wakeup ..⟩

omit [Fintype υ] in
theorem moved_commitStep (hs : t.commitStep u = some t') :
    ∃ pc, (pc.Committing ∨ pc = .outside) ∧ OpPc.Moved t.pc u pc t'.pc := by
  unfold commitStep at hs
  split at hs
  · cases hs
    exact ⟨_, Or.inl (by split <;> trivial), moved_goto ..⟩
  · cases hs
    exact ⟨_, Or.inl (by split <;> trivial), moved_goto ..⟩
  · cases hs
    exact ⟨.installTrans 0, Or.inl trivial, moved_goto ..⟩
  · cases hs
    exact ⟨_, Or.inl (by split <;> trivial), moved_goto ..⟩
  · cases hs
    exact ⟨.eraseHead, Or.inl trivial, moved_goto ..⟩
  · cases hs
    exact ⟨.finish, Or.inl trivial, moved_goto ..⟩
  · cases hs
    exact ⟨_, Or.inr rfl, moved_goto_wakeup ..⟩
  · cases hs

/-- In either half of `end_op`, the user is outside or committing then. -/
theorem Good.moved_end (h : t.Good)
    (hs : t.step (if (t.pc u).Inside then .endOp u else .commit u) = some t') :
    ∃ pc, (pc.Committing ∨ pc = .outside) ∧ OpPc.Moved t.pc u pc t'.pc := by
  rw [h.step_eq] at hs
  by_cases hu : (t.pc u).Inside
  · obtain ⟨op, hop⟩ : ∃ op, t.pc u = .inside op := by
      cases hpc : t.pc u <;> rw [hpc] at hu
      case inside op => exact ⟨op, rfl⟩
      all_goals exact hu.elim
    rw [if_pos hu] at hs
    dsimp only at hs
    rw [hop] at hs
    cases hs
    exact moved_leave h hu
  · rw [if_neg hu] at hs
    exact moved_commitStep hs

end Txn

/-! ## The invariant -/

section Stands

variable {ι : Type} {c c' : KCode ι ℤ} {d k : ℕ} {pc pc' : OpPc}

/-- The next thing to do is `begin_op`. -/
def AtEnter (c : KCode ι ℤ) : Prop := ∃ f, c = .op .enter f

/-- The next thing to do is `end_op`. -/
def AtLeave (c : KCode ι ℤ) : Prop := ∃ f, c = .op .leave f

/-- Where a process that does `c` at depth `d` stands in its transaction `k`. -/
structure Stands (c : KCode ι ℤ) (d k : ℕ) (pc : OpPc) : Prop where
  /-- inside all but the last -/
  below : k + 1 < d → pc.Inside
  /-- inside the last, or in its `end_op` -/
  top : k + 1 = d → pc.Inside ∨ pc.Committing ∧ AtLeave c
  /-- outside the next, or in its `begin_op` -/
  next : k = d → pc = .outside ∨ (pc = .entering ∨ pc = .sleeping) ∧ AtEnter c
  above : d < k → pc = .outside

theorem not_atLeave_of_atEnter (h : AtEnter c) : ¬ AtLeave c := by
  obtain ⟨f, rfl⟩ := h
  rintro ⟨g, hg⟩
  cases hg

theorem Stands.woken (h : Stands c d k pc)
    (hpc : pc' = pc ∨ (pc = .sleeping ∧ pc' = .entering)) : Stands c d k pc' := by
  rcases hpc with rfl | ⟨rfl, rfl⟩
  · exact h
  · refine ⟨fun hk => (h.below hk).elim, fun hk => ?_, fun hk => ?_, fun hk => ?_⟩
    · rcases h.top hk with h | ⟨h, -⟩ <;> exact h.elim
    · rcases h.next hk with h | ⟨-, h⟩
      · cases h
      · exact Or.inr ⟨Or.inl rfl, h⟩
    · cases h.above hk

/-- The other transactions, when `begin_op` is over. -/
theorem Stands.enter (h : Stands c d k pc) (hc : AtEnter c) (hk : k ≠ d) :
    Stands c' (d + 1) k pc := by
  refine ⟨fun hlt => ?_, fun he => ?_, fun he => Or.inl (h.above ?_), fun hlt => h.above ?_⟩
  · rcases Nat.lt_or_ge (k + 1) d with hlt' | hge
    · exact h.below hlt'
    · exact (h.top (by omega)).resolve_right fun h => not_atLeave_of_atEnter hc h.2
  · omega
  · omega
  · omega

/-- The other transactions, when `end_op` is over. -/
theorem Stands.leave (h : Stands c (d + 1) k pc) (hc : AtLeave c) (hk : k ≠ d) :
    Stands c' d k pc := by
  refine ⟨fun hlt => h.below (by omega), fun he => Or.inl (h.below (by omega)), fun he => ?_,
    fun hlt => ?_⟩
  · omega
  · rcases Nat.lt_or_ge (d + 1) k with hlt' | hge
    · exact h.above hlt'
    · exact (h.next (by omega)).resolve_right fun h => not_atLeave_of_atEnter h.2 hc

/-- All transactions, when an operation is done. -/
theorem Stands.op (h : Stands c d k pc) (henter : ¬ AtEnter c) (hleave : ¬ AtLeave c) :
    Stands c' d k pc :=
  ⟨h.below, fun hk => Or.inl ((h.top hk).resolve_right fun h => hleave h.2),
    fun hk => Or.inl ((h.next hk).resolve_right fun h => henter h.2), h.above⟩

theorem stands_inside (h : pc.Inside) (hk : k + 1 = d) : Stands c d k pc :=
  ⟨fun _ => h, fun _ => Or.inl h, fun _ => by omega, fun _ => by omega⟩

theorem stands_outside (h : pc = .outside) (hk : k = d) : Stands c d k pc :=
  ⟨fun _ => by omega, fun _ => by omega, fun _ => Or.inl h, fun _ => h⟩

theorem stands_entering (h : pc = .entering ∨ pc = .sleeping) (hc : AtEnter c) (hk : k = d) :
    Stands c d k pc :=
  ⟨fun _ => by omega, fun _ => by omega, fun _ => Or.inr ⟨h, hc⟩, fun _ => by omega⟩

theorem stands_committing (h : pc.Committing) (hc : AtLeave c) (hk : k + 1 = d) :
    Stands c d k pc :=
  ⟨fun _ => by omega, fun _ => Or.inr ⟨h, hc⟩, fun _ => by omega, fun _ => by omega⟩

end Stands

namespace Sys

variable {ι : Type} [Fintype ι] [DecidableEq ι] {s s' : Sys ι}

/-- What holds between any two steps. -/
structure Inv (s : Sys ι) : Prop where
  /-- the transaction protocol -/
  good : s.txn.Good
  /-- what is left to do keeps to the discipline -/
  fits : ∀ p, Fits (logDiscipline ι) (fun _ e => e = 0) (s.depth p) (s.code p)
  /-- the depths are those of the protocol -/
  stands : ∀ p (k : Fin 2), Stands (s.code p) (s.depth p) k (s.txn.pc (p, k))
  depth : ∀ p, s.depth p ≤ 2

omit [Fintype ι] [DecidableEq ι] in
theorem user_eq {p : ι} {d : ℕ} (hd : d < 2) : user p d = (p, ⟨d, hd⟩) :=
  Prod.ext rfl (Fin.ext (Nat.mod_eq_of_lt hd))

theorem boot_inv (disk : Disk) (initproc : ι) : (boot disk initproc).Inv where
  good := Txn.Good.init _
  fits p := rfl
  stands p k := by
    refine ⟨fun h => ?_, fun h => ?_, fun _ => Or.inl rfl, fun _ => rfl⟩
    · exact absurd h (Nat.not_lt_zero _)
    · exact absurd h (Nat.succ_ne_zero _)
  depth p := Nat.zero_le _

/-- A step of the protocol by a process `p`, which then is at depth `e` and does
`c`: the other processes are not concerned. -/
theorem Inv.move {t : Txn (ι × Fin 2)} {p : ι} {k : Fin 2} {pc : OpPc} {e : ℕ} {c : KCode ι ℤ}
    (h : s.Inv) (hgood : t.Good) (hmoved : OpPc.Moved s.txn.pc (p, k) pc t.pc)
    (hfits : Fits (logDiscipline ι) (fun _ e => e = 0) e c) (he : e ≤ 2)
    (hself : Stands c e k pc)
    (hother : ∀ j : Fin 2, j ≠ k → ∀ pc, Stands (s.code p) (s.depth p) j pc → Stands c e j pc) :
    (({ s with txn := t }.setDepth p e).goOn p c).Inv := by
  have hstands : ∀ q (j : Fin 2), (q, j) ≠ (p, k) →
      Stands (s.code q) (s.depth q) j (t.pc (q, j)) :=
    fun q j hne => (h.stands q j).woken (hmoved.others _ hne)
  refine ⟨hgood, fun q => ?_, fun q j => ?_, fun q => ?_⟩ <;> by_cases hq : q = p
  · subst hq
    simpa [setDepth, goOn] using hfits
  · simpa [setDepth, goOn, hq] using h.fits q
  · subst hq
    simp only [setDepth, goOn, Function.update_self]
    by_cases hj : j = k
    · subst hj
      rw [hmoved.self]
      exact hself
    · exact hother j hj _ (hstands q j fun he => hj (Prod.mk.inj he).2)
  · simp only [setDepth, goOn, Function.update_of_ne hq]
    exact hstands q j fun he => hq (Prod.mk.inj he).1
  · subst hq
    simpa [setDepth, goOn] using he
  · simpa [setDepth, goOn, hq] using h.depth q

/-- A step of the protocol within `begin_op` or `end_op`. -/
theorem Inv.stay {t : Txn (ι × Fin 2)} {p : ι} {k : Fin 2} {pc : OpPc} (h : s.Inv)
    (hgood : t.Good) (hmoved : OpPc.Moved s.txn.pc (p, k) pc t.pc)
    (hself : Stands (s.code p) (s.depth p) k pc) : ({ s with txn := t } : Sys ι).Inv := by
  have hmove := h.move hgood hmoved (h.fits p) (h.depth p) hself fun _ _ _ hj => hj
  have heq : ({ s with txn := t }.setDepth p (s.depth p)).goOn p (s.code p) =
      { s with txn := t } := by
    simp [setDepth, goOn]
  rwa [heq] at hmove

theorem Inv.beginStep {p : ι} {f : Unit → KCode ι ℤ} (h : s.Inv) (hcode : s.code p = .op .enter f)
    (hs : s.beginStep p (f ()) = some s') : s'.Inv := by
  have hat : AtEnter (s.code p) := ⟨f, hcode⟩
  have hfits := h.fits p
  rw [hcode] at hfits
  obtain ⟨hd, hfits⟩ := hfits
  have hd2 : s.depth p < 2 := hd
  unfold Sys.beginStep at hs
  rw [if_neg (Nat.not_le.mpr hd2), user_eq hd2] at hs
  split at hs
  · next hpc =>
    obtain ⟨t, ht, rfl⟩ := Option.map_eq_some_iff.mp hs
    have hgood := h.good.next ht
    rw [h.good.step_eq] at ht
    dsimp only at ht
    rw [if_pos hpc] at ht
    cases ht
    exact h.stay hgood (Txn.moved_goto ..) (stands_entering (Or.inl rfl) hat rfl)
  · next hpc =>
    obtain ⟨t, ht, rfl⟩ := Option.map_eq_some_iff.mp hs
    have hgood := h.good.next ht
    rw [h.good.step_eq] at ht
    dsimp only at ht
    rw [if_pos hpc] at ht
    cases ht
    obtain ⟨pc, hcases, hmoved⟩ := Txn.moved_enter s.txn (p, ⟨s.depth p, hd2⟩)
    split
    · next hin =>
      -- admitted: one transaction more
      rw [hmoved.self] at hin
      refine h.move hgood hmoved hfits hd (stands_inside hin rfl) fun j hj pc hst => ?_
      exact hst.enter hat fun he => hj (Fin.ext he)
    · next hin =>
      rw [hmoved.self] at hin
      exact h.stay hgood hmoved (stands_entering (Or.inr (hcases.resolve_left hin)) hat rfl)
  · cases hs

theorem Inv.endStep {p : ι} {f : Unit → KCode ι ℤ} (h : s.Inv) (hcode : s.code p = .op .leave f)
    (hs : s.endStep p (f ()) = some s') : s'.Inv := by
  have hat : AtLeave (s.code p) := ⟨f, hcode⟩
  have hfits := h.fits p
  rw [hcode] at hfits
  obtain ⟨hd, hfits⟩ := hfits
  have hbound := h.depth p
  obtain ⟨d, hdepth⟩ : ∃ d, s.depth p = d + 1 := ⟨s.depth p - 1, by omega⟩
  have hd2 : d < 2 := by omega
  unfold Sys.endStep at hs
  rw [hdepth, Nat.add_sub_cancel, user_eq hd2] at hs
  dsimp only at hs
  split at hs
  · cases hs
  obtain ⟨t, ht, rfl⟩ := Option.map_eq_some_iff.mp hs
  have hgood := h.good.next ht
  obtain ⟨pc, hcases, hmoved⟩ := h.good.moved_end ht
  split
  · next hout =>
    rw [hmoved.self] at hout
    rw [hdepth, Nat.add_sub_cancel] at hfits
    refine h.move hgood hmoved hfits (by omega) (stands_outside hout rfl) fun j hj pc hst => ?_
    rw [hdepth] at hst
    exact hst.leave hat fun he => hj (Fin.ext he)
  · next hout =>
    rw [hmoved.self] at hout
    exact h.stay hgood hmoved (stands_committing (hcases.resolve_right hout) hat hdepth.symm)

omit [Fintype ι] in
/-- Outside of transactions, a sheltered operation gets the answers the discipline
promises. -/
theorem outside_of_run {p : ι} {choice : ℕ} {o : FsOp ι} {f : o.Ret → KCode ι ℤ} {r : o.Ret}
    {files : Files ι} (hshelter : s.Sheltered (.step p choice)) (hd : s.depth p = 0)
    (hcode : s.code p = .op (.op o) f) (hrun : o.run p choice s.files = .ok (r, files)) :
    o.Outside r := by
  have hs := hshelter hd
  have hnext : s.next? p = some o := by
    unfold next?
    rw [hcode]
  rw [hnext, Option.all_some] at hs
  cases o with
  | putTest ip =>
    have hput : ¬ s.files.LastPut ip := by simpa [harmless] using hs
    simp only [FsOp.run, if_neg hput] at hrun
    cases hrun
    rfl
  | addr ip n =>
    cases hrun
    exact bne_iff_ne.mp hs
  | readAddr b i =>
    cases hrun
    exact bne_iff_ne.mp hs
  | _ => trivial

/-- An operation moves nobody in the protocol. -/
theorem Inv.logStep {p : ι} {o : FsOp ι} {t : Txn (ι × Fin 2)} (h : s.Inv)
    (hguard : o.IsLogWrite → 0 < s.depth p) (hlog : s.logStep p o = some t) :
    t.Good ∧ t.pc = s.txn.pc := by
  cases o with
  | logWrite b =>
    have hlog' : s.txn.step (.logWrite (user p (s.depth p - 1)) b) = some t := by
      rwa [Sys.logStep, if_neg (Nat.pos_iff_ne_zero.mp (hguard trivial))] at hlog
    refine ⟨h.good.next hlog', ?_⟩
    rw [h.good.step_eq] at hlog'
    dsimp only at hlog'
    split at hlog'
    · cases hlog'
      rfl
    · cases hlog'
  | _ =>
    cases hlog
    exact ⟨h.good, rfl⟩

theorem Inv.opStep {p : ι} {choice : ℕ} {o : FsOp ι} {f : o.Ret → KCode ι ℤ} (h : s.Inv)
    (hshelter : s.Sheltered (.step p choice)) (hcode : s.code p = .op (.op o) f)
    (hs : s.opStep p choice o f = some s') : s'.Inv := by
  have hfits := h.fits p
  rw [hcode] at hfits
  obtain ⟨hguard, hfits⟩ := hfits
  unfold Sys.opStep at hs
  split at hs
  swap
  · cases hs
  next r files t hrun hlog =>
  cases hs
  have hnext : Fits (logDiscipline ι) (fun _ e => e = 0) (s.depth p) (f r) :=
    hfits r fun hd => outside_of_run hshelter hd hcode hrun
  obtain ⟨hgood, hpc⟩ := h.logStep hguard hlog
  refine ⟨hgood, fun q => ?_, fun q k => ?_, h.depth⟩ <;> by_cases hq : q = p
  · subst hq
    simpa [goOn] using hnext
  · simpa [goOn, hq] using h.fits q
  · subst hq
    have hstands := h.stands q k
    simp only [goOn, Function.update_self, hpc]
    refine hstands.op ?_ ?_ <;> rw [hcode] <;> rintro ⟨g, hg⟩ <;> cases hg
  · simp only [goOn, Function.update_of_ne hq, hpc]
    exact h.stands q k

theorem Inv.call {p : ι} {c : Syscall ι} {r : ℤ} {b : Bool} (h : s.Inv)
    (hcode : s.code p = .pure r) : (s.goOn p (c.code false b)).Inv := by
  have hd : s.depth p = 0 := by
    have := h.fits p
    rwa [hcode] at this
  refine ⟨h.good, fun q => ?_, fun q k => ?_, h.depth⟩ <;> by_cases hq : q = p
  · subst hq
    simp only [goOn, Function.update_self, hd]
    exact fits_syscall b c
  · simpa [goOn, hq] using h.fits q
  · subst hq
    have hstands := h.stands q k
    simp only [goOn, Function.update_self]
    refine hstands.op ?_ ?_ <;> rw [hcode] <;> rintro ⟨g, hg⟩ <;> cases hg
  · simp only [goOn, Function.update_of_ne hq]
    exact h.stands q k

theorem Inv.wake {p : ι} {t : Txn (ι × Fin 2)} (h : s.Inv)
    (ht : s.txn.step (.wake (user p (s.depth p))) = some t) : ({ s with txn := t } : Sys ι).Inv := by
  have hgood := h.good.next ht
  rw [h.good.step_eq] at ht
  dsimp only at ht
  split at ht
  · next hpc =>
    cases ht
    refine h.stay hgood (Txn.moved_goto ..) ?_
    exact (h.stands p _).woken (Or.inr ⟨hpc, rfl⟩)
  · cases ht

theorem Inv.next {a : SysAction ι} (h : s.Inv) (hshelter : s.Sheltered a)
    (hs : s.step a = some s') : s'.Inv := by
  cases a with
  | call p c =>
    simp only [step] at hs
    split at hs
    · next r hcode =>
      split at hs
      · cases hs
        exact h.call hcode
      · cases hs
    · cases hs
  | step p choice =>
    simp only [step] at hs
    split at hs
    · cases hs
    · next f hcode => exact h.beginStep hcode hs
    · next f hcode => exact h.endStep hcode hs
    · next o f hcode => exact h.opStep hshelter hcode hs
  | wake p =>
    obtain ⟨t, ht, rfl⟩ := Option.map_eq_some_iff.mp hs
    exact h.wake ht
  | reap p =>
    simp only [step] at hs
    split at hs
    · cases hs
      exact ⟨h.good, h.fits, h.stands, h.depth⟩
    · cases hs

omit [Fintype ι] [DecidableEq ι] in
theorem logging_eq_some {p : ι} {b : ℕ} (h : s.logging p = some b) :
    ∃ f, s.code p = .op (.op (.logWrite b)) f := by
  unfold logging next? at h
  split at h
  · next b' hnext =>
    cases h
    split at hnext
    · next o f hcode =>
      cases hnext
      exact ⟨f, hcode⟩
    · cases hnext
  · cases h

omit [DecidableEq ι] in
/-- A process that is about to call `log_write` is inside a transaction. -/
theorem Inv.logging_inside {p : ι} {b : ℕ} (h : s.Inv) (hlog : s.logging p = some b) :
    ∃ u, (s.txn.pc u).Inside := by
  obtain ⟨f, hcode⟩ := logging_eq_some hlog
  have hfits := h.fits p
  rw [hcode] at hfits
  have hpos : 0 < s.depth p := hfits.1 trivial
  have hbound := h.depth p
  have hk : s.depth p - 1 < 2 := by omega
  refine ⟨(p, ⟨s.depth p - 1, hk⟩), ?_⟩
  refine ((h.stands p ⟨s.depth p - 1, hk⟩).top (Nat.sub_add_cancel hpos)).resolve_right ?_
  rintro ⟨-, g, hg⟩
  rw [hcode] at hg
  cases hg

omit [DecidableEq ι] in
theorem Inv.covered (h : s.Inv) (a : SysAction ι) : s.LogWriteCovered a := by
  cases a with
  | step p choice =>
    intro hlog
    obtain ⟨b, hb⟩ := Option.ne_none_iff_exists'.mp hlog
    obtain ⟨u, hu⟩ := h.logging_inside hb
    exact ⟨h.good.inv.outstanding_pos hu, h.good.inv.not_committing hu⟩
  | _ => trivial

end Sys

/-- **Log writes belong to transactions**, for every interleaving of system calls
of any number of processes in stride mode, as long as no process outside of a
transaction puts the last reference to an inode without links or reads a block
that the file does not have: every call of `log_write` comes while an operation
is executing and no commit is running, and the protocol keeps what was written. -/
theorem log_writes_covered {ι : Type} [Fintype ι] [DecidableEq ι] {disk : Disk} {initproc : ι}
    {as : List (SysAction ι)}
    (hshelter : AllSteps Sys.step Sys.Sheltered (Sys.boot disk initproc) as) :
    AllSteps Sys.step Sys.LogWriteCovered (Sys.boot disk initproc) as ∧
      AllStates Sys.step (fun s => TransactionProtocol s.txn) (Sys.boot disk initproc) as := by
  have hboot := Sys.boot_inv disk initproc
  have hstep : ∀ (s : Sys ι) a t, s.Inv → s.Sheltered a → s.step a = some t → t.Inv :=
    fun s a t h hC hs => h.next hC hs
  exact ⟨allSteps_of_invariant hstep (fun s a h _ => h.covered a) hboot hshelter,
    (allStates_of_allSteps hstep hboot hshelter).mono fun s h => h.good.protocol⟩

/-- A disk with an empty root directory. -/
def emptyDisk : Disk :=
  let d : Disk := ⟨fun _ _ => 0#8⟩
  let d := d.put 1 (Superblock.bytes { size := 100, nblocks := 70, ninodes := 10, nlog := 10 })
  let d := d.setDinode ROOTINO
    { type := .dir, nlink := 1, size := 32, addrs := fun n => if n = 0 then 60 else 0 }
  let d := d.put (BBLOCK 0 10) (Bytes.fillBits 61)
  (d.setDirent 60 0 ⟨ROOTINO, dot⟩).setDirent 60 1 ⟨ROOTINO, dotdot⟩

/-- A process forks a child that makes a directory and exits. -/
theorem log_writes_covered_mkdir :
    AllSteps Sys.step Sys.LogWriteCovered (Sys.boot emptyDisk (0 : Fin 2))
      (.call 0 (.fork 1) :: List.replicate 22 (.step 0 1) ++
        .call 1 (.mkdir (some ⟨false, [[100]]⟩)) :: List.replicate 108 (.step 1 1) ++
        .call 1 .exit :: List.replicate 20 (.step 1 1)) :=
  (log_writes_covered (by decide +kernel)).1

local instance twoUsers : NeZero 2 := ⟨by decide⟩

/-- The root directory has a directory `e`. Its inode is the eighth one, in the second block of
inodes. -/
def subdirDisk : Disk :=
  let d := emptyDisk.setDinode ROOTINO
    { type := .dir, nlink := 2, size := 48, addrs := fun n => if n = 0 then 60 else 0 }
  let d := d.setDinode 8
    { type := .dir, nlink := 1, size := 32, addrs := fun n => if n = 0 then 61 else 0 }
  let d := d.put (BBLOCK 0 10) (Bytes.fillBits 62)
  let d := d.setDirent 60 2 ⟨8, [101]⟩
  (d.setDirent 61 0 ⟨8, dot⟩).setDirent 61 1 ⟨ROOTINO, dotdot⟩

/-- A process forks a child that moves to `e`, makes a directory there, moves on to it, removes it
and exits; up to the first block that `exit` frees. -/
def unlinkedCwd : List (SysAction (Fin 2)) :=
  .call 0 (.fork 1) :: List.replicate 22 (.step 0 1) ++
  .call 1 (.chdir (some ⟨false, [[101]]⟩)) :: List.replicate 30 (.step 1 1) ++
  .call 1 (.mkdir (some ⟨false, [[100]]⟩)) :: List.replicate 110 (.step 1 1) ++
  .call 1 (.chdir (some ⟨false, [[100]]⟩)) :: List.replicate 30 (.step 1 1) ++
  .call 1 (.unlink (some ⟨false, [dotdot, [100]]⟩)) :: List.replicate 68 (.step 1 1) ++
  .call 1 .exit :: List.replicate 21 (.step 1 1)

/-- `exit` calls `log_write` while no operation is executing. -/
theorem exit_logs_outside :
    ∃ s, exec Sys.step (Sys.boot subdirDisk (0 : Fin 2)) unlinkedCwd = some s ∧
      (s.step (.step 1 1)).isSome = true ∧ s.logging 1 = some 4 ∧ s.txn.log.outstanding = 0 ∧
      ¬ s.LogWriteCovered (.step 1 1) := by
  obtain ⟨s, hs, heq⟩ := Option.map_eq_some_iff.mp
    (show (exec Sys.step (Sys.boot subdirDisk (0 : Fin 2)) unlinkedCwd).map (fun s =>
        ((s.step (.step 1 1)).isSome, s.logging 1, s.txn.log.outstanding)) =
      some (true, some 4, 0) by decide +kernel)
  obtain ⟨hsome, hrest⟩ := Prod.mk.inj heq
  obtain ⟨hlog, hout⟩ := Prod.mk.inj hrest
  refine ⟨s, hs, hsome, hlog, hout, fun h => ?_⟩
  have hpos := (h (by rw [hlog]; simp)).1
  omega

end StrideXv6
