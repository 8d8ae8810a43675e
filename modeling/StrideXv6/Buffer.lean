import StrideXv6.Crash
import StrideXv6.Log
import Mathlib.Algebra.GroupWithZero.Nat
import Mathlib.Data.List.FinRange
import Mathlib.Logic.Function.Basic

/-!
# The buffer cache and the disk (`bio.c`, `ide.c`)

The buffers, the list that `bcache.head` strings them on (most recently used
first), the contents of the two disks, and the log in memory. A transfer between
a buffer and its disk is one step: the caller of `iderw` sleeps until the
interrupt handler has finished it. A machine has a *budget* of block writes, and
loses power when it is used up; every write that reaches a disk is recorded.

A process that would have to wait for a buffer somebody else holds stops here:
what is modelled is one process that uses the cache.
-/

namespace StrideXv6

open Crash

/-- The number of buffers. -/
def NBUF : ℕ := MAXOPBLOCKS * 3

instance : NeZero NBUF := ⟨by decide⟩

/-- The size of the file system in blocks. -/
def FSSIZE : ℕ := 1000

/-- The contents of a block, as words. -/
abbrev Block : Type := ℕ → ℕ

/-- `struct buf`. -/
structure Buf : Type where
  dev : ℕ
  blockno : ℕ
  /-- `B_BUSY`: locked by some process -/
  busy : Bool
  /-- `B_VALID`: has been read from disk -/
  valid : Bool
  /-- `B_DIRTY`: needs to be written to disk -/
  dirty : Bool
  data : Block

/-- A block write that reached a disk. -/
structure DiskWrite : Type where
  dev : ℕ
  blockno : ℕ
  data : Block

/-- Reasons to stop. -/
inductive Halt : Type where
  /-- the power is gone -/
  | power
  /-- `panic` with this message -/
  | panic : String → Halt
  /-- asleep on a buffer another process holds -/
  | asleep
  deriving DecidableEq, Repr

/-- Storage, in memory and on disk. -/
structure Store : Type where
  /-- `bcache.buf` -/
  buf : Fin NBUF → Buf
  /-- the list from `bcache.head.next` on -/
  order : List (Fin NBUF)
  /-- the blocks of the two disks -/
  disk : ℕ → ℕ → Block
  /-- `log` -/
  log : Log
  /-- the block writes so far, newest first -/
  writes : List DiskWrite
  /-- how many more block writes the power lasts for -/
  budget : ℕ

/-- Kernel code that uses storage. -/
abbrev Kern : Type → Type := Prog Store Halt

namespace Store

/-- Change one buffer. -/
def setBuf (s : Store) (i : Fin NBUF) (b : Buf) : Store :=
  { s with buf := Function.update s.buf i b }

@[simp] theorem setBuf_buf (s : Store) (i j : Fin NBUF) (b : Buf) :
    (s.setBuf i b).buf j = if j = i then b else s.buf j := by
  simp only [setBuf, Function.update_apply]

theorem setBuf_buf_self (s : Store) (i : Fin NBUF) (b : Buf) : (s.setBuf i b).buf i = b :=
  Function.update_self ..

theorem setBuf_setBuf (s : Store) (i : Fin NBUF) (b b' : Buf) :
    (s.setBuf i b).setBuf i b' = s.setBuf i b' := by
  simp [setBuf]

/-- The loop of `bget` that looks for the block. -/
def lookup (s : Store) (dev blockno : ℕ) : Option (Fin NBUF) :=
  s.order.find? fun i => decide ((s.buf i).dev = dev ∧ (s.buf i).blockno = blockno)

/-- The loop of `bget` that looks for a buffer to recycle, from the other end. -/
def victim (s : Store) : Option (Fin NBUF) :=
  s.order.reverse.find? fun i => decide ((s.buf i).busy = false ∧ (s.buf i).dirty = false)

/-- The block of the disk a buffer is for: bit 0 of `dev` selects the drive. -/
def home (s : Store) (b : Buf) : Block := s.disk (b.dev % 2) b.blockno

/-- A block write. -/
def write (s : Store) (b : Buf) : Store :=
  { s with
    disk := Function.update s.disk (b.dev % 2)
      (Function.update (s.disk (b.dev % 2)) b.blockno b.data)
    writes := ⟨b.dev, b.blockno, b.data⟩ :: s.writes
    budget := s.budget - 1 }

/-- Storage after `binit`: no buffer is for a block, and the list has the last
one first. -/
def binit (disk : ℕ → ℕ → Block) (log : Log) (budget : ℕ) : Store where
  buf := fun _ =>
    { dev := 4294967295, blockno := 0, busy := false, valid := false, dirty := false
      data := fun _ => 0 }
  order := (List.finRange NBUF).reverse
  disk := disk
  log := log
  writes := []
  budget := budget

end Store

/-- `bget`: a `B_BUSY` buffer for the block, with its contents or recycled. -/
def bget (dev blockno : ℕ) : Kern (Fin NBUF) := do
  let s ← get
  match s.lookup dev blockno with
  | some i =>
    if (s.buf i).busy then halt .asleep
    else do
      modify fun s => s.setBuf i { s.buf i with busy := true }
      pure i
  | none =>
    match s.victim with
    | some i => do
      modify fun s => s.setBuf i
        { s.buf i with dev := dev, blockno := blockno, busy := true, valid := false, dirty := false }
      pure i
    | none => halt (.panic "bget: no buffers")

/-- `iderw`: write the buffer to disk if it is dirty, else read it. -/
def iderw (i : Fin NBUF) : Kern Unit := do
  let s ← get
  let b := s.buf i
  if b.busy = false then halt (.panic "iderw: buf not busy")
  else if b.valid && !b.dirty then halt (.panic "iderw: nothing to do")
  else if b.blockno ≥ FSSIZE then halt (.panic "incorrect blockno")
  else if b.dirty then
    if s.budget = 0 then halt .power
    else modify fun s => (s.write b).setBuf i { b with valid := true, dirty := false }
  else modify fun s => s.setBuf i { b with valid := true, data := s.home b }

/-- `bread`: a `B_BUSY` buffer with the contents of the block. -/
def bread (dev blockno : ℕ) : Kern (Fin NBUF) := do
  let i ← bget dev blockno
  let s ← get
  if (s.buf i).valid = false then iderw i
  pure i

/-- `bwrite`: write a buffer's contents to disk. -/
def bwrite (i : Fin NBUF) : Kern Unit := do
  let s ← get
  if (s.buf i).busy = false then halt (.panic "bwrite")
  else do
    modify fun s => s.setBuf i { s.buf i with dirty := true }
    iderw i

/-- `brelse`: release a buffer and move it to the head of the list. -/
def brelse (i : Fin NBUF) : Kern Unit := do
  let s ← get
  if (s.buf i).busy = false then halt (.panic "brelse")
  else modify fun s =>
    { s.setBuf i { s.buf i with busy := false } with order := i :: s.order.erase i }

/-- Change the contents of a buffer. -/
def setData (i : Fin NBUF) (f : Block → Block) : Kern Unit :=
  modify fun s => s.setBuf i { s.buf i with data := f (s.buf i).data }

/-- `memmove(dst->data, src->data, BSIZE)`. -/
def copyData (dst src : Fin NBUF) : Kern Unit :=
  modify fun s => s.setBuf dst { s.buf dst with data := (s.buf src).data }

/-- `log_write`: enter the block in the header and pin its buffer with `B_DIRTY`. -/
def logWrite (i : Fin NBUF) : Kern Unit :=
  modify fun s =>
    { s.setBuf i { s.buf i with dirty := true } with log := s.log.logWrite (s.buf i).blockno }

end StrideXv6
