import StrideXv6.Word32
import Mathlib.Data.List.FinRange
import Mathlib.Data.List.Nodup
import Mathlib.Logic.Function.Basic

/-!
# The process table (`proc.h`, `proc.c`)

The kernel as the process subsystem sees it: the table `ptable.proc`, the
process each CPU runs, `nextpid` and `initproc`. A function of `proc.c` is a
function on this state. What it does under `ptable.lock` is one function here,
so between two steps of the model the lock is free.

A process that is not running has given up its CPU inside some kernel function;
`Context` says which, and so what a later `swtch` to it goes on with. The work
`forks` and `exit` do *outside* the lock is cut into steps as well: `Pc` says
how far the process has come, so that interrupts and other CPUs can come in
between. One store is made without the lock that others look at under it: with the
stride scheduler `forks` makes the child RUNNABLE so. It is a step of its own here, which
falls between what other CPUs do under the lock, never into the middle of it.

Memory, open files and names are not part of this state. Where an allocation
decides which way a function goes, its outcome is an input of the step.

Two fields are bookkeeping that the code does not have: `uid` numbers the
processes in order of creation (pids wrap around, these do not), and `hist`
records what the statements about whole runs are about.
-/

namespace StrideXv6

open Word32

/-- `NPROC`, the size of the process table. -/
def NPROC : ℕ := 64

instance : NeZero NPROC := ⟨by decide⟩

/-- A `struct proc *`: an index into `ptable.proc`. -/
abbrev Slot : Type := Fin NPROC

/-- `enum procstate`. -/
inductive ProcState : Type where
  | unused
  | embryo
  | sleeping
  | runnable
  | running
  | zombie
  deriving DecidableEq, Repr

namespace ProcState

/-- The enumerator's value, which the scheduler compares. -/
def val : ProcState → ℕ
  | unused => 0
  | embryo => 1
  | sleeping => 2
  | runnable => 3
  | running => 4
  | zombie => 5

/-- The scheduler's filter `p->state > EMBRYO && p->state < ZOMBIE`. -/
def Live (st : ProcState) : Prop := embryo.val < st.val ∧ st.val < zombie.val

instance : DecidablePred Live := fun st =>
  inferInstanceAs (Decidable (embryo.val < st.val ∧ st.val < zombie.val))

@[grind =] theorem live_iff {st : ProcState} : st.Live ↔ st = sleeping ∨ st = runnable ∨ st = running := by
  cases st <;> simp [Live, val]

@[simp] theorem live_sleeping : sleeping.Live := by decide

@[simp] theorem live_runnable : runnable.Live := by decide

@[simp] theorem live_running : running.Live := by decide

@[simp] theorem not_live_unused : ¬ unused.Live := by decide

@[simp] theorem not_live_embryo : ¬ embryo.Live := by decide

@[simp] theorem not_live_zombie : ¬ zombie.Live := by decide

end ProcState

/-- What a process can sleep on: the addresses passed to `sleep` and `wakeup`. -/
inductive Chan : Type where
  /-- a process's own `struct proc`, slept on in `wait` -/
  | proc : Slot → Chan
  /-- `&ticks` -/
  | ticks : Chan
  /-- any other kernel object: a buffer, an inode, a pipe, the log -/
  | addr : ℕ → Chan
  deriving DecidableEq, Repr

/-- Where a process that gave up its CPU goes on when it gets one again. -/
inductive Context : Type where
  /-- a new process: the start of `forkret` -/
  | forkret
  /-- after the `sched` in `yield`, called from `trap` for an interrupt that
  came from user space (`true`) or from the kernel (`false`) -/
  | yield : Bool → Context
  /-- after the `sched` in a `sleep` that released another lock -/
  | sleep
  /-- after the `sched` in the `sleep` that `wait` calls with `ptable.lock` -/
  | wait
  /-- after the `sched` in `exit` -/
  | exit
  deriving DecidableEq, Repr

/-- How far a process has come in the functions whose work outside
`ptable.lock` the table can see. -/
inductive Pc : Type where
  /-- user code, or kernel code other than the below -/
  | run
  /-- in `allocproc` called by `forks`, the entry `np` taken, the lock released -/
  | allocated : (np : Slot) → (tickets : ℤ) → Pc
  /-- in `forks`, `allocproc` has returned `np` -/
  | stacked : (np : Slot) → (tickets : ℤ) → Pc
  /-- in `forks`, `np` filled in but not yet `RUNNABLE` -/
  | copied : (np : Slot) → Pc
  /-- in `exit`, before it takes the lock -/
  | exiting
  deriving DecidableEq, Repr

/-- The table entry a process is filling in. -/
def Pc.child : Pc → Option Slot
  | run => none
  | allocated np _ => some np
  | stacked np _ => some np
  | copied np => some np
  | exiting => none

@[simp, grind =] theorem Pc.child_run : run.child = none := rfl

@[simp, grind =] theorem Pc.child_allocated (np : Slot) (t : ℤ) :
    (allocated np t).child = some np := rfl

@[simp, grind =] theorem Pc.child_stacked (np : Slot) (t : ℤ) :
    (stacked np t).child = some np := rfl

@[simp, grind =] theorem Pc.child_copied (np : Slot) : (copied np).child = some np := rfl

@[simp, grind =] theorem Pc.child_exiting : exiting.child = none := rfl

/-- Ways for the kernel to stop. -/
inductive Fault : Type where
  /-- `panic("init exiting")` -/
  | initExiting
  /-- `panic("sched running")` -/
  | schedRunning
  /-- `panic("zombie exit")` -/
  | zombieExit
  /-- `panic("trap")` -/
  | trap
  /-- a switch to a table entry that has no context -/
  | wildContext
  /-- a switch to a process that another CPU is running: two CPUs now use one
  kernel stack, and what they do next is not described here -/
  | sharedStack
  deriving DecidableEq, Repr

/-- `struct proc`, and the bookkeeping `pc` and `uid`. -/
structure Proc : Type where
  /-- process state -/
  state : ProcState := .unused
  /-- process ID -/
  pid : ℤ := 0
  /-- parent process -/
  parent : Option Slot := none
  /-- `swtch` here to run the process -/
  context : Option Context := none
  /-- if non-zero, sleeping on it -/
  chan : Option Chan := none
  /-- if non-zero, has been killed -/
  killed : Bool := false
  /-- number of tickets -/
  tickets : ℤ := 0
  /-- size of a stride -/
  stride : ℤ := 0
  /-- strides made -/
  pass : ℤ := 0
  /-- limit of the strides that may be made -/
  limitpass : ℤ := 0
  /-- where its kernel thread stands -/
  pc : Pc := .run
  /-- how many processes were created before this one -/
  uid : ℕ := 0

/-- What a run leaves in its record. -/
inductive Event : Type where
  /-- a scheduler switched to the slot, whose state was the given one -/
  | dispatch : Slot → ProcState → Event
  /-- the process with this `uid` exited -/
  | exit : (uid : ℕ) → Event
  /-- `wait` returned the given pid to the caller; the process with this `uid`
  and this parent field was reaped -/
  | reap : (caller : Slot) → (parent : Option Slot) → (uid : ℕ) → (pid : ℤ) → Event
  /-- `wait` returned `-1` to the caller, who at that time had a child or not,
  and was killed or not -/
  | waitFail : (caller : Slot) → (hasChild killed : Bool) → Event
  deriving DecidableEq, Repr

/-- `struct cpu`: the current process, and the loop variable of the round-robin
scheduler's table scan. -/
structure Cpu : Type where
  /-- the currently running process -/
  proc : Option Slot := none
  /-- where the round-robin scan goes on -/
  scan : ℕ := 0

/-- The kernel on `n` CPUs. -/
structure Kernel (n : ℕ) : Type where
  /-- `ptable.proc` -/
  proc : Slot → Proc
  /-- `cpus` -/
  cpu : Fin n → Cpu
  /-- the next pid to hand out -/
  nextpid : ℤ
  /-- `initproc` -/
  initproc : Slot
  /-- set once the kernel has stopped -/
  fault : Option Fault
  /-- number of processes created so far -/
  created : ℕ
  /-- the record of the run, newest first -/
  hist : List Event

variable {n : ℕ}

namespace Kernel

/-- Change one table entry. -/
def modify (k : Kernel n) (p : Slot) (f : Proc → Proc) : Kernel n :=
  { k with proc := Function.update k.proc p (f (k.proc p)) }

/-- Set the current process of a CPU. -/
def setProc (k : Kernel n) (c : Fin n) (p : Option Slot) : Kernel n :=
  { k with cpu := Function.update k.cpu c { k.cpu c with proc := p } }

/-- `panic`. -/
def panic (k : Kernel n) (f : Fault) : Kernel n := { k with fault := some f }

/-- Add to the record. -/
def note (k : Kernel n) (e : Event) : Kernel n := { k with hist := e :: k.hist }

section Lemmas

variable (k : Kernel n) (p q : Slot) (f : Proc → Proc) (c d : Fin n) (x : Option Slot)
  (flt : Fault) (e : Event)

@[grind =] theorem modify_proc : (k.modify p f).proc q = if q = p then f (k.proc p) else k.proc q := by
  simp only [modify, Function.update_apply]

@[simp, grind =] theorem modify_proc_self : (k.modify p f).proc p = f (k.proc p) := by
  simp [modify]

theorem modify_proc_ne {q : Slot} (h : q ≠ p) : (k.modify p f).proc q = k.proc q := by
  simp [modify, h]

@[simp, grind =] theorem modify_cpu : (k.modify p f).cpu d = k.cpu d := rfl

@[simp, grind =] theorem modify_initproc : (k.modify p f).initproc = k.initproc := rfl

@[simp, grind =] theorem modify_hist : (k.modify p f).hist = k.hist := rfl

@[simp, grind =] theorem setProc_proc : (k.setProc c x).proc q = k.proc q := rfl

@[grind =] theorem setProc_cpu_proc :
    ((k.setProc c x).cpu d).proc = if d = c then x else (k.cpu d).proc := by
  unfold setProc
  by_cases h : d = c
  · subst h
    simp
  · simp [h]

@[simp, grind =] theorem setProc_initproc : (k.setProc c x).initproc = k.initproc := rfl

@[simp, grind =] theorem setProc_hist : (k.setProc c x).hist = k.hist := rfl

@[simp, grind =] theorem note_proc : (k.note e).proc q = k.proc q := rfl

@[simp, grind =] theorem note_cpu : (k.note e).cpu d = k.cpu d := rfl

@[simp, grind =] theorem note_initproc : (k.note e).initproc = k.initproc := rfl

@[simp, grind =] theorem note_hist : (k.note e).hist = e :: k.hist := rfl

end Lemmas

end Kernel

/-! ## Sleep and wakeup -/

/-- What `wakeup1` does to one entry. -/
def Proc.wake (ch : Option Chan) (p : Proc) : Proc :=
  if p.state = .sleeping ∧ p.chan = ch then { p with state := .runnable } else p

/-- Wake up all processes sleeping on `ch`. The lock must be held. -/
def wakeup1 (k : Kernel n) (ch : Option Chan) : Kernel n :=
  { k with proc := fun p => (k.proc p).wake ch }

/-- Enter the scheduler: the CPU is back in `scheduler`, which clears `proc`. -/
def sched (k : Kernel n) (c : Fin n) (p : Slot) : Kernel n :=
  if (k.proc p).state = .running then k.panic .schedRunning else k.setProc c none

/-- Give up the CPU for one scheduling round. -/
def yield (k : Kernel n) (c : Fin n) (p : Slot) (user : Bool) : Kernel n :=
  sched (k.modify p fun P => { P with state := .runnable, context := some (.yield user) }) c p

/-- Sleep on `ch`, as `wait` does (`ctx = wait`) or as any other caller does. -/
def sleep (k : Kernel n) (c : Fin n) (p : Slot) (ch : Chan) (ctx : Context) : Kernel n :=
  sched (k.modify p fun P =>
    { P with chan := some ch, state := .sleeping, context := some ctx }) c p

/-- Whether the loop of `kill` stops at the entry: its pid is the wanted one. -/
def killTarget (k : Kernel n) (pid : ℤ) : Option Slot :=
  (List.finRange NPROC).find? fun p => decide ((k.proc p).pid = pid)

/-- Kill the process with the given pid: the first entry that has it is marked
and, if it sleeps, woken. -/
def kill (k : Kernel n) (pid : ℤ) : Kernel n :=
  match killTarget k pid with
  | none => k
  | some p => k.modify p fun P =>
      { P with killed := true
               state := if P.state = .sleeping then .runnable else P.state }

/-! ## Creating processes -/

/-- The loop of `allocproc`: the first `UNUSED` entry. -/
def findUnused (k : Kernel n) : Option Slot :=
  (List.finRange NPROC).find? fun p => decide ((k.proc p).state = .unused)

/-- What `allocproc` puts into the entry while it holds the lock. In round-robin
mode the ticket fields are left as they are. -/
def Proc.alloc (rr : Bool) (pid : ℤ) (uid : ℕ) (tickets : ℤ) (p : Proc) : Proc :=
  if rr then { p with state := .embryo, pid := pid, pc := .run, uid := uid }
  else { p with state := .embryo, pid := pid, pc := .run, uid := uid
                tickets := tickets, pass := 0
                stride := Int.tdiv 10000 tickets, limitpass := Int.tdiv 10000 tickets }

/-- `allocproc` up to the release of the lock. -/
def allocproc (rr : Bool) (k : Kernel n) (tickets : ℤ) : Option (Slot × Kernel n) :=
  (findUnused k).map fun np =>
    (np, { k.modify np (Proc.alloc rr k.nextpid k.created tickets) with
             nextpid := wrap (k.nextpid + 1), created := k.created + 1 })

/-- `forks` up to the point where `allocproc` releases the lock; `-1` when the
table is full. -/
def forks (rr : Bool) (tickets : ℤ) (k : Kernel n) (p : Slot) : Kernel n :=
  match allocproc rr k tickets with
  | none => k
  | some (np, k') => k'.modify p fun P => { P with pc := .allocated np tickets }

/-- `fork`: 500 tickets. -/
def fork (rr : Bool) (k : Kernel n) (p : Slot) : Kernel n := forks rr 500 k p

/-- `forkLowest`: 100 tickets. -/
def forkLowest (rr : Bool) (k : Kernel n) (p : Slot) : Kernel n := forks rr 100 k p

/-- `forkLow`: 300 tickets. -/
def forkLow (rr : Bool) (k : Kernel n) (p : Slot) : Kernel n := forks rr 300 k p

/-- `forkMedium`: 500 tickets. -/
def forkMedium (rr : Bool) (k : Kernel n) (p : Slot) : Kernel n := forks rr 500 k p

/-- `forkHigh`: 750 tickets. -/
def forkHigh (rr : Bool) (k : Kernel n) (p : Slot) : Kernel n := forks rr 750 k p

/-- `forkHighest`: 990 tickets. -/
def forkHighest (rr : Bool) (k : Kernel n) (p : Slot) : Kernel n := forks rr 990 k p

/-- `allocproc` after the lock: the kernel stack. Without one the entry is given
back and `forks` returns `-1`. -/
def forkStack (k : Kernel n) (p np : Slot) (tickets : ℤ) (ok : Bool) : Kernel n :=
  if ok then
    (k.modify np fun P => { P with context := some .forkret }).modify p fun P =>
      { P with pc := .stacked np tickets }
  else
    (k.modify np fun P => { P with state := .unused }).modify p fun P => { P with pc := .run }

/-- What `forks` copies into the new entry. -/
def Proc.copy (parent : Slot) (tickets : ℤ) (p : Proc) : Proc :=
  { p with parent := some parent, tickets := tickets, pass := 0
           stride := Int.tdiv 10000 tickets, limitpass := Int.tdiv 10000 tickets }

/-- `forks` from `copyuvm` on. Without memory for the copy the entry is given
back and `forks` returns `-1`. -/
def forkCopy (k : Kernel n) (p np : Slot) (tickets : ℤ) (ok : Bool) : Kernel n :=
  if ok then
    (k.modify np (Proc.copy p tickets)).modify p fun P => { P with pc := .copied np }
  else
    (k.modify np fun P => { P with state := .unused }).modify p fun P => { P with pc := .run }

/-- The end of `forks`: `np->state = RUNNABLE`. -/
def forkReady (k : Kernel n) (p np : Slot) : Kernel n :=
  (k.modify np fun P => { P with state := .runnable }).modify p fun P => { P with pc := .run }

/-! ## Exit and wait -/

/-- The start of `exit`, up to its work on files and the current directory. -/
def callExit (k : Kernel n) (p : Slot) : Kernel n :=
  if p = k.initproc then k.panic .initExiting else k.modify p fun P => { P with pc := .exiting }

/-- One turn of the loop in `exit` that passes abandoned children to init. -/
def abandon (p : Slot) (k : Kernel n) (q : Slot) : Kernel n :=
  if (k.proc q).parent = some p then
    let k' := k.modify q fun P => { P with parent := some k.initproc }
    if (k'.proc q).state = .zombie then wakeup1 k' (some (.proc k.initproc)) else k'
  else k

/-- The whole loop. -/
def passChildren (k : Kernel n) (p : Slot) : Kernel n :=
  (List.finRange NPROC).foldl (abandon p) k

/-- `exit` from the acquisition of the lock on. -/
def exit (k : Kernel n) (c : Fin n) (p : Slot) : Kernel n :=
  let k := wakeup1 k ((k.proc p).parent.map Chan.proc)
  let k := passChildren k p
  let k := k.modify p fun P => { P with state := .zombie, context := some .exit }
  sched (k.note (.exit (k.proc p).uid)) c p

/-- The table scan of `wait`: the first zombie child, or else `havekids`. -/
def waitScan (k : Kernel n) (p : Slot) : List Slot → Bool → Slot ⊕ Bool
  | [], havekids => .inr havekids
  | q :: qs, havekids =>
    if (k.proc q).parent ≠ some p then waitScan k p qs havekids
    else if (k.proc q).state = .zombie then .inl q
    else waitScan k p qs true

/-- What `wait` does to the zombie child it found. -/
def Proc.reap (p : Proc) : Proc :=
  { p with state := .unused, pid := 0, parent := none, killed := false }

/-- Whether some process has the given parent. -/
def hasChild (k : Kernel n) (p : Slot) : Bool :=
  decide (∃ q, (k.proc q).state ≠ .unused ∧ (k.proc q).parent = some p)

/-- One turn of the endless loop in `wait`, which ends by returning or by going
to sleep. -/
def waitLoop (k : Kernel n) (c : Fin n) (p : Slot) : Kernel n :=
  match waitScan k p (List.finRange NPROC) false with
  | .inl q =>
    (k.modify q Proc.reap).note
      (.reap p (k.proc q).parent (k.proc q).uid (k.proc q).pid)
  | .inr havekids =>
    if !havekids || (k.proc p).killed then
      k.note (.waitFail p (hasChild k p) (k.proc p).killed)
    else sleep k c p (.proc p) .wait

end StrideXv6
