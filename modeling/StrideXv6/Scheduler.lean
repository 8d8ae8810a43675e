import StrideXv6.Select
import StrideXv6.Proc

/-!
# The scheduler and the timer (`proc.c`, `trap.c`)

`scheduler` has two bodies, chosen by `isRoundRobin`. The stride body scans the
table for the smallest `pass`, starting from entry `0` whatever its state, and
then either charges the chosen process one stride or, if its `pass` has reached
`limitpass`, moves the limit instead. `trap` does the same accounting a second
time when an interrupt finds a process running.

A switch to a process runs it up to the point where it releases `ptable.lock`
(`resume`): that is one critical section, begun by the scheduler and ended by
the process.
-/

namespace StrideXv6

open Word32

variable {n : ℕ}

/-! ## Going on where a process left off -/

/-- What a process does after `swtch` has brought it back, until it releases
`ptable.lock`. -/
def resume (k : Kernel n) (c : Fin n) (p : Slot) : Kernel n :=
  match (k.proc p).context with
  | some .forkret => k
  | some (.yield user) => if (k.proc p).killed && user then callExit k p else k
  | some .sleep => k.modify p fun P => { P with chan := none }
  | some .wait => waitLoop (k.modify p fun P => { P with chan := none }) c p
  | some .exit => k.panic .zombieExit
  | none => k.panic .wildContext

/-! ## The stride scheduler -/

/-- The test on an entry other than the comparison of `pass`. -/
def dispatchable (k : Kernel n) (p : Slot) : Bool :=
  decide ((k.proc p).state.Live ∧ 0 < (k.proc p).tickets)

/-- The selection loop: `minProc` starts at `ptable.proc`. -/
def minProc (k : Kernel n) : Slot :=
  Select.scanMin (fun p => (k.proc p).pass) (dispatchable k) 0

/-- The accounting for the chosen process, up to the switch. -/
def Proc.charge (p : Proc) : Proc :=
  let p :=
    if p.pass ≥ p.limitpass then { p with limitpass := wrap (p.limitpass + (p.pass + p.stride)) }
    else { p with pass := wrap (p.pass + p.stride) }
  let p := { p with state := .running }
  if p.pass < 0 then { p with pass := 0, limitpass := p.stride } else p

/-- One iteration of the stride scheduler on CPU `c`. -/
def strideScheduler (k : Kernel n) (c : Fin n) : Kernel n :=
  let p := minProc k
  let k' := ((k.modify p Proc.charge).setProc c (some p)).note (.dispatch p (k.proc p).state)
  if (k.proc p).state = .running then k'.panic .sharedStack else resume k' c p

/-! ## The round-robin scheduler -/

/-- Set the scan position of a CPU. -/
def Kernel.setScan (k : Kernel n) (c : Fin n) (i : ℕ) : Kernel n :=
  { k with cpu := Function.update k.cpu c { k.cpu c with scan := i } }

/-- The next `RUNNABLE` entry from position `i` on. -/
def nextRunnable (k : Kernel n) (i : ℕ) : Option Slot :=
  (List.finRange NPROC).find? fun p => decide (i ≤ p.val ∧ (k.proc p).state = .runnable)

/-- The table scan of the round-robin scheduler, up to the next switch or to its
end, where the lock is released and the scan starts over. -/
def roundRobinScheduler (k : Kernel n) (c : Fin n) : Kernel n :=
  match nextRunnable k (k.cpu c).scan with
  | none => k.setScan c 0
  | some p =>
    resume ((((k.modify p fun P => { P with state := .running }).setProc c (some p)).setScan c
      (p.val + 1)).note (.dispatch p (k.proc p).state)) c p

/-- `scheduler`. -/
def scheduler (rr : Bool) (k : Kernel n) (c : Fin n) : Kernel n :=
  if rr then roundRobinScheduler k c else strideScheduler k c

/-! ## Traps -/

/-- The traps other than system calls. -/
inductive Trap : Type where
  /-- `T_IRQ0 + IRQ_TIMER` -/
  | timer
  /-- every other interrupt -/
  | irq
  /-- an exception: the `default` case -/
  | fault
  deriving DecidableEq, Repr

/-- The handler's work on the table: CPU `0` counts the ticks. What the handlers
of other interrupts wake up is a `wakeup` step of its own. -/
def tick (k : Kernel n) (c : Fin n) (t : Trap) : Kernel n :=
  if t = .timer ∧ c.val = 0 then wakeup1 k (some .ticks) else k

/-- `trap` on a CPU that runs no process. -/
def trapIdle (k : Kernel n) (c : Fin n) (t : Trap) : Kernel n :=
  if t = .fault then k.panic .trap else tick k c t

/-- `trap` on a CPU that runs `p`; `user` says that the trap came from user
space. -/
def trap (k : Kernel n) (c : Fin n) (p : Slot) (t : Trap) (user : Bool) : Kernel n :=
  let k := tick k c t
  if t = .fault ∧ user = false then k.panic .trap
  else
    let k := if t = .fault then k.modify p fun P => { P with killed := true } else k
    if (k.proc p).killed && user then callExit k p
    else if (k.proc p).state = .running ∧
        ((k.proc p).pass ≥ (k.proc p).limitpass ∨ t = .timer) then
      yield (k.modify p fun P =>
        { P with limitpass := wrap (P.limitpass + (P.pass + P.stride)) }) c p user
    else if (k.proc p).state = .running ∧ (k.proc p).pass < (k.proc p).limitpass then
      k.modify p fun P => { P with pass := wrap (P.pass + P.stride) }
    else k

end StrideXv6
