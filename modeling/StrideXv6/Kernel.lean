import StrideXv6.Run
import StrideXv6.Scheduler

/-!
# The kernel as a transition system

`boot` is the state `userinit` leaves. From there a run is any sequence of
scheduler iterations, traps and system calls on any CPU, each taken where it
can happen: `step` gives the next state, `none` where the action is not
possible there. `StepTo` lists the same steps as a relation, one constructor
for each; the proofs about steps are by cases on it.

A step that holds `ptable.lock` is whole: another CPU's store of RUNNABLE at the end of
`forks`, which the stride scheduler's version makes without the lock, comes before or
after it.
-/

namespace StrideXv6

variable {n : ℕ}

/-- The kernel before the first process: all static data is zero but `nextpid`. -/
def Kernel.zero (n : ℕ) : Kernel n where
  proc := fun _ => {}
  cpu := fun _ => {}
  nextpid := 1
  initproc := 0
  fault := none
  created := 0
  hist := []

/-- `userinit`: the first process, with 300 tickets. -/
def userinit (rr : Bool) (k : Kernel n) : Kernel n :=
  match allocproc rr k 300 with
  | none => k.panic .wildContext
  | some (p, k') =>
    { k'.modify p fun P => { P with context := some .forkret, state := .runnable } with
        initproc := p }

/-- The state in which the CPUs start to schedule. -/
def boot (rr : Bool) (n : ℕ) : Kernel n := userinit rr (Kernel.zero n)

/-- The system calls that create a process. -/
inductive ForkCall : Type where
  | fork
  | forkLowest
  | forkLow
  | forkMedium
  | forkHigh
  | forkHighest
  deriving DecidableEq, Repr

/-- The function each of them calls. -/
def ForkCall.call (rr : Bool) : ForkCall → Kernel n → Slot → Kernel n
  | .fork => StrideXv6.fork rr
  | .forkLowest => StrideXv6.forkLowest rr
  | .forkLow => StrideXv6.forkLow rr
  | .forkMedium => StrideXv6.forkMedium rr
  | .forkHigh => StrideXv6.forkHigh rr
  | .forkHighest => StrideXv6.forkHighest rr

/-- The tickets each of them passes to `forks`. -/
def ForkCall.tickets : ForkCall → ℤ
  | .fork => 500
  | .forkLowest => 100
  | .forkLow => 300
  | .forkMedium => 500
  | .forkHigh => 750
  | .forkHighest => 990

theorem ForkCall.call_eq (rr : Bool) (f : ForkCall) (k : Kernel n) (p : Slot) :
    f.call rr k p = forks rr f.tickets k p := by
  cases f <;> rfl

/-- What can happen next. The actions that name a CPU are taken by it, or by the
process it runs. -/
inductive Action (n : ℕ) : Type where
  /-- an iteration of `scheduler` -/
  | schedule : Fin n → Action n
  /-- a trap other than a system call, from user space or from the kernel -/
  | trap : Fin n → Trap → Bool → Action n
  /-- a `wakeup`, by a process or by an interrupt handler -/
  | wakeup : Chan → Action n
  /-- `kill` -/
  | kill : Fin n → ℤ → Action n
  /-- one of the calls that create a process -/
  | fork : Fin n → ForkCall → Action n
  /-- that call goes on: the kernel stack could be allocated or not -/
  | forkStack : Fin n → Bool → Action n
  /-- that call goes on: the memory could be copied or not -/
  | forkCopy : Fin n → Bool → Action n
  /-- that call ends -/
  | forkReady : Fin n → Action n
  /-- `wait` -/
  | wait : Fin n → Action n
  /-- kernel code sleeps on an object other than a process -/
  | sleep : Fin n → Chan → Action n
  /-- `exit` is called -/
  | callExit : Fin n → Action n
  /-- `exit` takes the lock -/
  | exit : Fin n → Action n
  deriving DecidableEq, Repr

/-- Whether the address is that of a process. -/
def Chan.isProc : Chan → Bool
  | .proc _ => true
  | _ => false

/-- The next state, or `none` where the action is not possible: the kernel has
stopped, the CPU is not in the scheduler or runs no process, or the process is
somewhere else in the code. -/
def step (rr : Bool) (k : Kernel n) (a : Action n) : Option (Kernel n) :=
  if k.fault.isSome then none
  else
    match a with
    | .schedule c =>
      match (k.cpu c).proc with
      | none => some (scheduler rr k c)
      | some _ => none
    | .trap c t user =>
      match (k.cpu c).proc with
      | none => if user then none else some (trapIdle k c t)
      | some p => if user = true ∧ (k.proc p).pc ≠ .run then none else some (trap k c p t user)
    | .wakeup ch => some (wakeup1 k (some ch))
    | .kill c pid =>
      (k.cpu c).proc.bind fun p => if (k.proc p).pc = .run then some (kill k pid) else none
    | .fork c f =>
      (k.cpu c).proc.bind fun p => if (k.proc p).pc = .run then some (f.call rr k p) else none
    | .forkStack c ok =>
      (k.cpu c).proc.bind fun p =>
        match (k.proc p).pc with
        | .allocated np tickets => some (forkStack k p np tickets ok)
        | _ => none
    | .forkCopy c ok =>
      (k.cpu c).proc.bind fun p =>
        match (k.proc p).pc with
        | .stacked np tickets => some (forkCopy k p np tickets ok)
        | _ => none
    | .forkReady c =>
      (k.cpu c).proc.bind fun p =>
        match (k.proc p).pc with
        | .copied np => some (forkReady k p np)
        | _ => none
    | .wait c =>
      (k.cpu c).proc.bind fun p => if (k.proc p).pc = .run then some (waitLoop k c p) else none
    | .sleep c ch =>
      (k.cpu c).proc.bind fun p =>
        if ch.isProc = false ∧ ((k.proc p).pc = .run ∨ (k.proc p).pc = .exiting)
        then some (sleep k c p ch .sleep) else none
    | .callExit c =>
      (k.cpu c).proc.bind fun p => if (k.proc p).pc = .run then some (callExit k p) else none
    | .exit c =>
      (k.cpu c).proc.bind fun p => if (k.proc p).pc = .exiting then some (exit k c p) else none

/-- The steps again, one constructor for each. -/
inductive StepTo (rr : Bool) (k : Kernel n) : Action n → Kernel n → Prop where
  | schedule {c : Fin n} (hidle : (k.cpu c).proc = none) :
      StepTo rr k (.schedule c) (scheduler rr k c)
  | trapIdle {c : Fin n} {t : Trap} (hidle : (k.cpu c).proc = none) :
      StepTo rr k (.trap c t false) (trapIdle k c t)
  | trap {c : Fin n} {p : Slot} {t : Trap} {user : Bool} (hp : (k.cpu c).proc = some p)
      (huser : user = true → (k.proc p).pc = .run) :
      StepTo rr k (.trap c t user) (trap k c p t user)
  | wakeup {ch : Chan} : StepTo rr k (.wakeup ch) (wakeup1 k (some ch))
  | kill {c : Fin n} {p : Slot} {pid : ℤ} (hp : (k.cpu c).proc = some p)
      (hpc : (k.proc p).pc = .run) : StepTo rr k (.kill c pid) (kill k pid)
  | fork {c : Fin n} {p : Slot} {f : ForkCall} (hp : (k.cpu c).proc = some p)
      (hpc : (k.proc p).pc = .run) : StepTo rr k (.fork c f) (forks rr f.tickets k p)
  | forkStack {c : Fin n} {p np : Slot} {tickets : ℤ} {ok : Bool}
      (hp : (k.cpu c).proc = some p) (hpc : (k.proc p).pc = .allocated np tickets) :
      StepTo rr k (.forkStack c ok) (forkStack k p np tickets ok)
  | forkCopy {c : Fin n} {p np : Slot} {tickets : ℤ} {ok : Bool}
      (hp : (k.cpu c).proc = some p) (hpc : (k.proc p).pc = .stacked np tickets) :
      StepTo rr k (.forkCopy c ok) (forkCopy k p np tickets ok)
  | forkReady {c : Fin n} {p np : Slot} (hp : (k.cpu c).proc = some p)
      (hpc : (k.proc p).pc = .copied np) : StepTo rr k (.forkReady c) (forkReady k p np)
  | wait {c : Fin n} {p : Slot} (hp : (k.cpu c).proc = some p) (hpc : (k.proc p).pc = .run) :
      StepTo rr k (.wait c) (waitLoop k c p)
  | sleep {c : Fin n} {p : Slot} {ch : Chan} (hp : (k.cpu c).proc = some p)
      (hch : ch.isProc = false) (hpc : (k.proc p).pc = .run ∨ (k.proc p).pc = .exiting) :
      StepTo rr k (.sleep c ch) (sleep k c p ch .sleep)
  | callExit {c : Fin n} {p : Slot} (hp : (k.cpu c).proc = some p)
      (hpc : (k.proc p).pc = .run) : StepTo rr k (.callExit c) (callExit k p)
  | exit {c : Fin n} {p : Slot} (hp : (k.cpu c).proc = some p)
      (hpc : (k.proc p).pc = .exiting) : StepTo rr k (.exit c) (exit k c p)

/-- Inversion for a step that waits for the current process to be at a place. -/
theorem current_eq_some {x : Option Slot} {P : Slot → Prop} [DecidablePred P]
    {f : Slot → Kernel n} {k' : Kernel n}
    (h : (x.bind fun p => if P p then some (f p) else none) = some k') :
    ∃ p, x = some p ∧ P p ∧ k' = f p := by
  obtain ⟨p, hp, hif⟩ := Option.bind_eq_some_iff.mp h
  by_cases hP : P p
  · rw [if_pos hP] at hif
    exact ⟨p, hp, hP, (Option.some.inj hif).symm⟩
  · rw [if_neg hP] at hif
    cases hif

/-- **What a step can do.** -/
theorem StepTo.of_step {rr : Bool} {k k' : Kernel n} {a : Action n}
    (h : step rr k a = some k') : k.fault = none ∧ StepTo rr k a k' := by
  unfold step at h
  rcases hf : k.fault with _ | f
  · refine ⟨rfl, ?_⟩
    rw [hf] at h
    simp only [Option.isSome_none, Bool.false_eq_true, if_false] at h
    cases a with
    | schedule c =>
      rcases hc : (k.cpu c).proc with _ | p
      · simp only [hc] at h
        obtain rfl := Option.some.inj h
        exact .schedule hc
      · simp only [hc] at h
        cases h
    | trap c t user =>
      rcases hc : (k.cpu c).proc with _ | p
      · simp only [hc] at h
        cases user with
        | false =>
          obtain rfl := Option.some.inj h
          exact .trapIdle hc
        | true => cases h
      · simp only [hc] at h
        by_cases hu : user = true ∧ (k.proc p).pc ≠ .run
        · rw [if_pos hu] at h
          cases h
        · rw [if_neg hu] at h
          obtain rfl := Option.some.inj h
          exact .trap hc fun hut => not_not.mp fun hne => hu ⟨hut, hne⟩
    | wakeup ch =>
      obtain rfl := Option.some.inj h
      exact .wakeup
    | kill c pid =>
      obtain ⟨p, hp, hpc, rfl⟩ := current_eq_some h
      exact .kill hp hpc
    | fork c f =>
      obtain ⟨p, hp, hpc, rfl⟩ := current_eq_some h
      rw [ForkCall.call_eq]
      exact .fork hp hpc
    | forkStack c ok =>
      obtain ⟨p, hp, hm⟩ := Option.bind_eq_some_iff.mp h
      split at hm
      · next np t hpc =>
        obtain rfl := Option.some.inj hm
        exact .forkStack hp hpc
      · cases hm
    | forkCopy c ok =>
      obtain ⟨p, hp, hm⟩ := Option.bind_eq_some_iff.mp h
      split at hm
      · next np t hpc =>
        obtain rfl := Option.some.inj hm
        exact .forkCopy hp hpc
      · cases hm
    | forkReady c =>
      obtain ⟨p, hp, hm⟩ := Option.bind_eq_some_iff.mp h
      split at hm
      · next np hpc =>
        obtain rfl := Option.some.inj hm
        exact .forkReady hp hpc
      · cases hm
    | wait c =>
      obtain ⟨p, hp, hpc, rfl⟩ := current_eq_some h
      exact .wait hp hpc
    | sleep c ch =>
      obtain ⟨p, hp, ⟨hch, hpc⟩, rfl⟩ := current_eq_some h
      exact .sleep hp hch hpc
    | callExit c =>
      obtain ⟨p, hp, hpc, rfl⟩ := current_eq_some h
      exact .callExit hp hpc
    | exit c =>
      obtain ⟨p, hp, hpc, rfl⟩ := current_eq_some h
      exact .exit hp hpc
  · rw [hf] at h
    cases h

end StrideXv6
