import StrideXv6.Lifecycle

/-!
# The round-robin mode

With `isRoundRobin` set, `scheduler` runs the scheduler of the original kernel.
Two things are said about it here.

It is safe on any number of CPUs (`round_robin_safe`): its loop takes only
`RUNNABLE` entries, so no process is ever switched to while another CPU runs it.

It does not look at the ticket fields. But `trap` does: a `RUNNING` process
whose `pass` has reached its `limitpass` yields at *any* interrupt, where the
original kernel yields at the timer's only, and the test for the mode that
guards the other uses of these fields is missing there. Apart from such
interrupts, a run of the kernel is the same whatever the fields hold
(`round_robin_blind`).
-/

namespace StrideXv6

open Machine Word32

variable {n : ℕ}

/-! ## Switches and panics -/

/-- From `k` to `k'` only `RUNNABLE` entries were switched to, and no switch
went wrong. -/
structure Orderly (k k' : Kernel n) : Prop where
  hist : ∀ p st, Event.dispatch p st ∈ k'.hist → Event.dispatch p st ∈ k.hist ∨ st = .runnable
  fault : k'.fault = k.fault ∨ (k'.fault ≠ some .schedRunning ∧ k'.fault ≠ some .sharedStack)

namespace Orderly

/-- The record and the fault are as they were. -/
theorem of_eq {k k' : Kernel n} (hhist : k'.hist = k.hist) (hfault : k'.fault = k.fault) :
    Orderly k k' :=
  ⟨fun _ _ h => Or.inl (hhist ▸ h), Or.inl hfault⟩

theorem trans {k k' k'' : Kernel n} (h : Orderly k k') (h' : Orderly k' k'') : Orderly k k'' := by
  refine ⟨fun p st hd => ?_, ?_⟩
  · rcases h'.hist p st hd with hd' | hst
    · exact h.hist p st hd'
    · exact Or.inr hst
  · rcases h'.fault with hf' | hf'
    · rw [hf']
      exact h.fault
    · exact Or.inr hf'

/-- What leaves the record and the fault alone may come first. -/
theorem after {k k' k'' : Kernel n} (h : Orderly k' k'') (hhist : k'.hist = k.hist)
    (hfault : k'.fault = k.fault) : Orderly k k'' :=
  (of_eq hhist hfault).trans h

/-- Another panic. -/
theorem panic {k : Kernel n} {f : Fault} (hr : f ≠ .schedRunning) (hs : f ≠ .sharedStack) :
    Orderly k (k.panic f) :=
  ⟨fun _ _ h => Or.inl h, Or.inr ⟨fun h => hr (Option.some.inj h), fun h => hs (Option.some.inj h)⟩⟩

/-- An event other than a switch. -/
theorem note {k : Kernel n} {e : Event} (he : ∀ p st, e ≠ .dispatch p st) :
    Orderly k (k.note e) := by
  refine ⟨fun p st h => ?_, Or.inl rfl⟩
  rcases List.mem_cons.mp h with h | h
  · exact absurd h.symm (he p st)
  · exact Or.inl h

variable {k : Kernel n} {c : Fin n} {p : Slot}

theorem yield {user : Bool} : Orderly k (yield k c p user) := by
  unfold StrideXv6.yield
  rw [sched_of_ne (by rw [Kernel.modify_proc_self]; nofun)]
  exact of_eq rfl rfl

theorem sleep {ch : Chan} {ctx : Context} : Orderly k (sleep k c p ch ctx) := by
  unfold StrideXv6.sleep
  rw [sched_of_ne (by rw [Kernel.modify_proc_self]; nofun)]
  exact of_eq rfl rfl

theorem callExit : Orderly k (callExit k p) := by
  unfold StrideXv6.callExit
  split
  · exact panic nofun nofun
  · exact of_eq rfl rfl

theorem waitLoop : Orderly k (waitLoop k c p) := by
  unfold StrideXv6.waitLoop
  split
  · exact (note fun _ _ => Event.noConfusion).after rfl rfl
  · split
    · exact note fun _ _ => Event.noConfusion
    · exact sleep

theorem exit : Orderly k (exit k c p) := by
  obtain ⟨-, -, -, hfault, -, hhist⟩ :=
    passChildren_frame (wakeup1 k ((k.proc p).parent.map Chan.proc)) p
  unfold StrideXv6.exit
  dsimp only
  generalize passChildren _ p = k' at hfault hhist ⊢
  rw [sched_of_ne (by rw [Kernel.note_proc, Kernel.modify_proc_self]; nofun)]
  have hnote : Orderly (k'.modify p fun P => { P with state := .zombie, context := some .exit })
      (((k'.modify p fun P => { P with state := .zombie, context := some .exit }).note
        (.exit ((k'.modify p fun P =>
          { P with state := .zombie, context := some .exit }).proc p).uid)).setProc c none) :=
    (note fun _ _ => Event.noConfusion).trans (of_eq rfl rfl)
  exact hnote.after hhist hfault

theorem resume : Orderly k (resume k c p) := by
  unfold StrideXv6.resume
  split
  · exact of_eq rfl rfl
  · split
    · exact callExit
    · exact of_eq rfl rfl
  · exact of_eq rfl rfl
  · exact waitLoop.after rfl rfl
  · exact panic nofun nofun
  · exact panic nofun nofun

/-- The round-robin loop tests for `RUNNABLE`. -/
theorem roundRobinScheduler : Orderly k (roundRobinScheduler k c) := by
  unfold StrideXv6.roundRobinScheduler
  split
  · exact of_eq rfl rfl
  · next p hnext =>
    refine Orderly.trans ?_ resume
    refine ⟨fun q st h => ?_, Or.inl rfl⟩
    rcases List.mem_cons.mp h with h | h
    · right
      rw [(Event.dispatch.inj h).2]
      exact nextRunnable_state hnext
    · exact Or.inl h

theorem tick {t : Trap} : Orderly k (tick k c t) := by
  unfold StrideXv6.tick
  split <;> exact of_eq rfl rfl

theorem trap {t : Trap} {user : Bool} : Orderly k (trap k c p t user) := by
  have hkill : Orderly (StrideXv6.tick k c t) (if t = .fault then
      (StrideXv6.tick k c t).modify p fun P => { P with killed := true }
      else StrideXv6.tick k c t) := by
    split <;> exact of_eq rfl rfl
  unfold StrideXv6.trap
  dsimp only
  split
  · exact tick.trans (panic nofun nofun)
  · refine tick.trans (hkill.trans ?_)
    generalize (if t = .fault then _ else _) = k'
    split
    · exact callExit
    · split
      · exact yield.after rfl rfl
      · split <;> exact of_eq rfl rfl

theorem forks {rr : Bool} {tickets : ℤ} : Orderly k (forks rr tickets k p) := by
  unfold StrideXv6.forks allocproc
  cases findUnused k <;> exact of_eq rfl rfl

theorem kill {pid : ℤ} : Orderly k (kill k pid) := by
  unfold StrideXv6.kill
  split <;> exact of_eq rfl rfl

/-- No step of the round-robin kernel switches to an entry that is not
`RUNNABLE`, or ends in `sched` with a `RUNNING` process. -/
theorem of_stepTo {k' : Kernel n} {a : Action n} (h : StepTo true k a k') : Orderly k k' := by
  cases h with
  | schedule hidle => exact roundRobinScheduler
  | trapIdle hidle =>
    unfold trapIdle
    split
    · exact panic nofun nofun
    · exact tick
  | trap hp huser => exact trap
  | wakeup => exact of_eq rfl rfl
  | kill hp hpc => exact kill
  | fork hp hpc => exact forks
  | forkStack hp hpc =>
    unfold StrideXv6.forkStack
    split <;> exact of_eq rfl rfl
  | forkCopy hp hpc =>
    unfold StrideXv6.forkCopy
    split <;> exact of_eq rfl rfl
  | forkReady hp hpc => exact of_eq rfl rfl
  | wait hp hpc => exact waitLoop
  | sleep hp hch hpc => exact sleep
  | callExit hp hpc => exact callExit
  | exit hp hpc => exact exit

end Orderly

/-! ## Many CPUs -/

/-- What the round-robin kernel keeps whenever `ptable.lock` is free. -/
structure RoundRobinSafe (k : Kernel n) : Prop where
  /-- a process is `RUNNING` exactly when it is current on exactly one CPU -/
  running_iff : ∀ p, (k.proc p).state = .running ↔ ∃! c, (k.cpu c).proc = some p
  /-- no process is current on two CPUs -/
  current_unique : ∀ c d p, (k.cpu c).proc = some p → (k.cpu d).proc = some p → c = d
  /-- only `RUNNABLE` entries were switched to -/
  dispatched : ∀ p st, Event.dispatch p st ∈ k.hist → st = .runnable
  /-- no `panic("sched running")` -/
  sched : k.fault ≠ some .schedRunning

/-- The life cycle, and the record and the fault of a run of the round-robin
kernel. -/
structure RoundRobinInv (k : Kernel n) : Prop where
  inv : Inv k
  dispatched : ∀ p st, Event.dispatch p st ∈ k.hist → st = .runnable
  sched : k.fault ≠ some .schedRunning
  stack : k.fault ≠ some .sharedStack

theorem RoundRobinInv.safe {k : Kernel n} (h : RoundRobinInv k) : RoundRobinSafe k := by
  have hinj := h.inv.placed.inj h.stack
  refine ⟨fun p => ⟨fun hp => ?_, ?_⟩, hinj, h.dispatched, h.sched⟩
  · obtain ⟨c, hc⟩ := h.inv.placed.current p hp
    exact ⟨c, hc, fun d hd => hinj d c p hd hc⟩
  · rintro ⟨c, hc, -⟩
    exact h.inv.placed.running c p hc

theorem RoundRobinInv.init (n : ℕ) : RoundRobinInv (boot true n) :=
  ⟨Inv.init true n, nofun, nofun, nofun⟩

theorem RoundRobinInv.next {k k' : Kernel n} {a : Action n} (h : RoundRobinInv k)
    (hs : step true k a = some k') : RoundRobinInv k' := by
  obtain ⟨hfault, hto⟩ := StepTo.of_step hs
  have ho := Orderly.of_stepTo hto
  refine ⟨h.inv.next hs, fun p st hd => ?_, ?_, ?_⟩
  · rcases ho.hist p st hd with hd' | hst
    · exact h.dispatched p st hd'
    · exact hst
  · rcases ho.fault with hf | hf
    · rw [hf, hfault]
      nofun
    · exact hf.1
  · rcases ho.fault with hf | hf
    · rw [hf, hfault]
      nofun
    · exact hf.2

/-- **Round robin is safe on many CPUs**: in every state of every run, whatever
the CPUs do and however their critical sections interleave. -/
theorem round_robin_safe (as : List (Action n)) :
    AllStates (step true) RoundRobinSafe (boot true n) as :=
  (allStates_of_step (fun _ _ _ h hs => h.next hs) (RoundRobinInv.init n)).mono
    fun _ h => h.safe

/-! ## The ticket fields -/

/-- The entry without what its ticket fields hold. -/
def Proc.blank (P : Proc) : Proc := { P with tickets := 0, stride := 0, pass := 0, limitpass := 0 }

/-- The kernel without what the ticket fields hold. -/
def Kernel.blank (k : Kernel n) : Kernel n := { k with proc := fun p => (k.proc p).blank }

/-- The two kernels differ at most in the ticket fields. -/
def SameButTickets (k l : Kernel n) : Prop := k.blank = l.blank

/-- The entries switched to, newest first. -/
def Kernel.dispatches (k : Kernel n) : List Slot :=
  k.hist.filterMap fun
    | .dispatch p _ => some p
    | _ => none

/-- At an interrupt other than the timer's, a process that does not have to exit
is below its limit. -/
def IrqBelowLimit (k : Kernel n) : Action n → Prop
  | .trap c .irq user =>
    ∀ p ∈ (k.cpu c).proc, (k.proc p).state = .running → ((k.proc p).killed && user) = false →
      (k.proc p).pass < (k.proc p).limitpass
  | _ => True

instance (k : Kernel n) : DecidablePred (IrqBelowLimit k)
  | .trap c .irq user => inferInstanceAs (Decidable (∀ p ∈ (k.cpu c).proc,
      (k.proc p).state = .running → ((k.proc p).killed && user) = false →
        (k.proc p).pass < (k.proc p).limitpass))
  | .trap _ .timer _ | .trap _ .fault _ | .schedule _ | .wakeup _ | .kill _ _ | .fork _ _
  | .forkStack _ _ | .forkCopy _ _ | .forkReady _ | .wait _ | .sleep _ _ | .callExit _ | .exit _ =>
    isTrue trivial

/-- A `RUNNING` process that `trap` does not make exit yields at the timer
interrupt and at no other. -/
def YieldsOnTimer (k : Kernel n) : Action n → Prop
  | .trap c t user =>
    ∀ p ∈ (k.cpu c).proc, (k.proc p).state = .running → ((k.proc p).killed && user) = false →
      t ≠ .fault → (((trap k c p t user).cpu c).proc = none ↔ t = .timer)
  | _ => True

/-! ### `trap`, one interrupt at a time -/

/-- The tick leaves a running process alone. -/
theorem tick_proc_running {k : Kernel n} {c : Fin n} {t : Trap} {p : Slot}
    (hrun : (k.proc p).state = .running) : (tick k c t).proc p = k.proc p := by
  unfold tick
  split
  · rw [wakeup1_proc]
    exact if_neg fun h => by rw [hrun] at h; exact nomatch h.1
  · rfl

theorem trap_fault_user (k : Kernel n) (c : Fin n) (p : Slot) :
    trap k c p .fault true = callExit (k.modify p fun P => { P with killed := true }) p := by
  have htick : tick k c .fault = k := rfl
  unfold trap
  rw [htick, if_neg (by simp), if_pos rfl]
  simp

theorem trap_timer (k : Kernel n) (c : Fin n) (p : Slot) (user : Bool) :
    trap k c p .timer user =
      if ((tick k c .timer).proc p).killed && user then callExit (tick k c .timer) p
      else if ((tick k c .timer).proc p).state = .running then
        yield ((tick k c .timer).modify p fun P =>
          { P with limitpass := wrap (P.limitpass + (P.pass + P.stride)) }) c p user
      else tick k c .timer := by
  unfold trap
  generalize tick k c .timer = k₁
  by_cases hrun : (k₁.proc p).state = .running <;> simp [hrun]

theorem trap_irq (k : Kernel n) (c : Fin n) (p : Slot) (user : Bool) :
    trap k c p .irq user =
      if (k.proc p).killed && user then callExit k p
      else if (k.proc p).state = .running then
        if (k.proc p).pass ≥ (k.proc p).limitpass then
          yield (k.modify p fun P =>
            { P with limitpass := wrap (P.limitpass + (P.pass + P.stride)) }) c p user
        else k.modify p fun P => { P with pass := wrap (P.pass + P.stride) }
      else k := by
  have htick : tick k c .irq = k := rfl
  unfold trap
  rw [htick]
  by_cases hrun : (k.proc p).state = .running
  · by_cases hlim : (k.proc p).pass ≥ (k.proc p).limitpass
    · simp [hrun, hlim]
    · simp [hrun, hlim, lt_of_not_ge hlim]
  · simp [hrun]

/-- The function on entries does not look at the ticket fields for anything but
the ticket fields. -/
def Proc.Blind (f : Proc → Proc) : Prop := ∀ P : Proc, (f P).blank = (f P.blank).blank

namespace SameButTickets

variable {k l : Kernel n}

theorem cpu (h : SameButTickets k l) : k.cpu = l.cpu := congrArg (·.cpu) h

theorem nextpid (h : SameButTickets k l) : k.nextpid = l.nextpid := congrArg (·.nextpid) h

theorem initproc (h : SameButTickets k l) : k.initproc = l.initproc := congrArg (·.initproc) h

theorem fault (h : SameButTickets k l) : k.fault = l.fault := congrArg (·.fault) h

theorem created (h : SameButTickets k l) : k.created = l.created := congrArg (·.created) h

theorem hist (h : SameButTickets k l) : k.hist = l.hist := congrArg (·.hist) h

theorem proc (h : SameButTickets k l) (p : Slot) : (k.proc p).blank = (l.proc p).blank :=
  congrFun (congrArg (·.proc) h) p

theorem state (h : SameButTickets k l) (p : Slot) : (k.proc p).state = (l.proc p).state :=
  congrArg (·.state) (h.proc p)

theorem pid (h : SameButTickets k l) (p : Slot) : (k.proc p).pid = (l.proc p).pid :=
  congrArg (·.pid) (h.proc p)

theorem parent (h : SameButTickets k l) (p : Slot) : (k.proc p).parent = (l.proc p).parent :=
  congrArg (·.parent) (h.proc p)

theorem context (h : SameButTickets k l) (p : Slot) : (k.proc p).context = (l.proc p).context :=
  congrArg (·.context) (h.proc p)

theorem killed (h : SameButTickets k l) (p : Slot) : (k.proc p).killed = (l.proc p).killed :=
  congrArg (·.killed) (h.proc p)

theorem pc (h : SameButTickets k l) (p : Slot) : (k.proc p).pc = (l.proc p).pc :=
  congrArg (·.pc) (h.proc p)

theorem uid (h : SameButTickets k l) (p : Slot) : (k.proc p).uid = (l.proc p).uid :=
  congrArg (·.uid) (h.proc p)

/-- The tables agree entry by entry, the rest is the same. -/
theorem of_proc (h : SameButTickets k l) {x y : Slot → Proc}
    (hxy : ∀ q, (x q).blank = (y q).blank) :
    SameButTickets { k with proc := x } { l with proc := y } := by
  unfold SameButTickets Kernel.blank
  dsimp only
  rw [h.cpu, h.nextpid, h.initproc, h.fault, h.created, h.hist, funext hxy]

theorem modify (h : SameButTickets k l) (p : Slot) {f : Proc → Proc} (hf : Proc.Blind f) :
    SameButTickets (k.modify p f) (l.modify p f) := by
  refine h.of_proc fun q => ?_
  by_cases hq : q = p
  · subst hq
    rw [Function.update_self, Function.update_self, hf (k.proc q), hf (l.proc q), h.proc q]
  · rw [Function.update_of_ne hq, Function.update_of_ne hq, h.proc q]

/-- A change of the ticket fields only. -/
theorem modify_tickets (k : Kernel n) (p : Slot) {f : Proc → Proc}
    (hf : ∀ P, (f P).blank = P.blank) : SameButTickets k (k.modify p f) := by
  refine SameButTickets.of_proc (k := k) rfl fun q => ?_
  by_cases hq : q = p
  · subst hq
    rw [Function.update_self, hf]
  · rw [Function.update_of_ne hq]

theorem setProc (h : SameButTickets k l) (c : Fin n) (x : Option Slot) :
    SameButTickets (k.setProc c x) (l.setProc c x) :=
  congrArg (fun k : Kernel n => k.setProc c x) h

theorem setScan (h : SameButTickets k l) (c : Fin n) (i : ℕ) :
    SameButTickets (k.setScan c i) (l.setScan c i) :=
  congrArg (fun k : Kernel n => k.setScan c i) h

theorem panic (h : SameButTickets k l) (f : Fault) : SameButTickets (k.panic f) (l.panic f) :=
  congrArg (fun k : Kernel n => k.panic f) h

theorem note (h : SameButTickets k l) (e : Event) : SameButTickets (k.note e) (l.note e) :=
  congrArg (fun k : Kernel n => k.note e) h

/-! ### The functions of `proc.c` -/

variable {c : Fin n} {p : Slot}

theorem wakeup1 (h : SameButTickets k l) (ch : Option Chan) :
    SameButTickets (wakeup1 k ch) (wakeup1 l ch) := by
  have hwake : ∀ P : Proc, (P.wake ch).blank = P.blank.wake ch := by
    intro P
    unfold Proc.wake Proc.blank
    dsimp only
    split <;> rfl
  refine h.of_proc fun q => ?_
  rw [hwake, hwake, h.proc q]

theorem sched (h : SameButTickets k l) : SameButTickets (sched k c p) (sched l c p) := by
  unfold StrideXv6.sched
  rw [h.state p]
  split
  · exact h.panic _
  · exact h.setProc c none

theorem yield (h : SameButTickets k l) {user : Bool} :
    SameButTickets (yield k c p user) (yield l c p user) :=
  (h.modify p fun _ => rfl).sched

theorem sleep (h : SameButTickets k l) {ch : Chan} {ctx : Context} :
    SameButTickets (sleep k c p ch ctx) (sleep l c p ch ctx) :=
  (h.modify p fun _ => rfl).sched

theorem kill (h : SameButTickets k l) (pid : ℤ) : SameButTickets (kill k pid) (kill l pid) := by
  have htarget : killTarget k pid = killTarget l pid := by
    unfold killTarget
    simp only [h.pid]
  unfold StrideXv6.kill
  rw [htarget]
  split
  · exact h
  · exact h.modify _ fun _ => rfl

theorem forks (h : SameButTickets k l) {tickets : ℤ} :
    SameButTickets (forks true tickets k p) (forks true tickets l p) := by
  have hunused : findUnused k = findUnused l := by
    unfold findUnused
    simp only [h.state]
  unfold StrideXv6.forks allocproc
  rw [hunused, h.nextpid, h.created]
  cases findUnused l with
  | none => exact h
  | some np =>
    refine SameButTickets.modify ?_ p fun _ => rfl
    have halloc := h.modify np (f := Proc.alloc true l.nextpid l.created tickets) fun _ => rfl
    exact congrArg (fun k : Kernel n =>
      { k with nextpid := wrap (l.nextpid + 1), created := l.created + 1 }) halloc

theorem forkStack (h : SameButTickets k l) {np : Slot} {tickets : ℤ} {ok : Bool} :
    SameButTickets (forkStack k p np tickets ok) (forkStack l p np tickets ok) := by
  unfold StrideXv6.forkStack
  split <;> exact (h.modify np fun _ => rfl).modify p fun _ => rfl

/-- The new entry's ticket fields do not depend on the old ones. -/
theorem forkCopy (h : SameButTickets k l) {np : Slot} {tickets : ℤ} {ok : Bool} :
    SameButTickets (forkCopy k p np tickets ok) (forkCopy l p np tickets ok) := by
  unfold StrideXv6.forkCopy
  split <;> exact (h.modify np fun _ => rfl).modify p fun _ => rfl

theorem forkReady (h : SameButTickets k l) {np : Slot} :
    SameButTickets (forkReady k p np) (forkReady l p np) :=
  (h.modify np fun _ => rfl).modify p fun _ => rfl

theorem callExit (h : SameButTickets k l) : SameButTickets (callExit k p) (callExit l p) := by
  unfold StrideXv6.callExit
  rw [h.initproc]
  split
  · exact h.panic _
  · exact h.modify p fun _ => rfl

theorem abandon (h : SameButTickets k l) (q : Slot) :
    SameButTickets (abandon p k q) (abandon p l q) := by
  have hgive := h.modify q (f := fun P => { P with parent := some l.initproc }) fun _ => rfl
  unfold StrideXv6.abandon
  dsimp only
  rw [h.parent q, h.initproc, hgive.state q]
  split
  · split
    · exact hgive.wakeup1 _
    · exact hgive
  · exact h

theorem foldl_abandon (qs : List Slot) :
    ∀ {k l : Kernel n}, SameButTickets k l →
      SameButTickets (qs.foldl (StrideXv6.abandon p) k) (qs.foldl (StrideXv6.abandon p) l) := by
  induction qs with
  | nil => intro k l h; exact h
  | cons q qs ih => intro k l h; exact ih (h.abandon q)

theorem exit (h : SameButTickets k l) : SameButTickets (exit k c p) (exit l c p) := by
  unfold StrideXv6.exit
  dsimp only
  rw [h.parent p]
  have hpass := foldl_abandon (p := p) (List.finRange NPROC)
    (h.wakeup1 ((l.proc p).parent.map Chan.proc))
  have hzombie := hpass.modify p
    (f := fun P => { P with state := .zombie, context := some .exit }) fun _ => rfl
  unfold passChildren
  rw [hzombie.uid p]
  exact (hzombie.note _).sched

theorem waitScan_eq (h : SameButTickets k l) (qs : List Slot) :
    ∀ b, waitScan k p qs b = waitScan l p qs b := by
  induction qs with
  | nil => intro b; rfl
  | cons q qs ih =>
    intro b
    unfold waitScan
    rw [h.parent q, h.state q, ih, ih]

theorem waitLoop (h : SameButTickets k l) : SameButTickets (waitLoop k c p) (waitLoop l c p) := by
  have hchild : hasChild k p = hasChild l p := by
    unfold hasChild
    simp only [h.state, h.parent]
  unfold StrideXv6.waitLoop
  rw [h.waitScan_eq, h.killed p, hchild]
  split
  · next q _ =>
    rw [h.parent q, h.uid q, h.pid q]
    exact (h.modify q fun _ => rfl).note _
  · split
    · exact h.note _
    · exact h.sleep

theorem resume (h : SameButTickets k l) : SameButTickets (resume k c p) (resume l c p) := by
  unfold StrideXv6.resume
  rw [h.context p, h.killed p]
  split
  · exact h
  · split
    · exact h.callExit
    · exact h
  · exact h.modify p fun _ => rfl
  · exact (h.modify p fun _ => rfl).waitLoop
  · exact h.panic _
  · exact h.panic _

/-- The round-robin loop does not look at the ticket fields. -/
theorem roundRobinScheduler (h : SameButTickets k l) :
    SameButTickets (roundRobinScheduler k c) (roundRobinScheduler l c) := by
  have hnext : ∀ i, nextRunnable k i = nextRunnable l i := by
    intro i
    unfold nextRunnable
    simp only [h.state]
  unfold StrideXv6.roundRobinScheduler
  rw [h.cpu, hnext]
  split
  · exact h.setScan c 0
  · next q _ =>
    rw [h.state q]
    exact ((((h.modify q fun _ => rfl).setProc c _).setScan c _).note _).resume

theorem tick (h : SameButTickets k l) {t : Trap} : SameButTickets (tick k c t) (tick l c t) := by
  unfold StrideXv6.tick
  split
  · exact h.wakeup1 _
  · exact h

/-- `trap` does look at the ticket fields: at an interrupt other than the
timer's the two sides have to be below their limits. -/
theorem trap (h : SameButTickets k l) {t : Trap} {user : Bool}
    (hk : t = .irq → (k.proc p).state = .running → ((k.proc p).killed && user) = false →
      (k.proc p).pass < (k.proc p).limitpass)
    (hl : t = .irq → (l.proc p).state = .running → ((l.proc p).killed && user) = false →
      (l.proc p).pass < (l.proc p).limitpass) :
    SameButTickets (trap k c p t user) (trap l c p t user) := by
  cases t with
  | fault =>
    have hmark := h.modify p (f := fun P => { P with killed := true }) fun _ => rfl
    cases user with
    | false => exact h.panic .trap
    | true =>
      rw [trap_fault_user, trap_fault_user]
      exact hmark.callExit
  | timer =>
    have ht := h.tick (c := c) (t := .timer)
    rw [trap_timer, trap_timer]
    generalize StrideXv6.tick k c .timer = k₁ at ht ⊢
    generalize StrideXv6.tick l c .timer = l₁ at ht ⊢
    rw [ht.killed p, ht.state p]
    split
    · exact ht.callExit
    · split
      · exact (ht.modify p fun _ => rfl).yield
      · exact ht
  | irq =>
    rw [trap_irq, trap_irq, h.killed p, h.state p]
    rw [h.killed p, h.state p] at hk
    split
    · exact h.callExit
    · next hrun =>
      rw [Bool.not_eq_true] at hrun
      split
      · next hst => 
        rw [if_neg (by have := hk rfl hst hrun; omega), if_neg (by have := hl rfl hst hrun; omega)]
        exact h.modify p fun _ => rfl
      · exact h

/-- What is left to the current process, on both sides. -/
theorem bind_current {x : Option Slot} {f g : Slot → Option (Kernel n)}
    (hfg : ∀ p, x = some p → (f p).map Kernel.blank = (g p).map Kernel.blank) :
    (x.bind f).map Kernel.blank = (x.bind g).map Kernel.blank := by
  cases x with
  | none => rfl
  | some p => exact hfg p rfl

/-- A step of the round-robin kernel, on both sides. -/
theorem step (h : SameButTickets k l) {a : Action n} (hk : IrqBelowLimit k a)
    (hl : IrqBelowLimit l a) :
    (step true k a).map Kernel.blank = (step true l a).map Kernel.blank := by
  have hif : ∀ {P : Prop} [Decidable P] {k' l' : Kernel n}, SameButTickets k' l' →
      (if P then some k' else none).map Kernel.blank =
        (if P then some l' else none).map Kernel.blank := by
    intro P _ k' l' h'
    split
    · exact congrArg some h'
    · rfl
  unfold StrideXv6.step
  rw [h.fault, h.cpu]
  split
  · rfl
  cases a with
  | schedule c =>
    dsimp only
    cases (l.cpu c).proc with
    | none => exact congrArg some h.roundRobinScheduler
    | some p => rfl
  | trap c t user =>
    dsimp only
    cases hc : (l.cpu c).proc with
    | none =>
      cases user with
      | true => rfl
      | false =>
        refine congrArg some ?_
        unfold trapIdle
        split
        · exact h.panic _
        · exact h.tick
    | some p =>
      dsimp only
      rw [h.pc p]
      split
      · rfl
      · refine congrArg some (h.trap ?_ ?_)
        · rintro rfl
          exact hk p (by rw [h.cpu]; exact hc)
        · rintro rfl
          exact hl p hc
  | wakeup ch => exact congrArg some (h.wakeup1 _)
  | kill c pid =>
    refine bind_current fun p _ => ?_
    rw [h.pc p]
    exact hif (h.kill pid)
  | fork c f =>
    refine bind_current fun p _ => ?_
    rw [h.pc p, ForkCall.call_eq, ForkCall.call_eq]
    exact hif h.forks
  | forkStack c ok =>
    refine bind_current fun p _ => ?_
    rw [h.pc p]
    split
    · exact congrArg some h.forkStack
    · rfl
  | forkCopy c ok =>
    refine bind_current fun p _ => ?_
    rw [h.pc p]
    split
    · exact congrArg some h.forkCopy
    · rfl
  | forkReady c =>
    refine bind_current fun p _ => ?_
    rw [h.pc p]
    split
    · exact congrArg some h.forkReady
    · rfl
  | wait c =>
    refine bind_current fun p _ => ?_
    rw [h.pc p]
    exact hif h.waitLoop
  | sleep c ch =>
    refine bind_current fun p _ => ?_
    rw [h.pc p]
    exact hif h.sleep
  | callExit c =>
    refine bind_current fun p _ => ?_
    rw [h.pc p]
    exact hif h.callExit
  | exit c =>
    refine bind_current fun p _ => ?_
    rw [h.pc p]
    exact hif h.exit

/-- A run, on both sides. -/
theorem exec (as : List (Action n)) :
    ∀ {k l : Kernel n}, SameButTickets k l → AllSteps (StrideXv6.step true) IrqBelowLimit k as →
      AllSteps (StrideXv6.step true) IrqBelowLimit l as →
      (exec (StrideXv6.step true) k as).map Kernel.blank =
        (exec (StrideXv6.step true) l as).map Kernel.blank := by
  induction as with
  | nil => intro k l h _ _; exact congrArg some h
  | cons a as ih =>
    intro k l h hk hl
    have hstep := h.step hk.1 hl.1
    rw [exec_cons, exec_cons]
    cases hk' : StrideXv6.step true k a with
    | none =>
      rw [hk'] at hstep
      rw [Option.map_eq_none_iff.mp hstep.symm]
    | some k' =>
      rw [hk'] at hstep
      obtain ⟨l', hl', hsame⟩ := Option.map_eq_some_iff.mp hstep.symm
      rw [hl']
      exact ih hsame.symm (hk.2 k' hk') (hl.2 l' hl')

end SameButTickets

/-! ### Mode isolation -/

/-- After a `yield` the CPU is back in the scheduler. -/
theorem yield_cpu (k : Kernel n) (c : Fin n) (p : Slot) (user : Bool) :
    ((yield k c p user).cpu c).proc = none := by
  unfold yield
  rw [sched_of_ne (by rw [Kernel.modify_proc_self]; nofun), Kernel.setProc_cpu_proc, if_pos rfl]

/-- The interrupts at which `trap` does what a kernel without strides would do. -/
theorem yieldsOnTimer_iff (k : Kernel n) (a : Action n) :
    YieldsOnTimer k a ↔ IrqBelowLimit k a := by
  cases a with
  | trap c t user =>
    cases t with
    | timer =>
      refine ⟨fun _ => trivial, fun _ p _ hrun hkilled _ => ⟨fun _ => rfl, fun _ => ?_⟩⟩
      have htick : (tick k c .timer).proc p = k.proc p := tick_proc_running hrun
      rw [trap_timer, htick, hkilled, if_neg nofun, if_pos hrun]
      exact yield_cpu _ c p user
    | irq =>
      refine forall₄_congr fun p hp hrun hkilled => ?_
      rw [trap_irq, hkilled, if_neg nofun, if_pos hrun]
      by_cases hlim : (k.proc p).pass ≥ (k.proc p).limitpass
      · rw [if_pos hlim, yield_cpu]
        simp [hlim]
      · rw [if_neg hlim, Kernel.modify_cpu, hp]
        simp [lt_of_not_ge hlim]
    | fault => exact ⟨fun _ => trivial, fun _ p _ _ _ hne => absurd rfl hne⟩
  | _ => exact Iff.rfl

/-- **Mode isolation.** Two runs of the round-robin kernel from states that
differ only in the ticket fields switch to the same processes in the same order,
if at no interrupt but the timer's a running process has reached its limit; and
that is exactly what makes `trap` yield at the timer interrupt only. -/
theorem round_robin_blind {k l : Kernel n} {as : List (Action n)} (h : SameButTickets k l)
    (hk : AllSteps (step true) IrqBelowLimit k as) (hl : AllSteps (step true) IrqBelowLimit l as) :
    (exec (step true) k as).map Kernel.dispatches = (exec (step true) l as).map Kernel.dispatches ∧
      ∀ (k' : Kernel n) (a : Action n), YieldsOnTimer k' a ↔ IrqBelowLimit k' a := by
  refine ⟨?_, yieldsOnTimer_iff⟩
  have hblank := congrArg (Option.map Kernel.dispatches) (h.exec as hk hl)
  rwa [Option.map_map, Option.map_map] at hblank

/-- The kernel after boot, had `allocproc` set init's ticket fields. -/
def bootWithTickets (n : ℕ) (tickets : ℤ) : Kernel n :=
  (boot true n).modify 0 fun P =>
    { P with tickets := tickets, stride := Int.tdiv 10000 tickets
             limitpass := Int.tdiv 10000 tickets }

theorem bootWithTickets_same (n : ℕ) (tickets : ℤ) :
    SameButTickets (boot true n) (bootWithTickets n tickets) :=
  .modify_tickets _ 0 fun _ => rfl

/-- Init with 300 or with 500 tickets: a disk interrupt, a timer interrupt, and
init is switched to again. -/
theorem round_robin_blind_init :
    SameButTickets (bootWithTickets 2 300) (bootWithTickets 2 500) ∧
      (exec (step true) (bootWithTickets 2 300)
          [.schedule 0, .trap 0 .irq true, .trap 0 .timer true, .schedule 1]).map
        Kernel.dispatches = some [0, 0] ∧
      (exec (step true) (bootWithTickets 2 300)
          [.schedule 0, .trap 0 .irq true, .trap 0 .timer true, .schedule 1]).map
        Kernel.dispatches =
      (exec (step true) (bootWithTickets 2 500)
          [.schedule 0, .trap 0 .irq true, .trap 0 .timer true, .schedule 1]).map
        Kernel.dispatches := by
  have hsame : SameButTickets (bootWithTickets 2 300) (bootWithTickets 2 500) :=
    (bootWithTickets_same 2 300).symm.trans (bootWithTickets_same 2 500)
  exact ⟨hsame, by decide +kernel,
    (round_robin_blind hsame (by decide +kernel) (by decide +kernel)).1⟩

/-- Right after boot init's `pass` and `limitpass` are both `0`, so a disk
interrupt takes its CPU away, and the other CPU switches to it. With the fields
of a process of 300 tickets it stays where it is. -/
theorem irq_yields_in_round_robin :
    SameButTickets (boot true 2) (bootWithTickets 2 300) ∧
      (exec (step true) (boot true 2)
        [.schedule 0, .trap 0 .irq true, .schedule 1]).map Kernel.dispatches = some [0, 0] ∧
      (exec (step true) (bootWithTickets 2 300)
        [.schedule 0, .trap 0 .irq true, .schedule 1]).map Kernel.dispatches = some [0] := by
  exact ⟨bootWithTickets_same 2 300, by decide +kernel, by decide +kernel⟩

end StrideXv6
