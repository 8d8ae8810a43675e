import StrideXv6.Kernel
import StrideXv6.Table
import Mathlib.Logic.Relation

/-!
# The life cycle of a process

What the steps of the kernel do to the life of processes, without the stride
accounting, the marks `kill` sets and the details of when something happens: a
handful of *moves* on the table. A process is dispatched or leaves its CPU, a
table entry is taken, filled in, made ready or given back, a process passes on
its children and exits, a zombie is reaped. Every step of the kernel is a
sequence of such moves (`StepTo.moves`), so an invariant of the life cycle is
proved once for each move and then holds for every step of both schedulers.
-/

namespace StrideXv6

variable {n : ℕ}

/-- The two entries agree on what the life cycle depends on. -/
structure Alike (P P' : Proc) : Prop where
  state : P'.state = P.state
  pid : P'.pid = P.pid
  parent : P'.parent = P.parent
  chan : P'.chan = P.chan
  pc : P'.pc = P.pc
  uid : P'.uid = P.uid
  tickets : P'.tickets = P.tickets

/-- The entry at most woke up, entered `exit`, or (when not asleep) forgot what
it slept on. -/
structure Quiet (P P' : Proc) : Prop where
  state : P'.state = P.state ∨ (P.state = .sleeping ∧ P'.state = .runnable)
  pid : P'.pid = P.pid
  parent : P'.parent = P.parent
  chan : P'.state = .sleeping → P'.chan = P.chan
  pc : P'.pc = P.pc ∨ P'.pc.child = none
  uid : P'.uid = P.uid
  tickets : P'.tickets = P.tickets

/-- No process is created. -/
structure Steady (k k' : Kernel n) : Prop where
  nextpid : k'.nextpid = k.nextpid
  initproc : k'.initproc = k.initproc
  created : k'.created = k.created

/-- The entry's process sleeps in `wait`. -/
def AsleepInWait (k : Kernel n) (p : Slot) : Prop :=
  (k.proc p).state = .sleeping ∧ (k.proc p).chan = some (.proc p)

/-- The moves of the life cycle. -/
inductive Move (k : Kernel n) : Kernel n → Prop where
  /-- processes wake up or enter `exit`; `wait` returns `-1` -/
  | quiet {k' : Kernel n} (hproc : ∀ q, Quiet (k.proc q) (k'.proc q))
      (hexit : ∀ q, (k'.proc q).pc = .exiting → (k.proc q).pc = .exiting ∨ q ≠ k.initproc)
      (hcpu : ∀ c, (k'.cpu c).proc = (k.cpu c).proc) (hsteady : Steady k k')
      (hfault : k.fault = none)
      (hhist : k'.hist = k.hist ∨ ∃ p has kd, k'.hist = .waitFail p has kd :: k.hist ∧
        ((∀ q, (k.proc q).state ≠ .unused → (k.proc q).parent ≠ some p) ∧ has = false ∨
          kd = true)) :
      Move k k'
  /-- a CPU switches to `p` -/
  | dispatch {k' : Kernel n} {c : Fin n} {p : Slot} (hidle : (k.cpu c).proc = none)
      (hfault : k.fault = none) (hlive : (k.proc p).state.Live)
      (hshared : (k.proc p).state = .running → k'.fault = some .sharedStack)
      (hp : Alike { k.proc p with state := .running } (k'.proc p))
      (hother : ∀ q, q ≠ p → Alike (k.proc q) (k'.proc q))
      (hcpu : ∀ d, (k'.cpu d).proc = if d = c then some p else (k.cpu d).proc)
      (hsteady : Steady k k') (hhist : k'.hist = .dispatch p (k.proc p).state :: k.hist) :
      Move k k'
  /-- `p` gives up its CPU, to run again or to sleep on `ch` -/
  | leave {c : Fin n} {p : Slot} {st : ProcState} {ctx : Context} {ch : Option Chan}
      (hp : (k.cpu c).proc = some p) (hfault : k.fault = none)
      (hst : st = .runnable ∨ st = .sleeping)
      (hwait : ∀ r, ch = some (.proc r) → st = .sleeping →
        r = p ∧ ∀ q, (k.proc q).parent = some p → (k.proc q).state ≠ .zombie) :
      Move k ((k.modify p fun P =>
        { P with chan := ch, state := st, context := some ctx }).setProc c none)
  /-- `p`, in `exit`, passes its children to init -/
  | adopt {p : Slot} (hpc : (k.proc p).pc = .exiting) : Move k (passChildren k p)
  /-- `p` becomes a zombie -/
  | exit {c : Fin n} {p : Slot} (hp : (k.cpu c).proc = some p)
      (hfault : k.fault = none) (hpc : (k.proc p).pc = .exiting)
      (hkids : ∀ q, (k.proc q).parent ≠ some p)
      (hparent : ∀ r, (k.proc p).parent = some r → ¬ AsleepInWait k r) :
      Move k (((k.modify p fun P =>
        { P with state := .zombie, context := some .exit }).note
          (.exit (k.proc p).uid)).setProc c none)
  /-- `p` takes the entry `np` -/
  | alloc {rr : Bool} {tickets : ℤ} {c : Fin n} {p np : Slot} (hp : (k.cpu c).proc = some p)
      (hpc : (k.proc p).pc = .run) (hnp : (k.proc np).state = .unused)
      (hgrant : ∃ f : ForkCall, tickets = f.tickets) :
      Move k { (k.modify np (Proc.alloc rr k.nextpid k.created tickets)).modify p fun P =>
          { P with pc := .allocated np tickets } with
        nextpid := Word32.wrap (k.nextpid + 1), created := k.created + 1 }
  /-- `p` gives the entry `np` back -/
  | giveBack {tickets : ℤ} {p np : Slot}
      (hpc : (k.proc p).pc = .allocated np tickets ∨ (k.proc p).pc = .stacked np tickets) :
      Move k ((k.modify np fun P => { P with state := .unused }).modify p fun P =>
        { P with pc := .run })
  /-- the entry `np` gets its kernel stack -/
  | stack {tickets : ℤ} {p np : Slot} (hpc : (k.proc p).pc = .allocated np tickets) :
      Move k (forkStack k p np tickets true)
  /-- the entry `np` becomes a copy of `p` -/
  | copy {tickets : ℤ} {c : Fin n} {p np : Slot} (hp : (k.cpu c).proc = some p)
      (hpc : (k.proc p).pc = .stacked np tickets) : Move k (forkCopy k p np tickets true)
  /-- the entry `np` becomes `RUNNABLE` -/
  | ready {p np : Slot} (hpc : (k.proc p).pc = .copied np) : Move k (forkReady k p np)
  /-- `p` reaps its zombie child `q` -/
  | reap {p q : Slot} (hparent : (k.proc q).parent = some p)
      (hzombie : (k.proc q).state = .zombie) :
      Move k ((k.modify q Proc.reap).note
        (.reap p (k.proc q).parent (k.proc q).uid (k.proc q).pid))

/-- Some moves after each other. -/
abbrev Moves : Kernel n → Kernel n → Prop := Relation.ReflTransGen Move

/-! ## Quiet changes -/

theorem Quiet.refl (P : Proc) : Quiet P P :=
  ⟨Or.inl rfl, rfl, rfl, fun _ => rfl, Or.inl rfl, rfl, rfl⟩

theorem Quiet.wake (P : Proc) (ch : Option Chan) : Quiet P (P.wake ch) :=
  ⟨P.wake_state_cases ch, P.wake_pid ch, P.wake_parent ch, fun _ => P.wake_chan ch,
    Or.inl (P.wake_pc ch), P.wake_uid ch, P.wake_tickets ch⟩

/-- A quiet change of one entry. -/
theorem Move.quiet_modify {k : Kernel n} {p : Slot} {f : Proc → Proc}
    (hf : Quiet (k.proc p) (f (k.proc p)))
    (hexit : (f (k.proc p)).pc = .exiting → (k.proc p).pc = .exiting ∨ p ≠ k.initproc)
    (hfault : k.fault = none) : Move k (k.modify p f) := by
  refine .quiet ?_ ?_ (fun _ => rfl) ⟨rfl, rfl, rfl⟩ hfault (Or.inl rfl)
  · intro q
    rw [Kernel.modify_proc]
    by_cases hq : q = p
    · subst hq
      rw [if_pos rfl]
      exact hf
    · rw [if_neg hq]
      exact Quiet.refl _
  · intro q
    rw [Kernel.modify_proc]
    by_cases hq : q = p
    · subst hq
      rw [if_pos rfl]
      exact hexit
    · rw [if_neg hq]
      exact Or.inl

theorem Move.wakeup1 {k : Kernel n} {ch : Option Chan} (hfault : k.fault = none) :
    Move k (wakeup1 k ch) := by
  refine .quiet (fun q => Quiet.wake _ _) ?_ (fun _ => rfl) ⟨rfl, rfl, rfl⟩ hfault (Or.inl rfl)
  intro q hq
  rw [wakeup1_proc, Proc.wake_pc] at hq
  exact Or.inl hq

theorem Move.panic {k : Kernel n} {f : Fault} (hfault : k.fault = none) : Move k (k.panic f) :=
  .quiet (fun _ => Quiet.refl _) (fun _ => Or.inl) (fun _ => rfl) ⟨rfl, rfl, rfl⟩ hfault
    (Or.inl rfl)

/-! ## The functions of `proc.c` as moves -/

theorem moves_callExit {k : Kernel n} {p : Slot} (hfault : k.fault = none) :
    Moves k (callExit k p) := by
  unfold callExit
  by_cases hp : p = k.initproc
  · rw [if_pos hp]
    exact .single (.panic hfault)
  · rw [if_neg hp]
    refine .single (.quiet_modify ?_ (fun _ => Or.inr hp) hfault)
    exact ⟨Or.inl rfl, rfl, rfl, fun _ => rfl, Or.inr rfl, rfl, rfl⟩

theorem moves_sleep {k : Kernel n} {c : Fin n} {p : Slot} {ch : Chan} {ctx : Context}
    (hp : (k.cpu c).proc = some p) (hfault : k.fault = none)
    (hwait : ∀ r, ch = .proc r →
      r = p ∧ ∀ q, (k.proc q).parent = some p → (k.proc q).state ≠ .zombie) :
    Moves k (sleep k c p ch ctx) := by
  unfold sleep
  rw [sched_of_ne (by simp)]
  refine .single (.leave hp hfault (Or.inr rfl) ?_)
  intro r hr _
  exact hwait r (Option.some.inj hr)

theorem moves_yield {k : Kernel n} {c : Fin n} {p : Slot} {user : Bool}
    (hp : (k.cpu c).proc = some p) (hfault : k.fault = none) :
    Moves k (yield k c p user) := by
  unfold yield
  rw [sched_of_ne (by simp)]
  exact .single (@Move.leave n k c p .runnable (.yield user) (k.proc p).chan hp hfault
    (Or.inl rfl) fun _ _ h => by cases h)

theorem moves_waitLoop {k : Kernel n} {c : Fin n} {p : Slot}
    (hp : (k.cpu c).proc = some p) (hfault : k.fault = none) :
    Moves k (waitLoop k c p) := by
  rcases waitLoop_cases k c p with ⟨q, hq, hz, heq⟩ | ⟨hret, heq⟩ | ⟨hno, heq⟩
  · rw [heq]
    exact .single (.reap hq hz)
  · rw [heq]
    refine .single (.quiet (fun _ => Quiet.refl _) (fun _ => Or.inl) (fun _ => rfl)
      ⟨rfl, rfl, rfl⟩ hfault (Or.inr ⟨p, _, _, rfl, ?_⟩))
    rcases hret with hnone | hkilled
    · refine Or.inl ⟨fun q _ => hnone q, ?_⟩
      exact decide_eq_false fun ⟨q, _, hq⟩ => hnone q hq
    · exact Or.inr hkilled
  · rw [heq]
    refine moves_sleep hp hfault ?_
    intro r hr
    obtain rfl := Chan.proc.inj hr
    exact ⟨rfl, hno⟩

theorem moves_resume {k : Kernel n} {c : Fin n} {p : Slot} (hp : (k.cpu c).proc = some p)
    (hrun : (k.proc p).state = .running) (hfault : k.fault = none) :
    Moves k (resume k c p) := by
  have hclear : Move k (k.modify p fun P => { P with chan := none }) := by
    refine .quiet_modify ⟨Or.inl rfl, rfl, rfl, ?_, Or.inl rfl, rfl, rfl⟩ Or.inl hfault
    intro h
    dsimp only at h
    rw [hrun] at h
    cases h
  unfold resume
  rcases (k.proc p).context with _ | _ | user | _ | _ | _
  · exact .single (.panic hfault)
  · exact .refl
  · dsimp only
    by_cases hk : ((k.proc p).killed && user) = true
    · rw [if_pos hk]
      exact moves_callExit hfault
    · rw [if_neg hk]
  · exact .single hclear
  · exact .head hclear (moves_waitLoop hp hfault)
  · exact .single (.panic hfault)

/-- The loop of `exit` as seen by one entry: besides the parent field it can only
wake the process up. -/
theorem passChildren_quiet (k : Kernel n) (p q : Slot) :
    Quiet ((k.proc q).adopt p k.initproc) ((passChildren k p).proc q) := by
  rw [passChildren_proc]
  split
  · exact Quiet.wake _ _
  · exact Quiet.refl _

theorem passChildren_parent (k : Kernel n) (p q : Slot) :
    ((passChildren k p).proc q).parent =
      if (k.proc q).parent = some p then some k.initproc else (k.proc q).parent := by
  rw [(passChildren_quiet k p q).parent, Proc.adopt_parent]

theorem passChildren_pc (k : Kernel n) (p q : Slot) :
    ((passChildren k p).proc q).pc = (k.proc q).pc := by
  rw [passChildren_proc]
  split
  · rw [Proc.wake_pc, Proc.adopt_pc]
  · rw [Proc.adopt_pc]

theorem moves_exit {k : Kernel n} {c : Fin n} {p : Slot} (hp : (k.cpu c).proc = some p)
    (hpc : (k.proc p).pc = .exiting) (hne : p ≠ k.initproc)
    (hself : (k.proc p).parent ≠ some p) (hfault : k.fault = none) :
    Moves k (exit k c p) := by
  unfold exit
  dsimp only
  rw [sched_of_ne (by simp)]
  generalize hk₁ : wakeup1 k ((k.proc p).parent.map Chan.proc) = k₁
  have hpc₁ : (k₁.proc p).pc = .exiting := by rw [← hk₁, wakeup1_proc, Proc.wake_pc]; exact hpc
  have hparent₁ : (k₁.proc p).parent = (k.proc p).parent := by
    rw [← hk₁, wakeup1_proc, Proc.wake_parent]
  have hinit₁ : k₁.initproc = k.initproc := by rw [← hk₁, wakeup1_initproc]
  obtain ⟨hcpu, -, -, hf₂, -, -⟩ := passChildren_frame k₁ p
  have hkids : ∀ q, ((passChildren k₁ p).proc q).parent ≠ some p := by
    intro q hq
    rw [passChildren_parent, hinit₁] at hq
    by_cases hqp : (k₁.proc q).parent = some p
    · rw [if_pos hqp] at hq
      exact hne (Option.some.inj hq).symm
    · rw [if_neg hqp] at hq
      exact hqp hq
  have hasleep : ∀ r, ((passChildren k₁ p).proc p).parent = some r →
      ¬ AsleepInWait (passChildren k₁ p) r := by
    -- the parent was woken before the loop, and the loop puts nothing to sleep
    rintro r hr ⟨hs, hch⟩
    rw [passChildren_parent, hparent₁, if_neg hself] at hr
    have hq := passChildren_quiet k₁ p r
    have hs₁ : (k₁.proc r).state = .sleeping := by
      rcases hq.state with h | ⟨-, h⟩
      · rw [Proc.adopt_state] at h
        exact h.symm.trans hs
      · rw [h] at hs
        cases hs
    have hch₁ : (k₁.proc r).chan = some (.proc r) := by
      rw [← Proc.adopt_chan p k₁.initproc, ← hq.chan hs]
      exact hch
    rw [← hk₁, wakeup1_proc] at hs₁ hch₁
    refine (Proc.wake_sleeping hs₁).2 ?_
    rw [Proc.wake_chan] at hch₁
    rw [hch₁, hr]
    rfl
  have hpc₂ : ((passChildren k₁ p).proc p).pc = .exiting := by
    rw [passChildren_pc]
    exact hpc₁
  have hfault₂ : (passChildren k₁ p).fault = none := by
    rw [hf₂, ← hk₁, wakeup1_fault, hfault]
  have hp₂ : ((passChildren k₁ p).cpu c).proc = some p := by
    rw [hcpu, ← hk₁]
    exact hp
  have hwake : Move k k₁ := hk₁ ▸ Move.wakeup1 hfault
  have hadopt : Move k₁ (passChildren k₁ p) := .adopt hpc₁
  generalize passChildren k₁ p = k₂ at hadopt hp₂ hfault₂ hpc₂ hkids hasleep ⊢
  rw [Kernel.modify_proc_self]
  exact .head hwake (.head hadopt (.single (.exit hp₂ hfault₂ hpc₂ hkids hasleep)))

theorem moves_tick {k : Kernel n} {c : Fin n} {t : Trap} (hfault : k.fault = none) :
    Moves k (tick k c t) := by
  unfold tick
  split
  · exact .single (Move.wakeup1 hfault)
  · exact .refl

@[simp] theorem tick_cpu (k : Kernel n) (c d : Fin n) (t : Trap) :
    (tick k c t).cpu d = k.cpu d := by
  unfold tick
  split <;> rfl

@[simp] theorem tick_fault (k : Kernel n) (c : Fin n) (t : Trap) :
    (tick k c t).fault = k.fault := by
  unfold tick
  split <;> rfl

/-- Nobody who runs is asleep. -/
theorem tick_running {k : Kernel n} {c : Fin n} {t : Trap} {p : Slot}
    (hrun : (k.proc p).state = .running) : ((tick k c t).proc p).state = .running := by
  unfold tick
  split
  · rw [wakeup1_proc, Proc.wake_state, if_neg (by rw [hrun]; simp), hrun]
  · exact hrun

/-- A change of the fields the life cycle does not depend on. -/
theorem Move.modify_alike {k : Kernel n} {p : Slot} {f : Proc → Proc}
    (hf : Alike (k.proc p) (f (k.proc p))) (hfault : k.fault = none) : Move k (k.modify p f) :=
  .quiet_modify ⟨Or.inl hf.state, hf.pid, hf.parent, fun _ => hf.chan, Or.inl hf.pc, hf.uid,
    hf.tickets⟩
    (fun h => Or.inl (hf.pc ▸ h)) hfault

theorem moves_trap {k : Kernel n} {c : Fin n} {p : Slot} {t : Trap} {user : Bool}
    (hp : (k.cpu c).proc = some p) (hfault : k.fault = none) :
    Moves k (trap k c p t user) := by
  unfold trap
  dsimp only
  have htick := moves_tick (k := k) (c := c) (t := t) hfault
  have hp₁ : ((tick k c t).cpu c).proc = some p := by rw [tick_cpu]; exact hp
  have hf₁ : (tick k c t).fault = none := by rw [tick_fault]; exact hfault
  generalize tick k c t = k₁ at htick hp₁ hf₁ ⊢
  refine htick.trans ?_
  by_cases hpanic : t = .fault ∧ user = false
  · rw [if_pos hpanic]
    exact .single (.panic hf₁)
  rw [if_neg hpanic]
  -- the mark an exception sets
  have hmark : Moves k₁ (if t = .fault then k₁.modify p fun P => { P with killed := true }
      else k₁) := by
    split
    · exact .single (.modify_alike ⟨rfl, rfl, rfl, rfl, rfl, rfl, rfl⟩ hf₁)
    · exact .refl
  have hp₂ : ((if t = .fault then k₁.modify p fun P => { P with killed := true }
      else k₁).cpu c).proc = some p := by split <;> exact hp₁
  have hf₂ : (if t = .fault then k₁.modify p fun P => { P with killed := true }
      else k₁).fault = none := by split <;> exact hf₁
  generalize (if t = .fault then k₁.modify p fun P => { P with killed := true } else k₁) = k₂
    at hmark hp₂ hf₂ ⊢
  refine hmark.trans ?_
  split
  · exact moves_callExit hf₂
  · split
    · exact .head (.modify_alike ⟨rfl, rfl, rfl, rfl, rfl, rfl, rfl⟩ hf₂) (moves_yield hp₂ hf₂)
    · split
      · exact .single (.modify_alike ⟨rfl, rfl, rfl, rfl, rfl, rfl, rfl⟩ hf₂)
      · exact .refl

theorem moves_kill {k : Kernel n} {pid : ℤ} (hfault : k.fault = none) : Moves k (kill k pid) := by
  unfold kill
  split
  · exact .refl
  · next p _ =>
    refine .single (.quiet_modify ⟨?_, rfl, rfl, fun _ => rfl, Or.inl rfl, rfl, rfl⟩ Or.inl
      hfault)
    dsimp only
    by_cases h : (k.proc p).state = .sleeping
    · rw [if_pos h]
      exact Or.inr ⟨h, rfl⟩
    · rw [if_neg h]
      exact Or.inl rfl

/-! ## Scheduling as moves -/

/-- What the selection loop ends at. -/
theorem minProc_spec (k : Kernel n) :
    Select.IsLeftmostMin (fun p => (k.proc p).pass) (fun q => q = 0 ∨ dispatchable k q = true)
      (minProc k) := Select.scanMin_spec

theorem minProc_live {k : Kernel n} (hzero : (k.proc 0).state.Live) :
    (k.proc (minProc k)).state.Live := by
  rcases (minProc_spec k).mem with h | h
  · rw [h]
    exact hzero
  · exact (of_decide_eq_true h).1

@[simp] theorem Proc.charge_state (P : Proc) : P.charge.state = .running := by
  unfold charge
  dsimp only
  split <;> split <;> rfl

theorem Proc.charge_alike (P : Proc) : Alike { P with state := .running } P.charge := by
  constructor <;> (unfold charge; dsimp only; split <;> split <;> rfl)

theorem moves_strideScheduler {k : Kernel n} {c : Fin n} (hidle : (k.cpu c).proc = none)
    (hzero : (k.proc 0).state.Live) (hfault : k.fault = none) :
    Moves k (strideScheduler k c) := by
  have hlive := minProc_live hzero
  unfold strideScheduler
  dsimp only
  generalize minProc k = p at hlive ⊢
  have hother : ∀ q, q ≠ p → Alike (k.proc q) ((k.modify p Proc.charge).proc q) := by
    intro q hq
    rw [Kernel.modify_proc_ne _ _ _ hq]
    exact ⟨rfl, rfl, rfl, rfl, rfl, rfl, rfl⟩
  have hself : Alike { k.proc p with state := .running } ((k.modify p Proc.charge).proc p) := by
    rw [Kernel.modify_proc_self]
    exact (k.proc p).charge_alike
  by_cases hrun : (k.proc p).state = .running
  · rw [if_pos hrun]
    exact .single (.dispatch hidle hfault hlive (fun _ => rfl) hself hother
      (fun d => Kernel.setProc_cpu_proc _ _ _ _) ⟨rfl, rfl, rfl⟩ rfl)
  · rw [if_neg hrun]
    have hmove : Move k (((k.modify p Proc.charge).setProc c (some p)).note
        (.dispatch p (k.proc p).state)) :=
      .dispatch hidle hfault hlive (fun h => absurd h hrun) hself hother
        (fun d => Kernel.setProc_cpu_proc _ _ _ _) ⟨rfl, rfl, rfl⟩ rfl
    refine .head hmove (moves_resume ?_ ?_ hfault)
    · rw [Kernel.note_cpu, Kernel.setProc_cpu_proc, if_pos rfl]
    · rw [Kernel.note_proc, Kernel.setProc_proc, Kernel.modify_proc_self, Proc.charge_state]

@[simp] theorem setScan_proc (k : Kernel n) (c : Fin n) (i : ℕ) (q : Slot) :
    (k.setScan c i).proc q = k.proc q := rfl

@[simp] theorem setScan_cpu_proc (k : Kernel n) (c d : Fin n) (i : ℕ) :
    ((k.setScan c i).cpu d).proc = (k.cpu d).proc := by
  unfold Kernel.setScan
  by_cases h : d = c
  · subst h
    simp
  · simp [h]

theorem nextRunnable_state {k : Kernel n} {i : ℕ} {p : Slot} (h : nextRunnable k i = some p) :
    (k.proc p).state = .runnable := by
  have hfound := List.find?_some h
  exact (of_decide_eq_true hfound).2

theorem moves_roundRobinScheduler {k : Kernel n} {c : Fin n} (hidle : (k.cpu c).proc = none)
    (hfault : k.fault = none) : Moves k (roundRobinScheduler k c) := by
  unfold roundRobinScheduler
  split
  · exact .single (.quiet (fun _ => Quiet.refl _) (fun _ => Or.inl)
      (fun d => setScan_cpu_proc _ _ _ _) ⟨rfl, rfl, rfl⟩ hfault
      (Or.inl rfl))
  · next p hnext =>
    have hstate := nextRunnable_state hnext
    have hmove : Move k ((((k.modify p fun P => { P with state := .running }).setProc c
        (some p)).setScan c (p.val + 1)).note (.dispatch p (k.proc p).state)) := by
      refine .dispatch (p := p) hidle hfault (by rw [hstate]; simp) ?_ ?_ ?_ ?_ ⟨rfl, rfl, rfl⟩ rfl
      · intro h
        rw [hstate] at h
        cases h
      · rw [Kernel.note_proc, setScan_proc, Kernel.setProc_proc, Kernel.modify_proc_self]
        exact ⟨rfl, rfl, rfl, rfl, rfl, rfl, rfl⟩
      · intro q hq
        rw [Kernel.note_proc, setScan_proc, Kernel.setProc_proc, Kernel.modify_proc_ne _ _ _ hq]
        exact ⟨rfl, rfl, rfl, rfl, rfl, rfl, rfl⟩
      · intro d
        rw [Kernel.note_cpu, setScan_cpu_proc, Kernel.setProc_cpu_proc, Kernel.modify_cpu]
    refine .head hmove (moves_resume ?_ ?_ hfault)
    · rw [Kernel.note_cpu, setScan_cpu_proc, Kernel.setProc_cpu_proc, if_pos rfl]
    · rw [Kernel.note_proc, setScan_proc, Kernel.setProc_proc, Kernel.modify_proc_self]

/-- **The kernel refines the life cycle**: every step is a sequence of moves. -/
theorem StepTo.moves {rr : Bool} {k k' : Kernel n} {a : Action n} (h : StepTo rr k a k')
    (hfault : k.fault = none) (hzero : (k.proc 0).state.Live)
    (hexit : ∀ p, (k.proc p).pc = .exiting → p ≠ k.initproc)
    (hself : ∀ p, (k.proc p).parent ≠ some p) : Moves k k' := by
  cases h with
  | schedule hidle =>
    unfold scheduler
    split
    · exact moves_roundRobinScheduler hidle hfault
    · exact moves_strideScheduler hidle hzero hfault
  | trapIdle hidle =>
    unfold StrideXv6.trapIdle
    split
    · exact .single (.panic hfault)
    · exact moves_tick hfault
  | trap hp huser => exact moves_trap hp hfault
  | wakeup => exact .single (Move.wakeup1 hfault)
  | kill hp hpc => exact moves_kill hfault
  | @fork c p f hp hpc =>
    rcases forks_cases rr f.tickets k p with heq | ⟨np, hnp, heq⟩
    · rw [heq]
    · rw [heq]
      exact .single (.alloc hp hpc hnp ⟨f, rfl⟩)
  | @forkStack c p np tickets ok hp hpc =>
    cases ok with
    | true => exact .single (.stack hpc)
    | false => exact .single (.giveBack (Or.inl hpc))
  | @forkCopy c p np tickets ok hp hpc =>
    cases ok with
    | true => exact .single (.copy hp hpc)
    | false => exact .single (.giveBack (Or.inr hpc))
  | forkReady hp hpc => exact .single (.ready hpc)
  | wait hp hpc => exact moves_waitLoop hp hfault
  | @sleep c p ch hp hch hpc =>
    refine moves_sleep hp hfault ?_
    rintro r rfl
    cases hch
  | callExit hp hpc => exact moves_callExit hfault
  | exit hp hpc => exact moves_exit hp hpc (hexit _ hpc) (hself _) hfault

end StrideXv6
