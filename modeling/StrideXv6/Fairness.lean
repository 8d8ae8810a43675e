import StrideXv6.Dispatch
import Mathlib.Tactic.Linarith
import Mathlib.Tactic.Ring

/-!
# Proportional share

One CPU and processes that do nothing but compute: each is switched to, runs
until the timer interrupts it, and goes back to the scheduler. Then the two
halves of the accounting, one stride at the switch and a higher limit at the
timer interrupt, always find `pass` below `limitpass`, so every turn costs its
process one stride (`CpuBound.next` for the table, `Ledger` for the accounts).
As the process with the smallest `pass` is next, no process gets ahead of
another by more than its own stride: the law of stride scheduling.

After `m` turns the limit is `stride * (m + 1) * (m + 2) / 2`. The law needs it
to be an `int` (`LimitFits`).
-/

namespace StrideXv6

open Machine Word32

/-! ## The turns of processes that only compute -/

/-- The process waits for its turn: nobody killed it, it is not creating a
process or exiting, and it was last stopped by an interrupt or is new. -/
structure Proc.Ready (P : Proc) : Prop where
  state : P.state = .runnable
  context : P.context = some .forkret ∨ ∃ user, P.context = some (.yield user)

/-- A table whose live processes only compute. -/
structure CpuBound (k : Kernel 1) : Prop where
  fault : k.fault = none
  zero : (k.proc 0).state.Live
  killed : ∀ p, (k.proc p).state.Live → (k.proc p).killed = false
  pc : ∀ p, (k.proc p).state.Live → (k.proc p).pc = .run
  tickets : ∀ p, (k.proc p).state.Live → 0 < (k.proc p).tickets
  /-- the current process is `RUNNING` -/
  current : ∀ p, (k.cpu 0).proc = some p → (k.proc p).state = .running
  /-- all others wait for their turn -/
  ready : ∀ p, (k.proc p).state.Live → (k.cpu 0).proc ≠ some p → (k.proc p).Ready

/-- What such processes leave to happen: switches and timer interrupts. -/
def IsTurn : Action 1 → Prop
  | .schedule _ => True
  | .trap _ t _ => t = .timer
  | _ => False

instance : DecidablePred IsTurn := fun a => by
  cases a <;> unfold IsTurn <;> infer_instance

/-- What the steps of such a run do. -/
inductive Turn (k k' : Kernel 1) : Prop where
  /-- the scheduler switches to a process -/
  | starts {p : Slot} (hidle : (k.cpu 0).proc = none) (hcpu : (k'.cpu 0).proc = some p)
      (hmin : p = minProc k) (haccount : OneAccount k k' p Account.charge)
      (hhist : k'.hist = .dispatch p .runnable :: k.hist)
  /-- the timer ends its turn -/
  | ends {p : Slot} (hcurrent : (k.cpu 0).proc = some p) (hcpu : (k'.cpu 0).proc = none)
      (haccount : OneAccount k k' p Account.raise) (hhist : k'.hist = k.hist)
  /-- the timer interrupts the scheduler -/
  | idles (hidle : (k.cpu 0).proc = none) (hcpu : (k'.cpu 0).proc = none)
      (haccount : SameAccounts k k') (hhist : k'.hist = k.hist)

namespace CpuBound

variable {k : Kernel 1}

/-- The selection loop looks at the live processes. -/
theorem minProc_spec (h : CpuBound k) :
    Select.IsLeftmostMin (fun p => (k.proc p).pass) (fun q => q = 0 ∨ (k.proc q).state.Live)
      (minProc k) := by
  have hiff : ∀ q, dispatchable k q = true ↔ (k.proc q).state.Live := by
    intro q
    rw [dispatchable, decide_eq_true_iff]
    exact ⟨fun hq => hq.1, fun hq => ⟨hq, h.tickets q hq⟩⟩
  have hspec := StrideXv6.minProc_spec k
  simp only [hiff] at hspec
  exact hspec

/-- The switch itself: nothing happens between it and the release of the lock. -/
theorem strideScheduler_eq (h : CpuBound k) (hidle : (k.cpu 0).proc = none) :
    strideScheduler k 0 = ((k.modify (minProc k) Proc.charge).setProc 0 (some (minProc k))).note
      (.dispatch (minProc k) .runnable) := by
  have hlive := minProc_live h.zero
  have hready := h.ready _ hlive (by rw [hidle]; simp)
  have hkilled := h.killed _ hlive
  unfold strideScheduler
  dsimp only
  rw [hready.state, if_neg (by simp)]
  unfold resume
  simp only [Kernel.note_proc, Kernel.setProc_proc, Kernel.modify_proc_self, Proc.charge_eq,
    hkilled]
  rcases hready.context with hctx | ⟨user, hctx⟩
  · rw [hctx]
  · rw [hctx]
    simp

theorem schedule (h : CpuBound k) (hidle : (k.cpu 0).proc = none) :
    CpuBound (strideScheduler k 0) ∧
      (∀ p, ((strideScheduler k 0).proc p).state.Live ↔ (k.proc p).state.Live) ∧
      ((strideScheduler k 0).cpu 0).proc = some (minProc k) ∧
      OneAccount k (strideScheduler k 0) (minProc k) Account.charge ∧
      (strideScheduler k 0).hist = .dispatch (minProc k) .runnable :: k.hist := by
  have hlive := minProc_live h.zero
  have haccount : OneAccount k (strideScheduler k 0) (minProc k) Account.charge := by
    cases billing_strideScheduler k hidle with
    | same hsched => exact absurd rfl (hsched 0)
    | grant hsched => exact absurd rfl (hsched 0)
    | dispatch _ hone => exact hone
  have heq := h.strideScheduler_eq hidle
  have hcpu : ((strideScheduler k 0).cpu 0).proc = some (minProc k) := by
    rw [heq, Kernel.note_cpu, Kernel.setProc_cpu_proc, if_pos rfl]
  have hself : (strideScheduler k 0).proc (minProc k) = (k.proc (minProc k)).charge := by
    rw [heq, Kernel.note_proc, Kernel.setProc_proc, Kernel.modify_proc_self]
  have hother : ∀ p, p ≠ minProc k → (strideScheduler k 0).proc p = k.proc p := by
    intro p hp
    rw [heq, Kernel.note_proc, Kernel.setProc_proc, Kernel.modify_proc_ne _ _ _ hp]
  have hiff : ∀ p, ((strideScheduler k 0).proc p).state.Live ↔ (k.proc p).state.Live := by
    intro p
    by_cases hp : p = minProc k
    · subst hp
      rw [hself, Proc.charge_state]
      exact ⟨fun _ => hlive, fun _ => ProcState.live_running⟩
    · rw [hother p hp]
  refine ⟨⟨?_, ?_, ?_, ?_, ?_, ?_, ?_⟩, hiff, hcpu, haccount, by rw [heq]; rfl⟩
  · rw [heq]
    exact h.fault
  · exact (hiff 0).mpr h.zero
  · intro p hp
    have := h.killed p ((hiff p).mp hp)
    grind [Proc.charge_eq]
  · intro p hp
    have := h.pc p ((hiff p).mp hp)
    grind [Proc.charge_eq]
  · intro p hp
    have := h.tickets p ((hiff p).mp hp)
    grind [Proc.charge_eq]
  · intro p hp
    rw [hcpu] at hp
    obtain rfl := Option.some.inj hp
    rw [hself, Proc.charge_state]
  · intro p hp hne
    rw [hcpu] at hne
    have hpm : p ≠ minProc k := fun h => hne (by rw [h])
    rw [hother p hpm]
    exact h.ready p ((hiff p).mp hp) (by rw [hidle]; simp)

/-- The timer wakes nobody up: no process sleeps. -/
theorem tick_eq (h : CpuBound k) : tick k 0 .timer = k := by
  have hawake : ∀ p, (k.proc p).wake (some .ticks) = k.proc p := by
    intro p
    refine if_neg fun hp => ?_
    have hlive : (k.proc p).state.Live := by rw [hp.1]; simp
    by_cases hcur : (k.cpu 0).proc = some p
    · have := h.current p hcur
      rw [hp.1] at this
      cases this
    · have := (h.ready p hlive hcur).state
      rw [hp.1] at this
      cases this
  unfold tick wakeup1
  rw [if_pos ⟨rfl, rfl⟩]
  simp only [hawake]

theorem timer (h : CpuBound k) {p : Slot} {user : Bool} (hp : (k.cpu 0).proc = some p) :
    CpuBound (trap k 0 p .timer user) ∧
      (∀ q, ((trap k 0 p .timer user).proc q).state.Live ↔ (k.proc q).state.Live) ∧
      ((trap k 0 p .timer user).cpu 0).proc = none ∧
      OneAccount k (trap k 0 p .timer user) p Account.raise ∧
      (trap k 0 p .timer user).hist = k.hist := by
  have hrun := h.current p hp
  have hlive : (k.proc p).state.Live := by rw [hrun]; simp
  have heq : trap k 0 p .timer user = (k.modify p fun P =>
      { P with limitpass := wrap (P.limitpass + (P.pass + P.stride)), state := .runnable
               context := some (.yield user) }).setProc 0 none := by
    unfold trap yield
    dsimp only
    rw [h.tick_eq]
    simp only [reduceCtorEq, false_and, if_false, h.killed p hlive, Bool.false_and,
      Bool.false_eq_true, hrun, or_true, and_self, if_true]
    rw [sched_of_ne (by simp)]
    unfold Kernel.modify
    simp
  have hself : (trap k 0 p .timer user).proc p = { k.proc p with
      limitpass := wrap ((k.proc p).limitpass + ((k.proc p).pass + (k.proc p).stride))
      state := .runnable, context := some (.yield user) } := by
    rw [heq, Kernel.setProc_proc, Kernel.modify_proc_self]
  have hother : ∀ q, q ≠ p → (trap k 0 p .timer user).proc q = k.proc q := by
    intro q hq
    rw [heq, Kernel.setProc_proc, Kernel.modify_proc_ne _ _ _ hq]
  have hcpu : ((trap k 0 p .timer user).cpu 0).proc = none := by
    rw [heq, Kernel.setProc_cpu_proc, if_pos rfl]
  have hiff : ∀ q, ((trap k 0 p .timer user).proc q).state.Live ↔ (k.proc q).state.Live := by
    intro q
    by_cases hq : q = p
    · subst hq
      rw [hself]
      exact ⟨fun _ => hlive, fun _ => ProcState.live_runnable⟩
    · rw [hother q hq]
  refine ⟨⟨?_, ?_, ?_, ?_, ?_, ?_, ?_⟩, hiff, hcpu, ?_, by rw [heq]; rfl⟩
  · rw [heq]
    exact h.fault
  · exact (hiff 0).mpr h.zero
  · intro q hq
    have := h.killed q ((hiff q).mp hq)
    grind
  · intro q hq
    have := h.pc q ((hiff q).mp hq)
    grind
  · intro q hq
    have := h.tickets q ((hiff q).mp hq)
    grind
  · intro q hq
    rw [hcpu] at hq
    cases hq
  · intro q hq _
    by_cases hqp : q = p
    · subst hqp
      rw [hself]
      exact ⟨rfl, Or.inr ⟨user, rfl⟩⟩
    · rw [hother q hqp]
      exact h.ready q ((hiff q).mp hq) (by rw [hp]; exact fun h => hqp (Option.some.inj h).symm)
  · intro q
    by_cases hq : q = p
    · subst hq
      rw [hself, if_pos rfl]
      rfl
    · rw [hother q hq, if_neg hq]

/-- **A step of processes that only compute**: they stay so, and the step is a
turn that starts, ends or waits. -/
theorem next (h : CpuBound k) {k' : Kernel 1} {a : Action 1} (ha : IsTurn a)
    (hstep : step false k a = some k') :
    CpuBound k' ∧ (∀ p, (k'.proc p).state.Live ↔ (k.proc p).state.Live) ∧ Turn k k' := by
  cases (StepTo.of_step hstep).2 with
  | @schedule c hidle =>
    obtain rfl := Subsingleton.elim c 0
    obtain ⟨hB, hlive, hcpu, haccount, hhist⟩ := h.schedule hidle
    exact ⟨hB, hlive, .starts hidle hcpu rfl haccount hhist⟩
  | @trapIdle c t hidle =>
    obtain rfl := Subsingleton.elim c 0
    obtain rfl : t = .timer := ha
    have heq : trapIdle k 0 .timer = k := by
      rw [trapIdle, if_neg (by simp), h.tick_eq]
    rw [heq]
    exact ⟨h, fun _ => Iff.rfl, .idles hidle hidle (.refl k) rfl⟩
  | @trap c p t user hp huser =>
    obtain rfl := Subsingleton.elim c 0
    obtain rfl : t = .timer := ha
    obtain ⟨hB, hlive, hcpu, haccount, hhist⟩ := h.timer hp
    exact ⟨hB, hlive, .ends hp hcpu haccount hhist⟩
  | _ => cases ha

end CpuBound

/-! ## The limit as an `int` -/

instance (P : Proc) (t : Trap) (user : Bool) : Decidable (Accountable P t user) :=
  inferInstanceAs (Decidable (t ≠ .fault ∧ ¬ (P.killed = true ∧ user = true)))

/-- Where the step adds to a `limitpass`, the sum is an `int`. The scheduler does
so to the process it switches to, if that has reached its limit; an interrupt
does so to the process it stops. -/
def LimitFits {n : ℕ} (k : Kernel n) : Action n → Prop
  | .schedule c => k.fault = none → (k.cpu c).proc = none →
      ∀ p, Select.IsLeftmostMin (fun q => (k.proc q).pass)
          (fun q => q = 0 ∨ (k.proc q).state.Live) p →
        (k.proc p).limitpass ≤ (k.proc p).pass →
        (k.proc p).limitpass + ((k.proc p).pass + (k.proc p).stride) ≤ intMax
  | .trap c t user => k.fault = none → ∀ p, (k.cpu c).proc = some p →
      (user = true → (k.proc p).pc = .run) → Accountable (k.proc p) t user →
        ((k.proc p).limitpass ≤ (k.proc p).pass ∨ t = .timer) →
        (k.proc p).limitpass + ((k.proc p).pass + (k.proc p).stride) ≤ intMax
  | _ => True

instance {n : ℕ} (k : Kernel n) (a : Action n) : Decidable (LimitFits k a) := by
  cases a <;> dsimp only [LimitFits] <;> infer_instance

/-! ## The accounts -/

/-- Whether the event is a switch to `p`. -/
def Event.isDispatch (p : Slot) : Event → Bool
  | .dispatch q _ => decide (q = p)
  | _ => false

/-- How often `p` was switched to. -/
def dispatches (p : Slot) (hist : List Event) : ℕ := hist.countP (Event.isDispatch p)

theorem dispatches_cons (p q : Slot) (st : ProcState) (hist : List Event) :
    dispatches p (.dispatch q st :: hist) = dispatches p hist + if q = p then 1 else 0 := by
  unfold dispatches
  rw [List.countP_cons]
  simp [Event.isDispatch]

/-- An account after `turns` switches to its process, the last of which it may
still be running from. -/
structure Account.After (A : Account) (turns : ℕ) (running : Prop) : Prop where
  stride_pos : 0 < A.stride
  pass : A.pass = turns * A.stride
  max : A.limitpass ≤ intMax
  waiting : ¬ running → 2 * A.limitpass = A.stride * ((turns + 1) * (turns + 2))
  turn : running → 1 ≤ turns ∧ 2 * A.limitpass = A.stride * (turns * (turns + 1))

/-- Before a switch `pass` is below the limit by a stride at least. -/
theorem Account.After.lt {A : Account} {N : ℕ} {r : Prop} (h : A.After N r) (hr : ¬ r) :
    A.pass + A.stride ≤ A.limitpass := by
  have hpos := h.stride_pos
  have hN : (0 : ℤ) ≤ N := Int.natCast_nonneg N
  have hgap : 2 * (A.limitpass - (A.pass + A.stride)) = A.stride * (N * (N + 1)) := by
    rw [mul_sub, h.waiting hr, h.pass]
    ring
  have : 0 ≤ A.stride * (N * (N + 1)) := by positivity
  linarith

theorem Account.After.pass_nonneg {A : Account} {N : ℕ} {r : Prop} (h : A.After N r) :
    0 ≤ A.pass := by
  rw [h.pass]
  exact mul_nonneg (Int.natCast_nonneg N) h.stride_pos.le

/-- A switch costs one stride. -/
theorem Account.After.charge_eq {A : Account} {N : ℕ} {r : Prop} (h : A.After N r) (hr : ¬ r) :
    A.charge = { A with pass := A.pass + A.stride } := by
  have hpos := h.stride_pos
  have hle := h.lt hr
  have hnonneg := h.pass_nonneg
  have hmax := h.max
  have hsum : wrap (A.pass + A.stride) = A.pass + A.stride :=
    wrap_of_nonneg (by linarith) (by linarith)
  have hadv : A.advance = { A with pass := A.pass + A.stride } := by
    rw [Account.advance, hsum]
  rw [Account.charge_of_lt (by linarith), hadv]
  exact Account.restart_of_nonneg (by dsimp only; linarith)

theorem Account.After.charge {A : Account} {N : ℕ} {r r' : Prop} (h : A.After N r) (hr : ¬ r)
    (hr' : r') : A.charge.After (N + 1) r' := by
  rw [h.charge_eq hr]
  refine ⟨h.stride_pos, ?_, h.max, fun hn => absurd hr' hn, fun _ => ⟨Nat.le_add_left 1 N, ?_⟩⟩
  · dsimp only
    rw [h.pass]
    push_cast
    ring
  · dsimp only
    rw [h.waiting hr]
    push_cast
    ring

/-- The timer brings the limit up for the next turn. -/
theorem Account.After.raise {A : Account} {N : ℕ} {r r' : Prop} (h : A.After N r) (hr : r)
    (hr' : ¬ r') (hfits : A.limitpass + (A.pass + A.stride) ≤ intMax) :
    A.raise.After N r' := by
  obtain ⟨-, hlimit⟩ := h.turn hr
  have hpos := h.stride_pos
  have hpass := h.pass_nonneg
  have hN : (0 : ℤ) ≤ N := Int.natCast_nonneg N
  have hprod : 0 ≤ A.stride * (N * (N + 1)) := by positivity
  have hsum : wrap (A.limitpass + (A.pass + A.stride)) = A.limitpass + (A.pass + A.stride) :=
    wrap_of_nonneg (by linarith) hfits
  have heq : A.raise = { A with limitpass := A.limitpass + (A.pass + A.stride) } := by
    rw [Account.raise, hsum]
  rw [heq]
  refine ⟨hpos, h.pass, hfits, fun _ => ?_, fun h => absurd h hr'⟩
  dsimp only
  rw [mul_add, hlimit, h.pass]
  ring

/-- The accounts of the live processes after the switches on record. -/
structure Ledger (k : Kernel 1) (record : List Event) : Prop where
  after : ∀ p, (k.proc p).state.Live →
    (k.proc p).account.After (dispatches p record) ((k.cpu 0).proc = some p)
  /-- nobody is ahead of anybody by more than a stride -/
  close : ∀ i j, (k.proc i).state.Live → (k.proc j).state.Live →
    (k.proc i).account.pass - (k.proc j).account.pass ≤ (k.proc i).account.stride

/-- A turn that starts. The process with the smallest `pass` is a stride ahead of
where it was, and so at most a stride ahead of anybody. -/
theorem Ledger.starts {k k' : Kernel 1} {record : List Event} (hL : Ledger k record)
    (hB : CpuBound k) (hlive : ∀ p, (k'.proc p).state.Live ↔ (k.proc p).state.Live)
    (hidle : (k.cpu 0).proc = none) (hcpu : (k'.cpu 0).proc = some (minProc k))
    (haccount : OneAccount k k' (minProc k) Account.charge) :
    Ledger k' (.dispatch (minProc k) .runnable :: record) := by
  have hmin := hB.minProc_spec
  have hm := minProc_live hB.zero
  have hnot : ∀ p, ¬ (k.cpu 0).proc = some p := fun p => by rw [hidle]; simp
  have hself : (k'.proc (minProc k)).account = { (k.proc (minProc k)).account with
      pass := (k.proc (minProc k)).account.pass + (k.proc (minProc k)).account.stride } := by
    rw [haccount, if_pos rfl, (hL.after _ hm).charge_eq (hnot _)]
  have hother : ∀ p, p ≠ minProc k → (k'.proc p).account = (k.proc p).account := by
    intro p hp
    rw [haccount, if_neg hp]
  generalize hgen : minProc k = m at *
  have hstride := (hL.after m hm).stride_pos
  refine ⟨?_, ?_⟩
  · intro p hp
    rw [dispatches_cons, hcpu]
    by_cases hpm : p = m
    · subst hpm
      rw [if_pos rfl, haccount, if_pos rfl]
      exact (hL.after p hm).charge (hnot p) rfl
    · have hne : ¬ some m = some p := fun h => hpm (Option.some.inj h).symm
      rw [if_neg fun h => hpm h.symm, hother p hpm, Nat.add_zero]
      have h := hL.after p ((hlive p).mp hp)
      exact ⟨h.stride_pos, h.pass, h.max, fun _ => h.waiting (hnot p), fun hr => absurd hr hne⟩
  · intro i j hi hj
    have hi' := (hlive i).mp hi
    have hj' := (hlive j).mp hj
    have hij := hL.close i j hi' hj'
    have hmj : (k.proc m).account.pass ≤ (k.proc j).account.pass := hmin.le j (Or.inr hj')
    by_cases him : i = m <;> by_cases hjm : j = m
    · rw [him, hjm, sub_self, hself]
      exact hstride.le
    · rw [him, hself, hother j hjm]
      dsimp only
      linarith
    · rw [hjm, hself, hother i him]
      dsimp only
      subst hjm
      linarith
    · rw [hother i him, hother j hjm]
      exact hij

/-- A turn that ends. -/
theorem Ledger.ends {k k' : Kernel 1} {record : List Event} {p : Slot} (hL : Ledger k record)
    (hlive : ∀ p, (k'.proc p).state.Live ↔ (k.proc p).state.Live)
    (hcurrent : (k.cpu 0).proc = some p) (hcpu : (k'.cpu 0).proc = none)
    (haccount : OneAccount k k' p Account.raise)
    (hfits : (k.proc p).account.limitpass +
      ((k.proc p).account.pass + (k.proc p).account.stride) ≤ intMax) :
    Ledger k' record := by
  have hpass : ∀ q, (k'.proc q).account.pass = (k.proc q).account.pass ∧
      (k'.proc q).account.stride = (k.proc q).account.stride := by
    intro q
    rw [haccount]
    split
    · next h =>
      rw [h]
      exact ⟨rfl, rfl⟩
    · exact ⟨rfl, rfl⟩
  refine ⟨?_, ?_⟩
  · intro q hq
    have h := hL.after q ((hlive q).mp hq)
    rw [haccount, hcpu]
    by_cases hqp : q = p
    · subst hqp
      rw [if_pos rfl]
      exact h.raise hcurrent (by simp) hfits
    · have hne : ¬ (k.cpu 0).proc = some q := by
        rw [hcurrent]
        exact fun h => hqp (Option.some.inj h).symm
      rw [if_neg hqp]
      exact ⟨h.stride_pos, h.pass, h.max, fun _ => h.waiting hne, fun hr => by cases hr⟩
  · intro i j hi hj
    rw [(hpass i).1, (hpass j).1, (hpass i).2]
    exact hL.close i j ((hlive i).mp hi) ((hlive j).mp hj)

/-! ## The law -/

/-- New processes that will only compute, with any numbers of tickets from 1 to
10000, before the first of them gets the CPU. -/
structure FairStart (k : Kernel 1) : Prop extends CpuBound k where
  idle : (k.cpu 0).proc = none
  tickets_le : ∀ p, (k.proc p).state.Live → (k.proc p).tickets ≤ 10000
  fresh : ∀ p, (k.proc p).state.Live → (k.proc p).account = Account.fresh (k.proc p).tickets

/-- A switch or a timer interrupt that keeps the limits in range. -/
def FairStep (k : Kernel 1) (a : Action 1) : Prop := IsTurn a ∧ LimitFits k a

instance (k : Kernel 1) (a : Action 1) : Decidable (FairStep k a) :=
  inferInstanceAs (Decidable (IsTurn a ∧ LimitFits k a))

/-- A switch costs the process one stride, and leaves its limit alone. -/
def OneStride {n : ℕ} (k : Kernel n) (a : Action n) : Prop :=
  ∀ c k' p, a = .schedule c → step false k a = some k' → SwitchesTo k k' p →
    (k'.proc p).pass = (k.proc p).pass + (k.proc p).stride ∧
      (k'.proc p).limitpass = (k.proc p).limitpass

/-- What a run from `k₀` keeps. -/
structure Fair (k₀ k : Kernel 1) : Prop where
  bound : CpuBound k
  live : ∀ p, (k.proc p).state.Live ↔ (k₀.proc p).state.Live
  stride : ∀ p, (k.proc p).stride = (k₀.proc p).stride
  ledger : ∃ record, k.hist = record ++ k₀.hist ∧ Ledger k record

theorem tdiv_pos_of_le {t : ℤ} (h : 0 < t) (h' : t ≤ 10000) :
    0 < Int.tdiv 10000 t ∧ Int.tdiv 10000 t ≤ intMax := by
  rw [Int.tdiv_eq_ediv_of_nonneg (by decide)]
  refine ⟨Int.le_ediv_of_mul_le h (by linarith), ?_⟩
  exact (Int.ediv_le_self t (by decide)).trans (by decide)

theorem FairStart.fair {k : Kernel 1} (h : FairStart k) : Fair k k := by
  refine ⟨h.toCpuBound, fun _ => Iff.rfl, fun _ => rfl, [], rfl, ?_, ?_⟩
  · intro p hp
    obtain ⟨hpos, hmax⟩ := tdiv_pos_of_le (h.tickets p hp) (h.tickets_le p hp)
    rw [h.fresh p hp, h.idle]
    refine ⟨hpos, by simp [Account.fresh, dispatches], hmax, fun _ => ?_, fun hr => by cases hr⟩
    simp only [Account.fresh, dispatches, List.countP_nil]
    push_cast
    ring
  · intro i j hi hj
    rw [h.fresh i hi, h.fresh j hj]
    exact (tdiv_pos_of_le (h.tickets i hi) (h.tickets_le i hi)).1.le

/-- The sum at the end of a turn. -/
theorem LimitFits.current {k k' : Kernel 1} {a : Action 1} (hfits : LimitFits k a)
    (hB : CpuBound k) (ha : IsTurn a) (hstep : step false k a = some k') {p : Slot}
    (hp : (k.cpu 0).proc = some p) :
    (k.proc p).limitpass + ((k.proc p).pass + (k.proc p).stride) ≤ intMax := by
  cases (StepTo.of_step hstep).2 with
  | @schedule c hidle =>
    obtain rfl := Subsingleton.elim c 0
    rw [hp] at hidle
    cases hidle
  | @trapIdle c t hidle =>
    obtain rfl := Subsingleton.elim c 0
    rw [hp] at hidle
    cases hidle
  | @trap c q t user hq huser =>
    obtain rfl := Subsingleton.elim c 0
    obtain rfl := Option.some.inj (hp.symm.trans hq)
    obtain rfl : t = .timer := ha
    have hlive : (k.proc p).state.Live := by rw [hB.current p hp]; simp
    refine hfits hB.fault p hp huser ⟨by simp, ?_⟩ (Or.inr rfl)
    rw [hB.killed p hlive]
    simp
  | _ => cases ha

theorem Fair.next {k₀ k k' : Kernel 1} {a : Action 1} (h : Fair k₀ k) (ha : FairStep k a)
    (hstep : step false k a = some k') : Fair k₀ k' := by
  obtain ⟨hB, hlive, hturn⟩ := h.bound.next ha.1 hstep
  obtain ⟨record, hrec, hL⟩ := h.ledger
  have hlive₀ : ∀ p, (k'.proc p).state.Live ↔ (k₀.proc p).state.Live :=
    fun p => (hlive p).trans (h.live p)
  have hstride : ∀ {p : Slot} {f : Account → Account}, (∀ A, (f A).stride = A.stride) →
      OneAccount k k' p f → ∀ q, (k'.proc q).stride = (k₀.proc q).stride := by
    intro p f hf hone q
    rw [← h.stride q, ← Proc.account_stride, hone]
    split
    · next hq =>
      rw [hq, hf]
      rfl
    · rfl
  cases hturn with
  | starts hidle hcpu hmin haccount hhist =>
    subst hmin
    exact ⟨hB, hlive₀, hstride (fun A => A.charge_kept.2) haccount, _ :: record,
      by rw [hhist, hrec, List.cons_append],
      hL.starts h.bound hlive hidle hcpu haccount⟩
  | ends hcurrent hcpu haccount hhist =>
    exact ⟨hB, hlive₀, hstride (f := Account.raise) (fun _ => rfl) haccount, record, by rw [hhist, hrec],
      hL.ends hlive hcurrent hcpu haccount (ha.2.current h.bound ha.1 hstep hcurrent)⟩
  | idles hidle hcpu haccount hhist =>
    refine ⟨hB, hlive₀, fun q => ?_, record, by rw [hhist, hrec], ?_, ?_⟩
    · rw [← h.stride q, ← Proc.account_stride, haccount]
      rfl
    · intro p hp
      rw [haccount, hcpu, ← hidle]
      exact hL.after p ((hlive p).mp hp)
    · intro i j hi hj
      rw [haccount, haccount]
      exact hL.close i j ((hlive i).mp hi) ((hlive j).mp hj)

theorem Fair.oneStride {k₀ k : Kernel 1} {a : Action 1} (h : Fair k₀ k) : OneStride k a := by
  rintro c k' p rfl hstep hp
  obtain rfl := Subsingleton.elim c 0
  obtain ⟨-, hidle, rfl⟩ := schedule_eq_some hstep
  obtain rfl := hp.unique (strideScheduler_switchesTo k 0)
  obtain ⟨record, -, hL⟩ := h.ledger
  have hafter := hL.after _ (minProc_live h.bound.zero)
  have heq : ((strideScheduler k 0).proc (minProc k)).account =
      { (k.proc (minProc k)).account with
        pass := (k.proc (minProc k)).pass + (k.proc (minProc k)).stride } := by
    rw [(h.bound.schedule hidle).2.2.2.1, if_pos rfl, hafter.charge_eq (by rw [hidle]; simp)]
    rfl
  exact ⟨congrArg Account.pass heq, congrArg Account.limitpass heq⟩

/-- **The law of stride scheduling.** However long processes that only compute
run on one CPU, every dispatch costs one stride, so `pass` counts a process's
dispatches in strides, and these counts stay within one stride of each other. -/
theorem proportional_share {k k' : Kernel 1} {as : List (Action 1)} (hstart : FairStart k)
    (hsteps : AllSteps (step false) FairStep k as) (hrun : exec (step false) k as = some k') :
    AllSteps (step false) OneStride k as ∧
    ∃ record, k'.hist = record ++ k.hist ∧
      (∀ i, (k.proc i).state.Live →
        (k'.proc i).pass = dispatches i record * (k.proc i).stride) ∧
      ∀ i j, (k.proc i).state.Live → (k.proc j).state.Live →
        dispatches i record * (k.proc i).stride - dispatches j record * (k.proc j).stride ≤
          (k.proc i).stride := by
  refine ⟨allSteps_of_invariant (fun _ _ _ h ha hs => h.next ha hs) (fun _ _ h _ => h.oneStride)
    hstart.fair hsteps, ?_⟩
  have hfair : Fair k k' :=
    (allStates_of_allSteps (fun _ _ _ h ha hs => h.next ha hs) hstart.fair hsteps).last hrun
  obtain ⟨record, hrec, hL⟩ := hfair.ledger
  have hpass : ∀ i, (k.proc i).state.Live →
      (k'.proc i).pass = dispatches i record * (k.proc i).stride := by
    intro i hi
    rw [← hfair.stride i]
    exact (hL.after i ((hfair.live i).mpr hi)).pass
  refine ⟨record, hrec, hpass, fun i j hi hj => ?_⟩
  rw [← hpass i hi, ← hpass j hj, ← hfair.stride i]
  exact hL.close i j ((hfair.live i).mpr hi) ((hfair.live j).mpr hj)

/-- Three processes with 10000, 5000 and 3 tickets. -/
def threeShares : Kernel 1 where
  proc := fun p =>
    let new (t : ℤ) : Proc :=
      { state := .runnable, pid := p.val + 1, context := some .forkret, tickets := t
        stride := Int.tdiv 10000 t, limitpass := Int.tdiv 10000 t }
    if p = 0 then new 10000 else if p = 1 then new 5000 else if p = 2 then new 3 else {}
  cpu := fun _ => {}
  nextpid := 4
  initproc := 0
  fault := none
  created := 3
  hist := []

theorem proportional_share_three :
    FairStart threeShares ∧
    ∃ k' record, exec (step false) threeShares [.schedule 0, .trap 0 .timer true, .schedule 0,
        .trap 0 .timer true, .schedule 0, .trap 0 .timer true, .schedule 0] = some k' ∧
      k'.hist = record ++ threeShares.hist ∧
      ∀ i, (threeShares.proc i).state.Live →
        (k'.proc i).pass = dispatches i record * (threeShares.proc i).stride := by
  have hlive : ∀ p, (threeShares.proc p).state.Live → p = 0 ∨ p = 1 ∨ p = 2 := by
    decide +kernel
  have hstart : FairStart threeShares := by
    refine ⟨⟨rfl, by decide +kernel, by decide +kernel, by decide +kernel, by decide +kernel,
      (fun p h => by cases h), fun p hp _ => ?_⟩, rfl, by decide +kernel, by decide +kernel⟩
    rcases hlive p hp with rfl | rfl | rfl <;> exact ⟨rfl, Or.inl rfl⟩
  obtain ⟨k', hk'⟩ := Option.isSome_iff_exists.mp (show (exec (step false) threeShares
    [.schedule 0, .trap 0 .timer true, .schedule 0, .trap 0 .timer true, .schedule 0,
      .trap 0 .timer true, .schedule 0]).isSome = true by decide +kernel)
  obtain ⟨-, record, hrec, hpass, -⟩ := proportional_share hstart (by decide +kernel) hk'
  exact ⟨hstart, k', record, hk', hrec, hpass⟩

end StrideXv6
