import StrideXv6.Account

/-!
# Which process is switched to, and what it is charged

One iteration of the stride scheduler. The selection loop starts at entry `0`
and takes every entry with a state between `EMBRYO` and `ZOMBIE` into account,
where the round-robin loop next to it tests for `RUNNABLE`. So it finds the
`RUNNABLE` process with the smallest `pass` exactly where a `RUNNABLE` process
comes before all other entries it looks at; otherwise it switches to a process
that sleeps, or that another CPU is running.

The process it switches to is charged one stride, unless its `pass` has reached
its `limitpass`: then the limit moves and `pass` stays.
-/

namespace StrideXv6

open Machine Word32

variable {n : ℕ}

/-- The step from `k` to `k'` is a switch to `p`; what the process did before it
released the lock is recorded after the switch. -/
def SwitchesTo (k k' : Kernel n) (p : Slot) : Prop :=
  ∃ later, k'.hist = later ++ .dispatch p (k.proc p).state :: k.hist

theorem SwitchesTo.unique {k k' : Kernel n} {p q : Slot} (hp : SwitchesTo k k' p)
    (hq : SwitchesTo k k' q) : p = q := by
  obtain ⟨l, hl⟩ := hp
  obtain ⟨l', hl'⟩ := hq
  have heq := hl.symm.trans hl'
  have hlen := congrArg List.length heq
  simp only [List.length_append, List.length_cons] at hlen
  have h := (List.append_inj heq (by omega)).2
  exact (Event.dispatch.inj (List.cons.inj h).1).1

/-! ## The record after a switch -/

theorem callExit_hist (k : Kernel n) (p : Slot) : (callExit k p).hist = k.hist := by
  unfold callExit
  split <;> rfl

theorem sched_hist (k : Kernel n) (c : Fin n) (p : Slot) : (sched k c p).hist = k.hist := by
  unfold sched
  split <;> rfl

theorem waitLoop_hist (k : Kernel n) (c : Fin n) (p : Slot) :
    ∃ later, (waitLoop k c p).hist = later ++ k.hist := by
  unfold waitLoop
  split
  · exact ⟨[_], rfl⟩
  · split
    · exact ⟨[_], rfl⟩
    · refine ⟨[], ?_⟩
      unfold sleep
      rw [sched_hist]
      rfl

theorem resume_hist (k : Kernel n) (c : Fin n) (p : Slot) :
    ∃ later, (resume k c p).hist = later ++ k.hist := by
  unfold resume
  split
  · exact ⟨[], rfl⟩
  · split
    · exact ⟨[], callExit_hist k p⟩
    · exact ⟨[], rfl⟩
  · exact ⟨[], rfl⟩
  · exact waitLoop_hist _ c p
  · exact ⟨[], rfl⟩
  · exact ⟨[], rfl⟩

/-- An iteration of the stride scheduler is a switch to the entry its selection
loop ends at. -/
theorem strideScheduler_switchesTo (k : Kernel n) (c : Fin n) :
    SwitchesTo k (strideScheduler k c) (minProc k) := by
  unfold strideScheduler
  dsimp only
  split
  · exact ⟨[], rfl⟩
  · obtain ⟨later, h⟩ := resume_hist
      (((k.modify (minProc k) Proc.charge).setProc c (some (minProc k))).note
        (.dispatch (minProc k) (k.proc (minProc k)).state)) c (minProc k)
    exact ⟨later, h⟩

/-- Inversion for a step of the scheduler. -/
theorem schedule_eq_some {k k' : Kernel n} {c : Fin n}
    (h : step false k (.schedule c) = some k') :
    k.fault = none ∧ (k.cpu c).proc = none ∧ k' = strideScheduler k c := by
  obtain ⟨hfault, hs⟩ := StepTo.of_step h
  cases hs with
  | schedule hidle => exact ⟨hfault, hidle, rfl⟩

theorem schedule_enabled {k : Kernel n} {c : Fin n} (hfault : k.fault = none)
    (hidle : (k.cpu c).proc = none) :
    step false k (.schedule c) = some (strideScheduler k c) := by
  simp [step, hfault, hidle, scheduler]

theorem trap_enabled {k : Kernel n} {c : Fin n} {p : Slot} {t : Trap} {user : Bool}
    (hfault : k.fault = none) (hp : (k.cpu c).proc = some p)
    (huser : user = true → (k.proc p).pc = .run) :
    step false k (.trap c t user) = some (trap k c p t user) := by
  simp only [step, hfault, hp, Option.isSome_none, Bool.false_eq_true, if_false]
  rw [if_neg fun h => h.2 (huser h.1)]

/-! ## The choice -/

/-- `p` may be switched to: it is `RUNNABLE`, and no `RUNNABLE` process has a
smaller `pass`. -/
def MayRun (k : Kernel n) (p : Slot) : Prop :=
  (k.proc p).state = .runnable ∧
    ∀ q, (k.proc q).state = .runnable → (k.proc p).pass ≤ (k.proc q).pass

/-- If the step is one of the scheduler, it switches to a process that may
run. -/
def LegalDispatch (k : Kernel n) (a : Action n) : Prop :=
  ∀ c k' p, a = .schedule c → step false k a = some k' → SwitchesTo k k' p → MayRun k p

/-- Some `RUNNABLE` process comes, in the order of `pass` and then of the table,
before entry `0` and before every `SLEEPING` or `RUNNING` process, as far as
these are not `RUNNABLE`. -/
def RunnableFirst (k : Kernel n) : Prop :=
  ∃ p, (k.proc p).state = .runnable ∧ ∀ q, (k.proc q).state ≠ .runnable →
    (q = 0 ∨ (k.proc q).state = .sleeping ∨ (k.proc q).state = .running) →
    (k.proc p).pass < (k.proc q).pass ∨ (k.proc p).pass = (k.proc q).pass ∧ p < q

/-- `RunnableFirst`, wherever a CPU enters the scheduler. -/
def RunnableFirstAt (k : Kernel n) (a : Action n) : Prop :=
  ∀ c, a = .schedule c → k.fault = none → (k.cpu c).proc = none → RunnableFirst k

/-- The entry the selection loop ends at: the leftmost minimum of entry `0` and
the live processes. -/
theorem StrideInv.minProc_spec {k : Kernel n} (hI : StrideInv k) :
    Select.IsLeftmostMin (fun p => (k.proc p).pass) (fun q => q = 0 ∨ (k.proc q).state.Live)
      (minProc k) := by
  have h := StrideXv6.minProc_spec k
  simp only [hI.dispatchable_iff] at h
  exact h

theorem StrideInv.mayRun_iff {k : Kernel n} (hI : StrideInv k) :
    MayRun k (minProc k) ↔ RunnableFirst k := by
  have hmin := hI.minProc_spec
  constructor
  · -- the choice itself comes first
    rintro ⟨hrun, -⟩
    refine ⟨minProc k, hrun, fun q hq hcand => ?_⟩
    have hcand' : q = 0 ∨ (k.proc q).state.Live := by
      rw [ProcState.live_iff]
      tauto
    rcases lt_or_eq_of_le (hmin.le q hcand') with hlt | heq
    · exact Or.inl hlt
    · refine Or.inr ⟨heq, ?_⟩
      rcases lt_trichotomy (minProc k) q with h | h | h
      · exact h
      · exact absurd (h ▸ hrun) hq
      · exact absurd heq (hmin.lt q hcand' h).ne
  · rintro ⟨p, hp, hfirst⟩
    have hlive : ∀ q, (k.proc q).state = .runnable → q = 0 ∨ (k.proc q).state.Live :=
      fun q hq => Or.inr (by rw [hq]; simp)
    have hrun : (k.proc (minProc k)).state = .runnable := by
      by_contra hne
      have hcand : minProc k = 0 ∨ (k.proc (minProc k)).state = .sleeping ∨
          (k.proc (minProc k)).state = .running := by
        rcases hmin.mem with h | h
        · exact Or.inl h
        · rw [ProcState.live_iff] at h
          tauto
      -- `p` beats the choice, which beats every candidate
      rcases hfirst _ hne hcand with hlt | ⟨heq, hbefore⟩
      · exact absurd (hmin.le p (hlive p hp)) (not_le.mpr hlt)
      · exact absurd heq (hmin.lt p (hlive p hp) hbefore).ne'
    exact ⟨hrun, fun q hq => hmin.le q (hlive q hq)⟩

theorem StrideInv.legalDispatch_iff {k : Kernel n} (hI : StrideInv k) (a : Action n) :
    LegalDispatch k a ↔ RunnableFirstAt k a := by
  constructor
  · rintro hlegal c rfl hfault hidle
    exact hI.mayRun_iff.mp (hlegal c _ _ rfl (schedule_enabled hfault hidle)
      (strideScheduler_switchesTo k c))
  · rintro hfirst c k' p rfl hstep hp
    obtain ⟨hfault, hidle, rfl⟩ := schedule_eq_some hstep
    obtain rfl := hp.unique (strideScheduler_switchesTo k c)
    exact hI.mayRun_iff.mpr (hfirst c rfl hfault hidle)

/-- **When the stride scheduler makes a legal choice.** Over any run from boot
on any number of CPUs, every iteration of the scheduler switches to a `RUNNABLE`
process of smallest `pass` if and only if every iteration finds a `RUNNABLE`
process before the entries that should not have been candidates. -/
theorem legal_dispatches_iff (as : List (Action n)) :
    AllSteps (step false) LegalDispatch (boot false n) as ↔
      AllSteps (step false) RunnableFirstAt (boot false n) as :=
  ⟨allSteps_of_invariant (fun _ _ _ hI _ h => hI.next h)
      (fun _ a hI => (hI.legalDispatch_iff a).mp) (StrideInv.init n),
    allSteps_of_invariant (fun _ _ _ hI _ h => hI.next h)
      (fun _ a hI => (hI.legalDispatch_iff a).mpr) (StrideInv.init n)⟩

/-- Init goes to sleep, and the scheduler switches to it all the same. -/
theorem dispatch_of_sleeper :
    (∃ k k', exec (step false) (boot false 1) [.schedule 0, .sleep 0 (.addr 5)] = some k ∧
      step false k (.schedule 0) = some k' ∧
      k'.hist = .dispatch 0 .sleeping :: k.hist) ∧
    ¬ AllSteps (step false) LegalDispatch (boot false 1)
        [.schedule 0, .sleep 0 (.addr 5), .schedule 0] := by
  have hpre : (exec (step false) (boot false 1) [.schedule 0, .sleep 0 (.addr 5)]).map
      (fun k => ((k.proc 0).state, k.hist, (step false k (.schedule 0)).map fun k' => k'.hist)) =
      some (.sleeping, [.dispatch 0 .runnable],
        some [.dispatch 0 .sleeping, .dispatch 0 .runnable]) := by decide +kernel
  obtain ⟨k, hk, heq⟩ := Option.map_eq_some_iff.mp hpre
  simp only [Prod.mk.injEq] at heq
  obtain ⟨hstate, hhist, hnext⟩ := heq
  obtain ⟨k', hk', hhist'⟩ := Option.map_eq_some_iff.mp hnext
  have hrec : k'.hist = .dispatch 0 .sleeping :: k.hist := by rw [hhist', hhist]
  refine ⟨⟨k, k', hk, hk', hrec⟩, fun h => ?_⟩
  have h' : AllSteps (step false) LegalDispatch (boot false 1)
      ([.schedule 0, .sleep 0 (.addr 5)] ++ .schedule 0 :: []) := h
  have hlegal : LegalDispatch k (.schedule 0) := h'.after hk
  have hrun := (hlegal 0 k' 0 rfl hk' ⟨[], by rw [hrec, hstate]; rfl⟩).1
  rw [hstate] at hrun
  cases hrun

/-! ## The charge -/

/-- The fields of an account are `int`s, and the stride is small. -/
structure Account.Ranged (A : Account) : Prop where
  stride_nonneg : 0 ≤ A.stride
  stride_le : A.stride ≤ 100
  pass : -2147483648 ≤ A.pass ∧ A.pass ≤ intMax
  limitpass : -2147483648 ≤ A.limitpass ∧ A.limitpass ≤ intMax

theorem wrap_mem (x : ℤ) : -2147483648 ≤ wrap x ∧ wrap x ≤ intMax := by
  unfold wrap intMax
  omega

theorem Account.Ranged.fresh {t : ℤ} (h : Granted t) : (Account.fresh t).Ranged := by
  obtain ⟨f, rfl⟩ := h
  cases f <;> refine ⟨?_, ?_, ?_, ?_⟩ <;> decide

theorem Account.Ranged.raise {A : Account} (h : A.Ranged) : A.raise.Ranged :=
  ⟨h.stride_nonneg, h.stride_le, h.pass, wrap_mem _⟩

theorem Account.Ranged.advance {A : Account} (h : A.Ranged) : A.advance.Ranged :=
  ⟨h.stride_nonneg, h.stride_le, wrap_mem _, h.limitpass⟩

theorem Account.Ranged.restart {A : Account} (h : A.Ranged) : A.restart.Ranged := by
  unfold Account.restart
  split
  · have := h.stride_nonneg
    have := h.stride_le
    refine ⟨h.stride_nonneg, h.stride_le, ?_, ?_⟩ <;> (simp only [intMax]; omega)
  · exact h

theorem Account.Ranged.charge {A : Account} (h : A.Ranged) : A.charge.Ranged := by
  unfold Account.charge
  split
  · exact h.raise.restart
  · exact h.advance.restart

/-- What `forks` is about to open an account with. -/
theorem StrideInv.granted {k : Kernel n} (hI : StrideInv k) {np : Slot} {t : ℤ}
    (h : (∃ f : ForkCall, t = f.tickets) ∨ ∃ p, (k.proc p).pc = .stacked np t) : Granted t := by
  rcases h with h | ⟨p, hp⟩
  · exact h
  · exact hI.funded.asked p np t (Or.inr hp)

/-- A property of accounts that a new account has, and that the billing keeps,
is one of all accounts of every reachable table. -/
theorem StrideInv.accounts_induction {P : Account → Prop} {k k' : Kernel n} {a : Action n}
    (hI : StrideInv k) (hstep : step false k a = some k') (hP : ∀ q, P (k.proc q).account)
    (hfresh : ∀ t, Granted t → P (Account.fresh t))
    (hcharge : ∀ c, a = .schedule c → P (k.proc (minProc k)).account →
      P (k.proc (minProc k)).account.charge)
    (hraise : ∀ c p t user, a = .trap c t user → (k.cpu c).proc = some p →
      Accountable (k.proc p) t user → ((k.proc p).pass ≥ (k.proc p).limitpass ∨ t = .timer) →
      P (k.proc p).account → P (k.proc p).account.raise)
    (hadvance : ∀ p, (k.proc p).pass < (k.proc p).limitpass → P (k.proc p).account →
      P (k.proc p).account.advance) :
    ∀ q, P (k'.proc q).account := by
  have hone : ∀ p f, OneAccount k k' p f → P (f (k.proc p).account) →
      ∀ q, P (k'.proc q).account := by
    intro p f h hp q
    rw [h q]
    split
    · exact hp
    · exact hP q
  cases (StepTo.of_step hstep).2.billing hI.placed with
  | same _ _ h => exact fun q => h q ▸ hP q
  | dispatch _ h => exact hone _ _ h (hcharge _ rfl (hP _))
  | turn hp hacc hend h => exact hone _ _ h (hraise _ _ _ _ rfl hp hacc hend (hP _))
  | stride hp hacc hlt _ h => exact hone _ _ h (hadvance _ hlt (hP _))
  | grant _ _ hgrant h => exact hone _ _ h (hfresh _ (hI.granted hgrant))

theorem boot_account (q : Slot) : ((boot false n).proc q).account = Account.fresh 300 ∨
    ((boot false n).proc q).account = ⟨0, 0, 0, 0⟩ := by
  by_cases h : q = 0
  · subst h
    rw [boot_proc]
    exact Or.inl rfl
  · rw [boot_ne h]
    exact Or.inr rfl

/-- The accounts of every reachable table are in range. -/
theorem ranged_of_run {as : List (Action n)} {k : Kernel n}
    (hrun : exec (step false) (boot false n) as = some k) (q : Slot) :
    (k.proc q).account.Ranged := by
  have hboth := exec_invariant (P := fun k : Kernel n => StrideInv k ∧
    ∀ q, (k.proc q).account.Ranged) ?_ ⟨StrideInv.init n, ?_⟩ hrun
  · exact hboth.2 q
  · rintro s a t ⟨hI, hR⟩ hs
    exact ⟨hI.next hs, hI.accounts_induction hs hR (fun _ => .fresh)
      (fun _ _ h => h.charge) (fun _ _ _ _ _ _ _ _ h => h.raise) (fun _ _ h => h.advance)⟩
  · intro q
    rcases boot_account (n := n) q with h | h
    · rw [h]
      exact .fresh ⟨.forkLow, rfl⟩
    · rw [h]
      refine ⟨?_, ?_, ?_, ?_⟩ <;> decide

/-- The bill for a dispatch, `A` before and `A'` after it. -/
structure DispatchBill (A A' : Account) : Prop where
  /-- tickets and stride stay -/
  kept : A'.tickets = A.tickets ∧ A'.stride = A.stride
  /-- below the limit `pass` grows by one stride -/
  below : A.pass < A.limitpass → 0 ≤ A.pass + A.stride → A.pass + A.stride ≤ intMax →
    A'.pass = A.pass + A.stride ∧ A'.limitpass = A.limitpass
  /-- or the account starts over, when the sum is not a non-negative `int` -/
  restarted : A.pass < A.limitpass → (A.pass + A.stride < 0 ∨ intMax < A.pass + A.stride) →
    A'.pass = 0 ∧ A'.limitpass = A.stride
  /-- at the limit `pass` stays and the limit moves -/
  gated : A.limitpass ≤ A.pass → 0 ≤ A.pass →
    A'.pass = A.pass ∧ A'.limitpass = wrap (A.limitpass + (A.pass + A.stride))
  /-- where a negative `pass` makes the account start over too -/
  gated_negative : A.limitpass ≤ A.pass → A.pass < 0 → A'.pass = 0 ∧ A'.limitpass = A.stride

theorem Account.restart_of_nonneg {A : Account} (h : 0 ≤ A.pass) : A.restart = A :=
  if_neg (not_lt.mpr h)

theorem Account.restart_of_neg {A : Account} (h : A.pass < 0) :
    A.restart = { A with pass := 0, limitpass := A.stride } := if_pos h

theorem Account.charge_of_lt {A : Account} (h : A.pass < A.limitpass) :
    A.charge = A.advance.restart := by
  rw [Account.charge, if_neg (not_le.mpr h)]

theorem Account.charge_of_ge {A : Account} (h : A.limitpass ≤ A.pass) :
    A.charge = A.raise.restart := by
  rw [Account.charge, if_pos h]

theorem Account.Ranged.dispatchBill {A : Account} (h : A.Ranged) : DispatchBill A A.charge := by
  obtain ⟨h0, h100, ⟨hlo, hhi⟩, -⟩ := h
  refine ⟨A.charge_kept, ?_, ?_, ?_, ?_⟩
  · intro hlt hpos hmax
    have hsum : wrap (A.pass + A.stride) = A.pass + A.stride := wrap_of_nonneg hpos hmax
    rw [Account.charge_of_lt hlt, Account.restart_of_nonneg]
    · exact ⟨hsum, rfl⟩
    · rw [Account.advance, hsum]
      exact hpos
  · intro hlt hout
    have hneg : wrap (A.pass + A.stride) < 0 := by
      rcases hout with hneg | hover
      · rw [wrap_of_mem (by omega) (by unfold intMax; omega)]
        exact hneg
      · rw [wrap_of_gt hover (by unfold intMax at *; omega)]
        unfold intMax at *
        omega
    rw [Account.charge_of_lt hlt, Account.restart_of_neg (A := A.advance) hneg]
    exact ⟨rfl, rfl⟩
  · intro hge hpos
    rw [Account.charge_of_ge hge, Account.restart_of_nonneg (A := A.raise) hpos]
    exact ⟨rfl, rfl⟩
  · intro hge hneg
    rw [Account.charge_of_ge hge, Account.restart_of_neg (A := A.raise) hneg]
    exact ⟨rfl, rfl⟩

/-- **What an iteration of the scheduler charges.** From every reachable state
it switches to one process; that process gets the bill, every other account
stays as it is. -/
theorem dispatch_bills_one {as : List (Action n)} {k k' : Kernel n} {c : Fin n}
    (hrun : exec (step false) (boot false n) as = some k)
    (hstep : step false k (.schedule c) = some k') :
    ∃ p, SwitchesTo k k' p ∧ DispatchBill (k.proc p).account (k'.proc p).account ∧
      ∀ q, q ≠ p → (k'.proc q).account = (k.proc q).account := by
  obtain ⟨-, hidle, rfl⟩ := schedule_eq_some hstep
  cases billing_strideScheduler k hidle with
  | same hsched => exact absurd rfl (hsched c)
  | grant hsched => exact absurd rfl (hsched c)
  | dispatch _ hone =>
    refine ⟨minProc k, strideScheduler_switchesTo k c, ?_, fun q hq => ?_⟩
    · rw [hone, if_pos rfl]
      exact (ranged_of_run hrun _).dispatchBill
    · rw [hone, if_neg hq]

/-- The second dispatch, after init slept and was woken. -/
theorem dispatch_bills_one_boot : ∃ k k' p, exec (step false) (boot false 1)
      [.schedule 0, .sleep 0 (.addr 5), .wakeup (.addr 5)] = some k ∧
    step false k (.schedule 0) = some k' ∧ SwitchesTo k k' p ∧
    DispatchBill (k.proc p).account (k'.proc p).account := by
  obtain ⟨k', hrun⟩ := Option.isSome_iff_exists.mp
    (show ((exec (step false) (boot false 1)
      [.schedule 0, .sleep 0 (.addr 5), .wakeup (.addr 5)]).bind
        fun k => step false k (.schedule 0)).isSome = true by decide +kernel)
  obtain ⟨k, hk, hk'⟩ := Option.bind_eq_some_iff.mp hrun
  obtain ⟨p, hp, hbill, -⟩ := dispatch_bills_one hk hk'
  exact ⟨k, k', p, hk, hk', hp, hbill⟩

/-- A process that blocks before its turn ends is at its limit when it is woken,
and its next dispatch is free: init stays at `pass = 33`. -/
theorem dispatch_without_charge :
    ∃ k k', exec (step false) (boot false 1)
        [.schedule 0, .sleep 0 (.addr 5), .wakeup (.addr 5)] = some k ∧
      step false k (.schedule 0) = some k' ∧ SwitchesTo k k' 0 ∧
      (k.proc 0).account = ⟨300, 33, 33, 33⟩ ∧ (k'.proc 0).account = ⟨300, 33, 33, 99⟩ ∧
      ¬ ((k'.proc 0).pass = (k.proc 0).pass + (k.proc 0).stride ∨
        (k'.proc 0).pass = 0 ∧ (k'.proc 0).limitpass = (k.proc 0).stride) := by
  have hpre : (exec (step false) (boot false 1)
      [.schedule 0, .sleep 0 (.addr 5), .wakeup (.addr 5)]).map
      (fun k => ((k.proc 0).account, (k.proc 0).state, k.hist,
        (step false k (.schedule 0)).map fun k' => ((k'.proc 0).account, k'.hist))) =
      some (⟨300, 33, 33, 33⟩, .runnable, [.dispatch 0 .runnable],
        some (⟨300, 33, 33, 99⟩, [.dispatch 0 .runnable, .dispatch 0 .runnable])) := by
    decide +kernel
  obtain ⟨k, hk, heq⟩ := Option.map_eq_some_iff.mp hpre
  simp only [Prod.mk.injEq] at heq
  obtain ⟨hacc, hstate, hhist, hnext⟩ := heq
  obtain ⟨k', hk', heq'⟩ := Option.map_eq_some_iff.mp hnext
  obtain ⟨hacc', hhist'⟩ := Prod.mk.inj heq'
  refine ⟨k, k', hk, hk', ⟨[], by rw [hhist', hhist, hstate]; rfl⟩, hacc, hacc', ?_⟩
  simp only [← Proc.account_pass, ← Proc.account_stride, ← Proc.account_limitpass, hacc, hacc']
  decide

end StrideXv6
