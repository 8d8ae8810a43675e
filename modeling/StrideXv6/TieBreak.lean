import StrideXv6.Dispatch

/-!
# Equal passes

Among the processes with the smallest `pass` the selection loop takes the first
of the table, and this is meant to be the one with the lowest pid: entries are
given out from the front of the table, pids from `1` upwards. The two orders
agree as long as a new process goes behind all others. They part when `wait` has
freed an entry in front of a process that is still there: `allocproc` takes that
entry and puts a larger pid into it.

`Ascending` is the order as an invariant, in terms of the numbers `uid` the
processes have by creation. A step other than a `fork` creates no process
(`StepTo.created_eq`), so it only continues processes, with their numbers
(`Continues`), and keeps any order the table had.
-/

namespace StrideXv6

open Machine Word32

variable {n : ℕ}

/-! ## Only `fork` creates a process -/

section Created

variable (k : Kernel n) (c : Fin n) (p : Slot)

theorem callExit_created : (callExit k p).created = k.created := by
  unfold callExit
  split <;> rfl

theorem sched_created : (sched k c p).created = k.created := by
  unfold sched
  split <;> rfl

theorem sleep_created (ch : Chan) (ctx : Context) :
    (sleep k c p ch ctx).created = k.created := by
  unfold sleep
  rw [sched_created]
  rfl

theorem waitLoop_created : (waitLoop k c p).created = k.created := by
  rcases waitLoop_cases k c p with ⟨q, -, -, heq⟩ | ⟨-, heq⟩ | ⟨-, heq⟩
  · rw [heq]
    rfl
  · rw [heq]
    rfl
  · rw [heq, sleep_created]

theorem resume_created : (resume k c p).created = k.created := by
  unfold resume
  split
  · rfl
  · split
    · exact callExit_created k p
    · rfl
  · rfl
  · exact waitLoop_created _ c p
  · rfl
  · rfl

theorem tick_created (t : Trap) : (tick k c t).created = k.created := by
  unfold tick
  split <;> rfl

theorem trap_created (t : Trap) (user : Bool) : (trap k c p t user).created = k.created := by
  have htick := tick_created k c t
  unfold trap
  dsimp only
  generalize tick k c t = k₁ at htick ⊢
  rw [← htick]
  split
  · rfl
  have hmark : (if t = .fault then k₁.modify p fun P => { P with killed := true }
      else k₁).created = k₁.created := by split <;> rfl
  generalize (if t = .fault then k₁.modify p fun P => { P with killed := true } else k₁) = k₂
    at hmark ⊢
  rw [← hmark]
  split
  · exact callExit_created k₂ p
  · split
    · unfold yield
      rw [sched_created]
      rfl
    · split <;> rfl

theorem exit_created : (exit k c p).created = k.created := by
  obtain ⟨-, -, -, -, hcreated, -⟩ :=
    passChildren_frame (wakeup1 k ((k.proc p).parent.map Chan.proc)) p
  unfold exit
  dsimp only
  rw [sched_created]
  generalize passChildren (wakeup1 k ((k.proc p).parent.map Chan.proc)) p = k₁ at hcreated ⊢
  exact hcreated

end Created

/-- A step that is not a `fork` creates no process. -/
theorem StepTo.created_eq {k k' : Kernel n} {a : Action n} (h : StepTo false k a k')
    (hfork : ∀ c f, a ≠ .fork c f) : k'.created = k.created := by
  cases h with
  | schedule hidle =>
    change (strideScheduler k _).created = k.created
    unfold strideScheduler
    dsimp only
    split
    · rfl
    · exact resume_created _ _ _
  | trapIdle hidle =>
    unfold StrideXv6.trapIdle
    split
    · rfl
    · exact tick_created k _ _
  | trap hp huser => exact trap_created k _ _ _ _
  | wakeup => rfl
  | kill hp hpc =>
    unfold StrideXv6.kill
    split <;> rfl
  | fork hp hpc => exact absurd rfl (hfork _ _)
  | forkStack hp hpc =>
    unfold StrideXv6.forkStack
    split <;> rfl
  | forkCopy hp hpc =>
    unfold StrideXv6.forkCopy
    split <;> rfl
  | forkReady hp hpc => rfl
  | wait hp hpc => exact waitLoop_created k _ _
  | sleep hp hch hpc => exact sleep_created k _ _ _ _
  | callExit hp hpc => exact callExit_created k _
  | exit hp hpc => exact exit_created k _ _

/-! ## Processes that go on -/

/-- The entry's process is there and has not exited. -/
def Alive (k : Kernel n) (q : Slot) : Prop :=
  (k.proc q).state ≠ .unused ∧ (k.proc q).state ≠ .zombie

instance (k : Kernel n) (q : Slot) : Decidable (Alive k q) :=
  inferInstanceAs (Decidable (_ ∧ _))

theorem alive_of_live {k : Kernel n} {q : Slot} (h : (k.proc q).state.Live) : Alive k q := by
  unfold Alive
  rcases ProcState.live_iff.mp h with h | h | h <;> simp [h]

/-- Who is alive was alive, with the same number. -/
def Continues (k k' : Kernel n) : Prop :=
  ∀ q, Alive k' q → Alive k q ∧ (k'.proc q).uid = (k.proc q).uid

theorem Continues.trans {k k' k'' : Kernel n} (h : Continues k k') (h' : Continues k' k'') :
    Continues k k'' := by
  intro q hq
  obtain ⟨hq', huid'⟩ := h' q hq
  obtain ⟨hq'', huid⟩ := h q hq'
  exact ⟨hq'', huid'.trans huid⟩

theorem Quiet.alive {k k' : Kernel n} {q : Slot} {P : Proc} (hP : P.state = (k.proc q).state)
    (h : Quiet P (k'.proc q)) (hq : Alive k' q) : Alive k q := by
  rcases h.state with hst | ⟨hst, -⟩
  · unfold Alive at hq ⊢
    rwa [← hP, ← hst]
  · refine alive_of_live ?_
    rw [← hP, hst]
    simp

/-- A move either creates a process or continues those there are. -/
theorem Move.created_or_continues {k k' : Kernel n} (hI : Inv k) (hm : Move k k') :
    k.created < k'.created ∨ k'.created = k.created ∧ Continues k k' := by
  cases hm with
  | quiet hproc hexit hcpu hsteady hfault hhist =>
    exact Or.inr ⟨hsteady.created, fun q hq => ⟨(hproc q).alive rfl hq, (hproc q).uid⟩⟩
  | @dispatch _ _ p hidle hfault hlive hshared hp hother hcpu hsteady hhist =>
    refine Or.inr ⟨hsteady.created, fun q hq => ?_⟩
    by_cases hqp : q = p
    · subst hqp
      exact ⟨alive_of_live hlive, hp.uid⟩
    · unfold Alive at hq ⊢
      rw [(hother q hqp).state] at hq
      exact ⟨hq, (hother q hqp).uid⟩
  | leave hp hfault hst hwait =>
    have hrun := hI.placed.running _ _ hp
    exact Or.inr ⟨rfl, by unfold Continues Alive; grind⟩
  | @adopt p hpc =>
    obtain ⟨-, -, -, -, hcreated, -⟩ := passChildren_frame k p
    refine Or.inr ⟨hcreated, fun q hq => ⟨?_, ?_⟩⟩
    · exact (passChildren_quiet k p q).alive (Proc.adopt_state ..) hq
    · rw [(passChildren_quiet k p q).uid, Proc.adopt_uid]
  | exit hp hfault hpc hkids hparent =>
    have hrun := hI.placed.running _ _ hp
    exact Or.inr ⟨rfl, by unfold Continues Alive; grind⟩
  | alloc hp hpc hnp hgrant => exact Or.inl (Nat.lt_succ_self _)
  | giveBack hpc => exact Or.inr ⟨rfl, by unfold Continues Alive; grind⟩
  | stack hpc => exact Or.inr ⟨rfl, by unfold Continues Alive; grind [forkStack]⟩
  | copy hp hpc => exact Or.inr ⟨rfl, by unfold Continues Alive; grind [forkCopy, Proc.copy]⟩
  | @ready p np hpc =>
    have hnp : (k.proc np).state = .embryo := hI.family.embryo p np (by rw [hpc]; rfl)
    exact Or.inr ⟨rfl, by unfold Continues Alive; grind [forkReady]⟩
  | reap hparent hzombie =>
    exact Or.inr ⟨rfl, by unfold Continues Alive; grind [Proc.reap]⟩

theorem Moves.created_or_continues {k k' : Kernel n} (hI : Inv k) (hm : Moves k k') :
    Inv k' ∧ (k.created < k'.created ∨ k'.created = k.created ∧ Continues k k') := by
  induction hm with
  | refl => exact ⟨hI, Or.inr ⟨rfl, fun q hq => ⟨hq, rfl⟩⟩⟩
  | tail _ hm ih =>
    obtain ⟨hI', hfirst⟩ := ih
    refine ⟨hI'.move hm, ?_⟩
    rcases hfirst, hm.created_or_continues hI' with ⟨hlt | ⟨heq, hc⟩, hlt' | ⟨heq', hc'⟩⟩
    · exact Or.inl (hlt.trans hlt')
    · exact Or.inl (heq' ▸ hlt)
    · exact Or.inl (heq ▸ hlt')
    · exact Or.inr ⟨heq'.trans heq, hc.trans hc'⟩

theorem Inv.continues {k k' : Kernel n} {a : Action n} (hI : Inv k)
    (h : step false k a = some k') (hfork : ∀ c f, a ≠ .fork c f) : Continues k k' := by
  have hcreated := (StepTo.of_step h).2.created_eq hfork
  rcases (Moves.created_or_continues hI (hI.moves_of_step h)).2 with hlt | ⟨-, hc⟩
  · omega
  · exact hc

/-! ## The order of the table -/

/-- The living processes are in the order of their creation, and none has a pid
beyond the largest `int`. -/
structure Ascending (k : Kernel n) : Prop where
  order : ∀ p q, p < q → Alive k p → Alive k q → (k.proc p).uid < (k.proc q).uid
  small : k.created + 1 < 2 ^ 31

theorem Ascending.boot (n : ℕ) : Ascending (boot false n) := by
  refine ⟨fun p q hpq _ hq => ?_, by rw [(boot_frame false n).2.1]; decide⟩
  have hne : q ≠ 0 := Fin.ne_of_gt (lt_of_le_of_lt (Fin.zero_le p) hpq)
  unfold Alive at hq
  rw [boot_ne hne] at hq
  exact absurd rfl hq.1

/-- A `fork` finds no living process behind the entry it takes, and does not take
the largest pid. -/
def AppendsProcess (k : Kernel n) : Action n → Prop
  | .fork _ _ => ∀ np ∈ findUnused k, (∀ q, np < q → ¬ Alive k q) ∧ k.nextpid + 1 ≤ intMax
  | _ => True

instance AppendsProcess.decidable (k : Kernel n) : ∀ a, Decidable (AppendsProcess k a)
  | .fork _ _ => inferInstanceAs (Decidable (∀ np ∈ findUnused k,
      (∀ q, np < q → ¬ Alive k q) ∧ k.nextpid + 1 ≤ intMax))
  | .schedule _ | .trap _ _ _ | .wakeup _ | .kill _ _ | .forkStack _ _ | .forkCopy _ _
  | .forkReady _ | .wait _ | .sleep _ _ | .callExit _ | .exit _ => isTrue trivial

theorem Ascending.fork {k : Kernel n} (hA : Ascending k) (hI : Inv k) {tickets : ℤ} {p np : Slot}
    (hp : (k.proc p).state = .running) (hnp : (k.proc np).state = .unused)
    (hlast : ∀ q, np < q → ¬ Alive k q) (hpid : k.nextpid + 1 ≤ intMax) :
    Ascending { (k.modify np (Proc.alloc false k.nextpid k.created tickets)).modify p fun P =>
        { P with pc := .allocated np tickets } with
      nextpid := wrap (k.nextpid + 1), created := k.created + 1 } := by
  have hne : p ≠ np := by
    rintro rfl
    rw [hp] at hnp
    cases hnp
  have hsmall := hA.small
  have hnext : k.nextpid = k.created + 1 := by
    rw [hI.numbered.nextpid]
    refine wrap_of_nonneg (by omega) ?_
    unfold intMax
    omega
  have hother : ∀ q, q ≠ np → Alive { (k.modify np (Proc.alloc false k.nextpid k.created
      tickets)).modify p fun P => { P with pc := .allocated np tickets } with
        nextpid := wrap (k.nextpid + 1), created := k.created + 1 } q → Alive k q := by
    unfold Alive
    grind
  refine ⟨fun q r hqr hq hr => ?_, by unfold intMax at hpid; dsimp only; omega⟩
  have hr' : r = np ∨ Alive k r := by
    by_cases h : r = np
    · exact Or.inl h
    · exact Or.inr (hother r h hr)
  have hq' : Alive k q := by
    refine hother q ?_ hq
    rintro rfl
    rcases hr' with rfl | hr'
    · exact absurd hqr (lt_irrefl _)
    · exact hlast r hqr hr'
  have hqne : q ≠ np := by
    rintro rfl
    exact hq'.1 hnp
  have hlt := hI.numbered.lt q hq'.1
  have hqr' : Alive k r → (k.proc q).uid < (k.proc r).uid := hA.order q r hqr hq'
  grind [Proc.alloc]

theorem Ascending.next {k k' : Kernel n} {a : Action n} (hA : Ascending k) (hI : Inv k)
    (happ : AppendsProcess k a) (h : step false k a = some k') : Ascending k' := by
  by_cases hfork : ∀ c f, a ≠ .fork c f
  · have hc := hI.continues h hfork
    have hcreated := (StepTo.of_step h).2.created_eq hfork
    refine ⟨fun p q hpq hp hq => ?_, hcreated ▸ hA.small⟩
    obtain ⟨hp', hup⟩ := hc p hp
    obtain ⟨hq', huq⟩ := hc q hq
    rw [hup, huq]
    exact hA.order p q hpq hp' hq'
  · push Not at hfork
    obtain ⟨c, f, rfl⟩ := hfork
    cases (StepTo.of_step h).2 with
    | @fork _ p _ hp hpc =>
      unfold forks allocproc
      rcases hf : findUnused k with _ | np
      · exact hA
      · obtain ⟨hlast, hpid⟩ := happ np hf
        exact hA.fork hI (hI.placed.running _ _ hp) (findUnused_state hf) hlast hpid

/-! ## The tie-break -/

/-- `p` may be dispatched, has the smallest `pass` of all that may, and the
smallest pid of those. -/
structure LowestPid (k : Kernel n) (p : Slot) : Prop where
  dispatchable : dispatchable k p = true
  pass_le : ∀ q, StrideXv6.dispatchable k q = true → (k.proc p).pass ≤ (k.proc q).pass
  pid_le : ∀ q, StrideXv6.dispatchable k q = true → (k.proc q).pass = (k.proc p).pass →
    (k.proc p).pid ≤ (k.proc q).pid

/-- If entry `0` may be dispatched, the scheduler switches to the process with
the lowest pid among those of smallest `pass`. -/
def TieBreak (k : Kernel n) : Prop :=
  dispatchable k 0 = true → ∀ c k' p, step false k (.schedule c) = some k' →
    SwitchesTo k k' p → LowestPid k p

theorem Ascending.tieBreak {k : Kernel n} (hA : Ascending k) (hI : Inv k) : TieBreak k := by
  rintro hzero c k' p hstep hp
  obtain ⟨-, -, rfl⟩ := schedule_eq_some hstep
  obtain rfl := hp.unique (strideScheduler_switchesTo k c)
  have hmin := minProc_spec k
  have hmem : dispatchable k (minProc k) = true := by
    rcases hmin.mem with h | h
    · rw [h]
      exact hzero
    · exact h
  refine ⟨hmem, fun q hq => hmin.le q (Or.inr hq), fun q hq hpass => ?_⟩
  have halive : ∀ r, dispatchable k r = true → Alive k r :=
    fun r hr => alive_of_live (of_decide_eq_true hr).1
  have hcreated : k.created < 2 ^ 31 := Nat.lt_of_succ_lt hA.small
  rw [hI.pid_eq hcreated (halive _ hmem).1, hI.pid_eq hcreated (halive q hq).1]
  -- a process of the same pass stands behind the choice, so it is younger
  rcases lt_trichotomy (minProc k) q with hlt | rfl | hgt
  · have := hA.order _ q hlt (halive _ hmem) (halive q hq)
    omega
  · exact le_refl _
  · exact absurd hpass.symm (hmin.lt q (Or.inr hq) hgt).ne

/-- **The tie-break by pid**, in every state of every run, on any number of CPUs,
in which each new process goes behind the living ones. -/
theorem lowest_pid_of_appended {as : List (Action n)}
    (h : AllSteps (step false) AppendsProcess (boot false n) as) :
    AllStates (step false) TieBreak (boot false n) as := by
  refine (allStates_of_allSteps (P := fun k => Inv k ∧ Ascending k) ?_
    ⟨Inv.init false n, Ascending.boot n⟩ h).mono fun k hk => hk.2.tieBreak hk.1
  rintro k a k' ⟨hI, hA⟩ happ hstep
  exact ⟨hI.next hstep, hA.next hI happ hstep⟩

/-- Init creates two children, one behind the other, and the first of them runs. -/
theorem lowest_pid_two_children :
    AllStates (step false) TieBreak (boot false 1)
      [.schedule 0, .fork 0 .fork, .forkStack 0 true, .forkCopy 0 true, .forkReady 0,
        .fork 0 .fork, .forkStack 0 true, .forkCopy 0 true, .forkReady 0,
        .trap 0 .timer true, .schedule 0] :=
  lowest_pid_of_appended (by decide +kernel)

local instance singleCpu : NeZero 1 := ⟨Nat.one_ne_zero⟩

/-- Init creates a child, which exits; init creates a second child before it waits
for the first, and a third after it: that takes the entry of the first. -/
def reusedEntry : List (Action 1) :=
  [.schedule 0, .fork 0 .fork, .forkStack 0 true, .forkCopy 0 true, .forkReady 0,
    .trap 0 .timer true, .schedule 0, .callExit 0, .exit 0,
    .schedule 0, .fork 0 .fork, .forkStack 0 true, .forkCopy 0 true, .forkReady 0,
    .wait 0, .fork 0 .fork, .forkStack 0 true, .forkCopy 0 true, .forkReady 0,
    .trap 0 .timer true]

/-- The third child, with pid `4`, is preferred to the second, with pid `3` and
the same `pass`. -/
theorem lowest_pid_passed_over :
    (∃ k k', exec (step false) (boot false 1) reusedEntry = some k ∧
      step false k (.schedule 0) = some k' ∧ SwitchesTo k k' 1 ∧
      dispatchable k 0 = true ∧ dispatchable k 2 = true ∧
      (k.proc 2).pass = (k.proc 1).pass ∧ (k.proc 2).pid < (k.proc 1).pid) ∧
    ¬ AllStates (step false) TieBreak (boot false 1) reusedEntry := by
  have hend : (exec (step false) (boot false 1) reusedEntry).map (fun k =>
      ([dispatchable k 0, dispatchable k 2, k.fault.isNone, (k.cpu 0).proc.isNone],
        [(k.proc 2).pass, (k.proc 1).pass, (k.proc 2).pid, (k.proc 1).pid], minProc k)) =
      some ([true, true, true, true], [0, 0, 3, 4], 1) := by decide +kernel
  obtain ⟨k, hk, heq⟩ := Option.map_eq_some_iff.mp hend
  simp only [Prod.mk.injEq, List.cons.injEq, and_true, Option.isNone_iff_eq_none] at heq
  obtain ⟨⟨hzero, htwo, hfault, hidle⟩, ⟨hp₂, hp₁, hi₂, hi₁⟩, hmin⟩ := heq
  have hstep := schedule_enabled hfault hidle
  have hswitch : SwitchesTo k (strideScheduler k 0) 1 :=
    hmin ▸ strideScheduler_switchesTo k 0
  have hpass : (k.proc 2).pass = (k.proc 1).pass := by rw [hp₂, hp₁]
  have hpid : (k.proc 2).pid < (k.proc 1).pid := by
    rw [hi₂, hi₁]
    decide
  refine ⟨⟨k, _, hk, hstep, hswitch, hzero, htwo, hpass, hpid⟩, not_allStates hk fun h => ?_⟩
  exact absurd ((h hzero 0 _ 1 hstep hswitch).pid_le 2 htwo hpass) (not_le.mpr hpid)

end StrideXv6
