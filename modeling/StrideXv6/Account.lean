import StrideXv6.Lifecycle

/-!
# The stride accounts

The four fields the stride scheduler keeps of a process, apart from the rest of
the entry. Few places of the code touch them: the scheduler charges the process
it switches to, an interrupt charges the process it interrupts, and `forks` opens
a new account. `StepTo.billing` says so for every step of the kernel; what the
accounts do over a run is derived from it.
-/

namespace StrideXv6

open Word32

variable {n : ℕ}

/-- What the stride scheduler keeps of a process. -/
@[ext] structure Account : Type where
  /-- number of tickets -/
  tickets : ℤ
  /-- size of a stride -/
  stride : ℤ
  /-- strides made -/
  pass : ℤ
  /-- limit of the strides that may be made -/
  limitpass : ℤ
  deriving DecidableEq

namespace Account

/-- The account of a new process. -/
def fresh (tickets : ℤ) : Account := ⟨tickets, Int.tdiv 10000 tickets, 0, Int.tdiv 10000 tickets⟩

/-- The limit moves. -/
def raise (A : Account) : Account :=
  { A with limitpass := wrap (A.limitpass + (A.pass + A.stride)) }

/-- One stride. -/
def advance (A : Account) : Account := { A with pass := wrap (A.pass + A.stride) }

/-- The scheduler's check for a `pass` that passed the largest `int`. -/
def restart (A : Account) : Account :=
  if A.pass < 0 then { A with pass := 0, limitpass := A.stride } else A

/-- The bill for a dispatch. -/
def charge (A : Account) : Account :=
  (if A.pass ≥ A.limitpass then A.raise else A.advance).restart

end Account

/-- The account of an entry. -/
def Proc.account (P : Proc) : Account := ⟨P.tickets, P.stride, P.pass, P.limitpass⟩

@[simp] theorem Proc.account_tickets (P : Proc) : P.account.tickets = P.tickets := rfl

@[simp] theorem Proc.account_stride (P : Proc) : P.account.stride = P.stride := rfl

@[simp] theorem Proc.account_pass (P : Proc) : P.account.pass = P.pass := rfl

@[simp] theorem Proc.account_limitpass (P : Proc) : P.account.limitpass = P.limitpass := rfl

/-- The scheduler's accounting in terms of the account. -/
theorem Proc.charge_eq (P : Proc) :
    P.charge = { P with state := .running, pass := P.account.charge.pass
                        limitpass := P.account.charge.limitpass } := by
  unfold Proc.charge Account.charge Account.restart Account.raise Account.advance Proc.account
  dsimp only
  split <;> dsimp only <;> split <;> rfl

theorem Account.charge_kept (A : Account) :
    A.charge.tickets = A.tickets ∧ A.charge.stride = A.stride := by
  unfold Account.charge Account.restart
  split <;> split <;> exact ⟨rfl, rfl⟩

theorem Proc.charge_account (P : Proc) : P.charge.account = P.account.charge := by
  rw [P.charge_eq]
  ext
  · exact P.account.charge_kept.1.symm
  · exact P.account.charge_kept.2.symm
  · rfl
  · rfl

theorem Proc.wake_account (P : Proc) (ch : Option Chan) : (P.wake ch).account = P.account := by
  ext <;> simp

theorem Proc.adopt_account (p init : Slot) (P : Proc) :
    (P.adopt p init).account = P.account := by
  unfold Proc.adopt
  split <;> rfl

/-! ## What leaves the accounts alone -/

/-- No account changed. -/
def SameAccounts (k k' : Kernel n) : Prop := ∀ q, (k'.proc q).account = (k.proc q).account

/-- Only the account of `p` changed, by `f`. -/
def OneAccount (k k' : Kernel n) (p : Slot) (f : Account → Account) : Prop :=
  ∀ q, (k'.proc q).account = if q = p then f (k.proc p).account else (k.proc q).account

namespace SameAccounts

theorem refl (k : Kernel n) : SameAccounts k k := fun _ => rfl

theorem trans {k₁ k₂ k₃ : Kernel n} (h : SameAccounts k₁ k₂) (h' : SameAccounts k₂ k₃) :
    SameAccounts k₁ k₃ := fun q => (h' q).trans (h q)

theorem modify {k : Kernel n} {p : Slot} {f : Proc → Proc}
    (hf : (f (k.proc p)).account = (k.proc p).account) : SameAccounts k (k.modify p f) := by
  intro q
  rw [Kernel.modify_proc]
  split
  · next h =>
    subst h
    exact hf
  · rfl

theorem wakeup1 (k : Kernel n) (ch : Option Chan) : SameAccounts k (wakeup1 k ch) :=
  fun q => (k.proc q).wake_account ch

theorem sched (k : Kernel n) (c : Fin n) (p : Slot) : SameAccounts k (sched k c p) := by
  unfold StrideXv6.sched
  split <;> exact fun _ => rfl

theorem yield (k : Kernel n) (c : Fin n) (p : Slot) (user : Bool) :
    SameAccounts k (yield k c p user) :=
  (modify rfl).trans (sched _ c p)

theorem sleep (k : Kernel n) (c : Fin n) (p : Slot) (ch : Chan) (ctx : Context) :
    SameAccounts k (sleep k c p ch ctx) :=
  (modify rfl).trans (sched _ c p)

theorem kill (k : Kernel n) (pid : ℤ) : SameAccounts k (kill k pid) := by
  unfold StrideXv6.kill
  split
  · exact refl k
  · exact modify rfl

theorem callExit (k : Kernel n) (p : Slot) : SameAccounts k (callExit k p) := by
  unfold StrideXv6.callExit
  split
  · exact fun _ => rfl
  · exact modify rfl

theorem passChildren (k : Kernel n) (p : Slot) : SameAccounts k (passChildren k p) := by
  intro q
  rw [passChildren_proc]
  split
  · rw [Proc.wake_account, Proc.adopt_account]
  · rw [Proc.adopt_account]

theorem exit (k : Kernel n) (c : Fin n) (p : Slot) : SameAccounts k (exit k c p) := by
  unfold StrideXv6.exit
  dsimp only
  have h := (wakeup1 k ((k.proc p).parent.map Chan.proc)).trans (passChildren _ p)
  generalize StrideXv6.passChildren _ _ = k₁ at h ⊢
  refine (h.trans fun q => ?_).trans (sched _ c p)
  exact modify (p := p) (f := fun P => { P with state := .zombie, context := some .exit }) rfl q

theorem waitLoop (k : Kernel n) (c : Fin n) (p : Slot) : SameAccounts k (waitLoop k c p) := by
  unfold StrideXv6.waitLoop
  split
  · exact fun q => modify (f := Proc.reap) rfl q
  · split
    · exact fun _ => rfl
    · exact sleep k c p _ _

theorem resume (k : Kernel n) (c : Fin n) (p : Slot) : SameAccounts k (resume k c p) := by
  unfold StrideXv6.resume
  split
  · exact refl k
  · split
    · exact callExit k p
    · exact refl k
  · exact modify rfl
  · exact (modify rfl).trans (waitLoop _ c p)
  · exact fun _ => rfl
  · exact fun _ => rfl

theorem tick (k : Kernel n) (c : Fin n) (t : Trap) : SameAccounts k (tick k c t) := by
  unfold StrideXv6.tick
  split
  · exact wakeup1 k _
  · exact refl k

theorem forkStack (k : Kernel n) (p np : Slot) (tickets : ℤ) (ok : Bool) :
    SameAccounts k (forkStack k p np tickets ok) := by
  unfold StrideXv6.forkStack
  split <;> exact (modify rfl).trans (modify rfl)

theorem forkReady (k : Kernel n) (p np : Slot) : SameAccounts k (forkReady k p np) :=
  (modify rfl).trans (modify rfl)

end SameAccounts

namespace OneAccount

theorem modify {k : Kernel n} {p : Slot} {f : Proc → Proc} {g : Account → Account}
    (hf : (f (k.proc p)).account = g (k.proc p).account) : OneAccount k (k.modify p f) p g := by
  intro q
  rw [Kernel.modify_proc]
  split
  · exact hf
  · rfl

theorem trans_same {k₁ k₂ k₃ : Kernel n} {p : Slot} {f : Account → Account}
    (h : OneAccount k₁ k₂ p f) (h' : SameAccounts k₂ k₃) : OneAccount k₁ k₃ p f :=
  fun q => (h' q).trans (h q)

end OneAccount

/-! ## What a step does to the accounts -/

/-- The trap goes past the checks of `trap` and reaches its accounting: no
exception, and the process is not on its way out. -/
def Accountable (P : Proc) (t : Trap) (user : Bool) : Prop :=
  t ≠ .fault ∧ ¬ (P.killed = true ∧ user = true)

/-- What a step of the stride kernel does to the accounts. -/
inductive Billing (k k' : Kernel n) : Action n → Prop where
  /-- nothing -/
  | same {a : Action n} (hsched : ∀ c, a ≠ .schedule c)
      (htrap : ∀ c p t user, a = .trap c t user → (k.cpu c).proc = some p →
        ¬ Accountable (k.proc p) t user)
      (h : SameAccounts k k') : Billing k k' a
  /-- the scheduler charges the process it switches to -/
  | dispatch {c : Fin n} (hidle : (k.cpu c).proc = none)
      (h : OneAccount k k' (minProc k) Account.charge) :
      Billing k k' (.schedule c)
  /-- an interrupt that ends the turn moves the limit -/
  | turn {c : Fin n} {p : Slot} {t : Trap} {user : Bool} (hp : (k.cpu c).proc = some p)
      (hacc : Accountable (k.proc p) t user)
      (hend : (k.proc p).pass ≥ (k.proc p).limitpass ∨ t = .timer)
      (h : OneAccount k k' p Account.raise) :
      Billing k k' (.trap c t user)
  /-- any other interrupt is one more stride -/
  | stride {c : Fin n} {p : Slot} {t : Trap} {user : Bool} (hp : (k.cpu c).proc = some p)
      (hacc : Accountable (k.proc p) t user)
      (hlt : (k.proc p).pass < (k.proc p).limitpass) (ht : t ≠ .timer)
      (h : OneAccount k k' p Account.advance) :
      Billing k k' (.trap c t user)
  /-- `forks` opens an account -/
  | grant {a : Action n} {np : Slot} {tickets : ℤ} (hsched : ∀ c, a ≠ .schedule c)
      (htrap : ∀ c t user, a ≠ .trap c t user)
      (hgrant : (∃ f : ForkCall, tickets = f.tickets) ∨
        ∃ p, (k.proc p).pc = .stacked np tickets)
      (h : OneAccount k k' np fun _ => Account.fresh tickets) :
      Billing k k' a

theorem billing_strideScheduler (k : Kernel n) {c : Fin n} (hidle : (k.cpu c).proc = none) :
    Billing k (strideScheduler k c) (.schedule c) := by
  refine .dispatch hidle ?_
  unfold strideScheduler
  dsimp only
  have hone : OneAccount k ((k.modify (minProc k) Proc.charge).setProc c (some (minProc k)))
      (minProc k) Account.charge :=
    fun q => OneAccount.modify (Proc.charge_account _) q
  split
  · exact hone
  · exact hone.trans_same (SameAccounts.resume _ c _)

theorem billing_trap {k : Kernel n} {c : Fin n} {p : Slot} {t : Trap} {user : Bool}
    (hp : (k.cpu c).proc = some p) (hrun : (k.proc p).state = .running) :
    Billing k (trap k c p t user) (.trap c t user) := by
  have htick := SameAccounts.tick k c t
  have hstate := tick_running (c := c) (t := t) hrun
  have hkilled : ((tick k c t).proc p).killed = (k.proc p).killed := by
    unfold tick
    split
    · rw [wakeup1_proc, Proc.wake_killed]
    · rfl
  have hpass : ((tick k c t).proc p).pass = (k.proc p).pass := congrArg Account.pass (htick p)
  have hlimit : ((tick k c t).proc p).limitpass = (k.proc p).limitpass :=
    congrArg Account.limitpass (htick p)
  have hother : ∀ k' : Kernel n, SameAccounts k k' → ¬ Accountable (k.proc p) t user →
      Billing k k' (.trap c t user) := by
    intro k' h hacc
    refine .same (fun d => by simp) ?_ h
    rintro d q t' user' ⟨rfl, rfl, rfl⟩ hq
    obtain rfl := Option.some.inj (hp.symm.trans hq)
    exact hacc
  have hone : ∀ {f : Account → Account} {g : Proc → Proc},
      (∀ P, (g P).account = f P.account) → OneAccount k ((tick k c t).modify p g) p f := by
    intro f g hfg q
    rw [Kernel.modify_proc]
    split
    · rw [hfg, htick p]
    · exact htick q
  unfold trap
  dsimp only
  by_cases hfault : t = .fault
  · -- an exception stops the kernel or kills the process
    have hacc : ¬ Accountable (k.proc p) t user := fun h => h.1 hfault
    cases user with
    | false =>
      rw [if_pos ⟨hfault, rfl⟩]
      exact hother _ htick hacc
    | true =>
      rw [if_neg (by simp), if_pos hfault, if_pos (by simp)]
      exact hother _ (htick.trans ((SameAccounts.modify rfl).trans (.callExit _ p))) hacc
  · rw [if_neg (fun h => hfault h.1), if_neg hfault, hkilled]
    by_cases hkill : ((k.proc p).killed && user) = true
    · rw [if_pos hkill]
      rw [Bool.and_eq_true] at hkill
      exact hother _ (htick.trans (.callExit _ p)) fun h => h.2 hkill
    · rw [if_neg hkill, hstate, hpass, hlimit]
      rw [Bool.and_eq_true] at hkill
      have hacc : Accountable (k.proc p) t user := ⟨hfault, hkill⟩
      by_cases hend : (k.proc p).pass ≥ (k.proc p).limitpass ∨ t = .timer
      · rw [if_pos ⟨rfl, hend⟩]
        exact .turn hp hacc hend ((hone fun _ => rfl).trans_same (.yield _ c p user))
      · rw [not_or, ge_iff_le, not_le] at hend
        rw [if_neg (by simp [hend.1, hend.2]), if_pos ⟨rfl, hend.1⟩]
        exact .stride hp hacc hend.1 hend.2 (hone fun _ => rfl)

theorem billing_forks (tickets : ℤ) (k : Kernel n) (p : Slot) :
    SameAccounts k (forks false tickets k p) ∨
      ∃ np, OneAccount k (forks false tickets k p) np fun _ => Account.fresh tickets := by
  rcases forks_cases false tickets k p with heq | ⟨np, -, heq⟩
  · rw [heq]
    exact Or.inl (.refl k)
  · rw [heq]
    refine Or.inr ⟨np, ?_⟩
    have hone : OneAccount k (k.modify np (Proc.alloc false k.nextpid k.created tickets)) np
        fun _ => Account.fresh tickets := OneAccount.modify rfl
    exact hone.trans_same fun q =>
      SameAccounts.modify (f := fun P => { P with pc := .allocated np tickets }) rfl q

/-- **What a step of the stride kernel does to the accounts.** -/
theorem StepTo.billing {k k' : Kernel n} {a : Action n} (h : StepTo false k a k')
    (hP : Placed k) : Billing k k' a := by
  have hsame : ∀ {a : Action n} {k' : Kernel n}, (∀ c, a ≠ .schedule c) →
      (∀ c t user, a ≠ .trap c t user) → SameAccounts k k' → Billing k k' a :=
    fun hs ht h => .same hs (fun c _ t user he => absurd he (ht c t user)) h
  cases h with
  | schedule hidle => exact billing_strideScheduler k hidle
  | @trapIdle c t hidle =>
    refine .same (fun _ => by simp) ?_ ?_
    · rintro d q t' user' ⟨rfl, rfl, rfl⟩ hq
      rw [hidle] at hq
      cases hq
    · unfold StrideXv6.trapIdle
      split
      · exact fun _ => rfl
      · exact .tick k c t
  | trap hp huser => exact billing_trap hp (hP.running _ _ hp)
  | wakeup => exact hsame (by simp) (by simp) (.wakeup1 k _)
  | kill hp hpc => exact hsame (by simp) (by simp) (.kill k _)
  | @fork c p f hp hpc =>
    rcases billing_forks f.tickets k p with h | ⟨np, h⟩
    · exact hsame (by simp) (by simp) h
    · exact .grant (by simp) (by simp) (Or.inl ⟨f, rfl⟩) h
  | forkStack hp hpc => exact hsame (by simp) (by simp) (.forkStack k _ _ _ _)
  | @forkCopy c p np tickets ok hp hpc =>
    cases ok with
    | true =>
      refine .grant (by simp) (by simp) (Or.inr ⟨p, hpc⟩) ?_
      have hone : OneAccount k (k.modify np (Proc.copy p tickets)) np
          fun _ => Account.fresh tickets := OneAccount.modify rfl
      exact hone.trans_same (SameAccounts.modify (f := fun P => { P with pc := .copied np }) rfl)
    | false =>
      exact hsame (by simp) (by simp) (.forkStack k p np tickets false)
  | forkReady hp hpc => exact hsame (by simp) (by simp) (.forkReady k _ _)
  | wait hp hpc => exact hsame (by simp) (by simp) (.waitLoop k _ _)
  | sleep hp hch hpc => exact hsame (by simp) (by simp) (.sleep k _ _ _ _)
  | callExit hp hpc => exact hsame (by simp) (by simp) (.callExit k _)
  | exit hp hpc => exact hsame (by simp) (by simp) (.exit k _ _)

/-! ## Tickets -/

/-- The numbers of tickets `forks` is called with. -/
def Granted (tickets : ℤ) : Prop := ∃ f : ForkCall, tickets = f.tickets

theorem Granted.bounds {t : ℤ} (h : Granted t) : 100 ≤ t ∧ t ≤ 990 := by
  obtain ⟨f, rfl⟩ := h
  cases f <;> decide

/-- Every process that can be switched to has tickets. -/
structure Funded (k : Kernel n) : Prop where
  /-- the live processes have tickets -/
  live : ∀ p, (k.proc p).state.Live → Granted (k.proc p).tickets
  /-- a pending `forks` will grant some -/
  asked : ∀ p np t, (k.proc p).pc = .allocated np t ∨ (k.proc p).pc = .stacked np t → Granted t
  /-- or has done so -/
  copied : ∀ p np, (k.proc p).pc = .copied np → Granted (k.proc np).tickets

theorem Funded.init (n : ℕ) : Funded (boot false n) := by
  have hpc : ∀ p, ((boot false n).proc p).pc = .run := by
    intro p
    rw [boot_proc]
    split <;> rfl
  refine ⟨?_, ?_, ?_⟩
  · intro p hp
    by_cases h : p = 0
    · subst h
      exact ⟨.forkLow, by rw [boot_proc]; rfl⟩
    · rw [boot_ne h] at hp
      exact absurd hp (by decide)
  · intro p np t h
    rw [hpc] at h
    rcases h with h | h <;> cases h
  · intro p np h
    rw [hpc] at h
    cases h

/-- The tickets of the processes concerned are what they were. -/
theorem Funded.congr {k k' : Kernel n} (hF : Funded k)
    (hlive : ∀ p, (k'.proc p).state.Live → (k.proc p).state.Live)
    (hpc : ∀ p, (k'.proc p).pc = (k.proc p).pc ∨ (k'.proc p).pc.child = none)
    (htickets : ∀ p, (k'.proc p).tickets = (k.proc p).tickets) : Funded k' := by
  refine ⟨?_, ?_, ?_⟩
  · intro p hp
    rw [htickets]
    exact hF.live p (hlive p hp)
  · intro p np t h
    rcases hpc p with heq | hnone
    · exact hF.asked p np t (heq ▸ h)
    · rcases h with h | h <;> (rw [h] at hnone; cases hnone)
  · intro p np h
    rw [htickets]
    rcases hpc p with heq | hnone
    · exact hF.copied p np (heq ▸ h)
    · rw [h] at hnone
      cases hnone

theorem Funded.move {k k' : Kernel n} (hF : Funded k) (hI : Inv k) (hm : Move k k') :
    Funded k' := by
  have hlive := hF.live
  have hasked := hF.asked
  have hcopied := hF.copied
  have hembryo := hI.family.embryo
  cases hm with
  | quiet hproc hexit hcpu hsteady hfault hhist =>
    exact hF.congr (fun p => (hproc p).live_iff.mp) (fun p => (hproc p).pc)
      fun p => (hproc p).tickets
  | dispatch hidle hfault hlive hshared hp hother hcpu hsteady hhist =>
    refine hF.congr ?_ ?_ ?_ <;> grind [Alike]
  | leave hp hfault hst hwait =>
    have hrun := hI.placed.running _ _ hp
    refine hF.congr ?_ ?_ ?_ <;> grind
  | adopt hpc =>
    refine hF.congr ?_ ?_ ?_
    · intro p h
      have := (passChildren_quiet k _ p).live_iff.mp h
      rwa [Proc.adopt_state] at this
    · intro p
      exact Or.inl (passChildren_pc k _ p)
    · intro p
      rw [← Proc.account_tickets, SameAccounts.passChildren k _ p, Proc.account_tickets]
  | exit hp hfault hpc hkids hparent => refine hF.congr ?_ ?_ ?_ <;> grind
  | alloc hp hpc hnp hgrant =>
    have hrun := hI.placed.running _ _ hp
    constructor
    · grind [Proc.alloc]
    · grind [Proc.alloc, Granted]
    · grind [Proc.alloc]
  | giveBack hpc => refine hF.congr ?_ ?_ ?_ <;> grind
  | @stack t p np hpc =>
    have ht := hasked p np t (Or.inl hpc)
    constructor <;> grind [forkStack]
  | @copy t c p np hp hpc =>
    have ht := hasked p np t (Or.inr hpc)
    constructor <;> grind [forkCopy, Proc.copy]
  | @ready p np hpc =>
    have hnp := hcopied p np hpc
    constructor <;> grind [forkReady]
  | reap hparent hzombie => refine hF.congr ?_ ?_ ?_ <;> grind [Proc.reap]

/-- The invariant of the stride kernel. -/
structure StrideInv (k : Kernel n) : Prop extends Inv k where
  funded : Funded k

theorem StrideInv.init (n : ℕ) : StrideInv (boot false n) :=
  ⟨Inv.init false n, Funded.init n⟩

theorem StrideInv.next {k k' : Kernel n} {a : Action n} (hI : StrideInv k)
    (h : step false k a = some k') : StrideInv k' := by
  obtain ⟨hinv, hfund⟩ := hI.toInv.step_induction (fun _ _ hi hf hm => hf.move hi hm) hI.funded h
  exact ⟨hinv, hfund⟩

/-- The selection loop looks at the live processes. -/
theorem StrideInv.dispatchable_iff {k : Kernel n} (hI : StrideInv k) (p : Slot) :
    dispatchable k p = true ↔ (k.proc p).state.Live := by
  rw [dispatchable, decide_eq_true_iff]
  refine ⟨fun h => h.1, fun h => ⟨h, ?_⟩⟩
  have := (hI.funded.live p h).bounds
  omega

end StrideXv6
