import StrideXv6.Fairness
import Mathlib.Algebra.Ring.Int.Defs
import Mathlib.Algebra.Ring.Divisibility.Basic

/-!
# Overflow of the limit

`limitpass` grows by `pass + stride` at every end of a turn, so it grows with the
square of the number of turns, while the scheduler's check for a `pass` beyond
the largest `int` looks at `pass` alone. Until a sum does not fit, `pass` and
`limitpass` are multiples of the stride and `0 ≤ pass ≤ limitpass`; the first
sum that does not fit leaves `limitpass` below `pass`. So the accounts stay in
order exactly as long as every sum fits, and a process that computes alone
reaches the end of that in 11407 turns.
-/

namespace StrideXv6

open Machine Word32

variable {n : ℕ}

/-- The accounts of the live processes are in order. -/
def Bounded (k : Kernel n) : Prop :=
  ∀ p, (k.proc p).state.Live → 0 ≤ (k.proc p).pass ∧ (k.proc p).pass ≤ (k.proc p).limitpass

/-! ## As long as the sums fit -/

/-- An account in which every sum so far was an `int`. -/
structure Account.Sound (A : Account) : Prop where
  stride_nonneg : 0 ≤ A.stride
  stride_le : A.stride ≤ 100
  pass_nonneg : 0 ≤ A.pass
  pass_le : A.pass ≤ A.limitpass
  limitpass_le : A.limitpass ≤ intMax
  dvd_pass : A.stride ∣ A.pass
  dvd_limitpass : A.stride ∣ A.limitpass

/-- Multiples of `d` are `d` apart. -/
theorem add_le_of_dvd_of_lt {d a b : ℤ} (ha : d ∣ a) (hb : d ∣ b) (h : a < b) : a + d ≤ b := by
  have := Int.le_of_dvd (sub_pos.mpr h) (dvd_sub hb ha)
  linarith

namespace Account.Sound

variable {A : Account}

theorem fresh {t : ℤ} (h : Granted t) : (Account.fresh t).Sound := by
  obtain ⟨f, rfl⟩ := h
  cases f <;> refine ⟨?_, ?_, ?_, ?_, ?_, ?_, ?_⟩ <;> decide

theorem advance_eq (h : A.Sound) (hlt : A.pass < A.limitpass) :
    A.advance = { A with pass := A.pass + A.stride } := by
  have hle := add_le_of_dvd_of_lt h.dvd_pass h.dvd_limitpass hlt
  have := h.pass_nonneg
  have := h.stride_nonneg
  have := h.limitpass_le
  rw [Account.advance, wrap_of_nonneg (by linarith) (by linarith)]

theorem advance (h : A.Sound) (hlt : A.pass < A.limitpass) : A.advance.Sound := by
  have hle := add_le_of_dvd_of_lt h.dvd_pass h.dvd_limitpass hlt
  rw [h.advance_eq hlt]
  exact ⟨h.stride_nonneg, h.stride_le, add_nonneg h.pass_nonneg h.stride_nonneg, hle,
    h.limitpass_le, dvd_add h.dvd_pass dvd_rfl, h.dvd_limitpass⟩

theorem raise (h : A.Sound) (hfits : A.limitpass + (A.pass + A.stride) ≤ intMax) :
    A.raise.Sound := by
  have hpass := h.pass_nonneg
  have hle := h.pass_le
  have hstride := h.stride_nonneg
  rw [Account.raise, wrap_of_nonneg (by linarith) hfits]
  exact ⟨hstride, h.stride_le, hpass, by dsimp only; linarith, hfits, h.dvd_pass,
    dvd_add h.dvd_limitpass (dvd_add h.dvd_pass dvd_rfl)⟩

theorem charge (h : A.Sound)
    (hfits : A.limitpass ≤ A.pass → A.limitpass + (A.pass + A.stride) ≤ intMax) :
    A.charge.Sound := by
  rcases lt_or_ge A.pass A.limitpass with hlt | hge
  · have hadv := h.advance hlt
    rw [Account.charge_of_lt hlt, Account.restart_of_nonneg hadv.pass_nonneg]
    exact hadv
  · have hraise := h.raise (hfits hge)
    rw [Account.charge_of_ge hge, Account.restart_of_nonneg hraise.pass_nonneg]
    exact hraise

/-- A sum that does not fit leaves the limit below `pass`. -/
theorem raise_lt (h : A.Sound) (hover : intMax < A.limitpass + (A.pass + A.stride)) :
    A.raise.limitpass < A.raise.pass := by
  obtain ⟨h0, h100, hpass, hle, hmax, -, -⟩ := h
  rw [Account.raise]
  dsimp only
  rw [wrap_of_gt hover (by unfold intMax at *; omega)]
  unfold intMax at *
  omega

end Account.Sound

/-- All accounts of the table are sound. -/
structure SoundTable (k : Kernel n) : Prop extends StrideInv k where
  sound : ∀ p, (k.proc p).account.Sound

theorem SoundTable.init (n : ℕ) : SoundTable (boot false n) := by
  refine ⟨StrideInv.init n, fun p => ?_⟩
  rcases boot_account (n := n) p with h | h
  · rw [h]
    exact .fresh ⟨.forkLow, rfl⟩
  · rw [h]
    refine ⟨?_, ?_, ?_, ?_, ?_, ?_, ?_⟩ <;> decide

theorem SoundTable.bounded {k : Kernel n} (h : SoundTable k) : Bounded k :=
  fun p _ => ⟨(h.sound p).pass_nonneg, (h.sound p).pass_le⟩

theorem SoundTable.next {k k' : Kernel n} {a : Action n} (h : SoundTable k) (hfits : LimitFits k a)
    (hstep : step false k a = some k') : SoundTable k' := by
  refine ⟨h.toStrideInv.next hstep, h.accounts_induction hstep h.sound (fun _ => .fresh) ?_ ?_ ?_⟩
  · rintro c rfl hA
    obtain ⟨hfault, hidle, -⟩ := schedule_eq_some hstep
    exact hA.charge (hfits hfault hidle _ h.minProc_spec)
  · rintro c p t user rfl hp hacc hend hA
    obtain ⟨hfault, hs⟩ := StepTo.of_step hstep
    have huser : user = true → (k.proc p).pc = .run := by
      cases hs with
      | trapIdle hidle => exact fun h => by cases h
      | trap hq huser =>
        obtain rfl := Option.some.inj (hp.symm.trans hq)
        exact huser
    exact hA.raise (hfits hfault p hp huser hacc hend)
  · exact fun p hlt hA => hA.advance hlt

/-! ## The first sum that does not fit -/

theorem waitLoop_live (k : Kernel n) (c : Fin n) (p q : Slot)
    (hq : (k.proc q).state.Live) : ((waitLoop k c p).proc q).state.Live := by
  rcases waitLoop_cases k c p with ⟨r, -, hz, heq⟩ | ⟨-, heq⟩ | ⟨-, heq⟩
  · rw [heq]
    by_cases hqr : q = r
    · subst hqr
      rw [hz] at hq
      simp at hq
    · rw [Kernel.note_proc, Kernel.modify_proc_ne _ _ _ hqr]
      exact hq
  · rw [heq]
    exact hq
  · rw [heq]
    unfold sleep
    rw [sched_of_ne (by simp), Kernel.setProc_proc, Kernel.modify_proc]
    split
    · simp
    · exact hq

theorem callExit_live {k : Kernel n} (p q : Slot) (hq : (k.proc q).state.Live) :
    ((callExit k p).proc q).state.Live := by
  unfold callExit
  split
  · exact hq
  · rw [Kernel.modify_proc]
    split
    · next h => exact h ▸ hq
    · exact hq

theorem resume_live (k : Kernel n) (c : Fin n) {p : Slot} (hp : (k.proc p).state.Live) :
    ((resume k c p).proc p).state.Live := by
  have hclear : ((k.modify p fun P => { P with chan := none }).proc p).state.Live := by
    rw [Kernel.modify_proc_self]
    exact hp
  unfold resume
  split
  · exact hp
  · split
    · exact callExit_live p p hp
    · exact hp
  · exact hclear
  · exact waitLoop_live _ c p p hclear
  · exact hp
  · exact hp

theorem strideScheduler_live (k : Kernel n) (c : Fin n) :
    ((strideScheduler k c).proc (minProc k)).state.Live := by
  unfold strideScheduler
  dsimp only
  have hrun : ((((k.modify (minProc k) Proc.charge).setProc c (some (minProc k))).note
      (.dispatch (minProc k) (k.proc (minProc k)).state)).proc (minProc k)).state.Live := by
    rw [Kernel.note_proc, Kernel.setProc_proc, Kernel.modify_proc_self, Proc.charge_state]
    simp
  split
  · exact hrun
  · exact resume_live _ c hrun

theorem trap_live {k : Kernel n} {c : Fin n} {p : Slot} {t : Trap} {user : Bool}
    (hrun : (k.proc p).state = .running) : ((trap k c p t user).proc p).state.Live := by
  have hlive : ((tick k c t).proc p).state.Live := by
    rw [tick_running hrun]
    simp
  unfold trap
  dsimp only
  generalize tick k c t = k₁ at hlive ⊢
  split
  · exact hlive
  have hmark : ((if t = .fault then k₁.modify p fun P => { P with killed := true }
      else k₁).proc p).state.Live := by
    split
    · rw [Kernel.modify_proc_self]
      exact hlive
    · exact hlive
  generalize (if t = .fault then k₁.modify p fun P => { P with killed := true } else k₁) = k₂
    at hmark ⊢
  split
  · exact callExit_live p p hmark
  split
  · unfold yield
    rw [sched_of_ne (by simp), Kernel.setProc_proc, Kernel.modify_proc_self]
    simp
  split
  · rw [Kernel.modify_proc_self]
    exact hmark
  · exact hmark

/-- If the accounts are in order after the step, every sum fitted. -/
theorem SoundTable.limitFits {k : Kernel n} {a : Action n} (h : SoundTable k)
    (hnext : ∀ k', step false k a = some k' → Bounded k') : LimitFits k a := by
  have hfits : ∀ {k' : Kernel n} {p : Slot}, step false k a = some k' →
      (k'.proc p).state.Live → (k'.proc p).account = (k.proc p).account.raise →
      (k.proc p).limitpass + ((k.proc p).pass + (k.proc p).stride) ≤ intMax := by
    intro k' p hstep hlive haccount
    by_contra hover
    have hlt := (h.sound p).raise_lt (not_le.mp hover)
    rw [← haccount] at hlt
    exact absurd (hnext k' hstep p hlive).2 (not_le.mpr hlt)
  cases a with
  | schedule c =>
    intro hfault hidle p hmin hge
    obtain rfl := h.minProc_spec.unique hmin
    refine hfits (schedule_enabled hfault hidle) (strideScheduler_live k c) ?_
    cases billing_strideScheduler k hidle with
    | same hsched => exact absurd rfl (hsched c)
    | grant hsched => exact absurd rfl (hsched c)
    | dispatch _ hone =>
      have hpass : 0 ≤ (k.proc (minProc k)).account.raise.pass := (h.sound _).pass_nonneg
      rw [hone, if_pos rfl, Account.charge_of_ge hge, Account.restart_of_nonneg hpass]
  | trap c t user =>
    intro hfault p hp huser hacc hend
    have hrun := h.placed.running c p hp
    refine hfits (trap_enabled hfault hp huser) (trap_live hrun) ?_
    have hbill : Billing k (trap k c p t user) (.trap c t user) := billing_trap hp hrun
    cases hbill with
    | same _ htrap => exact absurd hacc (htrap c p t user rfl hp)
    | grant _ htrap => exact absurd rfl (htrap c t user)
    | turn hq _ _ hone =>
      obtain rfl := Option.some.inj (hp.symm.trans hq)
      rw [hone, if_pos rfl]
    | stride hq _ hlt ht =>
      obtain rfl := Option.some.inj (hp.symm.trans hq)
      rcases hend with hge | ht'
      · exact absurd hlt (not_lt.mpr hge)
      · exact absurd ht' ht
  | _ => trivial

theorem SoundTable.limitFits_of_bounded {as : List (Action n)} :
    ∀ {k : Kernel n}, SoundTable k → AllStates (step false) Bounded k as →
      AllSteps (step false) LimitFits k as := by
  induction as with
  | nil => intro k _ _; trivial
  | cons a as ih =>
    intro k h hB
    have hfits : LimitFits k a := h.limitFits fun k' hstep => (hB.2 k' hstep).head
    exact ⟨hfits, fun k' hstep => ih (h.next hfits hstep) (hB.2 k' hstep)⟩

/-- **When the accounts stay in order.** Over any run from boot, every live
process has `0 ≤ pass ≤ limitpass` in every state if and only if every sum a
step adds up for a `limitpass` is an `int`. -/
theorem bounded_iff_limitFits (as : List (Action n)) :
    AllStates (step false) Bounded (boot false n) as ↔
      AllSteps (step false) LimitFits (boot false n) as := by
  refine ⟨(SoundTable.init n).limitFits_of_bounded, fun h => ?_⟩
  have hsound := allStates_of_allSteps (fun _ _ _ hS hf hs => SoundTable.next hS hf hs)
    (SoundTable.init n) h
  exact hsound.mono fun k hS => hS.bounded

/-! ## A process alone -/

/-- Only init is alive; it has the account `A` and waits for its turn. -/
structure Alone (k : Kernel 1) (A : Account) : Prop extends CpuBound k where
  idle : (k.cpu 0).proc = none
  only : ∀ p, (k.proc p).state.Live → p = 0
  account : (k.proc 0).account = A

theorem Alone.boot : Alone (boot false 1) (Account.fresh 300) := by
  have hlive : ∀ p, ((StrideXv6.boot false 1).proc p).state.Live → p = 0 := by
    intro p hp
    by_contra h
    rw [boot_ne h] at hp
    simp at hp
  have hidle : ((StrideXv6.boot false 1).cpu 0).proc = none := rfl
  have hready : ((StrideXv6.boot false 1).proc 0).Ready := by
    rw [boot_proc]
    exact ⟨rfl, Or.inl rfl⟩
  refine ⟨⟨rfl, by rw [hready.state]; simp, ?_, ?_, ?_, ?_, ?_⟩, hidle, hlive, ?_⟩
  · intro p hp
    rw [hlive p hp, boot_proc]
    rfl
  · intro p hp
    rw [hlive p hp, boot_proc]
    rfl
  · intro p hp
    rw [hlive p hp, boot_proc]
    decide
  · intro p hp
    rw [hidle] at hp
    cases hp
  · intro p hp _
    rw [hlive p hp]
    exact hready
  · rw [boot_proc]
    rfl

local instance oneCpu : NeZero 1 := ⟨Nat.one_ne_zero⟩

/-- One turn: a switch, and the timer. -/
def oneTurn : List (Action 1) := [.schedule 0, .trap 0 .timer true]

/-- So many turns. -/
def turns : ℕ → List (Action 1)
  | 0 => []
  | N + 1 => turns N ++ oneTurn

theorem Alone.turn {k : Kernel 1} {A : Account} (h : Alone k A) :
    ∃ k', exec (step false) k oneTurn = some k' ∧ Alone k' A.charge.raise := by
  have hmin : minProc k = 0 := h.only _ (minProc_live h.zero)
  obtain ⟨hB₁, hlive₁, hcpu₁, haccount₁, -⟩ := h.schedule h.idle
  have hstep₁ := schedule_enabled h.fault h.idle
  generalize strideScheduler k 0 = k₁ at hB₁ hlive₁ hcpu₁ haccount₁ hstep₁
  rw [hmin] at hcpu₁ haccount₁
  obtain ⟨hB₂, hlive₂, hcpu₂, haccount₂, -⟩ := @CpuBound.timer k₁ hB₁ 0 true hcpu₁
  have hstep₂ : step false k₁ (.trap 0 .timer true) = some (trap k₁ 0 0 .timer true) :=
    trap_enabled hB₁.fault hcpu₁ fun _ => hB₁.pc 0 hB₁.zero
  generalize trap k₁ 0 0 .timer true = k₂ at hB₂ hlive₂ hcpu₂ haccount₂ hstep₂
  refine ⟨k₂, ?_, hB₂, hcpu₂, fun p hp => h.only p ((hlive₁ p).mp ((hlive₂ p).mp hp)), ?_⟩
  · rw [oneTurn, exec_cons, hstep₁, Option.bind_some, exec_cons, hstep₂, Option.bind_some, exec_nil]
  · rw [haccount₂, if_pos rfl, haccount₁, if_pos rfl, h.account]

/-- One more turn, as long as the sum at its end is an `int`. -/
theorem Account.After.full_turn {A : Account} {N : ℕ} (h : A.After N False)
    (hfits : A.stride * ((N + 2) * (N + 3)) ≤ 2 * intMax) :
    A.charge.raise.After (N + 1) False := by
  have hturn : A.charge.After (N + 1) True := h.charge (fun h => h) trivial
  refine hturn.raise trivial (fun h => h) ?_
  have hlimit := (hturn.turn trivial).2
  have hpass := hturn.pass
  have hsum : 2 * (A.charge.limitpass + (A.charge.pass + A.charge.stride)) =
      A.stride * ((N + 2) * (N + 3)) := by
    rw [mul_add, hlimit, hpass, A.charge_kept.2]
    push_cast
    ring
  linarith

/-- Init after `N` turns alone. -/
theorem alone_turns {N : ℕ} (hN : N ≤ 11406) :
    ∃ k A, exec (step false) (boot false 1) (turns N) = some k ∧ Alone k A ∧ A.After N False ∧
      A.tickets = 300 ∧ A.stride = 33 := by
  induction N with
  | zero =>
    refine ⟨boot false 1, Account.fresh 300, rfl, Alone.boot, ?_, rfl, rfl⟩
    refine ⟨by decide, by decide, by decide, fun _ => by decide, fun h => h.elim⟩
  | succ N ih =>
    obtain ⟨k, A, hk, hA, hafter, htickets, hstride⟩ := ih (by omega)
    obtain ⟨k', hk', hA'⟩ := hA.turn
    refine ⟨k', A.charge.raise, exec_append hk hk', hA', hafter.full_turn ?_, ?_, ?_⟩
    · have hle : (N + 2) * (N + 3) ≤ 11407 * 11408 := Nat.mul_le_mul (by omega) (by omega)
      have hle' : ((N : ℤ) + 2) * (N + 3) ≤ 11407 * 11408 := by exact_mod_cast hle
      rw [hstride]
      unfold intMax
      linarith
    · exact A.charge_kept.1.trans htickets
    · exact A.charge_kept.2.trans hstride

/-- Init computes alone from boot: the end of turn 11407 wraps its limit to a
negative number. -/
theorem limitpass_overflow :
    (∃ k, exec (step false) (boot false 1) (turns 11407) = some k ∧
      (k.proc 0).state = .runnable ∧
      (k.proc 0).account = ⟨300, 33, 376431, -2147428408⟩) ∧
    ¬ AllStates (step false) Bounded (boot false 1) (turns 11407) := by
  obtain ⟨k, A, hk, hA, hafter, htickets, hstride⟩ := alone_turns (N := 11406) le_rfl
  obtain ⟨k', hk', hA'⟩ := hA.turn
  have hrun : exec (step false) (boot false 1) (turns 11407) = some k' := exec_append hk hk'
  have hpass := hafter.pass
  have hlimit := hafter.waiting fun h => h
  rw [hstride] at hpass hlimit
  have hAeq : A = ⟨300, 33, 376398, 2147162424⟩ := by
    ext
    · exact htickets
    · exact hstride
    · rw [hpass]
      rfl
    · dsimp only
      push_cast at hlimit
      omega
  have haccount : (k'.proc 0).account = ⟨300, 33, 376431, -2147428408⟩ := by
    rw [hA'.account, hAeq]
    decide
  have hlive := (hA'.ready 0 hA'.zero (by rw [hA'.idle]; simp)).state
  refine ⟨⟨k', hrun, hlive, haccount⟩, not_allStates hrun fun hB => ?_⟩
  have hle := (hB 0 hA'.zero).2
  rw [← Proc.account_pass, ← Proc.account_limitpass, haccount] at hle
  exact absurd hle (by decide)

end StrideXv6
