import StrideXv6.Lifecycle

/-!
# Marking processes as killed (`kill`)

`kill` looks for the first table entry with the given pid, whatever its state,
and neither `allocproc` nor the failing paths of `forks` reset `killed`. So a mark
can be left on a free entry, and the next process created there is born killed.

`Watch` is the kernel together with a record of the calls of `kill`: the pid, and
how many processes had been created by then. A process that is being created is
marked only by a call with its own pid (`Unmarked.next`), as long as `kill` never
stops at a free entry and no entry is given back with a mark on it.
-/

namespace StrideXv6

open Machine

variable {n : ℕ}

/-- What `kill` returns. -/
def killResult (k : Kernel n) (pid : ℤ) : ℤ :=
  if (killTarget k pid).isSome then 0 else -1

/-- The kernel and the calls of `kill` so far: the pid, and the number of
processes created before the call. -/
structure Watch (n : ℕ) : Type where
  kernel : Kernel n
  kills : List (ℤ × ℕ)

namespace Watch

/-- The record after an action. -/
def record (w : Watch n) : Action n → List (ℤ × ℕ)
  | .kill _ pid => (pid, w.kernel.created) :: w.kills
  | _ => w.kills

/-- The next state; a call of `kill` is recorded. -/
def step (rr : Bool) (w : Watch n) (a : Action n) : Option (Watch n) :=
  (StrideXv6.step rr w.kernel a).map fun k => { kernel := k, kills := w.record a }

/-- The state in which the CPUs start to schedule. -/
def boot (rr : Bool) (n : ℕ) : Watch n where
  kernel := StrideXv6.boot rr n
  kills := []

/-- `kill` was called with the pid of the entry's process after the process got
it. -/
def KilledByPid (w : Watch n) (q : Slot) : Prop :=
  ∃ m, ((w.kernel.proc q).pid, m) ∈ w.kills ∧ (w.kernel.proc q).uid < m

/-- The step makes no process `RUNNABLE` that was not killed by its pid and is
marked; if it is a successful `kill`, it finds a process and leaves the free
entries alone. -/
def MarksOnlyTargets (rr : Bool) (w : Watch n) : Action n → Prop
  | .forkReady c => ∀ w', w.step rr (.forkReady c) = some w' →
      ∀ p np, (w.kernel.cpu c).proc = some p → (w.kernel.proc p).pc = .copied np →
        (w'.kernel.proc np).state = .runnable ∧
          ((w'.kernel.proc np).killed = true → w'.KilledByPid np)
  | .kill c pid => ∀ w', w.step rr (.kill c pid) = some w' → killResult w.kernel pid = 0 →
      (∃ q, (w.kernel.proc q).state ≠ .unused ∧ (w.kernel.proc q).pid = pid) ∧
        ∀ q, (w.kernel.proc q).state = .unused → w'.kernel.proc q = w.kernel.proc q
  | _ => True

/-- The entry that the process on CPU `c` is filling in, if it has not come further
than `copyuvm`. -/
def filling (w : Watch n) (c : Fin n) : Option Slot :=
  (w.kernel.cpu c).proc.bind fun p =>
    match (w.kernel.proc p).pc with
    | .allocated np _ => some np
    | .stacked np _ => some np
    | _ => none

/-- `kill` does not stop at a free entry, and an entry is given back without a
mark. -/
def Tidy (w : Watch n) : Action n → Prop
  | .kill _ pid => ∀ q, killTarget w.kernel pid = some q → (w.kernel.proc q).state ≠ .unused
  | .forkStack c ok => ok = false → ∀ np, w.filling c = some np → (w.kernel.proc np).killed = false
  | .forkCopy c ok => ok = false → ∀ np, w.filling c = some np → (w.kernel.proc np).killed = false
  | _ => True

instance (w : Watch n) : ∀ a, Decidable (w.Tidy a)
  | .kill _ pid => inferInstanceAs (Decidable (∀ q, killTarget w.kernel pid = some q →
      (w.kernel.proc q).state ≠ .unused))
  | .forkStack c ok => inferInstanceAs (Decidable (ok = false → ∀ np, w.filling c = some np →
      (w.kernel.proc np).killed = false))
  | .forkCopy c ok => inferInstanceAs (Decidable (ok = false → ∀ np, w.filling c = some np →
      (w.kernel.proc np).killed = false))
  | .schedule _ => isTrue trivial
  | .trap _ _ _ => isTrue trivial
  | .wakeup _ => isTrue trivial
  | .fork _ _ => isTrue trivial
  | .forkReady _ => isTrue trivial
  | .wait _ => isTrue trivial
  | .sleep _ _ => isTrue trivial
  | .callExit _ => isTrue trivial
  | .exit _ => isTrue trivial

end Watch

/-! ## Entries without a running process -/

/-- The entry is free or being filled in. -/
def Proc.Dormant (P : Proc) : Prop := P.state = .unused ∨ P.state = .embryo

/-- The entries agree on what is known of a dormant one. -/
structure SameMark (P P' : Proc) : Prop where
  state : P'.state = P.state
  killed : P'.killed = P.killed
  pid : P'.pid = P.pid
  uid : P'.uid = P.uid

/-- Every entry that is dormant afterwards was so before, or was reaped. -/
def Rests (k k' : Kernel n) : Prop :=
  ∀ q, (k'.proc q).Dormant →
    SameMark (k.proc q) (k'.proc q) ∨ ((k'.proc q).state = .unused ∧ (k'.proc q).killed = false)

theorem SameMark.refl (P : Proc) : SameMark P P := ⟨rfl, rfl, rfl, rfl⟩

theorem SameMark.trans {P P' P'' : Proc} (h : SameMark P P') (h' : SameMark P' P'') :
    SameMark P P'' :=
  ⟨h'.state.trans h.state, h'.killed.trans h.killed, h'.pid.trans h.pid, h'.uid.trans h.uid⟩

namespace Rests

variable {k k' k'' : Kernel n} {p : Slot} {c : Fin n}

theorem refl (k : Kernel n) : Rests k k := fun _ _ => Or.inl (SameMark.refl _)

theorem trans (h : Rests k k') (h' : Rests k' k'') : Rests k k'' := by
  intro q hq
  rcases h' q hq with hs | hu
  · have hq' : (k'.proc q).Dormant := by
      unfold Proc.Dormant at hq ⊢
      rwa [← hs.state]
    rcases h q hq' with hs' | ⟨hst, hk⟩
    · exact Or.inl (hs'.trans hs)
    · exact Or.inr ⟨hs.state.trans hst, hs.killed.trans hk⟩
  · exact Or.inr hu

/-- Only the table matters. -/
theorem congr (h : Rests k k') (hproc : k''.proc = k'.proc) : Rests k k'' := by
  intro q hq
  rw [hproc] at hq ⊢
  exact h q hq

/-- One entry changes, and is not dormant then or keeps its mark. -/
theorem modify {f : Proc → Proc}
    (hf : (f (k.proc p)).Dormant → SameMark (k.proc p) (f (k.proc p)) ∨
      ((f (k.proc p)).state = .unused ∧ (f (k.proc p)).killed = false)) :
    Rests k (k.modify p f) := by
  intro q hq
  rw [Kernel.modify_proc] at hq ⊢
  by_cases hqp : q = p
  · rw [if_pos hqp] at hq ⊢
    rw [hqp]
    exact hf hq
  · rw [if_neg hqp]
    exact Or.inl (SameMark.refl _)

theorem wakeup1 (ch : Option Chan) : Rests k (wakeup1 k ch) := by
  intro q hq
  left
  rcases (k.proc q).wake_state_cases ch with hs | ⟨-, hs⟩
  · exact ⟨hs, Proc.wake_killed _ ch, Proc.wake_pid _ ch, Proc.wake_uid _ ch⟩
  · rcases hq with h | h <;> rw [wakeup1_proc, hs] at h <;> cases h

theorem sched (h : Rests k k') : Rests k (sched k' c p) := by
  unfold StrideXv6.sched
  split
  · exact h.congr rfl
  · exact h.congr rfl

theorem yield (user : Bool) : Rests k (yield k c p user) := by
  refine sched (modify fun h => ?_)
  rcases h with h | h <;> cases h

theorem sleep (ch : Chan) (ctx : Context) : Rests k (sleep k c p ch ctx) := by
  refine sched (modify fun h => ?_)
  rcases h with h | h <;> cases h

theorem callExit : Rests k (callExit k p) := by
  unfold StrideXv6.callExit
  split
  · exact (refl k).congr rfl
  · exact modify fun _ => Or.inl ⟨rfl, rfl, rfl, rfl⟩

theorem passChildren : Rests k (passChildren k p) := by
  intro q hq
  left
  have hadopt : ((k.proc q).adopt p k.initproc).killed = (k.proc q).killed := by
    unfold Proc.adopt
    split <;> rfl
  rw [passChildren_proc] at hq ⊢
  split at hq
  · rename_i hz
    rw [if_pos hz]
    rcases ((k.proc q).adopt p k.initproc).wake_state_cases (some (.proc k.initproc)) with
      hs | ⟨-, hs⟩
    · exact ⟨by rw [hs, Proc.adopt_state], by rw [Proc.wake_killed, hadopt],
        by rw [Proc.wake_pid, Proc.adopt_pid], by rw [Proc.wake_uid, Proc.adopt_uid]⟩
    · rcases hq with h | h <;> rw [hs] at h <;> cases h
  · rename_i hz
    rw [if_neg hz]
    exact ⟨Proc.adopt_state .., hadopt, Proc.adopt_pid .., Proc.adopt_uid ..⟩

theorem exit : Rests k (exit k c p) := by
  unfold StrideXv6.exit
  dsimp only
  generalize hk₁ : StrideXv6.wakeup1 k ((k.proc p).parent.map Chan.proc) = k₁
  have h₁ : Rests k k₁ := hk₁ ▸ wakeup1 _
  generalize hk₂ : StrideXv6.passChildren k₁ p = k₂
  have h₂ : Rests k k₂ := h₁.trans (hk₂ ▸ passChildren)
  have h₃ : Rests k₂ (k₂.modify p fun P =>
      { P with state := .zombie, context := some .exit }) := by
    refine modify fun h => ?_
    rcases h with h | h <;> cases h
  exact h₂.trans (sched (h₃.congr rfl))

theorem waitLoop : Rests k (waitLoop k c p) := by
  rcases waitLoop_cases k c p with ⟨q, -, -, heq⟩ | ⟨-, heq⟩ | ⟨-, heq⟩ <;> rw [heq]
  · exact (modify (p := q) fun _ => Or.inr ⟨rfl, rfl⟩).congr rfl
  · exact (refl k).congr rfl
  · exact sleep (.proc p) .wait

theorem resume : Rests k (resume k c p) := by
  unfold StrideXv6.resume
  split
  · exact refl k
  · split
    · exact callExit
    · exact refl k
  · exact modify fun _ => Or.inl ⟨rfl, rfl, rfl, rfl⟩
  · exact (modify (p := p) fun _ => Or.inl ⟨rfl, rfl, rfl, rfl⟩).trans waitLoop
  · exact (refl k).congr rfl
  · exact (refl k).congr rfl

theorem tick (t : Trap) : Rests k (tick k c t) := by
  unfold StrideXv6.tick
  split
  · exact wakeup1 _
  · exact refl k

theorem scheduler (rr : Bool) : Rests k (scheduler rr k c) := by
  unfold StrideXv6.scheduler
  split
  · unfold roundRobinScheduler
    split
    · exact (refl k).congr rfl
    · rename_i p _
      have hrun : Rests k (k.modify p fun P => { P with state := .running }) := by
        refine modify fun h => ?_
        rcases h with h | h <;> cases h
      exact (hrun.congr rfl).trans resume
  · unfold strideScheduler
    have hcharge : Rests k (k.modify (minProc k) Proc.charge) := by
      refine modify fun h => ?_
      rcases h with h | h <;> rw [Proc.charge_state] at h <;> cases h
    dsimp only
    split
    · exact hcharge.congr rfl
    · exact (hcharge.congr rfl).trans resume

/-- A trap that finds `p` running. -/
theorem trap {t : Trap} {user : Bool} (hrun : (k.proc p).state = .running) :
    Rests k (trap k c p t user) := by
  have htick : ((StrideXv6.tick k c t).proc p).state = .running := by
    unfold StrideXv6.tick
    split
    · rw [wakeup1_proc, Proc.wake_state, if_neg (by rw [hrun]; simp), hrun]
    · exact hrun
  have h₁ : Rests k (StrideXv6.tick k c t) := tick t
  unfold StrideXv6.trap
  dsimp only
  generalize StrideXv6.tick k c t = k₁ at h₁ htick ⊢
  have hmark : Rests k₁ (if t = .fault then k₁.modify p fun P => { P with killed := true }
      else k₁) := by
    split
    · refine modify fun h => ?_
      rcases h with h | h <;> rw [show (k₁.proc p).state = _ from h] at htick <;> cases htick
    · exact refl _
  generalize (if t = .fault then k₁.modify p fun P => { P with killed := true } else k₁) = k₂
    at hmark ⊢
  split
  · exact h₁.congr rfl
  · refine h₁.trans (hmark.trans ?_)
    split
    · exact callExit
    · split
      · have hraise : Rests k₂ (k₂.modify p fun P =>
            { P with limitpass := Word32.wrap (P.limitpass + (P.pass + P.stride)) }) :=
          modify fun _ => Or.inl ⟨rfl, rfl, rfl, rfl⟩
        exact hraise.trans (yield user)
      · split
        · exact modify fun _ => Or.inl ⟨rfl, rfl, rfl, rfl⟩
        · exact refl _

end Rests

/-! ## The invariant -/

namespace Watch

variable {rr : Bool} {w w' : Watch n}

/-- Free entries are not marked, and an entry that is being filled in is marked
only by a call with its own pid. -/
structure Unmarked (w : Watch n) : Prop where
  unused : ∀ q, (w.kernel.proc q).state = .unused → (w.kernel.proc q).killed = false
  embryo : ∀ q, (w.kernel.proc q).state = .embryo → (w.kernel.proc q).killed = true →
    w.KilledByPid q

theorem Unmarked.boot (rr : Bool) (n : ℕ) : (boot rr n).Unmarked := by
  refine ⟨fun q _ => ?_, fun q hq => ?_⟩
  · change ((StrideXv6.boot rr n).proc q).killed = false
    rw [boot_proc]
    split
    · cases rr <;> rfl
    · rfl
  · change ((StrideXv6.boot rr n).proc q).state = .embryo at hq
    rw [boot_proc] at hq
    split at hq <;> cases hq

/-- The dormant entries are as before, and the record is the same or longer. -/
theorem Unmarked.rests (h : w.Unmarked) (hrests : Rests w.kernel w'.kernel)
    (hkills : w.kills ⊆ w'.kills) : w'.Unmarked := by
  refine ⟨fun q hq => ?_, fun q hq hk => ?_⟩
  · rcases hrests q (Or.inl hq) with hs | ⟨-, hk⟩
    · rw [hs.killed]
      exact h.unused q (hs.state ▸ hq)
    · exact hk
  · rcases hrests q (Or.inr hq) with hs | ⟨hu, -⟩
    · obtain ⟨m, hm, hlt⟩ := h.embryo q (hs.state ▸ hq) (hs.killed ▸ hk)
      refine ⟨m, hkills ?_, ?_⟩
      · rwa [hs.pid]
      · rwa [hs.uid]
    · rw [hu] at hq
      cases hq

/-- A new entry is taken. It was not marked. -/
theorem Unmarked.forks {tickets : ℤ} {p : Slot} (h : w.Unmarked)
    (hrun : (w.kernel.proc p).state = .running)
    (hk : w'.kernel = forks rr tickets w.kernel p) (hkills : w.kills ⊆ w'.kills) :
    w'.Unmarked := by
  rcases forks_cases rr tickets w.kernel p with heq | ⟨np, hnp, heq⟩ <;> rw [heq] at hk
  · exact h.rests ((Rests.refl _).congr (by rw [hk])) hkills
  · have hne : p ≠ np := by
      rintro rfl
      rw [hrun] at hnp
      cases hnp
    have hproc : ∀ q, w'.kernel.proc q =
        if q = p then { w.kernel.proc p with pc := .allocated np tickets }
        else if q = np then Proc.alloc rr w.kernel.nextpid w.kernel.created tickets (w.kernel.proc np)
        else w.kernel.proc q := by
      intro q
      rw [hk]
      simp only [Kernel.modify_proc, if_neg hne]
    have halloc : (Proc.alloc rr w.kernel.nextpid w.kernel.created tickets
        (w.kernel.proc np)).state = .embryo ∧ (Proc.alloc rr w.kernel.nextpid w.kernel.created
          tickets (w.kernel.proc np)).killed = false := by
      rw [← h.unused np hnp]
      unfold Proc.alloc
      split <;> exact ⟨rfl, rfl⟩
    have hother : ∀ q, (w'.kernel.proc q).Dormant → q ≠ np →
        SameMark (w.kernel.proc q) (w'.kernel.proc q) := by
      intro q hq hqn
      rw [hproc] at hq ⊢
      by_cases hqp : q = p
      · rw [if_pos hqp] at hq
        rcases hq with hq | hq <;> rw [show (w.kernel.proc p).state = _ from hq] at hrun <;>
          cases hrun
      · rw [if_neg hqp, if_neg hqn]
        exact SameMark.refl _
    refine ⟨fun q hq => ?_, fun q hq hkilled => ?_⟩ <;> by_cases hqn : q = np
    · rw [hqn, hproc, if_neg (Ne.symm hne), if_pos rfl]
      exact halloc.2
    · have hs := hother q (Or.inl hq) hqn
      rw [hs.killed]
      exact h.unused q (hs.state ▸ hq)
    · rw [hqn, hproc, if_neg (Ne.symm hne), if_pos rfl, halloc.2] at hkilled
      cases hkilled
    · have hs := hother q (Or.inr hq) hqn
      obtain ⟨m, hm, hlt⟩ := h.embryo q (hs.state ▸ hq) (hs.killed ▸ hkilled)
      exact ⟨m, by rw [hs.pid]; exact hkills hm, by rw [hs.uid]; exact hlt⟩

/-- An entry without a mark is given back. -/
theorem rests_giveBack {k : Kernel n} {p np : Slot} (hk : (k.proc np).killed = false) :
    Rests k ((k.modify np fun P => { P with state := .unused }).modify p fun P =>
      { P with pc := .run }) := by
  have hback : Rests k (k.modify np fun P => { P with state := .unused }) :=
    Rests.modify fun _ => Or.inr ⟨rfl, hk⟩
  exact hback.trans (Rests.modify fun _ => Or.inl ⟨rfl, rfl, rfl, rfl⟩)

theorem rests_forkStack {k : Kernel n} {p np : Slot} {tickets : ℤ} {ok : Bool}
    (hok : ok = false → (k.proc np).killed = false) : Rests k (forkStack k p np tickets ok) := by
  unfold forkStack
  split
  · have hstack : Rests k (k.modify np fun P => { P with context := some .forkret }) :=
      Rests.modify fun _ => Or.inl ⟨rfl, rfl, rfl, rfl⟩
    exact hstack.trans (Rests.modify fun _ => Or.inl ⟨rfl, rfl, rfl, rfl⟩)
  · next h => exact rests_giveBack (hok (Bool.eq_false_iff.mpr h))

theorem rests_forkCopy {k : Kernel n} {p np : Slot} {tickets : ℤ} {ok : Bool}
    (hok : ok = false → (k.proc np).killed = false) : Rests k (forkCopy k p np tickets ok) := by
  unfold forkCopy
  split
  · have hcopy : Rests k (k.modify np (Proc.copy p tickets)) :=
      Rests.modify fun _ => Or.inl ⟨rfl, rfl, rfl, rfl⟩
    exact hcopy.trans (Rests.modify fun _ => Or.inl ⟨rfl, rfl, rfl, rfl⟩)
  · next h => exact rests_giveBack (hok (Bool.eq_false_iff.mpr h))

theorem rests_forkReady {k : Kernel n} {p np : Slot} : Rests k (forkReady k p np) := by
  have hready : Rests k (k.modify np fun P => { P with state := .runnable }) := by
    refine Rests.modify fun h => ?_
    rcases h with h | h <;> cases h
  exact hready.trans (Rests.modify fun _ => Or.inl ⟨rfl, rfl, rfl, rfl⟩)

theorem killTarget_pid {k : Kernel n} {pid : ℤ} {q : Slot} (h : killTarget k pid = some q) :
    (k.proc q).pid = pid := by
  have hfound := List.find?_some h
  exact of_decide_eq_true hfound

/-- What `kill` does to the table. -/
theorem kill_proc (k : Kernel n) (pid : ℤ) (q : Slot) :
    (kill k pid).proc q = if killTarget k pid = some q then
      { k.proc q with killed := true
                      state := if (k.proc q).state = .sleeping then .runnable
                        else (k.proc q).state } else k.proc q := by
  unfold kill
  rcases hp : killTarget k pid with _ | p
  · rfl
  · simp only [Option.some.injEq]
    rw [Kernel.modify_proc]
    by_cases hq : q = p
    · rw [if_pos hq, if_pos hq.symm, hq]
    · rw [if_neg hq, if_neg (Ne.symm hq)]

theorem Unmarked.kill {pid : ℤ} (h : w.Unmarked) (hI : Inv w.kernel)
    (htidy : ∀ q, killTarget w.kernel pid = some q → (w.kernel.proc q).state ≠ .unused)
    (hk : w'.kernel = StrideXv6.kill w.kernel pid)
    (hkills : w'.kills = (pid, w.kernel.created) :: w.kills) : w'.Unmarked := by
  have hstate : ∀ q st, st ≠ .sleeping → st ≠ .runnable → (w'.kernel.proc q).state = st →
      (w.kernel.proc q).state = st := by
    intro q st hs hr hq
    rw [hk, kill_proc] at hq
    split at hq
    · dsimp only at hq
      split at hq
      · exact absurd hq.symm hr
      · exact hq
    · exact hq
  have hsame : ∀ q, (w'.kernel.proc q).pid = (w.kernel.proc q).pid ∧
      (w'.kernel.proc q).uid = (w.kernel.proc q).uid := by
    intro q
    rw [hk, kill_proc]
    split <;> exact ⟨rfl, rfl⟩
  refine ⟨fun q hq => ?_, fun q hq hkilled => ?_⟩
  · have hq' := hstate q _ (by decide) (by decide) hq
    rw [hk, kill_proc, if_neg fun ht => htidy q ht hq']
    exact h.unused q hq'
  · have hq' := hstate q _ (by decide) (by decide) hq
    unfold KilledByPid
    rw [(hsame q).1, (hsame q).2, hkills]
    by_cases ht : killTarget w.kernel pid = some q
    · -- the call has the entry's pid, and comes after the entry was numbered
      refine ⟨w.kernel.created, ?_, hI.numbered.lt q (by rw [hq']; decide)⟩
      rw [killTarget_pid ht]
      exact List.mem_cons_self
    · rw [hk, kill_proc, if_neg ht] at hkilled
      obtain ⟨m, hm, hlt⟩ := h.embryo q hq' hkilled
      exact ⟨m, List.mem_cons_of_mem _ hm, hlt⟩

theorem step_eq_some {a : Action n} (h : w.step rr a = some w') :
    StrideXv6.step rr w.kernel a = some w'.kernel ∧ w'.kills = w.record a := by
  obtain ⟨k, hk, rfl⟩ := Option.map_eq_some_iff.mp h
  exact ⟨hk, rfl⟩

theorem filling_eq {c : Fin n} {p np : Slot} {tickets : ℤ} (hp : (w.kernel.cpu c).proc = some p)
    (hpc : (w.kernel.proc p).pc = .allocated np tickets ∨
      (w.kernel.proc p).pc = .stacked np tickets) : w.filling c = some np := by
  unfold filling
  rw [hp, Option.bind_some]
  rcases hpc with h | h <;> rw [h]

/-- One step. -/
theorem Unmarked.next {a : Action n} (h : w.Unmarked) (hI : Inv w.kernel) (htidy : w.Tidy a)
    (hs : w.step rr a = some w') : w'.Unmarked := by
  obtain ⟨hk, hkills⟩ := step_eq_some hs
  obtain ⟨-, hto⟩ := StepTo.of_step hk
  have hrests : Rests w.kernel w'.kernel → w.kills ⊆ w'.kills → w'.Unmarked :=
    fun hr hsub => h.rests hr hsub
  generalize hk' : w'.kernel = k' at hto hrests
  cases hto with
  | schedule hidle => exact hrests (Rests.scheduler rr) (hkills ▸ List.Subset.refl _)
  | @trapIdle c t hidle =>
    refine hrests ?_ (hkills ▸ List.Subset.refl _)
    unfold trapIdle
    split
    · exact (Rests.refl _).congr rfl
    · exact Rests.tick t
  | trap hp huser =>
    exact hrests (Rests.trap (hI.placed.running _ _ hp)) (hkills ▸ List.Subset.refl _)
  | wakeup => exact hrests (Rests.wakeup1 _) (hkills ▸ List.Subset.refl _)
  | kill hp hpc => exact h.kill hI htidy hk' hkills
  | fork hp hpc =>
    exact h.forks (hI.placed.running _ _ hp) hk' (hkills ▸ List.Subset.refl _)
  | @forkStack c p np tickets ok hp hpc =>
    refine hrests (rests_forkStack fun hok => ?_) (hkills ▸ List.Subset.refl _)
    exact htidy hok np (filling_eq hp (Or.inl hpc))
  | @forkCopy c p np tickets ok hp hpc =>
    refine hrests (rests_forkCopy fun hok => ?_) (hkills ▸ List.Subset.refl _)
    exact htidy hok np (filling_eq hp (Or.inr hpc))
  | forkReady hp hpc => exact hrests rests_forkReady (hkills ▸ List.Subset.refl _)
  | wait hp hpc => exact hrests Rests.waitLoop (hkills ▸ List.Subset.refl _)
  | sleep hp hch hpc => exact hrests (Rests.sleep _ _) (hkills ▸ List.Subset.refl _)
  | callExit hp hpc => exact hrests Rests.callExit (hkills ▸ List.Subset.refl _)
  | exit hp hpc => exact hrests Rests.exit (hkills ▸ List.Subset.refl _)

/-! ## Births -/

theorem Unmarked.ready (h : w.Unmarked) (hI : Inv w.kernel) (c : Fin n) :
    w.MarksOnlyTargets rr (.forkReady c) := by
  intro w' hs p np hp hpc
  obtain ⟨hk, hkills⟩ := step_eq_some hs
  obtain ⟨-, hto⟩ := StepTo.of_step hk
  have hchild : (w.kernel.proc p).pc.child = some np := by rw [hpc]; rfl
  have hembryo := hI.family.embryo p np hchild
  have hne : np ≠ p := hI.family.child_ne hchild (hI.placed.running _ _ hp)
  have hnp : w'.kernel.proc np = { w.kernel.proc np with state := .runnable } := by
    generalize w'.kernel = k' at hto
    cases hto with
    | forkReady hp' hpc' =>
      obtain rfl := Option.some.inj (hp.symm.trans hp')
      obtain rfl := Pc.copied.inj (hpc.symm.trans hpc')
      unfold forkReady
      rw [Kernel.modify_proc_ne _ _ _ hne, Kernel.modify_proc_self]
  refine ⟨by rw [hnp], fun hkilled => ?_⟩
  rw [hnp] at hkilled
  unfold KilledByPid
  rw [hnp, hkills]
  exact h.embryo np hembryo hkilled

theorem marksOnlyTargets_kill {c : Fin n} {pid : ℤ} (htidy : w.Tidy (.kill c pid)) :
    w.MarksOnlyTargets rr (.kill c pid) := by
  intro w' hs hres
  obtain ⟨hk, -⟩ := step_eq_some hs
  obtain ⟨-, hto⟩ := StepTo.of_step hk
  obtain ⟨q, hq⟩ : ∃ q, killTarget w.kernel pid = some q := by
    unfold killResult at hres
    split at hres
    · next hsome => exact Option.isSome_iff_exists.mp hsome
    · cases hres
  have heq : w'.kernel = StrideXv6.kill w.kernel pid := by
    generalize w'.kernel = k' at hto
    cases hto
    rfl
  refine ⟨⟨q, htidy q hq, killTarget_pid hq⟩, fun r hr => ?_⟩
  rw [heq, kill_proc, if_neg fun ht => htidy r ht hr]

theorem Unmarked.marksOnlyTargets {a : Action n} (h : w.Unmarked) (hI : Inv w.kernel)
    (htidy : w.Tidy a) : w.MarksOnlyTargets rr a := by
  cases a with
  | forkReady c => exact h.ready hI c
  | kill c pid => exact marksOnlyTargets_kill htidy
  | _ => trivial

end Watch

/-- **Who is born killed was killed**, in both modes and on any number of CPUs, in
every run in which `kill` never stops at a free entry and no entry is given back
with a mark on it. -/
theorem not_born_killed {rr : Bool} {as : List (Action n)}
    (htidy : AllSteps (Watch.step rr) Watch.Tidy (Watch.boot rr n) as) :
    AllSteps (Watch.step rr) (Watch.MarksOnlyTargets rr) (Watch.boot rr n) as := by
  refine allSteps_of_invariant (P := fun w => Inv w.kernel ∧ w.Unmarked)
    (fun w a w' hP hC hs => ?_) (fun w a hP hC => hP.2.marksOnlyTargets hP.1 hC)
    ⟨Inv.init rr n, Watch.Unmarked.boot rr n⟩ htidy
  exact ⟨hP.1.next (Watch.step_eq_some hs).1, hP.2.next hP.1 hC hs⟩

/-- Init creates a child and kills it before it runs. -/
theorem not_born_killed_child :
    AllSteps (Watch.step false) (Watch.MarksOnlyTargets false) (Watch.boot false 1)
      [.schedule 0, .fork 0 .fork, .forkStack 0 true, .forkCopy 0 true, .forkReady 0,
        .kill 0 2] :=
  not_born_killed (by decide +kernel)

/-- `kill(0)` marks a free entry, and the next child is born there. -/
theorem born_killed :
    ∃ w, exec (Watch.step false) (Watch.boot false 1)
        [.schedule 0, .kill 0 0, .fork 0 .fork, .forkStack 0 true, .forkCopy 0 true] = some w ∧
      ¬ w.MarksOnlyTargets false (.forkReady 0) := by
  obtain ⟨w, hw, heq⟩ := Option.map_eq_some_iff.mp (show (exec (Watch.step false)
      (Watch.boot false 1) [.schedule 0, .kill 0 0, .fork 0 .fork, .forkStack 0 true,
        .forkCopy 0 true]).map (fun w => ((w.kernel.cpu 0).proc, (w.kernel.proc 0).pc)) =
      some (some 0, .copied 1) by decide +kernel)
  have hready : ((exec (Watch.step false) (Watch.boot false 1)
      [.schedule 0, .kill 0 0, .fork 0 .fork, .forkStack 0 true, .forkCopy 0 true]).bind
        fun w => (w.step false (.forkReady 0)).map fun w =>
          ((w.kernel.proc 1).killed, (w.kernel.proc 1).pid, w.kills)) =
      some (true, 2, [(0, 1)]) := by decide +kernel
  rw [hw, Option.bind_some] at hready
  obtain ⟨hcpu, hpc⟩ := Prod.mk.inj heq
  obtain ⟨w', hw', hmark⟩ := Option.map_eq_some_iff.mp hready
  obtain ⟨hkilled, hrest⟩ := Prod.mk.inj hmark
  obtain ⟨hpid, hkills⟩ := Prod.mk.inj hrest
  refine ⟨w, hw, fun h => ?_⟩
  obtain ⟨m, hm, -⟩ := (h w' hw' 0 1 hcpu hpc).2 hkilled
  rw [hkills, hpid] at hm
  simp at hm

end StrideXv6
