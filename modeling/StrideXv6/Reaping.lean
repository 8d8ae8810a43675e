import StrideXv6.Lifecycle

/-!
# No child exit is lost

`exit` wakes the parent *before* the process becomes a zombie and then hands its
own children, zombies among them, to init; `wait` scans the table again after
every wakeup, spurious ones included. All of it happens under `ptable.lock`, so
between two critical sections nobody sleeps in `wait` next to a zombie child
(`Waiting`), and the record of a run shows `wait` returning each exited process
once, to its parent (`Reaped`). Both hold for either scheduler on any number of
CPUs.
-/

namespace StrideXv6

open Machine Word32

variable {n : ℕ}

/-- Who may be asleep in `wait`. -/
structure Waiting (k : Kernel n) : Prop where
  /-- a process that sleeps on an entry of the table sleeps on its own -/
  own : ∀ p r, (k.proc p).state = .sleeping → (k.proc p).chan = some (.proc r) → r = p
  /-- and then none of its children is a zombie -/
  no_zombie : ∀ p, AsleepInWait k p → ∀ q, (k.proc q).parent = some p →
    (k.proc q).state ≠ .zombie

theorem Waiting.init (rr : Bool) (n : ℕ) : Waiting (boot rr n) := by
  have hstate : ∀ p, ((boot rr n).proc p).state ≠ .sleeping := by
    intro p h
    by_cases hp : p = 0
    · subst hp
      rw [(boot_zero rr n).1] at h
      cases h
    · rw [boot_ne hp] at h
      cases h
  exact ⟨fun p _ h => absurd h (hstate p), fun p h => absurd h.1 (hstate p)⟩

/-- Nobody fell asleep, no parent field was set and nobody became a zombie. -/
theorem Waiting.congr {k k' : Kernel n} (hW : Waiting k)
    (hasleep : ∀ p, (k'.proc p).state = .sleeping →
      (k.proc p).state = .sleeping ∧ (k'.proc p).chan = (k.proc p).chan)
    (hzombie : ∀ q p, (k'.proc q).parent = some p → (k'.proc q).state = .zombie →
      (k.proc q).parent = some p ∧ (k.proc q).state = .zombie) : Waiting k' := by
  refine ⟨?_, ?_⟩
  · intro p r hs hch
    obtain ⟨hs', hch'⟩ := hasleep p hs
    exact hW.own p r hs' (hch' ▸ hch)
  · intro p ⟨hs, hch⟩ q hq hz
    obtain ⟨hs', hch'⟩ := hasleep p hs
    obtain ⟨hq', hz'⟩ := hzombie q p hq hz
    exact hW.no_zombie p ⟨hs', hch' ▸ hch⟩ q hq' hz'

/-- The loop of `exit`: if it gives init a zombie, init is awake. -/
theorem Waiting.adopt {k : Kernel n} (hW : Waiting k) (p : Slot) :
    Waiting (passChildren k p) := by
  have hquiet := passChildren_quiet k p
  have hasleep : ∀ q, ((passChildren k p).proc q).state = .sleeping →
      (k.proc q).state = .sleeping ∧ ((passChildren k p).proc q).chan = (k.proc q).chan := by
    intro q hs
    rcases (hquiet q).state with h | ⟨-, h⟩
    · rw [Proc.adopt_state] at h
      exact ⟨h.symm.trans hs, by rw [(hquiet q).chan hs, Proc.adopt_chan]⟩
    · rw [h] at hs
      cases hs
  refine ⟨?_, ?_⟩
  · intro q r hs hch
    obtain ⟨hs', hch'⟩ := hasleep q hs
    exact hW.own q r hs' (hch' ▸ hch)
  · intro r ⟨hs, hch⟩ q hq hz
    obtain ⟨hs', hch'⟩ := hasleep r hs
    have hz' : (k.proc q).state = .zombie := by
      have := ((hquiet q).state_iff (by decide) (by decide)).mp hz
      rwa [Proc.adopt_state] at this
    rw [passChildren_parent] at hq
    by_cases hqp : (k.proc q).parent = some p
    · -- `q` is one of the children passed on, so the loop woke init
      rw [if_pos hqp] at hq
      obtain rfl := Option.some.inj hq
      have hex : ∃ q, (k.proc q).parent = some p ∧ (k.proc q).state = .zombie := ⟨q, hqp, hz'⟩
      rw [passChildren_proc, if_pos hex] at hs
      refine (Proc.wake_sleeping hs).2 ?_
      rw [Proc.adopt_chan, ← hch']
      exact hch
    · rw [if_neg hqp] at hq
      exact hW.no_zombie r ⟨hs', hch' ▸ hch⟩ q hq hz'

theorem Waiting.move {k k' : Kernel n} (hW : Waiting k) (hI : Inv k) (hm : Move k k') :
    Waiting k' := by
  cases hm with
  | quiet hproc hexit hcpu hsteady hfault hhist =>
    refine hW.congr ?_ ?_
    · intro p hs
      refine ⟨?_, (hproc p).chan hs⟩
      rcases (hproc p).state with h | ⟨h, -⟩
      · exact h.symm.trans hs
      · exact h
    · intro q p hq hz
      exact ⟨(hproc q).parent ▸ hq, ((hproc q).state_iff (by decide) (by decide)).mp hz⟩
  | dispatch hidle hfault hlive hshared hp hother hcpu hsteady hhist =>
    refine hW.congr ?_ ?_ <;> grind [Alike]
  | @leave c p st ctx ch hp hfault hst hwait =>
    have hrun := hI.placed.running c p hp
    obtain ⟨hown, hno⟩ := hW
    unfold AsleepInWait at hno
    refine ⟨?_, ?_⟩
    · grind
    · unfold AsleepInWait
      grind
  | adopt hpc => exact hW.adopt _
  | @exit c p hp hfault hpc hkids hparent =>
    have hrun := hI.placed.running c p hp
    obtain ⟨hown, hno⟩ := hW
    unfold AsleepInWait at hno hparent
    refine ⟨?_, ?_⟩
    · grind
    · unfold AsleepInWait
      grind
  | alloc hp hpc hnp hgrant =>
    refine hW.congr ?_ ?_ <;> grind [Proc.alloc]
  | giveBack hpc => refine hW.congr ?_ ?_ <;> grind
  | stack hpc => refine hW.congr ?_ ?_ <;> grind [forkStack]
  | @copy tickets c p np hp hpc =>
    have hnp : (k.proc np).state = .embryo := hI.family.embryo p np (by rw [hpc]; rfl)
    refine hW.congr ?_ ?_ <;> grind [forkCopy, Proc.copy]
  | ready hpc => refine hW.congr ?_ ?_ <;> grind [forkReady]
  | reap hparent hzombie => refine hW.congr ?_ ?_ <;> grind [Proc.reap]

/-! ## The record of the returns of `wait` -/

/-- A record, newest event first, in which every return of `wait` is right:
a pid is returned to the parent of a process that has exited and that was not
returned before, and is the pid that process was created with; `-1` is returned
to a caller that has no child or is killed. -/
def WaitsRight : List Event → Prop
  | [] => True
  | .reap caller parent uid pid :: past =>
    (parent = some caller ∧ pid = wrap (uid + 1) ∧ Event.exit uid ∈ past ∧
      ∀ caller' parent' pid', Event.reap caller' parent' uid pid' ∉ past) ∧ WaitsRight past
  | .waitFail _ hasChild killed :: past =>
    (hasChild = false ∨ killed = true) ∧ WaitsRight past
  | .dispatch _ _ :: past => WaitsRight past
  | .exit _ :: past => WaitsRight past

/-- The record and the table. -/
structure Reaped (k : Kernel n) : Prop where
  /-- the exit of a zombie is on record -/
  zombie : ∀ q, (k.proc q).state = .zombie → Event.exit (k.proc q).uid ∈ k.hist
  /-- a reaped process is out of the table -/
  gone : ∀ p parent uid pid, Event.reap p parent uid pid ∈ k.hist →
    uid < k.created ∧ ∀ q, (k.proc q).state ≠ .unused → (k.proc q).uid ≠ uid
  /-- the returns of `wait` are right -/
  right : WaitsRight k.hist

theorem Reaped.init (rr : Bool) (n : ℕ) : Reaped (boot rr n) := by
  have hhist := (boot_frame rr n).2.2.2.2.1
  refine ⟨?_, ?_, ?_⟩
  · intro q hq
    by_cases h : q = 0
    · subst h
      rw [(boot_zero rr n).1] at hq
      cases hq
    · rw [boot_ne h] at hq
      cases hq
  · intro p parent uid pid h
    rw [hhist] at h
    cases h
  · rw [hhist]
    trivial

/-- Nothing but harmless events was added, and no process appeared or died. -/
theorem Reaped.congr {k k' : Kernel n} (hR : Reaped k) (hcreated : k.created ≤ k'.created)
    (hzombie : ∀ q, (k'.proc q).state = .zombie →
      (k.proc q).state = .zombie ∧ (k'.proc q).uid = (k.proc q).uid)
    (hused : ∀ q, (k'.proc q).state ≠ .unused →
      ((k.proc q).state ≠ .unused ∧ (k'.proc q).uid = (k.proc q).uid) ∨
        (k'.proc q).uid = k.created)
    (hsub : ∀ e, e ∈ k.hist → e ∈ k'.hist)
    (hreap : ∀ p parent uid pid, Event.reap p parent uid pid ∈ k'.hist →
      Event.reap p parent uid pid ∈ k.hist)
    (hright : WaitsRight k'.hist) : Reaped k' := by
  refine ⟨?_, ?_, hright⟩
  · intro q hq
    obtain ⟨hz, huid⟩ := hzombie q hq
    rw [huid]
    exact hsub _ (hR.zombie q hz)
  · intro p parent uid pid h
    obtain ⟨hlt, hne⟩ := hR.gone p parent uid pid (hreap _ _ _ _ h)
    refine ⟨lt_of_lt_of_le hlt hcreated, fun q hq => ?_⟩
    rcases hused q hq with ⟨hq', huid⟩ | huid
    · rw [huid]
      exact hne q hq'
    · rw [huid]
      exact (Nat.ne_of_lt hlt).symm

theorem Reaped.reap {k : Kernel n} (hR : Reaped k) (hI : Inv k) {p q : Slot}
    (hparent : (k.proc q).parent = some p) (hzombie : (k.proc q).state = .zombie) :
    Reaped ((k.modify q Proc.reap).note
      (.reap p (k.proc q).parent (k.proc q).uid (k.proc q).pid)) := by
  have hused : (k.proc q).state ≠ .unused := by rw [hzombie]; decide
  have hproc : ∀ r, r ≠ q →
      ((k.modify q Proc.reap).proc r) = k.proc r := fun r hr => Kernel.modify_proc_ne _ _ _ hr
  have hself : ((k.modify q Proc.reap).proc q).state = .unused := by
    rw [Kernel.modify_proc_self]
    rfl
  refine ⟨?_, ?_, ?_⟩
  · intro r hr
    rw [Kernel.note_proc] at hr ⊢
    have hrq : r ≠ q := by
      rintro rfl
      rw [hself] at hr
      cases hr
    rw [hproc r hrq] at hr ⊢
    exact List.mem_cons_of_mem _ (hR.zombie r hr)
  · intro p' parent uid pid h
    have huniq : ∀ r, r ≠ q → (k.proc r).state ≠ .unused → (k.proc r).uid ≠ (k.proc q).uid :=
      fun r hrq hr heq => hrq (hI.numbered.inj r q hr hused heq)
    rcases List.mem_cons.mp h with h | h
    · -- the process just reaped: its number is used by no other entry
      obtain ⟨-, -, rfl, -⟩ := Event.reap.inj h
      refine ⟨hI.numbered.lt q hused, fun r hr => ?_⟩
      rw [Kernel.note_proc] at hr ⊢
      have hrq : r ≠ q := by
        rintro rfl
        exact hr hself
      rw [hproc r hrq] at hr ⊢
      exact huniq r hrq hr
    · obtain ⟨hlt, hne⟩ := hR.gone p' parent uid pid h
      refine ⟨hlt, fun r hr => ?_⟩
      rw [Kernel.note_proc] at hr ⊢
      have hrq : r ≠ q := by
        rintro rfl
        exact hr hself
      rw [hproc r hrq] at hr ⊢
      exact hne r hr
  · refine ⟨⟨hparent, hI.numbered.pid q hused, hR.zombie q hzombie, ?_⟩, hR.right⟩
    intro p' parent' pid' h
    exact (hR.gone p' parent' _ pid' h).2 q hused rfl

theorem Reaped.move {k k' : Kernel n} (hR : Reaped k) (hI : Inv k) (hm : Move k k') :
    Reaped k' := by
  cases hm with
  | quiet hproc hexit hcpu hsteady hfault hhist =>
    have hz : ∀ q, (k'.proc q).state = .zombie ↔ (k.proc q).state = .zombie :=
      fun q => (hproc q).state_iff (by decide) (by decide)
    have hu : ∀ q, (k'.proc q).state = .unused ↔ (k.proc q).state = .unused :=
      fun q => (hproc q).state_iff (by decide) (by decide)
    have huid := fun q => (hproc q).uid
    rcases hhist with hhist | ⟨p, has, kd, hhist, hret⟩
    · exact hR.congr hsteady.created.ge (fun q h => ⟨(hz q).mp h, huid q⟩)
        (fun q h => Or.inl ⟨fun h' => h ((hu q).mpr h'), huid q⟩) (by rw [hhist]; simp)
        (by rw [hhist]; simp) (by rw [hhist]; exact hR.right)
    · refine hR.congr hsteady.created.ge (fun q h => ⟨(hz q).mp h, huid q⟩)
        (fun q h => Or.inl ⟨fun h' => h ((hu q).mpr h'), huid q⟩)
        (by rw [hhist]; exact fun e he => List.mem_cons_of_mem _ he) (by rw [hhist]; simp) ?_
      rw [hhist]
      refine ⟨?_, hR.right⟩
      rcases hret with ⟨-, h⟩ | h
      · exact Or.inl h
      · exact Or.inr h
  | dispatch hidle hfault hlive hshared hp hother hcpu hsteady hhist =>
    refine hR.congr hsteady.created.ge ?_ ?_
      (by rw [hhist]; exact fun e he => List.mem_cons_of_mem _ he) (by rw [hhist]; simp)
      (by rw [hhist]; exact hR.right)
    · grind [Alike]
    · grind [Alike]
  | leave hp hfault hst hwait =>
    have hrun := hI.placed.running _ _ hp
    refine hR.congr le_rfl ?_ ?_ (fun _ h => h) (fun _ _ _ _ h => h) hR.right <;> grind
  | @adopt p hpc =>
    obtain ⟨-, -, -, -, hcreated, hhist⟩ := passChildren_frame k p
    have hquiet := passChildren_quiet k p
    refine hR.congr hcreated.ge ?_ ?_ (by rw [hhist]; simp) (by rw [hhist]; simp)
      (by rw [hhist]; exact hR.right)
    · intro q h
      have hz := ((hquiet q).state_iff (by decide) (by decide)).mp h
      rw [Proc.adopt_state] at hz
      exact ⟨hz, by rw [(hquiet q).uid, Proc.adopt_uid]⟩
    · intro q h
      refine Or.inl ⟨fun h' => h (((hquiet q).state_iff (by decide) (by decide)).mpr ?_), ?_⟩
      · rw [Proc.adopt_state]
        exact h'
      · rw [(hquiet q).uid, Proc.adopt_uid]
  | @exit c p hp hfault hpc hkids hparent =>
    have hrun := hI.placed.running _ _ hp
    have hz := hR.zombie
    refine ⟨by grind, ?_, hR.right⟩
    intro p' parent uid pid h
    obtain ⟨hlt, hne⟩ := hR.gone p' parent uid pid (by simpa using h)
    exact ⟨hlt, by grind⟩
  | alloc hp hpc hnp hgrant =>
    have hrun := hI.placed.running _ _ hp
    refine hR.congr (Nat.le_succ _) ?_ ?_ (fun _ h => h) (fun _ _ _ _ h => h) hR.right <;>
      grind [Proc.alloc]
  | giveBack hpc =>
    refine hR.congr le_rfl ?_ ?_ (fun _ h => h) (fun _ _ _ _ h => h) hR.right <;> grind
  | stack hpc =>
    refine hR.congr le_rfl ?_ ?_ (fun _ h => h) (fun _ _ _ _ h => h) hR.right <;>
      grind [forkStack]
  | copy hp hpc =>
    refine hR.congr le_rfl ?_ ?_ (fun _ h => h) (fun _ _ _ _ h => h) hR.right <;>
      grind [forkCopy, Proc.copy]
  | @ready p np hpc =>
    have hnp : (k.proc np).state = .embryo := hI.family.embryo p np (by rw [hpc]; rfl)
    refine hR.congr le_rfl ?_ ?_ (fun _ h => h) (fun _ _ _ _ h => h) hR.right <;>
      grind [forkReady]
  | reap hparent hzombie => exact hR.reap hI hparent hzombie

/-- **No child exit is lost.** In either scheduler mode, in every state of every
run, a process asleep in `wait` has no zombie child; and over the whole run the
returns of `wait` are right. -/
theorem wait_never_loses_exit {rr : Bool} {as : List (Action n)} {k : Kernel n}
    (hrun : exec (step rr) (boot rr n) as = some k) :
    (∀ p, (k.proc p).state = .sleeping → (k.proc p).chan = some (.proc p) →
      ∀ q, (k.proc q).parent = some p → (k.proc q).state ≠ .zombie) ∧
    WaitsRight k.hist := by
  have hW : Waiting k := Inv.reach_induction (fun _ _ hI hQ hm => hQ.move hI hm)
    (Waiting.init rr n) hrun
  have hR : Reaped k := Inv.reach_induction (fun _ _ hI hQ hm => hQ.move hI hm)
    (Reaped.init rr n) hrun
  exact ⟨fun p hs hch => hW.no_zombie p ⟨hs, hch⟩, hR.right⟩

/-- Two CPUs, round robin: the child starts to exit before init calls `wait`
and takes the lock after it; init is woken, gets the child's pid, and its next
`wait` fails for want of a child. -/
theorem wait_never_loses_exit_two_cpus :
    ∃ k, exec (step true) (boot true 2)
        [.schedule 0, .fork 0 .forkLow, .forkStack 0 true, .forkCopy 0 true, .forkReady 0,
          .schedule 1, .callExit 1, .wait 0, .exit 1, .schedule 0, .schedule 0, .wait 0] = some k ∧
      k.hist.take 2 = [.waitFail 0 false false, .reap 0 (some 0) 1 2] ∧ WaitsRight k.hist := by
  obtain ⟨k, hk, hlast⟩ := Option.map_eq_some_iff.mp (show (exec (step true) (boot true 2)
      [.schedule 0, .fork 0 .forkLow, .forkStack 0 true, .forkCopy 0 true, .forkReady 0,
        .schedule 1, .callExit 1, .wait 0, .exit 1, .schedule 0, .schedule 0, .wait 0]).map
      (fun k => k.hist.take 2) = some [.waitFail 0 false false, .reap 0 (some 0) 1 2] by
    decide +kernel)
  exact ⟨k, hk, hlast, (wait_never_loses_exit hk).2⟩

end StrideXv6
