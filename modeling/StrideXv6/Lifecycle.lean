import StrideXv6.Moves

/-!
# The process-table invariant

Three invariants of the life cycle, each kept by every move and so by every
step of the kernel, in both scheduler modes and on any number of CPUs:

* `Placed` — the `RUNNING` entries are the current processes of the CPUs;
* `Family` — init is alive, parent fields point to live processes, and an entry
  that is being filled in belongs to one creator;
* `Numbered` — processes are numbered in order of creation, and pids follow the
  numbers, wrapped around.
-/

namespace StrideXv6

open Machine Word32

variable {n : ℕ}

/-- The `RUNNING` entries are the CPUs' current processes, each on one CPU as
long as no kernel stack is shared. -/
structure Placed (k : Kernel n) : Prop where
  /-- a current process is `RUNNING` -/
  running : ∀ c p, (k.cpu c).proc = some p → (k.proc p).state = .running
  /-- a `RUNNING` process is current on some CPU -/
  current : ∀ p, (k.proc p).state = .running → ∃ c, (k.cpu c).proc = some p
  /-- and only on one -/
  inj : k.fault ≠ some .sharedStack → ∀ c d p,
    (k.cpu c).proc = some p → (k.cpu d).proc = some p → c = d

/-- Init, the parent fields, and the entries that are being filled in. -/
structure Family (k : Kernel n) : Prop where
  /-- init has the first entry -/
  init_zero : k.initproc = 0
  /-- init does not exit -/
  init_live : (k.proc k.initproc).state.Live
  /-- init has no parent -/
  init_parent : (k.proc k.initproc).parent = none
  /-- a free entry has no parent -/
  unused : ∀ q, (k.proc q).state = .unused → (k.proc q).parent = none
  /-- parents are alive -/
  live : ∀ q p, (k.proc q).parent = some p → (k.proc p).state.Live
  /-- every process but init has a parent -/
  has : ∀ q, q ≠ k.initproc → (k.proc q).state.Live ∨ (k.proc q).state = .zombie →
    (k.proc q).parent ≠ none
  /-- no process is its own parent -/
  self : ∀ q, (k.proc q).parent ≠ some q
  /-- init is never in `exit` -/
  exiting : ∀ q, (k.proc q).pc = .exiting → q ≠ k.initproc
  /-- an entry that is being filled in is an `EMBRYO` -/
  embryo : ∀ p np, (k.proc p).pc.child = some np → (k.proc np).state = .embryo
  /-- until it is a copy of its creator it has no parent -/
  early : ∀ p np t, (k.proc p).pc = .allocated np t ∨ (k.proc p).pc = .stacked np t →
    (k.proc np).parent = none
  /-- then its creator is the parent -/
  copied : ∀ p np, (k.proc p).pc = .copied np → (k.proc np).parent = some p
  /-- it has one creator -/
  inj : ∀ p p' np, (k.proc p).pc.child = some np → (k.proc p').pc.child = some np → p = p'

/-- The numbers of the processes in the table. -/
structure Numbered (k : Kernel n) : Prop where
  /-- a process was numbered when it was created -/
  lt : ∀ q, (k.proc q).state ≠ .unused → (k.proc q).uid < k.created
  /-- numbers are not shared -/
  inj : ∀ q r, (k.proc q).state ≠ .unused → (k.proc r).state ≠ .unused →
    (k.proc q).uid = (k.proc r).uid → q = r
  /-- the pid is the number, plus one, as an `int` -/
  pid : ∀ q, (k.proc q).state ≠ .unused → (k.proc q).pid = wrap ((k.proc q).uid + 1)
  /-- the next pid -/
  nextpid : k.nextpid = wrap (k.created + 1)

/-! ## Boot -/

theorem boot_proc (rr : Bool) (q : Slot) :
    (boot rr n).proc q =
      if q = 0 then { Proc.alloc rr 1 0 300 {} with context := some .forkret, state := .runnable }
      else {} := by
  have h : findUnused (Kernel.zero n) = some 0 := rfl
  unfold boot userinit allocproc
  rw [h]
  simp only [Option.map_some, Kernel.modify]
  by_cases hq : q = 0
  · simp [hq, Kernel.zero, Proc.alloc]
  · simp [hq, Kernel.zero]

/-- The rest of the boot state. -/
theorem boot_frame (rr : Bool) (n : ℕ) :
    (boot rr n).initproc = 0 ∧ (boot rr n).created = 1 ∧ (boot rr n).nextpid = 2 ∧
      (boot rr n).fault = none ∧ (boot rr n).hist = [] ∧
      ∀ c, ((boot rr n).cpu c).proc = none :=
  ⟨rfl, rfl, rfl, rfl, rfl, fun _ => rfl⟩

theorem boot_zero (rr : Bool) (n : ℕ) :
    ((boot rr n).proc 0).state = .runnable ∧ ((boot rr n).proc 0).parent = none ∧
      ((boot rr n).proc 0).pc = .run ∧ ((boot rr n).proc 0).uid = 0 ∧
      ((boot rr n).proc 0).pid = 1 := by
  rw [boot_proc, if_pos rfl]
  cases rr <;> exact ⟨rfl, rfl, rfl, rfl, rfl⟩

theorem boot_ne {rr : Bool} {q : Slot} (h : q ≠ 0) : (boot rr n).proc q = {} := by
  rw [boot_proc, if_neg h]

theorem Placed.boot (rr : Bool) (n : ℕ) : Placed (boot rr n) := by
  obtain ⟨-, -, -, -, -, hcpu⟩ := boot_frame rr n
  have h₀ := (boot_zero rr n).1
  refine ⟨?_, ?_, ?_⟩
  · intro c p hp
    rw [hcpu] at hp
    cases hp
  · intro p hp
    by_cases hq : p = 0
    · subst hq
      rw [h₀] at hp
      cases hp
    · rw [boot_ne hq] at hp
      cases hp
  · intro _ c d p hp
    rw [hcpu] at hp
    cases hp

theorem Family.boot (rr : Bool) (n : ℕ) : Family (boot rr n) := by
  obtain ⟨hinit, -⟩ := boot_frame rr n
  obtain ⟨h₁, h₂, h₃, -, -⟩ := boot_zero rr n
  have hne : ∀ q, q ≠ 0 → (StrideXv6.boot rr n).proc q = {} := fun q hq => boot_ne hq
  constructor <;> grind

theorem Numbered.boot (rr : Bool) (n : ℕ) : Numbered (boot rr n) := by
  obtain ⟨-, hcreated, hnext, -⟩ := boot_frame rr n
  obtain ⟨h₁, -, -, h₄, h₅⟩ := boot_zero rr n
  have hne : ∀ q, q ≠ 0 → (StrideXv6.boot rr n).proc q = {} := fun q hq => boot_ne hq
  have hw : wrap 1 = 1 := rfl
  have hw' : wrap 2 = 2 := rfl
  constructor <;> grind

/-! ## What the moves leave alone -/

namespace Quiet

variable {P P' : Proc}

theorem live_iff (h : Quiet P P') : P'.state.Live ↔ P.state.Live := by
  rcases h.state with h | ⟨h, h'⟩
  · rw [h]
  · rw [h, h']
    simp

/-- States other than the two a wakeup connects are kept. -/
theorem state_iff (h : Quiet P P') {st : ProcState} (hs : st ≠ .sleeping) (hr : st ≠ .runnable) :
    P'.state = st ↔ P.state = st := by
  rcases h.state with h | ⟨h, h'⟩
  · rw [h]
  · rw [h, h']
    exact ⟨fun e => absurd e.symm hr, fun e => absurd e.symm hs⟩

end Quiet

/-- The creator and the entry it fills in are two entries. -/
theorem Family.child_ne {k : Kernel n} (hF : Family k) {p np : Slot}
    (hc : (k.proc p).pc.child = some np) (hp : (k.proc p).state = .running) : np ≠ p := by
  rintro rfl
  have := hF.embryo np np hc
  rw [hp] at this
  cases this

/-! ## `Placed` is kept -/

/-- Nobody got or lost a CPU. -/
theorem Placed.congr {k k' : Kernel n} (hP : Placed k)
    (hstate : ∀ q, (k'.proc q).state = .running ↔ (k.proc q).state = .running)
    (hcpu : ∀ c, (k'.cpu c).proc = (k.cpu c).proc)
    (hfault : k.fault = some .sharedStack → k'.fault = some .sharedStack) : Placed k' := by
  refine ⟨?_, ?_, ?_⟩
  · intro c p hp
    rw [hcpu] at hp
    exact (hstate p).mpr (hP.running c p hp)
  · intro p hp
    obtain ⟨c, hc⟩ := hP.current p ((hstate p).mp hp)
    exact ⟨c, by rw [hcpu]; exact hc⟩
  · intro hf c d p hc hd
    rw [hcpu] at hc hd
    exact hP.inj (fun h => hf (hfault h)) c d p hc hd

/-- A process that is no longer `RUNNING` has left its CPU. -/
theorem Placed.leave {k k' : Kernel n} (hP : Placed k) {c : Fin n} {p : Slot}
    (hp : (k.cpu c).proc = some p) (hfault : k.fault = none)
    (hproc : ∀ q, q ≠ p → (k'.proc q).state = (k.proc q).state)
    (hst : (k'.proc p).state ≠ .running)
    (hcpu : ∀ d, (k'.cpu d).proc = if d = c then none else (k.cpu d).proc) : Placed k' := by
  have hinj := hP.inj (by simp [hfault])
  refine ⟨?_, ?_, ?_⟩
  · intro d q hq
    rw [hcpu] at hq
    by_cases hd : d = c
    · rw [if_pos hd] at hq
      cases hq
    · rw [if_neg hd] at hq
      have hqp : q ≠ p := by
        rintro rfl
        exact hd (hinj d c q hq hp)
      rw [hproc q hqp]
      exact hP.running d q hq
  · intro q hq
    have hqp : q ≠ p := by
      rintro rfl
      exact hst hq
    rw [hproc q hqp] at hq
    obtain ⟨d, hd⟩ := hP.current q hq
    refine ⟨d, ?_⟩
    rw [hcpu, if_neg]
    · exact hd
    · rintro rfl
      exact hqp (Option.some.inj (hd.symm.trans hp))
  · intro _ d e q hd he
    rw [hcpu] at hd he
    by_cases hdc : d = c
    · rw [if_pos hdc] at hd
      cases hd
    · by_cases hec : e = c
      · rw [if_pos hec] at he
        cases he
      · rw [if_neg hdc] at hd
        rw [if_neg hec] at he
        exact hinj d e q hd he

theorem Placed.move {k k' : Kernel n} (hP : Placed k) (hF : Family k) (hm : Move k k') :
    Placed k' := by
  cases hm with
  | quiet hproc hexit hcpu hsteady hfault hhist =>
    refine hP.congr (fun q => (hproc q).state_iff (by decide) (by decide)) hcpu ?_
    intro h
    rw [hfault] at h
    cases h
  | @dispatch k' c p hidle hfault hlive hshared hp hother hcpu hsteady hhist =>
    obtain ⟨hrun, hcur, hinj⟩ := hP
    have hother' := fun q hq => (hother q hq).state
    have hp' := hp.state
    constructor <;> grind
  | leave hp hfault hst hwait => refine hP.leave hp hfault ?_ ?_ ?_ <;> grind
  | @adopt p hpc =>
    obtain ⟨hcpu, -, -, hf, -, -⟩ := passChildren_frame k p
    refine hP.congr ?_ (fun c => by rw [hcpu]) (fun h => hf.trans h)
    intro q
    rw [(passChildren_quiet k p q).state_iff (by decide) (by decide), Proc.adopt_state]
  | exit hp hfault hpc hkids hparent => refine hP.leave hp hfault ?_ ?_ ?_ <;> grind
  | alloc hp hpc hnp hgrant => exact hP.congr (by grind [Proc.alloc]) (fun _ => rfl) (fun h => h)
  | @giveBack tickets p np hpc =>
    have hnp : (k.proc np).state = .embryo := hF.embryo p np (by grind)
    exact hP.congr (by grind) (fun _ => rfl) (fun h => h)
  | stack hpc => exact hP.congr (by grind [forkStack]) (fun _ => rfl) (fun h => h)
  | copy hp hpc => exact hP.congr (by grind [forkCopy, Proc.copy]) (fun _ => rfl) (fun h => h)
  | @ready p np hpc =>
    have hnp : (k.proc np).state = .embryo := hF.embryo p np (by grind)
    exact hP.congr (by grind [forkReady]) (fun _ => rfl) (fun h => h)
  | reap hparent hzombie => exact hP.congr (by grind [Proc.reap]) (fun _ => rfl) (fun h => h)

/-! ## `Family` is kept -/

/-- Nobody was born, died or changed parents, and no creator was added. -/
theorem Family.congr {k k' : Kernel n} (hF : Family k) (hinit : k'.initproc = k.initproc)
    (hlive : ∀ q, (k'.proc q).state.Live ↔ (k.proc q).state.Live)
    (hstate : ∀ q st, ¬ st.Live → ((k'.proc q).state = st ↔ (k.proc q).state = st))
    (hparent : ∀ q, (k'.proc q).parent = (k.proc q).parent)
    (hpc : ∀ q, (k'.proc q).pc = (k.proc q).pc ∨ (k'.proc q).pc.child = none)
    (hexit : ∀ q, (k'.proc q).pc = .exiting → (k.proc q).pc = .exiting ∨ q ≠ k.initproc) :
    Family k' := by
  have hsame : ∀ p np, (k'.proc p).pc.child = some np → (k'.proc p).pc = (k.proc p).pc := by
    intro p np hc
    rcases hpc p with h | h
    · exact h
    · rw [h] at hc
      cases hc
  refine ⟨hinit.trans hF.init_zero, ?_, ?_, ?_, ?_, ?_, ?_, ?_, ?_, ?_, ?_, ?_⟩
  · rw [hinit, hlive]
    exact hF.init_live
  · rw [hinit, hparent]
    exact hF.init_parent
  · intro q hq
    rw [hparent]
    exact hF.unused q ((hstate q _ (by simp)).mp hq)
  · intro q p hq
    rw [hlive]
    exact hF.live q p (hparent q ▸ hq)
  · intro q hq hst
    rw [hparent]
    refine hF.has q (hinit ▸ hq) ?_
    rcases hst with h | h
    · exact Or.inl ((hlive q).mp h)
    · exact Or.inr ((hstate q _ (by simp)).mp h)
  · intro q
    rw [hparent]
    exact hF.self q
  · intro q hq
    rw [hinit]
    rcases hexit q hq with h | h
    · exact hF.exiting q h
    · exact h
  · intro p np hc
    rw [hstate np _ (by simp)]
    exact hF.embryo p np (hsame p np hc ▸ hc)
  · intro p np t hc
    have hsp := hsame p np (by rcases hc with h | h <;> rw [h] <;> rfl)
    rw [hparent]
    exact hF.early p np t (hsp ▸ hc)
  · intro p np hc
    have hsp := hsame p np (by rw [hc]; rfl)
    rw [hparent]
    exact hF.copied p np (hsp ▸ hc)
  · intro p p' np hc hc'
    exact hF.inj p p' np (hsame p np hc ▸ hc) (hsame p' np hc' ▸ hc')

theorem Family.exit {k : Kernel n} (hF : Family k) {c : Fin n} {p : Slot} {e : Event}
    (hrun : (k.proc p).state = .running) (hpc : (k.proc p).pc = .exiting)
    (hkids : ∀ q, (k.proc q).parent ≠ some p) :
    Family (((k.modify p fun P =>
      { P with state := .zombie, context := some .exit }).note e).setProc c none) := by
  obtain ⟨hzero, hinit, hinitp, hunused, hlive, hhas, hself, hexiting, hembryo, hearly, hcopied,
    hinj⟩ := hF
  constructor <;> grind

theorem Family.alloc {k : Kernel n} (hF : Family k) {rr : Bool} {tickets pid next : ℤ}
    {uid created : ℕ} {p np : Slot} (hrun : (k.proc p).state = .running)
    (hpc : (k.proc p).pc = .run) (hnp : (k.proc np).state = .unused) :
    Family { (k.modify np (Proc.alloc rr pid uid tickets)).modify p fun P =>
        { P with pc := .allocated np tickets } with
      nextpid := next, created := created } := by
  obtain ⟨hzero, hinit, hinitp, hunused, hlive, hhas, hself, hexiting, hembryo, hearly, hcopied,
    hinj⟩ := hF
  constructor <;> grind [Proc.alloc]

theorem Family.giveBack {k : Kernel n} (hF : Family k) {tickets : ℤ} {p np : Slot}
    (hpc : (k.proc p).pc = .allocated np tickets ∨ (k.proc p).pc = .stacked np tickets) :
    Family ((k.modify np fun P => { P with state := .unused }).modify p fun P =>
      { P with pc := .run }) := by
  have hnp : (k.proc np).state = .embryo := hF.embryo p np (by grind)
  obtain ⟨hzero, hinit, hinitp, hunused, hlive, hhas, hself, hexiting, hembryo, hearly, hcopied,
    hinj⟩ := hF
  constructor <;> grind

theorem Family.stack {k : Kernel n} (hF : Family k) {tickets : ℤ} {p np : Slot}
    (hpc : (k.proc p).pc = .allocated np tickets) :
    Family (forkStack k p np tickets true) := by
  obtain ⟨hzero, hinit, hinitp, hunused, hlive, hhas, hself, hexiting, hembryo, hearly, hcopied,
    hinj⟩ := hF
  constructor <;> grind [forkStack]

theorem Family.copy {k : Kernel n} (hF : Family k) {tickets : ℤ} {p np : Slot}
    (hrun : (k.proc p).state = .running) (hpc : (k.proc p).pc = .stacked np tickets) :
    Family (forkCopy k p np tickets true) := by
  have hnp : (k.proc np).state = .embryo := hF.embryo p np (by rw [hpc]; rfl)
  have hne : np ≠ p := hF.child_ne (by rw [hpc]; rfl) hrun
  obtain ⟨hzero, hinit, hinitp, hunused, hlive, hhas, hself, hexiting, hembryo, hearly, hcopied,
    hinj⟩ := hF
  constructor <;> grind [forkCopy, Proc.copy]

theorem Family.ready {k : Kernel n} (hF : Family k) {p np : Slot}
    (hpc : (k.proc p).pc = .copied np) : Family (forkReady k p np) := by
  have hnp : (k.proc np).state = .embryo := hF.embryo p np (by rw [hpc]; rfl)
  obtain ⟨hzero, hinit, hinitp, hunused, hlive, hhas, hself, hexiting, hembryo, hearly, hcopied,
    hinj⟩ := hF
  constructor <;> grind [forkReady]

theorem Family.reap {k : Kernel n} (hF : Family k) {q : Slot} {e : Event}
    (hzombie : (k.proc q).state = .zombie) : Family ((k.modify q Proc.reap).note e) := by
  obtain ⟨hzero, hinit, hinitp, hunused, hlive, hhas, hself, hexiting, hembryo, hearly, hcopied,
    hinj⟩ := hF
  constructor <;> grind [Proc.reap]

theorem Family.adopt {k : Kernel n} (hF : Family k) {p : Slot} (hpc : (k.proc p).pc = .exiting) :
    Family (passChildren k p) := by
  obtain ⟨-, -, hinit, -, -, -⟩ := passChildren_frame k p
  have hquiet := passChildren_quiet k p
  have hparent := passChildren_parent k p
  have hpcs := passChildren_pc k p
  have hlive : ∀ q, ((passChildren k p).proc q).state.Live ↔ (k.proc q).state.Live := by
    intro q
    rw [(hquiet q).live_iff, Proc.adopt_state]
  have hstate : ∀ q st, ¬ st.Live →
      (((passChildren k p).proc q).state = st ↔ (k.proc q).state = st) := by
    intro q st hst
    rw [(hquiet q).state_iff (fun h => hst (by rw [h]; simp)) (fun h => hst (by rw [h]; simp)),
      Proc.adopt_state]
  have hnone : ∀ q, ((passChildren k p).proc q).parent = none ↔ (k.proc q).parent = none := by
    intro q
    rw [hparent]
    split <;> simp_all
  generalize passChildren k p = k' at hinit hparent hpcs hlive hstate hnone ⊢
  refine ⟨hinit.trans hF.init_zero, ?_, ?_, ?_, ?_, ?_, ?_, ?_, ?_, ?_, ?_, ?_⟩
  · rw [hinit, hlive]
    exact hF.init_live
  · rw [hinit, hnone]
    exact hF.init_parent
  · intro q hq
    exact (hnone q).mpr (hF.unused q ((hstate q _ (by simp)).mp hq))
  · intro q r hq
    rw [hlive]
    rw [hparent] at hq
    split at hq
    · obtain rfl := Option.some.inj hq
      exact hF.init_live
    · exact hF.live q r hq
  · intro q hq hst
    rw [Ne, hnone]
    refine hF.has q (hinit ▸ hq) ?_
    rcases hst with h | h
    · exact Or.inl ((hlive q).mp h)
    · exact Or.inr ((hstate q _ (by simp)).mp h)
  · intro q hq
    rw [hparent] at hq
    split at hq
    · next hqp =>
      rw [← Option.some.inj hq, hF.init_parent] at hqp
      cases hqp
    · exact hF.self q hq
  · intro q hq
    rw [hinit]
    exact hF.exiting q (hpcs q ▸ hq)
  · intro q np hc
    rw [hstate np _ (by simp)]
    exact hF.embryo q np (hpcs q ▸ hc)
  · intro q np t hc
    exact (hnone np).mpr (hF.early q np t (hpcs q ▸ hc))
  · intro q np hc
    rw [hpcs] at hc
    have hqp : q ≠ p := by
      rintro rfl
      rw [hpc] at hc
      cases hc
    have hnp := hF.copied q np hc
    rw [hparent, hnp, if_neg fun h => hqp (Option.some.inj h)]
  · intro q q' np hc hc'
    exact hF.inj q q' np (hpcs q ▸ hc) (hpcs q' ▸ hc')

theorem Family.move {k k' : Kernel n} (hF : Family k) (hP : Placed k) (hm : Move k k') :
    Family k' := by
  cases hm with
  | quiet hproc hexit hcpu hsteady hfault hhist =>
    refine hF.congr hsteady.initproc (fun q => (hproc q).live_iff) ?_ (fun q => (hproc q).parent)
      (fun q => (hproc q).pc) hexit
    intro q st hst
    exact (hproc q).state_iff (fun h => hst (by rw [h]; simp)) (fun h => hst (by rw [h]; simp))
  | @dispatch k' c p hidle hfault hlive hshared hp hother hcpu hsteady hhist =>
    have hstate : ∀ q, (k'.proc q).state = if q = p then .running else (k.proc q).state := by
      intro q
      by_cases hq : q = p
      · rw [if_pos hq, hq, hp.state]
      · rw [if_neg hq, (hother q hq).state]
    refine hF.congr hsteady.initproc ?_ ?_ ?_ ?_ ?_ <;> grind [Alike]
  | leave hp hfault hst hwait =>
    have hrun := hP.running _ _ hp
    refine hF.congr rfl ?_ ?_ ?_ ?_ ?_ <;> grind
  | adopt hpc => exact hF.adopt hpc
  | exit hp hfault hpc hkids hparent => exact hF.exit (hP.running _ _ hp) hpc hkids
  | alloc hp hpc hnp hgrant => exact hF.alloc (hP.running _ _ hp) hpc hnp
  | giveBack hpc => exact hF.giveBack hpc
  | stack hpc => exact hF.stack hpc
  | copy hp hpc => exact hF.copy (hP.running _ _ hp) hpc
  | ready hpc => exact hF.ready hpc
  | reap hparent hzombie => exact hF.reap hzombie

/-! ## `Numbered` is kept -/

/-- No process was created, and none gone changed its numbers. -/
theorem Numbered.congr {k k' : Kernel n} (hN : Numbered k) (hsteady : Steady k k')
    (hproc : ∀ q, (k'.proc q).state ≠ .unused → (k.proc q).state ≠ .unused ∧
      (k'.proc q).uid = (k.proc q).uid ∧ (k'.proc q).pid = (k.proc q).pid) : Numbered k' := by
  refine ⟨?_, ?_, ?_, ?_⟩
  · intro q hq
    obtain ⟨hq', huid, -⟩ := hproc q hq
    rw [huid, hsteady.created]
    exact hN.lt q hq'
  · intro q r hq hr heq
    obtain ⟨hq', huq, -⟩ := hproc q hq
    obtain ⟨hr', hur, -⟩ := hproc r hr
    rw [huq, hur] at heq
    exact hN.inj q r hq' hr' heq
  · intro q hq
    obtain ⟨hq', huid, hpid⟩ := hproc q hq
    rw [hpid, huid]
    exact hN.pid q hq'
  · rw [hsteady.nextpid, hsteady.created]
    exact hN.nextpid

theorem wrap_wrap_succ (x : ℤ) : wrap (wrap x + 1) = wrap (x + 1) := by
  unfold wrap
  omega

theorem Numbered.alloc {k : Kernel n} (hN : Numbered k) {rr : Bool} {tickets : ℤ} {p np : Slot}
    (hrun : (k.proc p).state = .running) (hnp : (k.proc np).state = .unused) :
    Numbered { (k.modify np (Proc.alloc rr k.nextpid k.created tickets)).modify p fun P =>
        { P with pc := .allocated np tickets } with
      nextpid := wrap (k.nextpid + 1), created := k.created + 1 } := by
  obtain ⟨hlt, hinj, hpid, hnext⟩ := hN
  refine ⟨?_, ?_, ?_, ?_⟩
  · grind [Proc.alloc]
  · grind [Proc.alloc]
  · grind [Proc.alloc]
  · change wrap (k.nextpid + 1) = wrap ((k.created + 1 : ℕ) + 1)
    rw [hnext, wrap_wrap_succ]
    push_cast
    rfl

theorem Numbered.move {k k' : Kernel n} (hN : Numbered k) (hP : Placed k) (hF : Family k)
    (hm : Move k k') : Numbered k' := by
  cases hm with
  | quiet hproc hexit hcpu hsteady hfault hhist =>
    refine hN.congr hsteady fun q hq => ⟨?_, (hproc q).uid, (hproc q).pid⟩
    exact fun h => hq (((hproc q).state_iff (by decide) (by decide)).mpr h)
  | @dispatch k' c p hidle hfault hlive hshared hp hother hcpu hsteady hhist =>
    refine hN.congr hsteady fun q _ => ?_
    by_cases hq : q = p
    · subst hq
      refine ⟨?_, hp.uid, hp.pid⟩
      intro h
      rw [h] at hlive
      exact absurd hlive (by simp)
    · exact ⟨by rwa [← (hother q hq).state], (hother q hq).uid, (hother q hq).pid⟩
  | leave hp hfault hst hwait =>
    have hrun := hP.running _ _ hp
    exact hN.congr ⟨rfl, rfl, rfl⟩ (by grind)
  | @adopt p hpc =>
    obtain ⟨-, hnext, hinit, -, hcreated, -⟩ := passChildren_frame k p
    refine hN.congr ⟨hnext, hinit, hcreated⟩ fun q hq => ⟨?_, ?_, ?_⟩
    · intro h
      refine hq (((passChildren_quiet k p q).state_iff (by decide) (by decide)).mpr ?_)
      rw [Proc.adopt_state]
      exact h
    · rw [(passChildren_quiet k p q).uid, Proc.adopt_uid]
    · rw [(passChildren_quiet k p q).pid, Proc.adopt_pid]
  | exit hp hfault hpc hkids hparent =>
    have hrun := hP.running _ _ hp
    exact hN.congr ⟨rfl, rfl, rfl⟩ (by grind)
  | alloc hp hpc hnp hgrant => exact hN.alloc (hP.running _ _ hp) hnp
  | @giveBack tickets p np hpc =>
    exact hN.congr ⟨rfl, rfl, rfl⟩ (by grind)
  | stack hpc => exact hN.congr ⟨rfl, rfl, rfl⟩ (by grind [forkStack])
  | copy hp hpc => exact hN.congr ⟨rfl, rfl, rfl⟩ (by grind [forkCopy, Proc.copy])
  | @ready p np hpc =>
    have hnp : (k.proc np).state = .embryo := hF.embryo p np (by rw [hpc]; rfl)
    exact hN.congr ⟨rfl, rfl, rfl⟩ (by grind [forkReady])
  | reap hparent hzombie => exact hN.congr ⟨rfl, rfl, rfl⟩ (by grind [Proc.reap])

/-! ## Runs -/

/-- The three invariants together. -/
structure Inv (k : Kernel n) : Prop where
  placed : Placed k
  family : Family k
  numbered : Numbered k

theorem Inv.init (rr : Bool) (n : ℕ) : Inv (boot rr n) :=
  ⟨Placed.boot rr n, Family.boot rr n, Numbered.boot rr n⟩

theorem Inv.move {k k' : Kernel n} (hI : Inv k) (hm : Move k k') : Inv k' :=
  ⟨hI.placed.move hI.family hm, hI.family.move hI.placed hm,
    hI.numbered.move hI.placed hI.family hm⟩

/-- Under the invariant a step is a sequence of moves. -/
theorem Inv.moves_of_step {rr : Bool} {k k' : Kernel n} {a : Action n} (hI : Inv k)
    (h : step rr k a = some k') : Moves k k' := by
  obtain ⟨hfault, hs⟩ := StepTo.of_step h
  have hzero : (k.proc 0).state.Live := hI.family.init_zero ▸ hI.family.init_live
  exact hs.moves hfault hzero hI.family.exiting hI.family.self

/-- What every move keeps, given the invariant, every step keeps. -/
theorem Inv.step_induction {Q : Kernel n → Prop}
    (hmove : ∀ k k', Inv k → Q k → Move k k' → Q k') {rr : Bool} {k k' : Kernel n}
    {a : Action n} (hI : Inv k) (hQ : Q k) (h : step rr k a = some k') : Inv k' ∧ Q k' := by
  have hmoves := hI.moves_of_step h
  clear h
  induction hmoves with
  | refl => exact ⟨hI, hQ⟩
  | tail _ hm ih => exact ⟨ih.1.move hm, hmove _ _ ih.1 ih.2 hm⟩

theorem Inv.next {rr : Bool} {k k' : Kernel n} {a : Action n} (hI : Inv k)
    (h : step rr k a = some k') : Inv k' :=
  (hI.step_induction (Q := fun _ => True) (fun _ _ _ _ _ => trivial) trivial h).1

/-- **The invariant holds in every run**, in both modes and on any number of
CPUs. -/
theorem Inv.reach {rr : Bool} {as : List (Action n)} {k : Kernel n}
    (h : exec (step rr) (boot rr n) as = some k) : Inv k :=
  exec_invariant (fun _ _ _ hI hs => hI.next hs) (Inv.init rr n) h

/-- What every move keeps holds at the end of every run. -/
theorem Inv.reach_induction {Q : Kernel n → Prop}
    (hmove : ∀ k k', Inv k → Q k → Move k k' → Q k') {rr : Bool} {as : List (Action n)}
    {k : Kernel n} (hboot : Q (boot rr n))
    (h : exec (step rr) (boot rr n) as = some k) : Q k :=
  (exec_invariant (P := fun k => Inv k ∧ Q k)
    (fun _ _ _ hQ hs => hQ.1.step_induction hmove hQ.2 hs) ⟨Inv.init rr n, hboot⟩ h).2

/-! ## The table between two critical sections on one CPU -/

/-- Only live processes were ever switched to. -/
def LiveDispatches (k : Kernel n) : Prop :=
  ∀ p st, Event.dispatch p st ∈ k.hist → st.Live

theorem LiveDispatches.move {k k' : Kernel n} (hD : LiveDispatches k) (hm : Move k k') :
    LiveDispatches k' := by
  unfold LiveDispatches at hD ⊢
  cases hm with
  | quiet hproc hexit hcpu hsteady hfault hhist => grind
  | dispatch hidle hfault hlive hshared hp hother hcpu hsteady hhist => grind
  | adopt hpc =>
    rw [(passChildren_frame k _).2.2.2.2.2]
    exact hD
  | exit hp hfault hpc hkids hparent => grind
  | reap hparent hzombie => grind
  | _ => exact hD

/-- The process table as the rest of the kernel relies on it, whenever
`ptable.lock` is free, on a machine with one CPU. -/
structure TableInvariant (k : Kernel 1) : Prop where
  /-- the `RUNNING` process is the CPU's current one -/
  running_iff : ∀ p, (k.proc p).state = .running ↔ (k.cpu 0).proc = some p
  /-- and there is at most one -/
  running_unique : ∀ p q, (k.proc p).state = .running → (k.proc q).state = .running → p = q
  /-- no free, unfinished or dead entry was ever switched to -/
  dispatched : ∀ p st, Event.dispatch p st ∈ k.hist →
    st ≠ .unused ∧ st ≠ .embryo ∧ st ≠ .zombie
  /-- pids are positive -/
  pid_pos : ∀ p, (k.proc p).state ≠ .unused → 0 < (k.proc p).pid
  /-- pids are distinct -/
  pid_inj : ∀ p q, (k.proc p).state ≠ .unused → (k.proc q).state ≠ .unused →
    (k.proc p).pid = (k.proc q).pid → p = q
  /-- init is there -/
  init : (k.proc k.initproc).state ≠ .unused ∧ (k.proc k.initproc).state ≠ .zombie
  /-- every other process, zombies included, has a parent that can reap it -/
  parent : ∀ q, q ≠ k.initproc →
    ((k.proc q).state = .sleeping ∨ (k.proc q).state = .runnable ∨
      (k.proc q).state = .running ∨ (k.proc q).state = .zombie) →
    ∃ p, (k.proc q).parent = some p ∧
      ((k.proc p).state = .sleeping ∨ (k.proc p).state = .runnable ∨
        (k.proc p).state = .running)

/-- Below the wrap-around the pid is the creation number plus one. -/
theorem Inv.pid_eq {k : Kernel n} (hI : Inv k) (hcreated : k.created < 2 ^ 31) {p : Slot}
    (hp : (k.proc p).state ≠ .unused) : (k.proc p).pid = (k.proc p).uid + 1 := by
  have hlt := hI.numbered.lt p hp
  rw [hI.numbered.pid p hp]
  refine wrap_of_nonneg (by omega) ?_
  unfold intMax
  omega

/-- **The process-table invariant** of the stride kernel on one CPU, in every
state reachable from boot by fewer than `2^31` process creations. -/
theorem table_invariant {as : List (Action 1)} {k : Kernel 1}
    (hrun : exec (step false) (boot false 1) as = some k) (hcreated : k.created < 2 ^ 31) :
    TableInvariant k := by
  have hI : Inv k := Inv.reach hrun
  have hD : LiveDispatches k := by
    refine Inv.reach_induction (fun _ _ _ hQ hm => LiveDispatches.move hQ hm) ?_ hrun
    intro p st h
    rw [(boot_frame false 1).2.2.2.2.1] at h
    cases h
  have hiff : ∀ p, (k.proc p).state = .running ↔ (k.cpu 0).proc = some p := by
    intro p
    refine ⟨fun h => ?_, hI.placed.running 0 p⟩
    obtain ⟨c, hc⟩ := hI.placed.current p h
    rwa [Subsingleton.elim c 0] at hc
  refine ⟨hiff, ?_, ?_, ?_, ?_, ?_, ?_⟩
  · intro p q hp hq
    rw [hiff] at hp hq
    exact Option.some.inj (hp.symm.trans hq)
  · intro p st h
    have hlive := hD p st h
    refine ⟨?_, ?_, ?_⟩ <;> (rintro rfl; simp at hlive)
  · intro p hp
    rw [hI.pid_eq hcreated hp]
    omega
  · intro p q hp hq heq
    rw [hI.pid_eq hcreated hp, hI.pid_eq hcreated hq] at heq
    exact hI.numbered.inj p q hp hq (by omega)
  · have hlive := hI.family.init_live
    constructor <;> (intro h; rw [h] at hlive; simp at hlive)
  · intro q hq hst
    have hnone : (k.proc q).parent ≠ none := by
      refine hI.family.has q hq ?_
      rw [ProcState.live_iff]
      tauto
    obtain ⟨p, hp⟩ := Option.ne_none_iff_exists'.mp hnone
    exact ⟨p, hp, ProcState.live_iff.mp (hI.family.live q p hp)⟩

/-- One run it is about: init creates a child and waits for it, the child exits
and init reaps it. -/
theorem table_invariant_fork_wait :
    ∃ k, exec (step false) (boot false 1)
        [.schedule 0, .fork 0 .forkLow, .forkStack 0 true, .forkCopy 0 true, .forkReady 0,
          .wait 0, .schedule 0, .callExit 0, .exit 0, .schedule 0] = some k ∧
      k.created = 2 ∧ TableInvariant k := by
  obtain ⟨k, hk⟩ := Option.isSome_iff_exists.mp (show (exec (step false) (boot false 1)
    [.schedule 0, .fork 0 .forkLow, .forkStack 0 true, .forkCopy 0 true, .forkReady 0,
      .wait 0, .schedule 0, .callExit 0, .exit 0, .schedule 0]).isSome = true by decide +kernel)
  have hcreated : (exec (step false) (boot false 1)
      [.schedule 0, .fork 0 .forkLow, .forkStack 0 true, .forkCopy 0 true, .forkReady 0,
        .wait 0, .schedule 0, .callExit 0, .exit 0, .schedule 0]).map (·.created) = some 2 := by
    decide +kernel
  rw [hk] at hcreated
  have h2 : k.created = 2 := Option.some.inj hcreated
  exact ⟨k, hk, h2, table_invariant hk (by rw [h2]; decide)⟩

end StrideXv6
