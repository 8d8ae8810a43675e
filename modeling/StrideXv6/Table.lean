import StrideXv6.Proc

/-!
# What the table loops compute

One specification for each loop of `proc.c` over the process table, so that
later modules do not unfold the loops: the wakeup pass, the search for an
`UNUSED` entry, the scan of `wait`, and the loop of `exit` that passes children
to init. The last one changes the table while it scans it; entry by entry its
outcome is that of two independent passes (`passChildren_proc`).
-/

namespace StrideXv6

variable {n : ℕ}

/-! ## Waking up -/

namespace Proc

variable (P : Proc) (ch : Option Chan)

theorem wake_state :
    (P.wake ch).state =
      if P.state = .sleeping ∧ P.chan = ch then .runnable else P.state := by
  unfold wake
  split <;> rfl

@[simp] theorem wake_pid : (P.wake ch).pid = P.pid := by unfold wake; split <;> rfl

@[simp] theorem wake_parent : (P.wake ch).parent = P.parent := by unfold wake; split <;> rfl

@[simp] theorem wake_chan : (P.wake ch).chan = P.chan := by unfold wake; split <;> rfl

@[simp] theorem wake_killed : (P.wake ch).killed = P.killed := by unfold wake; split <;> rfl

@[simp] theorem wake_tickets : (P.wake ch).tickets = P.tickets := by
  unfold wake; split <;> rfl

@[simp] theorem wake_stride : (P.wake ch).stride = P.stride := by unfold wake; split <;> rfl

@[simp] theorem wake_pass : (P.wake ch).pass = P.pass := by unfold wake; split <;> rfl

@[simp] theorem wake_limitpass : (P.wake ch).limitpass = P.limitpass := by
  unfold wake; split <;> rfl

@[simp] theorem wake_pc : (P.wake ch).pc = P.pc := by unfold wake; split <;> rfl

@[simp] theorem wake_uid : (P.wake ch).uid = P.uid := by unfold wake; split <;> rfl

/-- A wakeup leaves the state alone or turns `SLEEPING` into `RUNNABLE`. -/
theorem wake_state_cases :
    (P.wake ch).state = P.state ∨ (P.state = .sleeping ∧ (P.wake ch).state = .runnable) := by
  rw [wake_state]
  by_cases h : P.state = .sleeping ∧ P.chan = ch
  · rw [if_pos h]
    exact Or.inr ⟨h.1, rfl⟩
  · rw [if_neg h]
    exact Or.inl rfl

/-- After a wakeup on `ch` nothing sleeps on `ch`. -/
theorem wake_sleeping {P : Proc} {ch : Option Chan} (h : (P.wake ch).state = .sleeping) :
    P.state = .sleeping ∧ P.chan ≠ ch := by
  rw [wake_state] at h
  by_cases hc : P.state = .sleeping ∧ P.chan = ch
  · rw [if_pos hc] at h
    cases h
  · rw [if_neg hc] at h
    exact ⟨h, fun hch => hc ⟨h, hch⟩⟩

theorem wake_zombie {P : Proc} {ch : Option Chan} :
    (P.wake ch).state = .zombie ↔ P.state = .zombie := by
  rw [wake_state]
  by_cases hc : P.state = .sleeping ∧ P.chan = ch
  · rw [if_pos hc, hc.1]
    simp
  · rw [if_neg hc]

theorem wake_wake : (P.wake ch).wake ch = P.wake ch := by
  have h : ¬ ((P.wake ch).state = .sleeping ∧ (P.wake ch).chan = ch) := by
    rintro ⟨hs, hch⟩
    rw [wake_chan] at hch
    exact (wake_sleeping hs).2 hch
  rw [wake, if_neg h]

end Proc

@[simp] theorem wakeup1_proc (k : Kernel n) (ch : Option Chan) (p : Slot) :
    (wakeup1 k ch).proc p = (k.proc p).wake ch := rfl

@[simp] theorem wakeup1_initproc (k : Kernel n) (ch : Option Chan) :
    (wakeup1 k ch).initproc = k.initproc := rfl

@[simp] theorem wakeup1_fault (k : Kernel n) (ch : Option Chan) :
    (wakeup1 k ch).fault = k.fault := rfl

/-- Entering the scheduler from a process that has changed its state. -/
theorem sched_of_ne {k : Kernel n} {c : Fin n} {p : Slot} (h : (k.proc p).state ≠ .running) :
    sched k c p = k.setProc c none :=
  if_neg h

/-! ## Searching the table -/

theorem findUnused_state {k : Kernel n} {p : Slot} (h : findUnused k = some p) :
    (k.proc p).state = .unused := by
  have hfound := List.find?_some h
  exact of_decide_eq_true hfound

/-- The two outcomes of `forks` up to the release of the lock. -/
theorem forks_cases (rr : Bool) (tickets : ℤ) (k : Kernel n) (p : Slot) :
    forks rr tickets k p = k ∨
      ∃ np, (k.proc np).state = .unused ∧
        forks rr tickets k p =
          { (k.modify np (Proc.alloc rr k.nextpid k.created tickets)).modify p fun P =>
              { P with pc := .allocated np tickets } with
            nextpid := Word32.wrap (k.nextpid + 1), created := k.created + 1 } := by
  unfold forks allocproc
  rcases hf : findUnused k with _ | np
  · exact Or.inl rfl
  · exact Or.inr ⟨np, findUnused_state hf, rfl⟩

/-- The outcome of the scan of `wait`, for the part `l` of the table: a zombie
child, or whether there was a child at all. -/
theorem waitScan_spec (k : Kernel n) (p : Slot) {l : List Slot} :
    ∀ {b : Bool},
      match waitScan k p l b with
      | .inl q => (k.proc q).parent = some p ∧ (k.proc q).state = .zombie
      | .inr havekids =>
        (∀ q ∈ l, (k.proc q).parent = some p → (k.proc q).state ≠ .zombie) ∧
          (havekids = true ↔ b = true ∨ ∃ q ∈ l, (k.proc q).parent = some p) := by
  induction l with
  | nil =>
    intro b
    simp [waitScan]
  | cons q l ih =>
    intro b
    by_cases hq : (k.proc q).parent = some p
    · by_cases hz : (k.proc q).state = .zombie
      · rw [waitScan, if_neg (not_not.mpr hq), if_pos hz]
        exact ⟨hq, hz⟩
      · rw [waitScan, if_neg (not_not.mpr hq), if_neg hz]
        have := ih (b := true)
        revert this
        cases waitScan k p l true with
        | inl r => exact fun h => h
        | inr havekids =>
          rintro ⟨hno, hk⟩
          refine ⟨?_, ?_⟩
          · intro r hr
            rcases List.mem_cons.mp hr with rfl | hr
            · exact fun _ => hz
            · exact hno r hr
          · rw [hk]
            exact ⟨fun _ => Or.inr ⟨q, List.mem_cons_self, hq⟩, fun _ => Or.inl rfl⟩
    · rw [waitScan, if_pos hq]
      have := ih (b := b)
      revert this
      cases waitScan k p l b with
      | inl r => exact fun h => h
      | inr havekids =>
        rintro ⟨hno, hk⟩
        refine ⟨?_, ?_⟩
        · intro r hr
          rcases List.mem_cons.mp hr with rfl | hr
          · exact fun h => absurd h hq
          · exact hno r hr
        · rw [hk]
          constructor
          · rintro (hb | ⟨r, hr, hrp⟩)
            · exact Or.inl hb
            · exact Or.inr ⟨r, List.mem_cons_of_mem _ hr, hrp⟩
          · rintro (hb | ⟨r, hr, hrp⟩)
            · exact Or.inl hb
            · rcases List.mem_cons.mp hr with rfl | hr
              · exact absurd hrp hq
              · exact Or.inr ⟨r, hr, hrp⟩

/-- **What `wait` does under the lock**: reap a zombie child, or return `-1`
because there is no child or the caller is killed, or go to sleep on its own
entry with no zombie child in the table. -/
theorem waitLoop_cases (k : Kernel n) (c : Fin n) (p : Slot) :
    (∃ q, (k.proc q).parent = some p ∧ (k.proc q).state = .zombie ∧
      waitLoop k c p = (k.modify q Proc.reap).note
        (.reap p (k.proc q).parent (k.proc q).uid (k.proc q).pid)) ∨
    (((∀ q, (k.proc q).parent ≠ some p) ∨ (k.proc p).killed = true) ∧
      waitLoop k c p = k.note (.waitFail p (hasChild k p) (k.proc p).killed)) ∨
    ((∀ q, (k.proc q).parent = some p → (k.proc q).state ≠ .zombie) ∧
      waitLoop k c p = sleep k c p (.proc p) .wait) := by
  have hspec := waitScan_spec k p (l := List.finRange NPROC) (b := false)
  unfold waitLoop
  rcases hscan : waitScan k p (List.finRange NPROC) false with q | havekids
  · rw [hscan] at hspec
    exact Or.inl ⟨q, hspec.1, hspec.2, rfl⟩
  · rw [hscan] at hspec
    obtain ⟨hno, hk⟩ := hspec
    by_cases hret : (!havekids || (k.proc p).killed) = true
    · refine Or.inr (Or.inl ⟨?_, if_pos hret⟩)
      rcases Bool.or_eq_true _ _ ▸ hret with h | h
      · refine Or.inl fun q hq => ?_
        have : havekids = true := hk.mpr (Or.inr ⟨q, List.mem_finRange q, hq⟩)
        rw [this] at h
        cases h
      · exact Or.inr h
    · exact Or.inr (Or.inr ⟨fun q => hno q (List.mem_finRange q), if_neg hret⟩)

/-! ## Passing children to init -/

/-- What the loop does to the parent field of one entry. -/
def Proc.adopt (p init : Slot) (P : Proc) : Proc :=
  if P.parent = some p then { P with parent := some init } else P

namespace Proc

variable (p init : Slot) (P : Proc)

theorem adopt_parent :
    (P.adopt p init).parent = if P.parent = some p then some init else P.parent := by
  unfold adopt
  split <;> rfl

@[simp] theorem adopt_state : (P.adopt p init).state = P.state := by unfold adopt; split <;> rfl

@[simp] theorem adopt_pid : (P.adopt p init).pid = P.pid := by unfold adopt; split <;> rfl

@[simp] theorem adopt_chan : (P.adopt p init).chan = P.chan := by unfold adopt; split <;> rfl

@[simp] theorem adopt_pc : (P.adopt p init).pc = P.pc := by unfold adopt; split <;> rfl

@[simp] theorem adopt_uid : (P.adopt p init).uid = P.uid := by unfold adopt; split <;> rfl

theorem adopt_wake (ch : Option Chan) :
    (P.wake ch).adopt p init = (P.adopt p init).wake ch := by
  unfold adopt wake
  split <;> split <;> simp_all

end Proc

/-- One turn of the loop, entry by entry: the entry it is at is adopted, and if
that was a zombie child everything sleeping on init is woken. -/
theorem abandon_proc (p : Slot) (k : Kernel n) (q r : Slot) :
    (abandon p k q).proc r =
      let P := if r = q then (k.proc r).adopt p k.initproc else k.proc r
      if (k.proc q).parent = some p ∧ (k.proc q).state = .zombie
      then P.wake (some (.proc k.initproc)) else P := by
  unfold abandon
  by_cases hq : (k.proc q).parent = some p
  · rw [if_pos hq]
    have hmod : (k.modify q fun P => { P with parent := some k.initproc }).proc r =
        if r = q then (k.proc r).adopt p k.initproc else k.proc r := by
      rw [Kernel.modify_proc]
      by_cases hr : r = q
      · subst hr
        simp [Proc.adopt, hq]
      · simp [hr]
    by_cases hz : (k.proc q).state = .zombie
    · simp only [Kernel.modify_proc_self, hz, if_true, wakeup1_proc, hmod, hq, and_self]
    · simp only [Kernel.modify_proc_self, hz, if_false, hmod, and_false]
  · rw [if_neg hq]
    simp only [hq, false_and, if_false]
    by_cases hr : r = q
    · subst hr
      simp [Proc.adopt, hq]
    · simp [hr]

theorem abandon_frame (p : Slot) (k : Kernel n) (q : Slot) :
    (abandon p k q).cpu = k.cpu ∧ (abandon p k q).nextpid = k.nextpid ∧
      (abandon p k q).initproc = k.initproc ∧ (abandon p k q).fault = k.fault ∧
      (abandon p k q).created = k.created ∧ (abandon p k q).hist = k.hist := by
  unfold abandon
  split
  · dsimp only
    split <;> exact ⟨rfl, rfl, rfl, rfl, rfl, rfl⟩
  · exact ⟨rfl, rfl, rfl, rfl, rfl, rfl⟩

theorem foldl_abandon_frame (p : Slot) {l : List Slot} :
    ∀ {k : Kernel n}, let k' := l.foldl (abandon p) k
      k'.cpu = k.cpu ∧ k'.nextpid = k.nextpid ∧ k'.initproc = k.initproc ∧
        k'.fault = k.fault ∧ k'.created = k.created ∧ k'.hist = k.hist := by
  induction l with
  | nil => intro k; exact ⟨rfl, rfl, rfl, rfl, rfl, rfl⟩
  | cons q l ih =>
    intro k
    obtain ⟨h₁, h₂, h₃, h₄, h₅, h₆⟩ := abandon_frame p k q
    obtain ⟨g₁, g₂, g₃, g₄, g₅, g₆⟩ := ih (k := abandon p k q)
    exact ⟨g₁.trans h₁, g₂.trans h₂, g₃.trans h₃, g₄.trans h₄, g₅.trans h₅, g₆.trans h₆⟩

/-- The loop over the part `l` of the table. -/
theorem foldl_abandon_proc (p : Slot) {l : List Slot} :
    ∀ {k : Kernel n}, l.Nodup → ∀ r,
      (l.foldl (abandon p) k).proc r =
        let P := if r ∈ l then (k.proc r).adopt p k.initproc else k.proc r
        if ∃ q ∈ l, (k.proc q).parent = some p ∧ (k.proc q).state = .zombie
        then P.wake (some (.proc k.initproc)) else P := by
  induction l with
  | nil => intro k _ r; simp
  | cons q l ih =>
    intro k hnd r
    obtain ⟨hql, hnd⟩ := List.nodup_cons.mp hnd
    rw [List.foldl_cons, ih hnd r, (abandon_frame p k q).2.2.1]
    -- the turn at `q` changes neither parent nor zombie-ness of the later entries
    have hlater : (∃ s ∈ l, ((abandon p k q).proc s).parent = some p ∧
          ((abandon p k q).proc s).state = .zombie) ↔
        ∃ s ∈ l, (k.proc s).parent = some p ∧ (k.proc s).state = .zombie := by
      refine exists_congr fun s => and_congr_right fun hs => ?_
      have hsq : s ≠ q := fun h => hql (h ▸ hs)
      rw [abandon_proc]
      simp only [hsq, if_false]
      split
      · rw [Proc.wake_parent, Proc.wake_zombie]
      · rfl
    have hr : (if r ∈ l then ((abandon p k q).proc r).adopt p k.initproc
          else (abandon p k q).proc r) =
        let P := if r ∈ q :: l then (k.proc r).adopt p k.initproc else k.proc r
        if (k.proc q).parent = some p ∧ (k.proc q).state = .zombie
        then P.wake (some (.proc k.initproc)) else P := by
      rw [abandon_proc]
      by_cases hrl : r ∈ l
      · have hrq : r ≠ q := fun h => hql (h ▸ hrl)
        simp only [hrl, hrq, if_false, if_true, List.mem_cons, or_true]
        split
        · rw [Proc.adopt_wake]
        · rfl
      · by_cases hrq : r = q
        · subst hrq
          simp [hrl]
        · simp [hrl, hrq]
    simp only [hlater, hr, List.exists_mem_cons_iff]
    by_cases h₁ : (k.proc q).parent = some p ∧ (k.proc q).state = .zombie
    · by_cases h₂ : ∃ s ∈ l, (k.proc s).parent = some p ∧ (k.proc s).state = .zombie
      · simp only [h₁, h₂, if_true, and_self, or_true, Proc.wake_wake]
      · simp only [h₁, h₂, if_true, if_false, and_self, or_false]
    · simp only [h₁, if_false, false_or]

/-- **What the loop of `exit` does to the table.** Every child's parent becomes
init; if one of the children is a zombie, everything sleeping on init's entry
is woken. -/
theorem passChildren_proc (k : Kernel n) (p r : Slot) :
    (passChildren k p).proc r =
      if ∃ q, (k.proc q).parent = some p ∧ (k.proc q).state = .zombie
      then ((k.proc r).adopt p k.initproc).wake (some (.proc k.initproc))
      else (k.proc r).adopt p k.initproc := by
  have h := foldl_abandon_proc p (k := k) (List.nodup_finRange NPROC) r
  dsimp only at h
  rw [if_pos (List.mem_finRange r)] at h
  rw [passChildren, h]
  by_cases hz : ∃ q, (k.proc q).parent = some p ∧ (k.proc q).state = .zombie
  · obtain ⟨q, hq⟩ := hz
    rw [if_pos ⟨q, List.mem_finRange q, hq⟩, if_pos ⟨q, hq⟩]
  · rw [if_neg fun ⟨q, _, hq⟩ => hz ⟨q, hq⟩, if_neg hz]

theorem passChildren_frame (k : Kernel n) (p : Slot) :
    (passChildren k p).cpu = k.cpu ∧ (passChildren k p).nextpid = k.nextpid ∧
      (passChildren k p).initproc = k.initproc ∧ (passChildren k p).fault = k.fault ∧
      (passChildren k p).created = k.created ∧ (passChildren k p).hist = k.hist :=
  foldl_abandon_frame p

end StrideXv6
