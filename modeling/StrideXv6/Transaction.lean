import StrideXv6.Log
import StrideXv6.Run
import Mathlib.Data.Finset.Card
import Mathlib.Data.Fintype.Basic
import Mathlib.Data.List.Pairwise

/-!
# The transaction protocol (`begin_op`, `end_op`, `commit`)

Any number of processes, each running operations one after the other: `begin_op`,
some calls of `log_write`, `end_op`. What is done under `log.lock` is one step.
`commit` runs without the lock, so every access it makes to the log is a step of
its own, and the steps of other processes come in between.

Each operation has a number, and three fields record what became of its calls of
`log_write`: `logged` has all of them, `pending` those that no header write has
taken yet, and `commits` the headers that were written, each with what it took.

The invariant `Txn.Inv` says that the counter counts (`count`), that `committing`
is set exactly while some process is in `commit` (`committer`, `committed`), that
nobody is inside an operation then (`idle`), and that nobody sleeps who could be
admitted (`asleep`).
-/

namespace StrideXv6

open Machine

variable {ι : Type*} [Fintype ι] [DecidableEq ι]

/-- Where a process stands in the protocol. -/
inductive OpPc : Type where
  /-- outside any operation -/
  | outside
  /-- in `begin_op`, about to take the lock -/
  | entering
  /-- asleep in `begin_op` -/
  | sleeping
  /-- between `begin_op` and `end_op` of the operation with this number -/
  | inside : ℕ → OpPc
  /-- in `commit`, before its test of `lh.n` -/
  | commit
  /-- in `write_log`, before its loop test for `tail` -/
  | writeLog : (tail : ℕ) → OpPc
  /-- before the first `write_head` -/
  | writeHead
  /-- in `install_trans`, before its loop test for `tail` -/
  | installTrans : (tail : ℕ) → OpPc
  /-- before `log.lh.n = 0` -/
  | clear
  /-- before the second `write_head` -/
  | eraseHead
  /-- `commit` has returned; about to take the lock again -/
  | finish
  deriving DecidableEq, Repr

/-- The process is between the two critical sections of an `end_op` that
commits. -/
def OpPc.Committing : OpPc → Prop
  | outside | entering | sleeping | inside _ => False
  | commit | writeLog _ | writeHead | installTrans _ | clear | eraseHead | finish => True

/-- The header has been written, or there was nothing to write. -/
def OpPc.Taken : OpPc → Prop
  | installTrans _ | clear | eraseHead | finish => True
  | _ => False

/-- The process is inside an operation. -/
def OpPc.Inside : OpPc → Prop
  | inside _ => True
  | _ => False

instance : DecidablePred OpPc.Inside := fun pc => by
  cases pc <;> unfold OpPc.Inside <;> infer_instance

/-- A call of `log_write`: the operation that made it, and the block. -/
structure Write : Type where
  op : ℕ
  block : ℕ
  deriving DecidableEq, Repr

/-- A header that was written: its blocks, and the calls of `log_write` it
took. -/
structure Commit : Type where
  blocks : List ℕ
  writes : List Write
  deriving DecidableEq, Repr

/-- The two commits took calls of different operations. -/
def Commit.Disjoint (c d : Commit) : Prop := ∀ w ∈ c.writes, ∀ v ∈ d.writes, w.op ≠ v.op

instance : Std.Symm Commit.Disjoint := ⟨fun _ _ h w hw v hv he => h v hv w hw he.symm⟩

/-- The log and its users. -/
structure Txn (ι : Type*) : Type _ where
  /-- `log` -/
  log : Log
  /-- where each process stands -/
  pc : ι → OpPc
  /-- `end_op` found `committing` set -/
  panicked : Bool
  /-- the number of the next operation -/
  nextOp : ℕ
  /-- all calls of `log_write` so far -/
  logged : List Write
  /-- those no header write has taken yet -/
  pending : List Write
  /-- the headers written, newest first -/
  commits : List Commit

namespace Txn

/-- A log nobody uses yet. -/
def init (l : Log) : Txn ι where
  log := { l with outstanding := 0, committing := false, lh := [] }
  pc := fun _ => .outside
  panicked := false
  nextOp := 0
  logged := []
  pending := []
  commits := []

/-- Move a process on. -/
def goto (s : Txn ι) (p : ι) (pc : OpPc) : Txn ι :=
  { s with pc := Function.update s.pc p pc }

/-- `wakeup(&log)`. -/
def wakeup (s : Txn ι) : Txn ι :=
  { s with pc := fun q => if s.pc q = .sleeping then .entering else s.pc q }

/-- `begin_op` from the acquisition of the lock on, or from a return of its
`sleep`. -/
def enter (s : Txn ι) (p : ι) : Txn ι :=
  match s.log.beginOp with
  | none => s.goto p .sleeping
  | some l => { s.goto p (.inside s.nextOp) with log := l, nextOp := s.nextOp + 1 }

/-- `log_write(b)` by operation `op`. -/
def logWrite (s : Txn ι) (op b : ℕ) : Txn ι :=
  { s with log := s.log.logWrite b, logged := ⟨op, b⟩ :: s.logged
           pending := ⟨op, b⟩ :: s.pending }

/-- The first critical section of `end_op`. -/
def leave (s : Txn ι) (p : ι) : Txn ι :=
  match s.log.endOp with
  | .panic => { s with panicked := true }
  | .commit l => { s.goto p .commit with log := l }
  | .wakeup l => { (s.goto p .outside).wakeup with log := l }

/-- One access of `commit` to the log, and the second critical section of
`end_op`. -/
def commitStep (s : Txn ι) (p : ι) : Option (Txn ι) :=
  match s.pc p with
  | .commit => some (s.goto p (if 0 < s.log.lh.length then .writeLog 0 else .finish))
  | .writeLog tail =>
    some (s.goto p (if tail < s.log.lh.length then .writeLog (tail + 1) else .writeHead))
  | .writeHead =>
    some { s.goto p (.installTrans 0) with
      commits := ⟨s.log.lh, s.pending⟩ :: s.commits, pending := [] }
  | .installTrans tail =>
    some (s.goto p (if tail < s.log.lh.length then .installTrans (tail + 1) else .clear))
  | .clear => some { s.goto p .eraseHead with log := { s.log with lh := [] } }
  | .eraseHead => some (s.goto p .finish)
  | .finish =>
    some { (s.goto p .outside).wakeup with log := { s.log with committing := false } }
  | _ => none

end Txn

/-- What a process can do next. -/
inductive TxnAction (ι : Type*) : Type _ where
  /-- call `begin_op` -/
  | beginOp : ι → TxnAction ι
  /-- take the lock in `begin_op` -/
  | enter : ι → TxnAction ι
  /-- be woken, for whatever reason -/
  | wake : ι → TxnAction ι
  /-- call `log_write` -/
  | logWrite : ι → ℕ → TxnAction ι
  /-- call `end_op` -/
  | endOp : ι → TxnAction ι
  /-- go on in `commit` -/
  | commit : ι → TxnAction ι
  deriving DecidableEq, Repr

namespace Txn

/-- The next state, or `none` where the process is somewhere else. -/
def step (s : Txn ι) (a : TxnAction ι) : Option (Txn ι) :=
  if s.panicked then none
  else
    match a with
    | .beginOp p => if s.pc p = .outside then some (s.goto p .entering) else none
    | .enter p => if s.pc p = .entering then some (s.enter p) else none
    | .wake p => if s.pc p = .sleeping then some (s.goto p .entering) else none
    | .logWrite p b =>
      match s.pc p with
      | .inside op => some (s.logWrite op b)
      | _ => none
    | .endOp p =>
      match s.pc p with
      | .inside _ => some (s.leave p)
      | _ => none
    | .commit p => s.commitStep p

/-! ## Where the processes stand -/

omit [Fintype ι] in
@[simp] theorem goto_pc (s : Txn ι) (p q : ι) (pc : OpPc) :
    (s.goto p pc).pc q = if q = p then pc else s.pc q := by
  simp only [goto, Function.update_apply]

omit [Fintype ι] [DecidableEq ι] in
theorem wakeup_pc (s : Txn ι) (q : ι) :
    s.wakeup.pc q = if s.pc q = .sleeping then .entering else s.pc q := rfl

omit [Fintype ι] [DecidableEq ι] in
/-- A wakeup changes nothing but that nobody sleeps. -/
theorem wakeup_pc_cases (s : Txn ι) (q : ι) :
    (s.pc q = .sleeping ∧ s.wakeup.pc q = .entering) ∨
      (s.pc q ≠ .sleeping ∧ s.wakeup.pc q = s.pc q) := by
  rw [wakeup_pc]
  by_cases hq : s.pc q = .sleeping
  · exact Or.inl ⟨hq, if_pos hq⟩
  · exact Or.inr ⟨hq, if_neg hq⟩

omit [Fintype ι] [DecidableEq ι] in
theorem wakeup_ne_sleeping (s : Txn ι) (q : ι) : s.wakeup.pc q ≠ .sleeping := by
  rcases s.wakeup_pc_cases q with ⟨-, h⟩ | ⟨hne, h⟩
  · rw [h]
    simp
  · rwa [h]

omit [Fintype ι] [DecidableEq ι] in
theorem wakeup_inside (s : Txn ι) (q : ι) : (s.wakeup.pc q).Inside ↔ (s.pc q).Inside := by
  rcases s.wakeup_pc_cases q with ⟨hs, h⟩ | ⟨-, h⟩
  · rw [h, hs]
    exact Iff.rfl
  · rw [h]

omit [Fintype ι] [DecidableEq ι] in
theorem wakeup_inside_eq (s : Txn ι) (q : ι) (op : ℕ) :
    s.wakeup.pc q = .inside op ↔ s.pc q = .inside op := by
  rcases s.wakeup_pc_cases q with ⟨hs, h⟩ | ⟨-, h⟩
  · rw [h, hs]
    simp
  · rw [h]

omit [Fintype ι] [DecidableEq ι] in
theorem wakeup_committing (s : Txn ι) (q : ι) :
    (s.wakeup.pc q).Committing ↔ (s.pc q).Committing := by
  rcases s.wakeup_pc_cases q with ⟨hs, h⟩ | ⟨-, h⟩
  · rw [h, hs]
    exact Iff.rfl
  · rw [h]

/-- The processes inside an operation. -/
def insiders (s : Txn ι) : Finset ι := Finset.univ.filter fun p => (s.pc p).Inside

omit [DecidableEq ι] in
theorem mem_insiders {s : Txn ι} {p : ι} : p ∈ s.insiders ↔ (s.pc p).Inside := by
  simp [insiders]

omit [DecidableEq ι] in
theorem insiders_congr {s s' : Txn ι} (h : ∀ q, (s'.pc q).Inside ↔ (s.pc q).Inside) :
    s'.insiders = s.insiders := by
  ext q
  rw [mem_insiders, mem_insiders, h]

/-- One process enters. -/
theorem card_insiders_enter {s s' : Txn ι} {p : ι} (hp : ¬ (s.pc p).Inside)
    (hp' : (s'.pc p).Inside) (h : ∀ q, q ≠ p → s'.pc q = s.pc q) :
    s'.insiders.card = s.insiders.card + 1 := by
  have hins : s'.insiders = insert p s.insiders := by
    ext q
    rw [Finset.mem_insert, mem_insiders, mem_insiders]
    by_cases hq : q = p
    · subst hq
      exact ⟨fun _ => Or.inl rfl, fun _ => hp'⟩
    · rw [h q hq]
      exact ⟨Or.inr, fun h => h.resolve_left hq⟩
  rw [hins, Finset.card_insert_of_notMem]
  rwa [mem_insiders]

omit [Fintype ι] in
/-- The two outcomes of `end_op` while nobody commits. -/
theorem leave_cases (s : Txn ι) (p : ι) (hc : s.log.committing = false) :
    (s.log.outstanding - 1 = 0 ∧ s.leave p = { s.goto p .commit with
      log := { s.log with outstanding := s.log.outstanding - 1, committing := true } }) ∨
    (s.log.outstanding - 1 ≠ 0 ∧ s.leave p = { (s.goto p .outside).wakeup with
      log := { s.log with outstanding := s.log.outstanding - 1 } }) := by
  unfold leave Log.endOp
  dsimp only
  rw [if_neg (by rw [hc]; simp)]
  by_cases hzero : s.log.outstanding - 1 = 0
  · rw [if_pos hzero]
    exact Or.inl ⟨hzero, rfl⟩
  · rw [if_neg hzero]
    exact Or.inr ⟨hzero, rfl⟩

/-! ## The protocol -/

/-- What holds between any two steps. -/
structure Inv (s : Txn ι) : Prop where
  /-- the panic is not reached -/
  panicked : s.panicked = false
  /-- the counter counts -/
  count : s.log.outstanding = s.insiders.card
  /-- `committing` is set while a process is in `commit` -/
  committer : ∀ p, (s.pc p).Committing → s.log.committing = true
  /-- and only then -/
  committed : s.log.committing = true → ∃ p, (s.pc p).Committing
  /-- by one process -/
  single : ∀ p q, (s.pc p).Committing → (s.pc q).Committing → p = q
  /-- while nobody is inside an operation -/
  idle : s.log.committing = true → s.log.outstanding = 0
  /-- whoever sleeps could not be admitted -/
  asleep : ∀ p, s.pc p = .sleeping → s.log.committing = true ∨ s.log.Full

omit [DecidableEq ι] in
theorem Inv.outstanding_pos {s : Txn ι} (h : s.Inv) {p : ι} (hp : (s.pc p).Inside) :
    0 < s.log.outstanding := by
  rw [h.count]
  exact_mod_cast Finset.card_pos.mpr ⟨p, mem_insiders.mpr hp⟩

omit [DecidableEq ι] in
/-- Nobody is inside an operation while a commit is on. -/
theorem Inv.not_committing {s : Txn ι} (h : s.Inv) {p : ι} (hp : (s.pc p).Inside) :
    s.log.committing = false := by
  rcases hc : s.log.committing with _ | _
  · rfl
  · have := h.idle hc
    have := h.outstanding_pos hp
    omega

omit [DecidableEq ι] in
/-- A step that moves processes around outside of operations and commits. -/
theorem Inv.congr {s s' : Txn ι} (h : s.Inv) (hpanicked : s'.panicked = s.panicked)
    (hlog : s'.log = s.log) (hinside : ∀ q, (s'.pc q).Inside ↔ (s.pc q).Inside)
    (hcommitting : ∀ q, (s'.pc q).Committing ↔ (s.pc q).Committing)
    (hasleep : ∀ q, s'.pc q = .sleeping → s.pc q = .sleeping ∨
      s.log.committing = true ∨ s.log.Full) : s'.Inv := by
  refine ⟨hpanicked.trans h.panicked, ?_, ?_, ?_, ?_, ?_, ?_⟩
  · rw [hlog, insiders_congr hinside]
    exact h.count
  · intro p hp
    rw [hlog]
    exact h.committer p ((hcommitting p).mp hp)
  · intro hc
    rw [hlog] at hc
    obtain ⟨p, hp⟩ := h.committed hc
    exact ⟨p, (hcommitting p).mpr hp⟩
  · intro p q hp hq
    exact h.single p q ((hcommitting p).mp hp) ((hcommitting q).mp hq)
  · rw [hlog]
    exact h.idle
  · intro p hp
    rw [hlog]
    rcases hasleep p hp with hs | hs
    · exact h.asleep p hs
    · exact hs

/-- Moving a process on without entering or leaving an operation or a commit. -/
theorem Inv.goto {s : Txn ι} (h : s.Inv) {p : ι} {pc : OpPc}
    (hinside : pc.Inside ↔ (s.pc p).Inside) (hcommitting : pc.Committing ↔ (s.pc p).Committing)
    (hasleep : pc = .sleeping → s.log.committing = true ∨ s.log.Full) : (s.goto p pc).Inv := by
  refine h.congr rfl rfl ?_ ?_ ?_ <;> intro q <;> rw [goto_pc] <;> split
  · next hq => rw [hinside, hq]
  · rfl
  · next hq => rw [hcommitting, hq]
  · rfl
  · exact fun he => Or.inr (hasleep he)
  · exact Or.inl

theorem Inv.enter {s : Txn ι} (h : s.Inv) {p : ι} (hp : s.pc p = .entering) :
    (s.enter p).Inv := by
  unfold Txn.enter
  rcases hb : s.log.beginOp with _ | l
  · refine h.goto ?_ ?_ fun _ => Log.beginOp_eq_none hb
    · rw [hp]
      exact Iff.rfl
    · rw [hp]
      exact Iff.rfl
  · obtain ⟨hc, rfl⟩ := Log.beginOp_eq_some hb
    have hnone : ∀ q, ¬ (s.pc q).Committing := by
      intro q hq
      rw [h.committer q hq] at hc
      cases hc
    have hnone' : ∀ q, ¬ (((s.goto p (.inside s.nextOp)).pc q)).Committing := by
      intro q hq
      rw [goto_pc] at hq
      split at hq
      · exact hq
      · exact hnone q hq
    refine ⟨h.panicked, ?_, fun q hq => absurd hq (hnone' q), ?_, fun q _ hq => absurd hq (hnone' q),
      ?_, ?_⟩
    · have hcard : (s.goto p (.inside s.nextOp)).insiders.card = s.insiders.card + 1 := by
        refine card_insiders_enter (p := p) ?_ ?_ ?_
        · rw [hp]
          exact fun h => h
        · rw [goto_pc, if_pos rfl]
          trivial
        · intro q hq
          rw [goto_pc, if_neg hq]
      change s.log.outstanding + 1 = _
      rw [h.count]
      exact_mod_cast hcard.symm
    · intro hc'
      rw [show s.log.committing = true from hc'] at hc
      cases hc
    · intro hc'
      rw [show s.log.committing = true from hc'] at hc
      cases hc
    · -- a sleeper had no room before, and there is less now
      intro q hq
      change (s.goto p (.inside s.nextOp)).pc q = .sleeping at hq
      rw [goto_pc] at hq
      split at hq
      · cases hq
      · rcases h.asleep q hq with hs | hs
        · rw [hc] at hs
          cases hs
        · right
          unfold Log.Full MAXOPBLOCKS at hs ⊢
          dsimp only
          omega

omit [DecidableEq ι] in
theorem Inv.logWrite {s : Txn ι} (h : s.Inv) (op b : ℕ) : (s.logWrite op b).Inv := by
  obtain ⟨hout, hcom⟩ := s.log.logWrite_frame b
  refine ⟨h.panicked, ?_, ?_, ?_, h.single, ?_, ?_⟩
  · exact hout.trans h.count
  · exact fun p hp => hcom.trans (h.committer p hp)
  · exact fun hc => h.committed (hcom.symm.trans hc)
  · exact fun hc => hout.trans (h.idle (hcom.symm.trans hc))
  · intro p hp
    rcases h.asleep p hp with hs | hs
    · exact Or.inl (hcom.trans hs)
    · exact Or.inr (hs.logWrite b)

theorem Inv.leave {s : Txn ι} (h : s.Inv) {p : ι} {op : ℕ} (hp : s.pc p = .inside op) :
    (s.leave p).Inv := by
  have hin : (s.pc p).Inside := by
    rw [hp]
    trivial
  have hc := h.not_committing hin
  have hnone : ∀ q, ¬ (s.pc q).Committing := by
    intro q hq
    rw [h.committer q hq] at hc
    cases hc
  have hcard : ∀ {s' : Txn ι}, ¬ (s'.pc p).Inside →
      (∀ q, q ≠ p → ((s'.pc q).Inside ↔ (s.pc q).Inside)) →
      s.log.outstanding - 1 = s'.insiders.card := by
    intro s' hp' hq'
    have hins : s'.insiders = s.insiders.erase p := by
      ext q
      rw [Finset.mem_erase, mem_insiders, mem_insiders]
      by_cases hq : q = p
      · subst hq
        exact ⟨fun h => absurd h hp', fun h => absurd rfl h.1⟩
      · rw [hq' q hq]
        exact ⟨fun h => ⟨hq, h⟩, fun h => h.2⟩
    have hmem := mem_insiders.mpr hin
    rw [hins, Finset.card_erase_of_mem hmem, h.count]
    have := Finset.card_pos.mpr ⟨p, hmem⟩
    omega
  rcases s.leave_cases p hc with ⟨hzero, heq⟩ | ⟨-, heq⟩
  · -- the last one out commits
    rw [heq]
    have hself : (s.goto p .commit).pc p = .commit := by rw [goto_pc, if_pos rfl]
    have honly : ∀ q, ((s.goto p .commit).pc q).Committing → q = p := by
      intro q hq
      by_contra hne
      rw [goto_pc, if_neg hne] at hq
      exact hnone q hq
    refine ⟨h.panicked, ?_, fun _ _ => rfl, fun _ => ⟨p, ?_⟩, ?_, fun _ => hzero, fun _ _ => Or.inl rfl⟩
    · refine hcard ?_ ?_
      · rw [show ((s.goto p .commit).pc p) = .commit from hself]
        exact fun h => h
      · intro q hq
        change ((s.goto p .commit).pc q).Inside ↔ _
        rw [goto_pc, if_neg hq]
    · change ((s.goto p .commit).pc p).Committing
      rw [hself]
      trivial
    · intro q r hq hr
      rw [honly q hq, honly r hr]
  · rw [heq]
    have hnone' : ∀ q, ¬ ((s.goto p .outside).wakeup.pc q).Committing := by
      intro q hq
      rw [wakeup_committing, goto_pc] at hq
      split at hq
      · exact hq
      · exact hnone q hq
    refine ⟨h.panicked, ?_, fun q hq => absurd hq (hnone' q), fun hc' => ?_,
      fun q _ hq => absurd hq (hnone' q), fun hc' => ?_,
      fun q hq => absurd hq (wakeup_ne_sleeping _ q)⟩
    · refine hcard ?_ ?_
      · change ¬ ((s.goto p .outside).wakeup.pc p).Inside
        rw [wakeup_inside, goto_pc, if_pos rfl]
        exact fun h => h
      · intro q hq
        change ((s.goto p .outside).wakeup.pc q).Inside ↔ _
        rw [wakeup_inside, goto_pc, if_neg hq]
    · rw [show s.log.committing = true from hc'] at hc
      cases hc
    · rw [show s.log.committing = true from hc'] at hc
      cases hc

/-- The end of `end_op`: the one process in `commit` leaves it, and the sleepers
are woken. -/
theorem Inv.finish {s : Txn ι} (h : s.Inv) {p : ι} (hp : s.pc p = .finish) :
    Inv { (s.goto p .outside).wakeup with log := { s.log with committing := false } } := by
  have hcp : (s.pc p).Committing := by
    rw [hp]
    trivial
  have hnone : ∀ q, ¬ ((s.goto p .outside).wakeup.pc q).Committing := by
    intro q hq
    rw [wakeup_committing, goto_pc] at hq
    split at hq
    · exact hq
    · next hne => exact hne (h.single q p hq hcp)
  refine ⟨h.panicked, ?_, fun q hq => absurd hq (hnone q), fun hc => ?_,
    fun q _ hq => absurd hq (hnone q), fun hc => ?_,
    fun q hq => absurd hq (wakeup_ne_sleeping _ q)⟩
  · have hins : Txn.insiders { (s.goto p .outside).wakeup with
        log := { s.log with committing := false } } = s.insiders := by
      refine insiders_congr fun q => ?_
      change ((s.goto p .outside).wakeup.pc q).Inside ↔ _
      rw [wakeup_inside, goto_pc]
      split
      · next hq =>
        rw [hq, hp]
        exact Iff.rfl
      · rfl
    rw [hins]
    exact h.count
  · cases hc
  · cases hc

/-- The steps of `commit` that do not change the log. -/
theorem Inv.commit_goto {s : Txn ι} (h : s.Inv) {p : ι} {pc : OpPc} (hp : (s.pc p).Committing)
    (hpc : pc.Committing) : (s.goto p pc).Inv := by
  have hout : ∀ {pc : OpPc}, pc.Committing → ¬ pc.Inside ∧ pc ≠ .sleeping := by
    intro pc hpc
    cases pc <;> first | exact absurd hpc (fun h => h) | exact ⟨fun h => h, by simp⟩
  refine h.goto ?_ (iff_of_true hpc hp) fun he => absurd he (hout hpc).2
  exact iff_of_false (hout hpc).1 (hout hp).1

theorem Inv.commitStep {s s' : Txn ι} (h : s.Inv) {p : ι} (hs : s.commitStep p = some s') :
    s'.Inv := by
  unfold Txn.commitStep at hs
  split at hs
  · next hp =>
    obtain rfl := Option.some.inj hs
    refine h.commit_goto (by rw [hp]; trivial) ?_
    split <;> trivial
  · next hp =>
    obtain rfl := Option.some.inj hs
    refine h.commit_goto (by rw [hp]; trivial) ?_
    split <;> trivial
  · next hp =>
    obtain rfl := Option.some.inj hs
    have hg : (s.goto p (.installTrans 0)).Inv := h.commit_goto (by rw [hp]; trivial) trivial
    exact ⟨hg.panicked, hg.count, hg.committer, hg.committed, hg.single, hg.idle, hg.asleep⟩
  · next hp =>
    obtain rfl := Option.some.inj hs
    refine h.commit_goto (by rw [hp]; trivial) ?_
    split <;> trivial
  · next hp =>
    obtain rfl := Option.some.inj hs
    have hcp : (s.pc p).Committing := by rw [hp]; trivial
    have hg : (s.goto p .eraseHead).Inv := h.commit_goto hcp trivial
    exact ⟨hg.panicked, hg.count, hg.committer, hg.committed, hg.single, hg.idle,
      fun _ _ => Or.inl (h.committer p hcp)⟩
  · next hp =>
    obtain rfl := Option.some.inj hs
    exact h.commit_goto (by rw [hp]; trivial) trivial
  · next hp =>
    obtain rfl := Option.some.inj hs
    exact h.finish hp
  · cases hs

/-! ## The calls of `log_write` -/

/-- What has become of the calls of `log_write`. -/
structure Recorded (s : Txn ι) : Prop where
  /-- operations in progress have numbers -/
  op_lt : ∀ p op, s.pc p = .inside op → op < s.nextOp
  /-- of their own -/
  op_inj : ∀ p q op, s.pc p = .inside op → s.pc q = .inside op → p = q
  /-- so have the calls -/
  logged_lt : ∀ w ∈ s.logged, w.op < s.nextOp
  /-- a call waits for a commit or is in one -/
  logged_iff : ∀ w, w ∈ s.logged ↔ w ∈ s.pending ∨ ∃ c ∈ s.commits, w ∈ c.writes
  /-- the block of a call that waits is in the header -/
  pending_mem : ∀ w ∈ s.pending, w.block ∈ s.log.lh
  /-- once the header is written nothing waits -/
  taken : ∀ p, (s.pc p).Taken → s.pending = []
  /-- a call that waits has a commit coming -/
  drained : s.pending ≠ [] → 0 < s.log.outstanding ∨ s.log.committing = true
  /-- the blocks of a commit are those of the calls it took -/
  blocks : ∀ c ∈ s.commits, ∀ w ∈ c.writes, w.block ∈ c.blocks
  /-- the operations of a commit are over -/
  closed : ∀ c ∈ s.commits, ∀ w ∈ c.writes,
    (∀ p, s.pc p ≠ .inside w.op) ∧ ∀ v ∈ s.pending, v.op ≠ w.op
  /-- and are in no other -/
  disjoint : s.commits.Pairwise Commit.Disjoint

omit [Fintype ι] [DecidableEq ι] in
/-- A step that leaves the record and the header alone, and lets nobody into an
operation or past a header write. -/
theorem Recorded.congr {s s' : Txn ι} (h : s.Recorded) (hnext : s'.nextOp = s.nextOp)
    (hlogged : s'.logged = s.logged) (hpending : s'.pending = s.pending)
    (hcommits : s'.commits = s.commits) (hlh : s'.log.lh = s.log.lh)
    (hinside : ∀ q op, s'.pc q = .inside op → s.pc q = .inside op)
    (htaken : ∀ q, (s'.pc q).Taken → s.pending = [])
    (hdrained : s.pending ≠ [] → 0 < s'.log.outstanding ∨ s'.log.committing = true) :
    s'.Recorded := by
  refine ⟨?_, ?_, ?_, ?_, ?_, ?_, ?_, ?_, ?_, ?_⟩
  · intro p op hp
    rw [hnext]
    exact h.op_lt p op (hinside p op hp)
  · intro p q op hp hq
    exact h.op_inj p q op (hinside p op hp) (hinside q op hq)
  · rw [hlogged, hnext]
    exact h.logged_lt
  · rw [hlogged, hpending, hcommits]
    exact h.logged_iff
  · rw [hpending, hlh]
    exact h.pending_mem
  · rw [hpending]
    exact htaken
  · rw [hpending]
    exact hdrained
  · rw [hcommits]
    exact h.blocks
  · rw [hcommits, hpending]
    intro c hc w hw
    obtain ⟨hno, hne⟩ := h.closed c hc w hw
    exact ⟨fun p hp => hno p (hinside p _ hp), hne⟩
  · rw [hcommits]
    exact h.disjoint

omit [Fintype ι] in
/-- Moving a process on, neither into an operation nor past a header write. -/
theorem Recorded.goto {s : Txn ι} (h : s.Recorded) {p : ι} {pc : OpPc} (hin : ¬ pc.Inside)
    (htaken : pc.Taken → s.pending = []) : (s.goto p pc).Recorded := by
  refine h.congr rfl rfl rfl rfl rfl ?_ ?_ h.drained
  · intro q op hq
    rw [goto_pc] at hq
    split at hq
    · rw [hq] at hin
      exact absurd trivial hin
    · exact hq
  · intro q hq
    rw [goto_pc] at hq
    split at hq
    · exact htaken hq
    · exact h.taken q hq

theorem Recorded.enter {s : Txn ι} (h : s.Recorded) (hI : s.Inv) {p : ι}
    (hp : s.pc p = .entering) : (s.enter p).Recorded := by
  unfold Txn.enter
  rcases hb : s.log.beginOp with _ | l
  · exact h.goto (fun h => h) fun h => h.elim
  · obtain ⟨hc, rfl⟩ := Log.beginOp_eq_some hb
    -- the new operation is the only one with its number
    have hold : ∀ q op, (s.goto p (.inside s.nextOp)).pc q = .inside op →
        (q = p ∧ op = s.nextOp) ∨ (q ≠ p ∧ s.pc q = .inside op) := by
      intro q op hq
      rw [goto_pc] at hq
      split at hq
      · next hqp => exact Or.inl ⟨hqp, (OpPc.inside.inj hq).symm⟩
      · next hqp => exact Or.inr ⟨hqp, hq⟩
    have hlt : ∀ c ∈ s.commits, ∀ w ∈ c.writes, w.op < s.nextOp := fun c hc w hw =>
      h.logged_lt w ((h.logged_iff w).mpr (Or.inr ⟨c, hc, hw⟩))
    refine ⟨?_, ?_, ?_, h.logged_iff, h.pending_mem, ?_, ?_, h.blocks, ?_, h.disjoint⟩
    · intro q op hq
      rcases hold q op hq with ⟨-, rfl⟩ | ⟨-, hq'⟩
      · exact Nat.lt_succ_self _
      · exact Nat.lt_succ_of_lt (h.op_lt q op hq')
    · intro q r op hq hr
      rcases hold q op hq with ⟨rfl, rfl⟩ | ⟨-, hq'⟩ <;>
        rcases hold r _ hr with ⟨rfl, heq⟩ | ⟨-, hr'⟩
      · rfl
      · exact absurd (h.op_lt r _ hr') (Nat.lt_irrefl _)
      · exact absurd (h.op_lt q op hq') (heq ▸ Nat.lt_irrefl _)
      · exact h.op_inj q r op hq' hr'
    · exact fun w hw => Nat.lt_succ_of_lt (h.logged_lt w hw)
    · intro q hq
      change ((s.goto p (.inside s.nextOp)).pc q).Taken at hq
      rw [goto_pc] at hq
      split at hq
      · exact hq.elim
      · exact h.taken q hq
    · intro hne
      left
      have hpos : (0 : ℤ) ≤ s.log.outstanding := by
        rw [hI.count]
        exact Int.natCast_nonneg _
      change 0 < s.log.outstanding + 1
      omega
    · intro c hc w hw
      obtain ⟨hno, hne⟩ := h.closed c hc w hw
      refine ⟨fun q hq => ?_, hne⟩
      rcases hold q _ hq with ⟨-, heq⟩ | ⟨-, hq'⟩
      · exact absurd (hlt c hc w hw) (heq ▸ Nat.lt_irrefl _)
      · exact hno q hq'

omit [DecidableEq ι] in
theorem Recorded.logWrite {s : Txn ι} (h : s.Recorded) (hI : s.Inv) {p : ι} {op : ℕ}
    (hp : s.pc p = .inside op) (b : ℕ) : (s.logWrite op b).Recorded := by
  obtain ⟨hmem, hsub, -⟩ := s.log.logWrite_lh b
  have hin : (s.pc p).Inside := by
    rw [hp]
    trivial
  refine ⟨h.op_lt, h.op_inj, ?_, ?_, ?_, ?_, ?_, h.blocks, ?_, h.disjoint⟩
  · intro w hw
    rcases List.mem_cons.mp hw with rfl | hw
    · exact h.op_lt p op hp
    · exact h.logged_lt w hw
  · intro w
    change w ∈ ⟨op, b⟩ :: s.logged ↔ w ∈ ⟨op, b⟩ :: s.pending ∨ _
    rw [List.mem_cons, List.mem_cons, h.logged_iff, or_assoc]
    exact Iff.rfl
  · intro w hw
    rcases List.mem_cons.mp hw with rfl | hw
    · exact hmem
    · exact hsub _ (h.pending_mem w hw)
  · -- while an operation is in progress nobody commits
    intro q hq
    have hc : (s.pc q).Committing := by
      rcases hpc : s.pc q <;> rw [show (s.logWrite op b).pc q = s.pc q from rfl, hpc] at hq <;>
        first | exact hq.elim | trivial
    have := hI.committer q hc
    rw [hI.not_committing hin] at this
    cases this
  · intro _
    left
    rw [show (s.logWrite op b).log.outstanding = s.log.outstanding from (s.log.logWrite_frame b).1]
    exact hI.outstanding_pos hin
  · intro c hc w hw
    obtain ⟨hno, hne⟩ := h.closed c hc w hw
    refine ⟨hno, fun v hv => ?_⟩
    rcases List.mem_cons.mp hv with rfl | hv
    · exact fun heq => hno p (heq ▸ hp)
    · exact hne v hv

theorem Recorded.leave {s : Txn ι} (h : s.Recorded) (hI : s.Inv) {p : ι} {op : ℕ}
    (hp : s.pc p = .inside op) : (s.leave p).Recorded := by
  have hin : (s.pc p).Inside := by
    rw [hp]
    trivial
  have hpos := hI.outstanding_pos hin
  rcases s.leave_cases p (hI.not_committing hin) with ⟨-, heq⟩ | ⟨hne, heq⟩
  · rw [heq]
    have hg : (s.goto p .commit).Recorded := h.goto (fun h => h) fun h => h.elim
    exact hg.congr rfl rfl rfl rfl rfl (fun _ _ h => h) hg.taken fun _ => Or.inr rfl
  · rw [heq]
    have hg : (s.goto p .outside).Recorded := h.goto (fun h => h) fun h => h.elim
    refine hg.congr rfl rfl rfl rfl rfl (fun q op => (wakeup_inside_eq _ q op).mp) ?_ ?_
    · intro q hq
      change ((s.goto p .outside).wakeup.pc q).Taken at hq
      rcases (s.goto p .outside).wakeup_pc_cases q with ⟨-, he⟩ | ⟨-, he⟩
      · rw [he] at hq
        exact hq.elim
      · rw [he] at hq
        exact hg.taken q hq
    · intro _
      left
      change 0 < s.log.outstanding - 1
      omega

/-- The header write: the commit takes all calls that waited. -/
theorem Recorded.writeHead {s : Txn ι} (h : s.Recorded) (hI : s.Inv) {p : ι}
    (hp : s.pc p = .writeHead) :
    Recorded { s.goto p (.installTrans 0) with
      commits := ⟨s.log.lh, s.pending⟩ :: s.commits, pending := [] } := by
  have hnobody : ∀ q op, s.pc q ≠ .inside op := by
    intro q op hq
    have hc := hI.committer p (by rw [hp]; trivial)
    rw [hI.not_committing (p := q) (by rw [hq]; trivial)] at hc
    cases hc
  have hinside : ∀ q op, (s.goto p (.installTrans 0)).pc q ≠ .inside op := by
    intro q op hq
    rw [goto_pc] at hq
    split at hq
    · cases hq
    · exact hnobody q op hq
  refine ⟨fun q op hq => absurd hq (hinside q op), fun q _ op hq => absurd hq (hinside q op),
    h.logged_lt, ?_, (fun w hw => by cases hw), fun _ _ => rfl, fun hne => absurd rfl hne, ?_, ?_,
    ?_⟩
  · intro w
    refine (h.logged_iff w).trans ?_
    simp
  · intro c hc w hw
    rcases List.mem_cons.mp hc with rfl | hc
    · exact h.pending_mem w hw
    · exact h.blocks c hc w hw
  · exact fun c _ w _ => ⟨fun q => hinside q w.op, fun v hv => by cases hv⟩
  · refine List.pairwise_cons.mpr ⟨fun d hd w hw v hv => ?_, h.disjoint⟩
    exact (h.closed d hd v hv).2 w hw

theorem Recorded.commitStep {s s' : Txn ι} (h : s.Recorded) (hI : s.Inv) {p : ι}
    (hs : s.commitStep p = some s') : s'.Recorded := by
  unfold Txn.commitStep at hs
  split at hs
  · next hp =>
    obtain rfl := Option.some.inj hs
    split
    · exact h.goto (fun h => h) fun h => h.elim
    · next hzero =>
      -- nothing was logged
      refine h.goto (fun h => h) fun _ => List.eq_nil_iff_forall_not_mem.mpr fun w hw => ?_
      exact hzero (List.length_pos_of_mem (h.pending_mem w hw))
  · next hp =>
    obtain rfl := Option.some.inj hs
    split <;> exact h.goto (fun h => h) fun h => h.elim
  · next hp =>
    obtain rfl := Option.some.inj hs
    exact h.writeHead hI hp
  · next hp =>
    obtain rfl := Option.some.inj hs
    have hnil := h.taken p (by rw [hp]; trivial)
    split <;> exact h.goto (fun h => h) fun _ => hnil
  · next hp =>
    obtain rfl := Option.some.inj hs
    have hnil := h.taken p (by rw [hp]; trivial)
    have hg : (s.goto p .eraseHead).Recorded := h.goto (fun h => h) fun _ => hnil
    refine ⟨hg.op_lt, hg.op_inj, hg.logged_lt, hg.logged_iff, ?_, hg.taken, hg.drained, hg.blocks,
      hg.closed, hg.disjoint⟩
    intro w hw
    have hw' : w ∈ s.pending := hw
    rw [hnil] at hw'
    cases hw'
  · next hp =>
    obtain rfl := Option.some.inj hs
    exact h.goto (fun h => h) fun _ => h.taken p (by rw [hp]; trivial)
  · next hp =>
    obtain rfl := Option.some.inj hs
    have hnil := h.taken p (by rw [hp]; trivial)
    have hg : (s.goto p .outside).Recorded := h.goto (fun h => h) fun h => h.elim
    exact hg.congr rfl rfl rfl rfl rfl (fun q op => (wakeup_inside_eq _ q op).mp) (fun _ _ => hnil)
      fun hne => absurd hnil hne
  · cases hs

/-! ## Whole runs -/

/-- The invariant and the record. -/
structure Good (s : Txn ι) : Prop where
  inv : s.Inv
  recorded : s.Recorded

omit [DecidableEq ι] in
theorem Good.init (l : Log) : (Txn.init l : Txn ι).Good := by
  refine ⟨⟨rfl, ?_, ?_, ?_, ?_, fun _ => rfl, ?_⟩, ⟨?_, ?_, ?_, ?_, ?_, ?_, ?_, ?_, ?_, ?_⟩⟩
  · have : (Txn.init l : Txn ι).insiders = ∅ := by
      ext q
      rw [mem_insiders]
      exact iff_of_false (fun h => h) (by simp)
    rw [this]
    rfl
  · exact fun p hp => hp.elim
  · exact fun hc => by cases hc
  · exact fun p _ hp => hp.elim
  · exact fun p hp => by cases hp
  · exact fun p op hp => by cases hp
  · exact fun p _ op hp => by cases hp
  · exact fun w hw => by cases hw
  · simp [Txn.init]
  · exact fun w hw => by cases hw
  · exact fun _ _ => rfl
  · exact fun hne => absurd rfl hne
  · exact fun c hc => by cases hc
  · exact fun c hc => by cases hc
  · exact List.Pairwise.nil

theorem Good.next {s s' : Txn ι} {a : TxnAction ι} (h : s.Good) (hs : s.step a = some s') :
    s'.Good := by
  obtain ⟨hI, hR⟩ := h
  unfold Txn.step at hs
  rw [hI.panicked, if_neg (by simp)] at hs
  cases a with
  | beginOp p =>
    dsimp only at hs
    split at hs
    · next hp =>
      obtain rfl := Option.some.inj hs
      exact ⟨hI.goto (by rw [hp]; exact Iff.rfl) (by rw [hp]; exact Iff.rfl) (by simp),
        hR.goto (fun h => h) fun h => h.elim⟩
    · cases hs
  | enter p =>
    dsimp only at hs
    split at hs
    · next hp =>
      obtain rfl := Option.some.inj hs
      exact ⟨hI.enter hp, hR.enter hI hp⟩
    · cases hs
  | wake p =>
    dsimp only at hs
    split at hs
    · next hp =>
      obtain rfl := Option.some.inj hs
      exact ⟨hI.goto (by rw [hp]; exact Iff.rfl) (by rw [hp]; exact Iff.rfl) (by simp),
        hR.goto (fun h => h) fun h => h.elim⟩
    · cases hs
  | logWrite p b =>
    dsimp only at hs
    split at hs
    · next op hp =>
      obtain rfl := Option.some.inj hs
      exact ⟨hI.logWrite op b, hR.logWrite hI hp b⟩
    · cases hs
  | endOp p =>
    dsimp only at hs
    split at hs
    · next op hp =>
      obtain rfl := Option.some.inj hs
      exact ⟨hI.leave hp, hR.leave hI hp⟩
    · cases hs
  | commit p => exact ⟨hI.commitStep hs, hR.commitStep hI hs⟩

end Txn

/-- The protocol as its users rely on it. -/
structure TransactionProtocol (s : Txn ι) : Prop where
  /-- `commit` runs only while no operation is outstanding -/
  quiescent : ∀ p, (s.pc p).Committing → s.log.outstanding = 0 ∧ ∀ q op, s.pc q ≠ .inside op
  /-- one commit at a time -/
  exclusive : ∀ p q, (s.pc p).Committing → (s.pc q).Committing → p = q
  /-- every call of `log_write` is in a commit, or has one coming -/
  kept : ∀ w ∈ s.logged, (∃ c ∈ s.commits, w ∈ c.writes) ∨
    (w ∈ s.pending ∧ w.block ∈ s.log.lh ∧ (0 < s.log.outstanding ∨ s.log.committing = true))
  /-- a commit has the block of every call it took, and took all calls of its operations, which
  make no more -/
  whole : ∀ c ∈ s.commits, ∀ w ∈ c.writes, w.block ∈ c.blocks ∧
    (∀ v ∈ s.logged, v.op = w.op → v ∈ c.writes) ∧ ∀ p, s.pc p ≠ .inside w.op
  /-- no operation is in two commits -/
  once : s.commits.Pairwise Commit.Disjoint
  /-- the panic in `end_op` is not reached -/
  no_panic : s.panicked = false
  /-- whoever sleeps in `begin_op` could not be admitted -/
  asleep : ∀ p, s.pc p = .sleeping → s.log.committing = true ∨
    (s.log.lh.length : ℤ) + (s.log.outstanding + 1) * (MAXOPBLOCKS : ℤ) > (LOGSIZE : ℤ)

omit [DecidableEq ι] in
theorem Txn.Good.protocol {s : Txn ι} (h : s.Good) : TransactionProtocol s := by
  obtain ⟨hI, hR⟩ := h
  refine ⟨?_, hI.single, ?_, ?_, hR.disjoint, hI.panicked, hI.asleep⟩
  · intro p hp
    have hc := hI.committer p hp
    refine ⟨hI.idle hc, fun q op hq => ?_⟩
    rw [hI.not_committing (p := q) (by rw [hq]; trivial)] at hc
    cases hc
  · intro w hw
    rcases (hR.logged_iff w).mp hw with hp | hc
    · exact Or.inr ⟨hp, hR.pending_mem w hp, hR.drained (List.ne_nil_of_mem hp)⟩
    · exact Or.inl hc
  · intro c hc w hw
    obtain ⟨hno, hne⟩ := hR.closed c hc w hw
    refine ⟨hR.blocks c hc w hw, fun v hv heq => ?_, hno⟩
    rcases (hR.logged_iff v).mp hv with hp | ⟨d, hd, hvd⟩
    · exact absurd heq (hne v hp)
    · -- `v` is in some commit, and two commits share no operation
      by_contra hvc
      have hcd : c ≠ d := fun he => hvc (he ▸ hvd)
      exact hR.disjoint.forall hc hd hcd w hw v hvd heq.symm

/-- **The transaction protocol** holds in every state of every interleaving of
any number of processes, spurious wakeups included. -/
theorem transaction_protocol {l : Log} {as : List (TxnAction ι)} {s : Txn ι}
    (hrun : exec Txn.step (Txn.init l) as = some s) : TransactionProtocol s :=
  (exec_invariant (fun _ _ _ h hs => Txn.Good.next h hs) (Txn.Good.init l) hrun).protocol

/-- Two operations that overlap, and one commit for both. -/
theorem transaction_protocol_two :
    ∃ s : Txn (Fin 2), exec Txn.step (Txn.init {})
        [.beginOp 0, .enter 0, .beginOp 1, .enter 1, .logWrite 0 7, .logWrite 1 7, .logWrite 1 9,
          .endOp 0, .endOp 1, .commit 1, .commit 1, .commit 1, .commit 1, .beginOp 0, .enter 0,
          .commit 1] = some s ∧
      s.commits = [⟨[7, 9], [⟨1, 9⟩, ⟨1, 7⟩, ⟨0, 7⟩]⟩] ∧ s.pc 0 = .sleeping ∧
      TransactionProtocol s := by
  obtain ⟨s, hs, heq⟩ := Option.map_eq_some_iff.mp (show (exec Txn.step
      (Txn.init {} : Txn (Fin 2))
      [.beginOp 0, .enter 0, .beginOp 1, .enter 1, .logWrite 0 7, .logWrite 1 7, .logWrite 1 9,
        .endOp 0, .endOp 1, .commit 1, .commit 1, .commit 1, .commit 1, .beginOp 0, .enter 0,
        .commit 1]).map (fun s => (s.commits, s.pc 0)) =
      some ([⟨[7, 9], [⟨1, 9⟩, ⟨1, 7⟩, ⟨0, 7⟩]⟩], .sleeping) by decide +kernel)
  obtain ⟨hcommits, hpc⟩ := Prod.mk.inj heq
  exact ⟨s, hs, hcommits, hpc, transaction_protocol hs⟩

end StrideXv6
