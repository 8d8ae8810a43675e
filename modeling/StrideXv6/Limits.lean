import StrideXv6.Capacity
import Mathlib.Data.Fintype.Card
import Mathlib.Data.Finset.Dedup

/-!
# What the log and the cache have room for

`log_write` has no check of its own, and `bget` panics when it finds no buffer. How
many blocks can be logged follows from the number of buffers: each logged block has
a dirty one (`Pins.pinned`), so `log_write` always finds room in `lh.block`. But a
commit needs a buffer more than there are logged blocks, and a block more in the
log. If there are `LOGSIZE` logged blocks, which three operations can bring about,
it has neither.

While blocks are changed in operations only, and not those of the log, `commit`
leaves all of them as they are: `bread` gives what the last operation has written.
-/

namespace StrideXv6

open Bracket Crash Machine

/-! ## Steps and the log -/

section Steps

variable {ι : Type} [DecidableEq ι] {s s' : Bio ι} {p : ι}

/-- The log after a step. -/
def BufOp.logAfter {ι : Type} (s : Bio ι) : (o : BufOp) → o.Ret → Log
  | .logWrite i, _ => s.store.log.logWrite (s.buf i).blockno
  | .clear, _ => { s.store.log with lh := [] }
  | .beginOp, _ => { s.store.log with outstanding := s.store.log.outstanding + 1 }
  | .endOp, (r : Bool) =>
    { s.store.log with outstanding := s.store.log.outstanding - 1, committing := r }
  | .finish, _ => { s.store.log with committing := false }
  | _, _ => s.store.log

theorem Log.endOp_not_committing {l l' : Log} (h : l.endOp = .wakeup l') : l.committing = false := by
  cases hc : l.committing with
  | false => rfl
  | true =>
    simp only [Log.endOp, hc] at h
    cases h

theorem run_log {o : BufOp} {r : o.Ret} (hrun : o.run p s = .ok (r, s')) :
    s'.store.log = o.logAfter s r := by
  cases o with
  | bget d b => exact (run_bget_same hrun).1.log
  | valid i =>
    cases hrun
    rfl
  | iderw i =>
    simp only [BufOp.run] at hrun
    split at hrun
    · cases hrun
    split at hrun
    · cases hrun
    split at hrun
    · cases hrun
    cases hrun
    rfl
  | wait i =>
    simp only [BufOp.run] at hrun
    split at hrun
    · cases hrun
      rfl
    · cases hrun
  | dirty w i => exact (run_dirty_eq hrun).2.1
  | data i =>
    cases hrun
    rfl
  | setData w i f => exact (run_setData_eq hrun).1.log
  | brelse i => exact (run_brelse_same hrun).1.log
  | logWrite i => exact (run_logWrite_eq hrun).2.1
  | log =>
    cases hrun
    rfl
  | clear =>
    cases hrun
    rfl
  | beginOp =>
    simp only [BufOp.run] at hrun
    split at hrun
    · cases hrun
    · next l hl =>
      cases hrun
      exact (Log.beginOp_eq_some hl).2
  | endOp =>
    simp only [BufOp.run] at hrun
    split at hrun
    · cases hrun
    · next l hl =>
      cases hrun
      exact (Log.endOp_eq_commit hl).2
    · next l hl =>
      cases hrun
      obtain ⟨-, rfl⟩ := Log.endOp_eq_wakeup hl
      have hnot := Log.endOp_not_committing hl
      simp only [Bio.setLog, BufOp.logAfter, hnot]
  | finish =>
    cases hrun
    rfl

omit [DecidableEq ι] in
/-- The log stays where it is. -/
theorem logAfter_place (o : BufOp) (r : o.Ret) :
    (o.logAfter s r).start = s.store.log.start ∧ (o.logAfter s r).size = s.store.log.size ∧
      (o.logAfter s r).dev = s.store.log.dev := by
  cases o with
  | logWrite i =>
    simp only [BufOp.logAfter, Log.logWrite]
    split <;> exact ⟨rfl, rfl, rfl⟩
  | _ => exact ⟨rfl, rfl, rfl⟩

/-- Only `setData` changes the contents of blocks. -/
theorem run_contents {o : BufOp} {r : o.Ret} (hrun : o.run p s = .ok (r, s'))
    (ho : ∀ w i f, o ≠ .setData w i f) : s'.plain = s.plain ∧ s'.client = s.client := by
  cases o with
  | bget d b => exact (run_bget_same hrun).2
  | valid i =>
    cases hrun
    exact ⟨rfl, rfl⟩
  | iderw i =>
    simp only [BufOp.run] at hrun
    split at hrun
    · cases hrun
    split at hrun
    · cases hrun
    split at hrun
    · cases hrun
    cases hrun
    exact ⟨rfl, rfl⟩
  | wait i =>
    simp only [BufOp.run] at hrun
    split at hrun
    · cases hrun
      exact ⟨rfl, rfl⟩
    · cases hrun
  | dirty w i => exact ⟨(run_dirty_eq hrun).1.plain, (run_dirty_eq hrun).1.client⟩
  | data i =>
    cases hrun
    exact ⟨rfl, rfl⟩
  | setData w i f => exact absurd rfl (ho w i f)
  | brelse i => exact (run_brelse_same hrun).2
  | logWrite i => exact ⟨(run_logWrite_eq hrun).1.plain, (run_logWrite_eq hrun).1.client⟩
  | log =>
    cases hrun
    exact ⟨rfl, rfl⟩
  | clear =>
    cases hrun
    exact ⟨rfl, rfl⟩
  | beginOp =>
    simp only [BufOp.run] at hrun
    split at hrun
    · cases hrun
    · cases hrun
      exact ⟨rfl, rfl⟩
  | endOp =>
    simp only [BufOp.run] at hrun
    split at hrun
    · cases hrun
    · cases hrun
      exact ⟨rfl, rfl⟩
    · cases hrun
      exact ⟨rfl, rfl⟩
  | finish =>
    cases hrun
    exact ⟨rfl, rfl⟩

omit [DecidableEq ι] in
theorem ideintr_frame (hrun : s.ideintr = .ok s') :
    s'.store.log = s.store.log ∧ s'.plain = s.plain ∧ s'.client = s.client := by
  rcases Bio.ideintr_eq_ok hrun with rfl | ⟨i, rest, -, rfl⟩
  · exact ⟨rfl, rfl, rfl⟩
  · exact ⟨Store.transfer_log .., rfl, rfl⟩

end Steps

/-! ## Every logged block has a buffer -/

/-- Blocks that have buffers are not more than there are buffers. -/
theorem length_le_of_buffers {s : Store} {bs : List ℕ} (hnodup : bs.Nodup)
    (h : ∀ b ∈ bs, ∃ i, (s.buf i).blockno = b) : bs.length ≤ NBUF := by
  have hsub : bs.toFinset ⊆ Finset.univ.image fun i => (s.buf i).blockno := by
    intro b hb
    obtain ⟨i, hi⟩ := h b (List.mem_toFinset.mp hb)
    exact Finset.mem_image.mpr ⟨i, Finset.mem_univ i, hi⟩
  calc bs.length = bs.toFinset.card := (List.toFinset_card_of_nodup hnodup).symm
    _ ≤ (Finset.univ.image fun i => (s.buf i).blockno).card := Finset.card_le_card hsub
    _ ≤ (Finset.univ : Finset (Fin NBUF)).card := Finset.card_image_le
    _ = NBUF := Finset.card_fin NBUF

namespace Users

variable {ι : Type} [DecidableEq ι] {strict : Prop} {dev start : ℕ} {s s' : Users ι}

/-- The header in memory: its entries are different blocks; each has a dirty buffer
of its own until `commit` installs it, but for those that are blocks of the log
itself, for which this ends when `commit` starts; and `log_write` stays inside of
`lh.block`. -/
structure LogFits (s : Users ι) : Prop where
  nodup : s.bio.store.log.lh.Nodup
  pinned : ∀ b ∈ s.bio.store.log.lh, b ∉ s.bio.installed →
    (s.bio.store.log.committing = true →
      ¬ InLog s.bio.store.log.start s.bio.store.log.lh.length b) →
    ∃! i, (s.bio.buf i).IsFor s.bio.store.log.dev b ∧ (s.bio.buf i).dirty = true
  /-- the index at which the loop of `log_write` stops -/
  index : ∀ p i k, s.code p = .op (.logWrite i) k →
    s.bio.store.log.lh.idxOf (s.bio.buf i).blockno < LOGSIZE

omit [DecidableEq ι] in
/-- While a process is in an operation, there is room for one more block. -/
theorem log_has_room {g : ι → Duty} {p : ι} {i : Fin NBUF} (h : Logs strict dev start s.bio g)
    (hstage : (g p).stage = .op) (hnew : (s.bio.buf i).blockno ∉ s.bio.store.log.lh) :
    s.bio.store.log.lh.length < LOGSIZE := by
  have hnot := h.admits.not_committing hstage
  have hbuf : ∀ b ∈ (s.bio.buf i).blockno :: s.bio.store.log.lh,
      ∃ j, (s.bio.store.buf j).blockno = b := by
    intro b hb
    rcases List.mem_cons.mp hb with rfl | hb
    · exact ⟨i, rfl⟩
    · obtain ⟨j, hj, -⟩ := h.pins.pinned b hb (by rw [h.pins.fresh hnot]; exact List.not_mem_nil)
        fun hc => by rw [hnot] at hc; cases hc
      exact ⟨j, hj.2⟩
  exact length_le_of_buffers (List.nodup_cons.mpr ⟨hnew, h.pins.nodup⟩) hbuf

omit [DecidableEq ι] in
theorem Operates.logFits (h : s.Operates strict dev start) : s.LogFits := by
  obtain ⟨g, hlogs, hends⟩ := h
  refine ⟨hlogs.pins.nodup, fun b hb hnot hin => ?_, fun p i k hcode => ?_⟩
  · rw [hlogs.logStart] at hin
    obtain ⟨i, hfor, hdirty⟩ := hlogs.pins.pinned b hb hnot hin
    have hdev : dev < 2 := hlogs.logDev ▸ hlogs.tracks.log
    rw [hlogs.logDev]
    exact ⟨i, ⟨hfor, hdirty⟩, fun j hj => hlogs.tracks.unique i j dev b hdev hfor hj.1⟩
  · have hp := hends p
    rw [hcode] at hp
    have hstage : (g p).stage = .op := hp.1.2
    have hbound := hlogs.pins.bound
    by_cases hmem : (s.bio.buf i).blockno ∈ s.bio.store.log.lh
    · have := List.idxOf_lt_length_of_mem hmem
      omega
    · rw [List.idxOf_eq_length hmem]
      exact log_has_room hlogs hstage hmem

/-- In all runs of operations. -/
theorem allStates_operates {store : Store} (h : store.Quiet) {as : List (UserAction ι)}
    (hop : AllSteps step (fun s a => s.Operating a ∧ (strict → s.Confined a)) (Users.start store) as) :
    AllStates step (Operates strict store.log.dev store.log.start) (Users.start store) as :=
  allStates_of_allSteps (fun _ _ _ hs hc hstep => hs.step hc.1 hc.2 hstep) (operates_start h) hop

instance (s : Users ι) (a : UserAction ι) : Decidable (s.Operating a) := by
  rcases a with ⟨p, c⟩ | p | _
  · cases c <;> dsimp only [Operating] <;> infer_instance
  · exact isTrue trivial
  · exact isTrue trivial

end Users

/-- The cache before the first process, with the log of a disk of `FSSIZE` blocks. -/
def emptyCache : Store :=
  Store.binit (fun _ _ _ => 0) { start := FSSIZE - 30, size := 30, dev := ROOTDEV } 0

theorem quiet_emptyCache : emptyCache.Quiet := Store.quiet_binit _ _ _ _ _ (by decide)

local instance twoDisks : NeZero 2 := ⟨by decide⟩

/-- An operation reads a block that is not in the cache, into buffer `i`, logs it and
releases it. -/
def logOne {ι : Type} (p : ι) (i : Fin NBUF) (b : ℕ) : List (UserAction ι) :=
  [.call p (.bread 1 b), .step p, .step p, .step p, .intr, .step p,
    .call p (.logWrite i), .step p, .call p (.brelse i), .step p]

/-- An operation logs block `100` and the first block of the log; the commit has
written its copy of block `100`. -/
def loggedLogBlock : List (UserAction (Fin 1)) :=
  [.call 0 .beginOp, .step 0] ++ logOne 0 0 100 ++ logOne 0 1 971 ++
    (.call 0 .endOp :: List.replicate 11 (.step 0)) ++ [.intr]

namespace Users

variable {ι : Type} [DecidableEq ι] {dev start : ℕ} {s s' : Users ι}

/-- An operation logs at most `MAXOPBLOCKS` blocks. -/
def Modest (s : Users ι) : UserAction ι → Prop
  | .step p =>
    match s.code p with
    | .op (.logWrite i) _ =>
      ((s.bio.logged p).insert (s.bio.buf i).blockno).length ≤ MAXOPBLOCKS
    | _ => True
  | _ => True

instance (s : Users ι) (a : UserAction ι) : Decidable (s.Modest a) := by
  rcases a with _ | p | _
  · exact isTrue trivial
  · unfold Modest
    dsimp only
    split <;> infer_instance
  · exact isTrue trivial

/-- A commit starts with less than `LOGSIZE` logged blocks. -/
def SmallCommit (s : Users ι) : UserAction ι → Prop
  | .step p =>
    match s.code p with
    | .op .endOp _ => s.bio.store.log.outstanding = 1 → s.bio.store.log.lh.length < LOGSIZE
    | _ => True
  | _ => True

instance (s : Users ι) (a : UserAction ι) : Decidable (s.SmallCommit a) := by
  rcases a with _ | p | _
  · exact isTrue trivial
  · unfold SmallCommit
    dsimp only
    split <;> infer_instance
  · exact isTrue trivial

instance (s : Users ι) (a : UserAction ι) : Decidable (s.Confined a) := by
  rcases a with ⟨p, c⟩ | p | _
  · cases c <;> dsimp only [Confined] <;> infer_instance
  · exact isTrue trivial
  · exact isTrue trivial

/-- A commit finds the buffers that it needs, and stays inside of the log. -/
structure CommitFits (s : Users ι) : Prop where
  buffers : s.bio.store.log.committing = true → ∀ p, ¬ s.Panics p "bget: no buffers"
  blocks : ∀ p i k, s.code p = .op (.dirty .log i) k →
    s.bio.store.log.start + 1 ≤ (s.bio.buf i).blockno ∧
      (s.bio.buf i).blockno ≤ s.bio.store.log.start + s.bio.store.log.size - 1

/-- Only `bget` can run out of buffers. -/
theorem bget_of_panic {ι : Type} [DecidableEq ι] {b : Bio ι} {p : ι} {o : BufOp}
    (h : o.run p b = .error (.panic "bget: no buffers")) :
    ∃ d n, o = .bget d n ∧ b.store.lookup d n = none ∧ b.store.victim = none := by
  cases o with
  | bget d n =>
    refine ⟨d, n, rfl, ?_⟩
    simp only [BufOp.run] at h
    split at h
    · cases h
    · next e store hhalt =>
      cases hl : b.store.lookup d n with
      | some j =>
        simp only [bget, get_bind_apply, hl] at hhalt
        split at hhalt
        · cases hhalt
          cases h
        · cases hhalt
      | none =>
        cases hv : b.store.victim with
        | none => exact ⟨rfl, rfl⟩
        | some j =>
          simp only [bget, get_bind_apply, hl, hv] at hhalt
          cases hhalt
  | iderw i =>
    simp only [BufOp.run] at h
    split at h
    · simp at h
    split at h
    · simp at h
    split at h
    · simp at h
    · cases h
  | wait i =>
    simp only [BufOp.run] at h
    split at h <;> cases h
  | dirty w i =>
    simp only [BufOp.run] at h
    split at h
    · simp at h
    · cases h
  | brelse i =>
    simp only [BufOp.run] at h
    split at h
    · cases h
    · next e store hhalt =>
      simp only [brelse, get_bind_apply] at hhalt
      split at hhalt
      · cases hhalt
        simp [Halt.stop] at h
      · cases hhalt
  | logWrite i =>
    simp only [BufOp.run] at h
    split at h <;> cases h
  | beginOp =>
    simp only [BufOp.run] at h
    split at h <;> cases h
  | endOp =>
    simp only [BufOp.run] at h
    split at h
    · simp at h
    · cases h
    · cases h
  | valid i => cases h
  | data i => cases h
  | setData w i f => cases h
  | log => cases h
  | clear => cases h
  | finish => cases h

omit [DecidableEq ι] in
/-- Dirty buffers are for different logged blocks. -/
theorem card_le_of_dirty {g : ι → Duty} {A : Finset (Fin NBUF)} {B : Finset ℕ}
    (h : Logs True dev start s.bio g)
    (hdirty : ∀ i ∈ A, (s.bio.buf i).dev = dev ∧ (s.bio.buf i).blockno ∈ B) :
    A.card ≤ B.card := by
  have hdev : dev < 2 := h.logDev ▸ h.tracks.log
  refine Finset.card_le_card_of_injOn (fun i => (s.bio.buf i).blockno)
    (fun i hi => (hdirty i hi).2) fun i hi j hj heq => ?_
  exact (h.tracks.unique i j dev _ hdev ⟨(hdirty i hi).1, rfl⟩ ⟨(hdirty j hj).1, heq.symm⟩).symm

omit [DecidableEq ι] in
/-- A commit of less than `LOGSIZE` blocks finds a buffer: the others hold nothing,
and all but one of its own are dirty because of logged blocks. -/
theorem victim_of_commit {g : ι → Duty} {p : ι} {lh done : List ℕ} {x : ℕ → Block} {b : ℕ}
    (h : Logs True dev start s.bio g) (hstage : (g p).stage = .commit lh done x)
    (hroom : (g p).grips.Room lh b) (hsmall : lh.length < LOGSIZE)
    (hlookup : s.bio.store.lookup dev b = none) : s.bio.store.victim ≠ none := by
  intro hvictim
  have hcommit : (g p).stage.IsCommit := by rw [hstage]; trivial
  have hlh := (h.known p lh done x hstage).1
  -- a buffer that is not in hand is dirty
  have hused : ∀ i, (g p).grips i = none → (s.bio.buf i).dirty = true := by
    intro i hi
    have hnot := List.find?_eq_none.mp hvictim i (List.mem_reverse.mpr (h.tracks.listed i))
    have hbusy : (s.bio.buf i).busy = false := by
      cases hb : (s.bio.buf i).busy with
      | false => rfl
      | true =>
        obtain ⟨q, y, hq⟩ := (h.tracks.busy i).mp hb
        by_cases hqp : q = p
        · subst hqp
          rw [hi] at hq
          cases hq
        · rw [h.admits.others trivial hcommit hqp i] at hq
          cases hq
    cases hd : (s.bio.buf i).dirty with
    | true => rfl
    | false => exact absurd (decide_eq_true ⟨hbusy, hd⟩) hnot
  -- and so for a logged block
  have hlogged : ∀ i, (g p).grips i = none →
      (s.bio.buf i).dev = dev ∧ (s.bio.buf i).blockno ∈ lh := by
    intro i hi
    rcases h.pins.dirty i (hused i hi) with ⟨hdev, hmem, -⟩ | ⟨q, hq⟩
    · exact ⟨hdev, hlh ▸ hmem⟩
    · exfalso
      by_cases hqp : q = p
      · subst hqp
        exact Grips.not_writing_of_none hi hq
      · exact Grips.not_writing_of_none (h.admits.others trivial hcommit hqp i) hq
  rcases hroom with hfree | ⟨hb, j, hj⟩
  · have hcard := card_le_of_dirty (A := Finset.univ) (B := lh.toFinset) h fun i _ =>
      ⟨(hlogged i (hfree i)).1, List.mem_toFinset.mpr (hlogged i (hfree i)).2⟩
    have hle := List.toFinset_card_le lh
    rw [Finset.card_fin] at hcard
    have : NBUF = LOGSIZE := rfl
    omega
  · -- one buffer is in hand, but the block that is read next has none
    have hnone : ∀ i, i ≠ j → (g p).grips i = none := by
      intro i hi
      by_contra hne
      exact hi (hj i hne)
    have hcard := card_le_of_dirty (A := Finset.univ.erase j) (B := lh.toFinset.erase b) h fun i hi => by
      obtain ⟨hdev, hmem⟩ := hlogged i (hnone i (Finset.ne_of_mem_erase hi))
      refine ⟨hdev, Finset.mem_erase.mpr ⟨fun he => ?_, List.mem_toFinset.mpr hmem⟩⟩
      exact List.find?_eq_none.mp hlookup i (h.tracks.listed i) (decide_eq_true ⟨hdev, he⟩)
    have hle := List.toFinset_card_le lh
    rw [Finset.card_erase_of_mem (Finset.mem_univ j), Finset.card_fin,
      Finset.card_erase_of_mem (List.mem_toFinset.mpr hb)] at hcard
    have : NBUF = LOGSIZE := rfl
    have : 0 < lh.toFinset.card := Finset.card_pos.mpr ⟨b, List.mem_toFinset.mpr hb⟩
    omega

/-- What is known in every state of a run of small commits. -/
structure Roomy (dev start : ℕ) (s : Users ι) : Prop where
  operates : s.Operates True dev start
  size : s.bio.store.log.size = LOGSIZE
  small : s.bio.store.log.committing = true → s.bio.store.log.lh.length < LOGSIZE

theorem Roomy.commitFits (h : s.Roomy dev start) : s.CommitFits := by
  obtain ⟨g, hlogs, hends⟩ := h.operates
  constructor
  · intro hc p hpanic
    unfold Panics at hpanic
    split at hpanic
    · exact hpanic
    · next o k hcode =>
      obtain ⟨d, b, rfl, hlookup, hvictim⟩ := bget_of_panic hpanic
      have hp := hends p
      rw [hcode] at hp
      obtain ⟨-, rfl, hnotout, hroom⟩ := hp.1
      cases hstage : (g p).stage with
      | out => exact hnotout trivial hstage
      | op => exact hlogs.admits.alone hc p hstage
      | commit lh done x =>
        have hsmall := h.small hc
        rw [(hlogs.known p lh done x hstage).1] at hsmall
        exact victim_of_commit hlogs hstage (hroom lh done x hstage) hsmall hlookup hvictim
  · intro p i k hcode
    have hp := hends p
    rw [hcode] at hp
    obtain ⟨⟨c, d, b, hi⟩, lh, done, x, hstage, htarget⟩ := hp.1
    obtain ⟨tail, htail, hb⟩ : ∃ tail, tail < lh.length ∧ b = start + tail + 1 := htarget _ hi
    have hc := hlogs.admits.committing.mpr ⟨p, by rw [hstage]; trivial⟩
    have hsmall := h.small hc
    rw [(hlogs.known p lh done x hstage).1] at hsmall
    rw [(hlogs.tracks.grip p i _ hi).1.2, hlogs.logStart, h.size]
    dsimp only
    omega

theorem Roomy.step {a : UserAction ι} (h : s.Roomy dev start) (hop : s.Operating a)
    (hconf : s.Confined a) (hfits : s.SmallCommit a) (hstep : s.step a = some s') :
    s'.Roomy dev start := by
  refine ⟨h.operates.step hop (fun _ => hconf) hstep, ?_, ?_⟩
  · cases a with
    | call p c =>
      obtain ⟨-, -, rfl⟩ := step_call hstep
      exact h.size
    | step p =>
      obtain ⟨o, k, r, bio, -, hrun, rfl⟩ := step_step hstep
      dsimp only
      rw [run_log hrun, (logAfter_place o r).2.1]
      exact h.size
    | intr =>
      obtain ⟨bio, hbio, rfl⟩ := step_intr hstep
      dsimp only
      rw [(ideintr_frame hbio).1]
      exact h.size
  · intro hc
    cases a with
    | call p c =>
      obtain ⟨-, -, rfl⟩ := step_call hstep
      exact h.small hc
    | intr =>
      obtain ⟨bio, hbio, rfl⟩ := step_intr hstep
      dsimp only at hc ⊢
      rw [(ideintr_frame hbio).1] at hc ⊢
      exact h.small hc
    | step p =>
      obtain ⟨o, k, r, bio, hcode, hrun, rfl⟩ := step_step hstep
      dsimp only at hc ⊢
      have hlog := run_log hrun
      rw [hlog] at hc ⊢
      cases o with
      | logWrite i =>
        -- no operation is executing during a commit
        obtain ⟨g, hlogs, hends⟩ := h.operates
        have hp := hends p
        rw [hcode] at hp
        have hstage : (g p).stage = .op := hp.1.2
        simp only [BufOp.logAfter] at hc
        rw [(Log.logWrite_frame _ _).2, hlogs.admits.not_committing hstage] at hc
        cases hc
      | clear => exact Nat.zero_lt_succ _
      | finish => cases hc
      | endOp =>
        have hone : s.bio.store.log.outstanding = 1 := by
          simp only [BufOp.run] at hrun
          split at hrun
          · cases hrun
          · next l hl => exact (Log.endOp_eq_commit hl).1
          · cases hrun
            cases hc
        simp only [SmallCommit, hcode] at hfits
        exact hfits hone
      | beginOp => exact h.small hc
      | bget d b => exact h.small hc
      | valid i => exact h.small hc
      | iderw i => exact h.small hc
      | wait i => exact h.small hc
      | dirty w i => exact h.small hc
      | data i => exact h.small hc
      | setData w i f => exact h.small hc
      | brelse i => exact h.small hc
      | log => exact h.small hc

end Users

open Users in
/-- A commit of at most `LOGSIZE - 1` blocks has the buffers and the log blocks that
it needs. -/
theorem small_commits_fit {ι : Type} [DecidableEq ι] {store : Store} (h : store.Quiet)
    (hsize : store.log.size = LOGSIZE) {as : List (UserAction ι)}
    (hop : AllSteps Users.step
      (fun s a => (s.Operating a ∧ s.Confined a ∧ s.Modest a) ∧ s.SmallCommit a)
      (Users.start store) as) :
    AllStates Users.step CommitFits (Users.start store) as := by
  have hroomy : (Users.start store : Users ι).Roomy store.log.dev store.log.start := by
    refine ⟨operates_start h, hsize, fun hc => ?_⟩
    have : store.log.committing = true := hc
    rw [h.committing] at this
    cases this
  exact (allStates_of_allSteps (fun _ _ _ hs hc hstep => hs.step hc.1.1 hc.1.2.1 hc.2 hstep)
    hroomy hop).mono fun _ => Roomy.commitFits

/-- An operation logs two blocks and commits. -/
theorem small_commits_fit_two :
    AllStates Users.step Users.CommitFits (Users.start emptyCache : Users (Fin 1))
      ([.call 0 .beginOp, .step 0] ++ logOne 0 0 100 ++ logOne 0 1 101 ++
        (.call 0 .endOp :: List.replicate 5 (.step 0) ++ [.intr] ++ List.replicate 7 (.step 0))) :=
  small_commits_fit quiet_emptyCache rfl (by decide +kernel)

/-- Three operations log ten blocks each, and the last one to end commits. -/
def threeFullOperations : List (UserAction (Fin 3)) :=
  [.call 0 .beginOp, .step 0, .call 1 .beginOp, .step 1, .call 2 .beginOp, .step 2] ++
    ((List.range 30).flatMap fun k =>
      logOne (Fin.ofNat 3 (k / 10)) (Fin.ofNat NBUF k) (100 + k)) ++
    [.call 0 .endOp, .step 0, .call 1 .endOp, .step 1, .call 2 .endOp, .step 2, .step 2, .step 2]

/-- Is the log being committed, and does the process panic for want of a buffer? -/
def Users.outOfBuffers {ι : Type} [DecidableEq ι] (p : ι) (s : Users ι) : Bool × Bool :=
  (s.bio.store.log.committing,
    match s.code p with
    | .pure _ => false
    | .op o _ =>
      match o.run p s.bio with
      | .ok _ => false
      | .error e => decide (e = .panic "bget: no buffers"))

theorem Users.outOfBuffers_panics {ι : Type} [DecidableEq ι] {p : ι} {r : Option (Users ι)}
    (h : r.map (outOfBuffers p) = some (true, true)) :
    ∃ s, r = some s ∧ s.bio.store.log.committing = true ∧ s.Panics p "bget: no buffers" := by
  obtain ⟨s, hs, heq⟩ := Option.map_eq_some_iff.mp h
  obtain ⟨hc, hpanic⟩ := Prod.mk.inj heq
  refine ⟨s, hs, hc, ?_⟩
  unfold Users.Panics
  split
  · next r hr =>
    rw [hr] at hpanic
    cases hpanic
  · next o k hk =>
    rw [hk] at hpanic
    dsimp only at hpanic
    split at hpanic
    · cases hpanic
    · next e he => rw [he, of_decide_eq_true hpanic]

/-- The first buffer that the commit asks for is not to be had. -/
theorem three_full_operations_panic :
    AllSteps Users.step (fun s a => s.Operating a ∧ s.Confined a ∧ s.Modest a)
        (Users.start emptyCache) threeFullOperations ∧
      ∃ s, exec Users.step (Users.start emptyCache) threeFullOperations = some s ∧
        s.bio.store.log.committing = true ∧ s.Panics 2 "bget: no buffers" :=
  ⟨by decide +kernel, Users.outOfBuffers_panics (by decide +kernel)⟩

/-! ## Commits and the contents of blocks -/

namespace Users

variable {ι : Type} [DecidableEq ι] {strict : Prop} {dev start : ℕ} {s s' : Users ι}

/-- The blocks of the log are not logged. -/
def Sparing (s : Users ι) : UserAction ι → Prop
  | .step p =>
    match s.code p with
    | .op (.logWrite i) _ => ¬ InLog s.bio.store.log.start LOGSIZE (s.bio.buf i).blockno
    | _ => True
  | _ => True

instance (s : Users ι) (a : UserAction ι) : Decidable (s.Sparing a) := by
  rcases a with _ | p | _
  · exact isTrue trivial
  · unfold Sparing
    dsimp only
    split <;> infer_instance
  · exact isTrue trivial

/-- Outside of the log, the contents of all blocks are what operations have made
them. -/
structure Transparent (dev start : ℕ) (s : Users ι) : Prop where
  operates : s.Operates False dev start
  logged : ∀ b ∈ s.bio.store.log.lh, ¬ InLog start LOGSIZE b
  client : ∀ b, ¬ InLog start LOGSIZE b → s.bio.plain dev b = s.bio.client dev b

omit [DecidableEq ι] in
/-- What `commit` puts in a block outside of the log is what the block has. -/
theorem Transparent.setData {g : ι → Duty} {p : ι} {w : Writer} {i : Fin NBUF} {f : Block → Block}
    {bio : Bio ι} (h : s.Transparent dev start) (hlogs : Logs False dev start s.bio g)
    (hmay : (duties False dev start).may (g p) (.setData w i f))
    (hplain : bio.plain = setBlock s.bio.plain (s.bio.buf i).dev (s.bio.buf i).blockno
      (f (s.bio.buf i).data))
    (hclient : bio.client = if w = .client then setBlock s.bio.client (s.bio.buf i).dev
      (s.bio.buf i).blockno (f (s.bio.buf i).data) else s.bio.client) (b : ℕ)
    (hb : ¬ InLog start LOGSIZE b) : bio.plain dev b = bio.client dev b := by
  obtain ⟨⟨c, d, n, hi⟩, hop, hnotout, hcommit⟩ := hmay
  obtain rfl : d = dev := hlogs.grip p i _ hi
  obtain ⟨hfor, hd, hvalid, -⟩ := hlogs.tracks.grip p i _ hi
  rw [hplain, hclient, hfor.1, hfor.2]
  cases hstage : (g p).stage with
  | out => exact absurd hstage hnotout
  | op =>
    rw [if_pos (hop hstage), setBlock_apply, setBlock_apply]
    split
    · rfl
    · exact h.client b hb
  | commit lh done x =>
    obtain ⟨hw, hsame⟩ := hcommit lh done x hstage
    obtain ⟨hlh, -, hx⟩ := hlogs.known p lh done x hstage
    have hbound : lh.length ≤ LOGSIZE := hlh ▸ hlogs.pins.bound
    rw [if_neg hw, setBlock_apply, ← h.client b hb]
    split
    · next hbn =>
      obtain ⟨-, rfl⟩ := hbn
      rcases hsame _ hi fun a ha hin => h.logged a (hlh ▸ ha) ⟨hin.1, hin.2.trans (by omega)⟩ with
        hin | hsame
      · exact absurd ⟨hin.1, hin.2.trans (by omega)⟩ hb
      · rw [hlogs.tracks.data i _ _ hd hfor hvalid]
        dsimp only at hsame ⊢
        rw [hx]
        exact hsame
    · rfl

theorem Transparent.step {a : UserAction ι} (h : s.Transparent dev start) (hop : s.Operating a)
    (hspare : s.Sparing a) (hstep : s.step a = some s') : s'.Transparent dev start := by
  have hoperates := h.operates.step hop False.elim hstep
  cases a with
  | call p c =>
    obtain ⟨-, -, rfl⟩ := step_call hstep
    exact ⟨hoperates, h.logged, h.client⟩
  | intr =>
    obtain ⟨bio, hbio, rfl⟩ := step_intr hstep
    obtain ⟨hlog, hplain, hclient⟩ := ideintr_frame hbio
    exact ⟨hoperates, by dsimp only; rw [hlog]; exact h.logged,
      by dsimp only; rw [hplain, hclient]; exact h.client⟩
  | step p =>
    obtain ⟨o, k, r, bio, hcode, hrun, rfl⟩ := step_step hstep
    obtain ⟨g, hlogs, hends⟩ := h.operates
    have hp := hends p
    rw [hcode] at hp
    refine ⟨hoperates, fun b hb => ?_, fun b hb => ?_⟩
    · dsimp only at hb
      rw [run_log hrun] at hb
      cases o with
      | logWrite i =>
        simp only [BufOp.logAfter, Log.mem_logWrite_lh] at hb
        rcases hb with rfl | hb
        · simp only [Sparing, hcode, hlogs.logStart] at hspare
          exact hspare
        · exact h.logged b hb
      | clear => exact absurd hb List.not_mem_nil
      | _ => exact h.logged b hb
    · by_cases hset : ∃ w i f, o = .setData w i f
      · obtain ⟨w, i, f, rfl⟩ := hset
        obtain ⟨-, hplain, hclient⟩ := run_setData_eq hrun
        exact h.setData hlogs hp.1 hplain hclient b hb
      · obtain ⟨hplain, hclient⟩ := run_contents hrun fun w i f he => hset ⟨w, i, f, he⟩
        dsimp only
        rw [hplain, hclient]
        exact h.client b hb

omit [DecidableEq ι] in
theorem transparent_start {store : Store} (h : store.Quiet) :
    (Users.start store : Users ι).Transparent store.log.dev store.log.start := by
  refine ⟨operates_start h, fun b hb => ?_, fun _ _ => rfl⟩
  have : b ∈ store.log.lh := hb
  rw [h.lh] at this
  cases this

/-- What `bread` has returned is what the processes have written last, outside of
the log. -/
def ReadsClient (s : Users ι) : Prop :=
  ∀ p x, s.code p = .pure (some x) → ¬ InLog s.bio.store.log.start LOGSIZE x.blockno →
    (s.bio.buf x.i).data = s.bio.client x.dev x.blockno

omit [DecidableEq ι] in
theorem Transparent.readsClient (h : s.Transparent dev start) : s.ReadsClient := by
  obtain ⟨g, hlogs, hends⟩ := h.operates
  intro p x hx hout
  have hp := hends p
  rw [hx] at hp
  have hgrip : (g p).grips x.i = some ⟨x.dev, x.blockno, .ready false⟩ := hp.1.2 x rfl
  obtain ⟨hfor, hdev, hvalid, -⟩ := hlogs.tracks.grip p x.i _ hgrip
  have hxdev : x.dev = dev := hlogs.grip p x.i _ hgrip
  rw [hlogs.logStart] at hout
  rw [hlogs.tracks.data x.i _ _ hdev hfor hvalid]
  dsimp only
  rw [hxdev]
  exact h.client x.blockno hout

end Users

/-- Process `0` logs block `100` with contents `7`; after its commit has copied it to
the log, process `1` changes it to `8` and gives it to `bwrite`; then the commit
installs it, and process `1` reads it again. -/
def writtenDuringCommit : List (UserAction (Fin 2)) :=
  let steps (n : ℕ) : List (UserAction (Fin 2)) := List.replicate n (.step 0)
  let intr : List (UserAction (Fin 2)) := [.intr]
  let logs : List (UserAction (Fin 2)) :=
    [.call 0 .beginOp, .step 0, .call 0 (.bread 1 100), .step 0, .step 0, .step 0, .intr, .step 0,
      .call 0 (.change 0 fun _ _ => 7), .step 0, .call 0 (.logWrite 0), .step 0,
      .call 0 (.brelse 0), .step 0, .call 0 .endOp]
  let writes : List (UserAction (Fin 2)) :=
    [.call 1 (.bread 1 100), .step 1, .step 1, .call 1 (.change 0 fun _ _ => 8), .step 1,
      .call 1 (.bwrite 0), .step 1, .step 1, .intr, .step 1, .call 1 (.brelse 0), .step 1]
  let reads : List (UserAction (Fin 2)) := [.call 1 (.bread 1 100), .step 1, .step 1]
  logs ++ steps 6 ++ intr ++ steps 7 ++ intr ++ steps 3 ++ writes ++ steps 5 ++ intr ++ steps 5 ++
    intr ++ steps 11 ++ intr ++ steps 3 ++ reads

/-- What the process has read, and what was written last. -/
def Users.readBack {ι : Type} (p : ι) (s : Users ι) : Option (ℕ × ℕ × ℕ × ℕ) :=
  match s.code p with
  | .pure (some x) => some (x.dev, x.blockno, (s.bio.buf x.i).data 0, s.bio.client x.dev x.blockno 0)
  | _ => none

theorem Users.readBack_eq {ι : Type} {p : ι} {r : Option (Users ι)} {d b v w : ℕ}
    (h : r.bind (readBack p) = some (d, b, v, w)) :
    ∃ s x, r = some s ∧ s.code p = .pure (some x) ∧ x.dev = d ∧ x.blockno = b ∧
      (s.bio.buf x.i).data 0 = v ∧ s.bio.client d b 0 = w := by
  obtain ⟨s, hs, heq⟩ := Option.bind_eq_some_iff.mp h
  unfold readBack at heq
  split at heq
  · next x hx =>
    simp only [Option.some.injEq, Prod.mk.injEq] at heq
    obtain ⟨rfl, rfl, hv, hw⟩ := heq
    exact ⟨s, x, hs, hx, rfl, rfl, hv, hw⟩
  · cases heq

end StrideXv6
