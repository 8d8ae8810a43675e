import StrideXv6.Recovery
import StrideXv6.Run

/-!
# What a commit leaves, from boot on (`forkret`, `log.c`)

File system operations read blocks of the root device, change them, pass them to
`log_write` and release them, between `begin_op` and `end_op`; the last `end_op`
commits. `Fs` is storage with what there is to remember of the transaction that
is open: the blocks that were passed to `log_write`, and how many block writes
were on record when it began. Whoever does the operations is not modelled: any
process may take the next step, and none is taken while a commit is running,
since `begin_op` waits for it.

In stride mode `forkret` does not call `initlog`, so the log stays where static
storage has it: at block `0` of device `0`. Everything `commit` reads and writes
is then on device `0` (`commit_calm`), and the buffers that `log_write` pinned,
which are of the root device, stay dirty for ever. A commit is durable exactly
if nothing was logged.
-/

namespace StrideXv6

open Crash Machine

/-- `forkret`: `first` is its static variable. -/
def forkret (isRoundRobin first : Bool) : Kern Unit :=
  if isRoundRobin then
    if first then initlog else pure ()
  else pure ()

/-- Storage and the open transaction. -/
structure Fs : Type where
  store : Store
  /-- the blocks passed to `log_write` in the transaction -/
  logged : List ℕ
  /-- how many block writes were on record when it began -/
  began : ℕ

/-- What a file system operation does next. -/
inductive FsAction : Type where
  | beginOp
  | bread : ℕ → FsAction
  /-- change the contents of a buffer -/
  | modify : Fin NBUF → (Block → Block) → FsAction
  | logWrite : Fin NBUF → FsAction
  | brelse : Fin NBUF → FsAction
  | endOp

namespace Fs

/-- A machine with these disks after the first `forkret`. -/
def boot (isRoundRobin : Bool) (disk : ℕ → ℕ → Block) (budget : ℕ) : Fs where
  store := (forkret isRoundRobin true (Store.binit disk {} budget)).state
  logged := []
  began := 0

/-- Run kernel code, if it does not stop. -/
def run {α : Type} (s : Fs) (c : Kern α) : Option Fs :=
  match c s.store with
  | .done _ st => some { s with store := st }
  | .halt _ _ => none

/-- Replace the log in memory. -/
def setLog (s : Fs) (l : Log) : Fs := { s with store := { s.store with log := l } }

/-- `end_op`: `commit` runs with `committing` set and the lock released. -/
def endOp (s : Fs) : Option Fs :=
  match s.store.log.endOp with
  | .panic => none
  | .wakeup l => some (s.setLog l)
  | .commit l =>
    match commit { s.store with log := l } with
    | .done _ st =>
      some
        { store := { st with log := { st.log with committing := false } }
          logged := []
          began := st.writes.length }
    | .halt _ _ => none

/-- Some operation is executing. -/
def Open (s : Fs) : Prop := 1 ≤ s.store.log.outstanding

/-- An operation that is executing holds the buffer. -/
def Holds (s : Fs) (i : Fin NBUF) : Prop :=
  s.Open ∧ (s.store.buf i).busy = true ∧ (s.store.buf i).dev = ROOTDEV

instance (s : Fs) : Decidable s.Open := inferInstanceAs (Decidable (1 ≤ s.store.log.outstanding))

instance (s : Fs) (i : Fin NBUF) : Decidable (s.Holds i) :=
  inferInstanceAs
    (Decidable (s.Open ∧ (s.store.buf i).busy = true ∧ (s.store.buf i).dev = ROOTDEV))

/-- The next step of an operation. -/
def step (s : Fs) (a : FsAction) : Option Fs :=
  match a with
  | .beginOp => s.store.log.beginOp.map s.setLog
  | .bread b => if s.Open then s.run (StrideXv6.bread ROOTDEV b) else none
  | .modify i f => if s.Holds i then s.run (setData i f) else none
  | .logWrite i =>
    if s.Holds i then
      { s with logged := (s.store.buf i).blockno :: s.logged }.run (StrideXv6.logWrite i)
    else none
  | .brelse i => if s.Holds i then s.run (StrideXv6.brelse i) else none
  | .endOp => if s.Open then s.endOp else none

end Fs

/-- Block `b` of the root device is in the log area, by the superblock. -/
def InLogArea (disk : ℕ → ℕ → Block) (b : ℕ) : Prop :=
  disk (ROOTDEV % 2) 1 0 - disk (ROOTDEV % 2) 1 3 ≤ b ∧ b < disk (ROOTDEV % 2) 1 0

/-- What a finished commit promises, from the state `s` before it to `s'`. -/
structure Durable (s s' : Fs) : Prop where
  /-- the cached contents are on the root device -/
  installed : ∀ b ∈ s.logged, ∀ i, (s.store.buf i).IsFor ROOTDEV b →
    s'.store.disk (ROOTDEV % 2) b = (s.store.buf i).data
  /-- the buffers are not dirty any more -/
  clean : ∀ b ∈ s.logged, ∀ i, (s'.store.buf i).IsFor ROOTDEV b → (s'.store.buf i).dirty = false
  /-- and nothing else has been written since the transaction began -/
  confined : ∀ x ∈ s'.store.writes.take (s'.store.writes.length - s.began),
    x.dev = ROOTDEV ∧ (InLogArea s.store.disk x.blockno ∨ x.blockno ∈ s.logged)

/-! ## Pinned buffers stay -/

/-- The buffers `pins` are dirty, for these blocks of the root device, and the
buffers `far` are of another device. -/
structure Calm (pins : List (Fin NBUF × ℕ)) (far : List (Fin NBUF)) (s : Store) : Prop where
  /-- buffers in use and dirty buffers have been read -/
  valid : ∀ i, (s.buf i).busy = true ∨ (s.buf i).dirty = true → (s.buf i).valid = true
  pinned : ∀ i b, (i, b) ∈ pins → (s.buf i).IsFor ROOTDEV b ∧ (s.buf i).dirty = true
  far : ∀ i ∈ far, (s.buf i).dev ≠ ROOTDEV

section Pins

variable {pins : List (Fin NBUF × ℕ)} {far : List (Fin NBUF)} {l : Log} {w : List DiskWrite}
  {s s' : Store} {i : Fin NBUF}

/-- One buffer changes. -/
theorem Calm.setBuf {B : Buf} (h : Calm pins far s)
    (hvalid : B.busy = true ∨ B.dirty = true → B.valid = true)
    (hpin : ∀ b, (i, b) ∈ pins → B.IsFor ROOTDEV b ∧ B.dirty = true)
    (hfar : i ∈ far → B.dev ≠ ROOTDEV) : Calm pins far (s.setBuf i B) := by
  refine ⟨fun j hj => ?_, fun j b hj => ?_, fun j hj => ?_⟩ <;> rw [Store.setBuf_buf] at *
  · by_cases hji : j = i
    · rw [if_pos hji] at hj ⊢
      exact hvalid hj
    · rw [if_neg hji] at hj ⊢
      exact h.valid j hj
  · by_cases hji : j = i
    · subst hji
      rw [if_pos rfl]
      exact hpin b hj
    · rw [if_neg hji]
      exact h.pinned j b hj
  · by_cases hji : j = i
    · subst hji
      rw [if_pos rfl]
      exact hfar hj
    · rw [if_neg hji]
      exact h.far j hj

/-- Only the buffers matter. -/
theorem Calm.congr (h : Calm pins far s) (hbuf : s'.buf = s.buf) : Calm pins far s' :=
  ⟨hbuf ▸ h.valid, hbuf ▸ h.pinned, hbuf ▸ h.far⟩

/-- A buffer that changes neither its block nor its flags. -/
theorem Calm.setData {x : Block} (h : Calm pins far s) :
    Calm pins far (s.setBuf i { s.buf i with data := x }) :=
  h.setBuf (h.valid i) (h.pinned i) (h.far i)

/-- What `iderw` does: a write if the buffer is dirty, else a read. -/
theorem iderw_eq_done (hdone : iderw i s = .done () s') :
    ((s.buf i).dirty = true ∧
      s' = (s.write (s.buf i)).setBuf i { s.buf i with valid := true, dirty := false }) ∨
    ((s.buf i).dirty = false ∧
      s' = s.setBuf i { s.buf i with valid := true, data := s.home (s.buf i) }) := by
  rw [iderw, get_bind_apply] at hdone
  split at hdone
  · cases hdone
  split at hdone
  · cases hdone
  split at hdone
  · cases hdone
  split at hdone
  · next hdirty =>
    split at hdone
    · cases hdone
    · cases hdone
      exact Or.inl ⟨hdirty, rfl⟩
  · next hdirty =>
    cases hdone
    exact Or.inr ⟨Bool.eq_false_iff.mpr hdirty, rfl⟩

/-- The second half of `bread`, on a buffer `B` that is not to be written. -/
theorem readIn_eq_done {B : Buf} {r : Fin NBUF} (hB : B.dirty = true → B.valid = true)
    (hdone : (do
      let s ← (get : Kern Store)
      if (s.buf i).valid = false then iderw i
      pure i) (s.setBuf i B) = .done r s') :
    r = i ∧ ∃ B' : Buf, s' = s.setBuf i B' ∧ B'.dev = B.dev ∧ B'.blockno = B.blockno ∧
      B'.valid = true ∧ B'.dirty = B.dirty := by
  rw [get_bind_apply, Store.setBuf_buf_self] at hdone
  split at hdone
  · next hv =>
    have hclean : B.dirty = false := by
      cases hd : B.dirty
      · rfl
      · rw [hB hd] at hv
        cases hv
    rcases hrw : iderw i (s.setBuf i B) with ⟨u, s₂⟩ | ⟨e, s₂⟩
    · rw [bind_of_done _ hrw] at hdone
      cases hdone
      rcases iderw_eq_done hrw with ⟨hd, -⟩ | ⟨-, rfl⟩
      · rw [Store.setBuf_buf_self, hclean] at hd
        cases hd
      · rw [Store.setBuf_buf_self, Store.setBuf_setBuf]
        exact ⟨rfl, _, rfl, rfl, rfl, rfl, rfl⟩
    · rw [bind_of_halt _ hrw] at hdone
      cases hdone
  · next hv =>
    cases hdone
    exact ⟨rfl, B, rfl, rfl, rfl, Bool.not_eq_false _ ▸ hv, rfl⟩

/-- `bread` uses a buffer that is for the block already, or one that is not
dirty; it writes nothing. -/
theorem bread_eq_done {dv b : ℕ} {r : Fin NBUF} (h : Calm pins far s)
    (hdone : bread dv b s = .done r s') :
    ∃ B : Buf, s' = s.setBuf r B ∧ B.IsFor dv b ∧ B.valid = true ∧
      B.dirty = (s.buf r).dirty ∧ ((s.buf r).IsFor dv b ∨ (s.buf r).dirty = false) := by
  rw [bread] at hdone
  rcases hget : bget dv b s with ⟨i, s₁⟩ | ⟨e, s₁⟩
  swap
  · rw [bind_of_halt s hget] at hdone
    cases hdone
  rw [bind_of_done s hget] at hdone
  rcases bget_eq_done hget with ⟨hl, -, rfl⟩ | ⟨-, hv, rfl⟩
  · have hfor := lookup_eq_some hl
    obtain ⟨rfl, B, rfl, hdev, hno, hvalid, hdirty⟩ :=
      readIn_eq_done (by exact fun hd => h.valid i (Or.inr hd)) hdone
    exact ⟨B, rfl, ⟨hdev.trans hfor.1, hno.trans hfor.2⟩, hvalid, hdirty, Or.inl hfor⟩
  · obtain ⟨rfl, B, rfl, hdev, hno, hvalid, hdirty⟩ :=
      readIn_eq_done (fun hd => by cases hd) hdone
    have hclean := (victim_eq_some hv).2
    exact ⟨B, rfl, ⟨hdev, hno⟩, hvalid, hdirty.trans hclean.symm, Or.inr hclean⟩

/-- What code that reads does to the pins, the log and the record of writes. -/
def ReadsOnly {α : Type} (far : List (Fin NBUF)) (c : Kern α) (R : α → Store → Prop) : Prop :=
  ∀ pins l w, Triple (fun s => Calm pins far s ∧ s.log = l ∧ s.writes = w) c
    (fun a s => (Calm pins far s ∧ s.log = l ∧ s.writes = w) ∧ R a s) fun _ => True

theorem bread_readsOnly {dv b : ℕ} (hfar : dv ≠ ROOTDEV ∨ far = []) :
    ReadsOnly far (bread dv b) fun r s => (s.buf r).dev = dv := by
  rintro pins l w s ⟨h, hlog, hw⟩
  rcases hdone : bread dv b s with ⟨r, s'⟩ | ⟨e, s'⟩
  swap
  · trivial
  obtain ⟨B, rfl, hfor, hvalid, hdirty, hold⟩ := bread_eq_done h hdone
  refine ⟨⟨h.setBuf (fun _ => hvalid) (fun c hc => ?_) fun hr => ?_, hlog, hw⟩, ?_⟩
  · -- a pinned buffer is not recycled
    obtain ⟨hpin, hd⟩ := h.pinned r c hc
    rcases hold with hold | hold
    · exact ⟨⟨hfor.1.trans (hold.1.symm.trans hpin.1), hfor.2.trans (hold.2.symm.trans hpin.2)⟩,
        hdirty.trans hd⟩
    · rw [hd] at hold
      cases hold
  · rcases hfar with hfar | rfl
    · rw [hfor.1]
      exact hfar
    · cases hr
  · exact (congrArg Buf.dev (s.setBuf_buf_self r B)).trans hfor.1

theorem setData_readsOnly {f : Block → Block} : ReadsOnly far (setData i f) fun _ _ => True := by
  rintro pins l w s ⟨h, hlog, hw⟩
  exact ⟨⟨h.setData, hlog, hw⟩, trivial⟩

theorem copyData_readsOnly {j : Fin NBUF} : ReadsOnly far (copyData i j) fun _ _ => True := by
  rintro pins l w s ⟨h, hlog, hw⟩
  exact ⟨⟨h.setData, hlog, hw⟩, trivial⟩

theorem brelse_readsOnly : ReadsOnly far (brelse i) fun _ _ => True := by
  rintro pins l w s ⟨h, hlog, hw⟩
  rw [brelse, get_bind_apply]
  split
  · trivial
  · have hset : Calm pins far (s.setBuf i { s.buf i with busy := false }) :=
      h.setBuf (fun hd => h.valid i (Or.inr (hd.resolve_left (by simp)))) (h.pinned i) (h.far i)
    exact ⟨⟨hset.congr rfl, hlog, hw⟩, trivial⟩

/-- A write of a buffer of another device. -/
theorem bwrite_calm (hi : i ∈ far) :
    Triple (fun s => Calm pins far s ∧ s.log = l) (bwrite i)
      (fun _ s => Calm pins far s ∧ s.log = l) fun _ => True := by
  rintro s ⟨h, hlog⟩
  rw [bwrite, get_bind_apply]
  split
  · trivial
  rw [modify_bind_apply]
  rcases hrw : iderw i (s.setBuf i { s.buf i with dirty := true }) with ⟨u, s'⟩ | ⟨e, s'⟩
  swap
  · trivial
  have hpin : ∀ b, (i, b) ∉ pins := fun b hb => h.far i hi (h.pinned i b hb).1.1
  rcases iderw_eq_done hrw with ⟨-, rfl⟩ | ⟨hd, -⟩
  · rw [Store.setBuf_buf_self]
    have hset : Calm pins far (s.setBuf i { s.buf i with valid := true, dirty := false }) :=
      h.setBuf (fun _ => rfl) (fun b hb => absurd hb (hpin b)) (h.far i)
    exact ⟨hset.congr (Function.update_idem ..), hlog⟩
  · rw [Store.setBuf_buf_self] at hd
    cases hd

/-- The same without the record of writes. -/
theorem ReadsOnly.calm {α : Type} {c : Kern α} {R : α → Store → Prop} (hc : ReadsOnly far c R) :
    Triple (fun s => Calm pins far s ∧ s.log = l) c
      (fun a s => (Calm pins far s ∧ s.log = l) ∧ R a s) fun _ => True := by
  rintro s ⟨h, hlog⟩
  refine (hc pins l s.writes).conseq (P := (· = s)) ?_ ?_ s rfl
  · rintro _ rfl
    exact ⟨h, hlog, rfl⟩
  · exact fun a s' h => ⟨⟨h.1.1, h.1.2.1⟩, h.2⟩

theorem ReadsOnly.step {c : Kern Unit} (hc : ReadsOnly far c fun _ _ => True) :
    Triple (fun s => Calm pins far s ∧ s.log = l) c
      (fun _ s => Calm pins far s ∧ s.log = l) fun _ => True :=
  hc.calm.conseq (fun _ h => h) fun _ _ h => h.1

theorem Calm.forget (h : Calm pins far s) : Calm pins [] s :=
  ⟨h.valid, h.pinned, fun _ hi => by cases hi⟩

/-- A block of another device is opened. -/
theorem bread_calm {dv b : ℕ} (hdv : dv ≠ ROOTDEV) :
    Triple (fun s => Calm pins far s ∧ s.log = l) (bread dv b)
      (fun r s => Calm pins (r :: far) s ∧ s.log = l) fun _ => True := by
  refine (bread_readsOnly (Or.inl hdv)).calm.conseq (fun _ h => h) ?_
  rintro r s ⟨⟨h, hlog⟩, hr⟩
  refine ⟨⟨h.valid, h.pinned, fun i hi => ?_⟩, hlog⟩
  rcases List.mem_cons.mp hi with rfl | hi
  · rw [hr]
    exact hdv
  · exact h.far i hi

/-- The end of a turn of both loops of `commit`. -/
theorem copyOut_calm {j m n : Fin NBUF} (hi : i ∈ far) :
    Triple (fun s => Calm pins far s ∧ s.log = l)
      (do copyData i j; bwrite i; brelse m; brelse n)
      (fun _ s => Calm pins [] s ∧ s.log = l) fun _ => True := by
  refine copyData_readsOnly.step.seq ((bwrite_calm hi).seq (brelse_readsOnly.step.seq ?_))
  exact brelse_readsOnly.step.conseq (fun _ h => h) fun _ s h => ⟨h.1.forget, h.2⟩

theorem writeLog_calm (hdev : l.dev ≠ ROOTDEV) :
    Triple (fun s => Calm pins [] s ∧ s.log = l) writeLog
      (fun _ s => Calm pins [] s ∧ s.log = l) fun _ => True := by
  refine Triple.get_bind fun s₀ h₀ => ?_
  rw [h₀.2]
  refine Triple.pre (Triple.forEach (I := fun _ s => Calm pins [] s ∧ s.log = l) ?_)
    fun s hs => hs ▸ h₀
  rintro - ⟨b, tail⟩ - -
  refine (bread_calm hdev).bind fun dst => (bread_calm hdev).bind fun src => ?_
  exact copyOut_calm (List.mem_cons_of_mem _ List.mem_cons_self)

theorem installTrans_calm (hdev : l.dev ≠ ROOTDEV) :
    Triple (fun s => Calm pins [] s ∧ s.log = l) installTrans
      (fun _ s => Calm pins [] s ∧ s.log = l) fun _ => True := by
  refine Triple.get_bind fun s₀ h₀ => ?_
  rw [h₀.2]
  refine Triple.pre (Triple.forEach (I := fun _ s => Calm pins [] s ∧ s.log = l) ?_)
    fun s hs => hs ▸ h₀
  rintro - ⟨b, tail⟩ - -
  refine (bread_calm hdev).bind fun lbuf => (bread_calm hdev).bind fun dbuf => ?_
  exact copyOut_calm List.mem_cons_self

theorem writeHead_calm (hdev : l.dev ≠ ROOTDEV) :
    Triple (fun s => Calm pins [] s ∧ s.log = l) writeHead
      (fun _ s => Calm pins [] s ∧ s.log = l) fun _ => True := by
  refine Triple.get_bind fun s₀ h₀ => ?_
  rw [h₀.2]
  refine ((bread_calm hdev).pre fun s hs => hs ▸ h₀).bind fun i => ?_
  refine setData_readsOnly.step.seq ((bwrite_calm List.mem_cons_self).seq ?_)
  exact brelse_readsOnly.step.conseq (fun _ h => h) fun _ s h => ⟨h.1.forget, h.2⟩

/-- A commit of a log that is on another device keeps all pins. -/
theorem commit_calm (hdev : l.dev ≠ ROOTDEV) :
    Triple (fun s => Calm pins [] s ∧ s.log = l) commit
      (fun _ s => Calm pins [] s ∧ s.log = { l with lh := [] }) fun _ => True := by
  have hlh : Triple (fun s => Calm pins [] s ∧ s.log = l) (setLh [])
      (fun _ s => Calm pins [] s ∧ s.log = { l with lh := [] }) fun _ => True :=
    Triple.modify fun s h => ⟨h.1.congr rfl, congrArg (fun m : Log => { m with lh := [] }) h.2⟩
  refine Triple.get_bind fun s₀ h₀ => ?_
  split
  · refine ((writeLog_calm hdev).pre (P := (· = s₀)) fun s hs => hs ▸ h₀).seq ?_
    refine (writeHead_calm hdev).seq ((installTrans_calm hdev).seq (hlh.seq ?_))
    exact writeHead_calm (l := { l with lh := [] }) hdev
  · next hn =>
    refine Triple.pure fun s hs => ⟨hs ▸ h₀.1, ?_⟩
    have hnil : l.lh = [] := by
      rw [← h₀.2]
      exact List.length_eq_zero_iff.mp (Nat.eq_zero_of_not_pos hn)
    rw [hs, h₀.2, ← hnil]

end Pins

/-! ## Runs in stride mode -/

namespace Fs

/-- What holds from boot on in stride mode. -/
structure Inv (s : Fs) : Prop where
  /-- the log was not set up -/
  dev : s.store.log.dev ≠ ROOTDEV
  calm : Calm [] [] s.store
  /-- the logged blocks are pinned -/
  pinned : ∀ b ∈ s.logged, ∃ i, Calm [(i, b)] [] s.store
  /-- and in the header -/
  header : ∀ b, b ∈ s.store.log.lh ↔ b ∈ s.logged
  /-- nothing is written between commits -/
  writes : s.store.writes.length = s.began

theorem boot_inv (disk : ℕ → ℕ → Block) (budget : ℕ) : (boot false disk budget).Inv where
  dev := by
    change (0 : ℕ) ≠ ROOTDEV
    decide
  calm :=
    { valid := fun i h => by rcases h with h | h <;> cases h
      pinned := fun i b h => by cases h
      far := fun i h => by cases h }
  pinned b hb := by cases hb
  header b := Iff.rfl
  writes := rfl

variable {s s' : Fs}

theorem run_eq_some {α : Type} {c : Kern α} (h : s.run c = some s') :
    ∃ a st, c s.store = .done a st ∧ s' = { s with store := st } := by
  unfold run at h
  split at h
  · next a st hc => exact ⟨a, st, hc, (Option.some.inj h).symm⟩
  · cases h

/-- Code that only reads keeps the invariant. -/
theorem Inv.run {α : Type} {c : Kern α} {R : α → Store → Prop} (h : s.Inv) (hc : ReadsOnly [] c R)
    (hrun : s.run c = some s') : s'.Inv := by
  obtain ⟨a, st, hdone, rfl⟩ := run_eq_some hrun
  have hkeep : ∀ pins, Calm pins [] s.store →
      Calm pins [] st ∧ st.log = s.store.log ∧ st.writes = s.store.writes :=
    fun pins hpins => ((hc pins _ _).of_done ⟨hpins, rfl, rfl⟩ hdone).1
  obtain ⟨hcalm, hlog, hw⟩ := hkeep [] h.calm
  refine ⟨hlog ▸ h.dev, hcalm, fun b hb => ?_, hlog ▸ h.header, hw ▸ h.writes⟩
  obtain ⟨i, hi⟩ := h.pinned b hb
  exact ⟨i, (hkeep _ hi).1⟩

/-- The log in memory changes, but neither its place nor its header. -/
theorem Inv.setLog {l : Log} (h : s.Inv) (hdev : l.dev = s.store.log.dev)
    (hlh : l.lh = s.store.log.lh) : (s.setLog l).Inv where
  dev := hdev.trans_ne h.dev
  calm := h.calm.congr rfl
  pinned b hb := (h.pinned b hb).imp fun _ hi => hi.congr rfl
  header b := (hlh ▸ Iff.rfl : b ∈ l.lh ↔ b ∈ s.store.log.lh).trans (h.header b)
  writes := h.writes

theorem Inv.logWrite {i : Fin NBUF} (h : s.Inv) (hi : s.Holds i)
    (hrun : ({ s with logged := (s.store.buf i).blockno :: s.logged } : Fs).run
      (StrideXv6.logWrite i) = some s') : s'.Inv := by
  obtain ⟨-, hbusy, hdev⟩ := hi
  obtain ⟨a, st, hdone, rfl⟩ := run_eq_some hrun
  cases hdone
  have hkeep : ∀ pins, Calm pins [] s.store →
      Calm pins [] (s.store.setBuf i { s.store.buf i with dirty := true }) :=
    fun pins hp => hp.setBuf (fun _ => hp.valid i (Or.inl hbusy))
      (fun b hb => ⟨(hp.pinned i b hb).1, rfl⟩) (hp.far i)
  refine ⟨(Log.logWrite_dev ..).trans_ne h.dev, (hkeep [] h.calm).congr rfl, fun b hb => ?_,
    fun b => ?_, h.writes⟩
  · rcases List.mem_cons.mp hb with rfl | hb
    · refine ⟨i, (hkeep [] h.calm).valid, fun j c hj => ?_, fun j hj => by cases hj⟩
      obtain ⟨rfl, rfl⟩ := Prod.mk.inj (List.mem_singleton.mp hj)
      change ((s.store.setBuf j _).buf j).IsFor _ _ ∧ ((s.store.setBuf j _).buf j).dirty = true
      rw [Store.setBuf_buf_self]
      exact ⟨⟨hdev, rfl⟩, rfl⟩
    · obtain ⟨j, hj⟩ := h.pinned b hb
      exact ⟨j, (hkeep _ hj).congr rfl⟩
  · rw [List.mem_cons, ← h.header b]
    exact Log.mem_logWrite_lh

/-- What a committing `end_op` does. -/
theorem endOp_eq_commit (h : s.endOp = some s') (hout : s.store.log.outstanding = 1) :
    ∃ st, commit { s.store with log :=
        { s.store.log with outstanding := s.store.log.outstanding - 1, committing := true } } =
      .done () st ∧ s' = { store := { st with log := { st.log with committing := false } }
                           logged := [], began := st.writes.length } := by
  unfold endOp at h
  rcases hend : s.store.log.endOp with - | l | l <;> rw [hend] at h
  · cases h
  · obtain ⟨-, rfl⟩ := Log.endOp_eq_commit hend
    dsimp only at h
    split at h
    · next st hc => exact ⟨st, hc, (Option.some.inj h).symm⟩
    · cases h
  · exact absurd hout (Log.endOp_eq_wakeup hend).1

/-- Whatever was pinned still is when the commit has finished. -/
theorem Inv.commit {pins : List (Fin NBUF × ℕ)} {l : Log} {st : Store} (h : s.Inv)
    (hc : StrideXv6.commit { s.store with log := l } = .done () st)
    (hl : l.dev = s.store.log.dev) (hpins : Calm pins [] s.store) :
    Calm pins [] st ∧ st.log = { l with lh := [] } := by
  refine (commit_calm (hl.trans_ne h.dev)).of_done ?_ hc
  exact ⟨hpins.congr rfl, rfl⟩

theorem Inv.endOp (h : s.Inv) (hs : s.endOp = some s') : s'.Inv := by
  by_cases hout : s.store.log.outstanding = 1
  · obtain ⟨st, hc, rfl⟩ := endOp_eq_commit hs hout
    obtain ⟨hcalm, hlog⟩ := h.commit hc rfl h.calm
    refine ⟨?_, hcalm.congr rfl, fun b hb => (by cases hb), fun b => ?_, rfl⟩
    · dsimp only
      rw [hlog]
      exact h.dev
    · dsimp only
      rw [hlog]
  · unfold Fs.endOp at hs
    rcases hend : s.store.log.endOp with - | l | l <;> rw [hend] at hs
    · cases hs
    · exact absurd (Log.endOp_eq_commit hend).1 hout
    · obtain ⟨-, rfl⟩ := Log.endOp_eq_wakeup hend
      cases hs
      exact h.setLog rfl rfl

theorem Inv.next {a : FsAction} (h : s.Inv) (hs : s.step a = some s') : s'.Inv := by
  unfold step at hs
  cases a with
  | beginOp =>
    obtain ⟨l, hl, rfl⟩ := Option.map_eq_some_iff.mp hs
    obtain ⟨-, rfl⟩ := Log.beginOp_eq_some hl
    exact h.setLog rfl rfl
  | bread b =>
    obtain ⟨-, hs⟩ := Option.ite_none_right_eq_some.mp hs
    exact h.run (bread_readsOnly (Or.inr rfl)) hs
  | modify i f =>
    obtain ⟨-, hs⟩ := Option.ite_none_right_eq_some.mp hs
    exact h.run setData_readsOnly hs
  | logWrite i =>
    obtain ⟨hi, hs⟩ := Option.ite_none_right_eq_some.mp hs
    exact h.logWrite hi hs
  | brelse i =>
    obtain ⟨-, hs⟩ := Option.ite_none_right_eq_some.mp hs
    exact h.run brelse_readsOnly hs
  | endOp =>
    obtain ⟨-, hs⟩ := Option.ite_none_right_eq_some.mp hs
    exact h.endOp hs

end Fs

/-- **Durability in stride mode.** In every run from boot, a commit that has
finished is durable exactly if its transaction logged no block: the blocks it
did log are still dirty in the cache. -/
theorem durable_iff_nothing_logged {disk : ℕ → ℕ → Block} {budget : ℕ} {as : List FsAction}
    {s s' : Fs} (hrun : exec Fs.step (Fs.boot false disk budget) as = some s)
    (hlast : s.store.log.outstanding = 1) (hend : s.step .endOp = some s') :
    Durable s s' ↔ s.logged = [] := by
  have hinv : s.Inv :=
    exec_invariant (fun s a s' h hs => h.next hs) (Fs.boot_inv disk budget) hrun
  obtain ⟨-, hend⟩ := Option.ite_none_right_eq_some.mp hend
  obtain ⟨st, hc, rfl⟩ := Fs.endOp_eq_commit hend hlast
  constructor
  · intro hdur
    rcases hlogged : s.logged with - | ⟨b, bs⟩
    · rfl
    · -- the first of the logged blocks is still pinned
      have hb : b ∈ s.logged := by
        rw [hlogged]
        exact List.mem_cons_self
      obtain ⟨i, hi⟩ := hinv.pinned b hb
      obtain ⟨hcalm, -⟩ := hinv.commit hc rfl hi
      obtain ⟨hfor, hdirty⟩ := hcalm.pinned i b List.mem_cons_self
      rw [hdur.clean b hb i hfor] at hdirty
      cases hdirty
  · intro hnil
    have hlh : s.store.log.lh = [] :=
      List.eq_nil_iff_forall_not_mem.mpr fun b hb => by
        rw [hinv.header, hnil] at hb
        cases hb
    -- the header is empty, so `commit` does nothing
    have hst : st = { s.store with log := { s.store.log with
        outstanding := s.store.log.outstanding - 1, committing := true } } := by
      rw [commit, get_bind_apply, if_neg (by simp [hlh])] at hc
      cases hc
      rfl
    refine ⟨fun b hb => ?_, fun b hb => ?_, fun x hx => ?_⟩
    · rw [hnil] at hb
      cases hb
    · rw [hnil] at hb
      cases hb
    · rw [hst] at hx
      dsimp only at hx
      rw [hinv.writes, Nat.sub_self] at hx
      cases hx

/-- An operation that logs nothing. -/
theorem durable_iff_nothing_logged_empty :
    ∃ s s', exec Fs.step (Fs.boot false (fun _ _ _ => 0) 0) [.beginOp] = some s ∧
      s.step .endOp = some s' ∧ Durable s s' := by
  obtain ⟨s, hs, heval⟩ := Option.bind_eq_some_iff.mp
    (show ((exec Fs.step (Fs.boot false (fun _ _ _ => 0) 0) [.beginOp]).bind fun s =>
      (s.step .endOp).map fun _ => (s.store.log.outstanding, s.logged)) = some (1, []) by
      decide +kernel)
  obtain ⟨s', hs', heq⟩ := Option.map_eq_some_iff.mp heval
  obtain ⟨hout, hlogged⟩ := Prod.mk.inj heq
  exact ⟨s, s', hs, hs', (durable_iff_nothing_logged hs hout hs').mpr hlogged⟩

/-- An operation that changes block `5` of a disk of 1000 blocks, 30 of which
are log: its commit finishes, and the buffer is as dirty as before. -/
theorem logged_block_not_durable :
    ∃ s s',
      exec Fs.step (Fs.boot false
          (fun _ b k => if b = 1 then (if k = 0 then 1000 else if k = 3 then 30 else 0) else 0) 9)
        [.beginOp, .bread 5, .modify 0 fun _ _ => 7, .logWrite 0, .brelse 0] = some s ∧
      s.store.log.outstanding = 1 ∧ s.step .endOp = some s' ∧ ¬ Durable s s' := by
  obtain ⟨s, hs, heval⟩ := Option.bind_eq_some_iff.mp
    (show ((exec Fs.step (Fs.boot false
          (fun _ b k => if b = 1 then (if k = 0 then 1000 else if k = 3 then 30 else 0) else 0) 9)
        [.beginOp, .bread 5, .modify 0 fun _ _ => 7, .logWrite 0, .brelse 0]).bind fun s =>
      (s.step .endOp).map fun s' => ((s.store.log.outstanding, s.logged),
        ((s'.store.buf 0).dev, (s'.store.buf 0).blockno), (s'.store.buf 0).dirty)) =
        some ((1, [5]), (ROOTDEV, 5), true) by decide +kernel)
  obtain ⟨s', hs', heq⟩ := Option.map_eq_some_iff.mp heval
  obtain ⟨hpre, hpost⟩ := Prod.mk.inj heq
  obtain ⟨hout, hlogged⟩ := Prod.mk.inj hpre
  obtain ⟨hfor, hdirty⟩ := Prod.mk.inj hpost
  refine ⟨s, s', hs, hout, hs', fun hdur => ?_⟩
  have hclean := hdur.clean 5 (by rw [hlogged]; exact List.mem_cons_self) 0 (Prod.mk.inj hfor)
  rw [hdirty] at hclean
  cases hclean

end StrideXv6
