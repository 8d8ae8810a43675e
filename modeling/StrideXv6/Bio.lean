import StrideXv6.Recovery
import StrideXv6.Bracket
import StrideXv6.Run

/-!
# Processes that share the buffer cache (`bio.c`, `ide.c`, `log.c`)

Any number of processes that use the buffer cache and the log at the same time. A
process is interrupted wherever another one can get in between: `bget` and
`brelse` are one step each, for they hold `bcache.lock`; so are `log_write` and the
two halves of `end_op`, under `log.lock`; `iderw` appends to `idequeue` in one step
and is over in another one, which has to wait for the interrupt handler. The rest
of the code, `bread`, `bwrite` and everything in `commit`, is made from such steps,
and reads the log without a lock as the source does.

A process uses a buffer that `bread` gave to it, until it calls `brelse`. When it
has changed the contents it calls `bwrite` or `log_write` before that.

Besides the state of the kernel, `Bio` has a record of what was done: who holds
which buffer, and the contents that a disk without a cache would have.
-/

namespace StrideXv6

open Bracket Machine

/-- On whose behalf the contents of a block are changed or written. -/
inductive Writer : Type where
  /-- a process that uses the block -/
  | client
  /-- `write_log` -/
  | log
  /-- `write_head` -/
  | head
  /-- `install_trans` -/
  | home
  deriving DecidableEq, Repr

/-- What is done in one step. -/
inductive BufOp : Type where
  | bget (dev blockno : ℕ)
  /-- test `B_VALID` -/
  | valid (i : Fin NBUF)
  /-- `iderw`, up to the loop at its end -/
  | iderw (i : Fin NBUF)
  /-- the loop at the end of `iderw` -/
  | wait (i : Fin NBUF)
  /-- `bwrite`, up to the call of `iderw` -/
  | dirty (w : Writer) (i : Fin NBUF)
  | data (i : Fin NBUF)
  | setData (w : Writer) (i : Fin NBUF) (f : Block → Block)
  | brelse (i : Fin NBUF)
  | logWrite (i : Fin NBUF)
  /-- read `log` -/
  | log
  /-- `log.lh.n = 0` -/
  | clear
  | beginOp
  /-- the first half of `end_op`, which decides about `do_commit` -/
  | endOp
  /-- the last lines of `end_op` -/
  | finish

/-- What it gives back. -/
def BufOp.Ret : BufOp → Type
  | bget _ _ => Fin NBUF
  | valid _ => Bool
  | data _ => Block
  | log => Log
  | endOp => Bool
  | _ => Unit

/-- The steps as a signature. -/
abbrev bufSig : Sig where
  Op := BufOp
  Ret := BufOp.Ret

/-- Code that uses the buffer cache. -/
abbrev BufCode : Type → Type := Code bufSig

/-- Why a step is not taken. -/
inductive Stop : Type where
  | panic : String → Stop
  | asleep
  /-- `log_write` past the end of `lh.block` -/
  | overrun
  deriving DecidableEq, Repr

def Halt.stop : Halt → Stop
  | .power => .asleep
  | .panic msg => .panic msg
  | .asleep => .asleep

/-- The cache, the disks and the log. -/
structure Bio (ι : Type) : Type where
  store : Store
  /-- `idequeue` -/
  queue : List (Fin NBUF)
  /-- the buffers each process has from `bget` and not given to `brelse` -/
  holds : ι → Fin NBUF → Bool
  /-- changed and not yet given to `bwrite` or `log_write` -/
  changed : Fin NBUF → Bool
  /-- the contents after the last change -/
  plain : ℕ → ℕ → Block
  /-- the contents after the last change by a process that uses the block -/
  client : ℕ → ℕ → Block
  /-- the processes between `begin_op` and `end_op` -/
  inside : ι → Bool
  /-- the blocks that the operation of each process has logged -/
  logged : ι → List ℕ
  /-- the blocks that the commit in progress has given to `bwrite` in `install_trans` -/
  installed : List ℕ

/-- Change the contents of one block. -/
def setBlock (x : ℕ → ℕ → Block) (dev b : ℕ) (v : Block) : ℕ → ℕ → Block :=
  Function.update x dev (Function.update (x dev) b v)

theorem setBlock_apply (x : ℕ → ℕ → Block) (dev b dev' b' : ℕ) (v : Block) :
    setBlock x dev b v dev' b' = if dev' = dev ∧ b' = b then v else x dev' b' := by
  unfold setBlock
  by_cases hdev : dev' = dev
  · subst hdev
    by_cases hb : b' = b
    · subst hb
      simp
    · simp [hb]
  · simp [hdev]

/-- The disk reads or writes the block of a buffer. -/
def Store.transfer (s : Store) (i : Fin NBUF) : Store :=
  if (s.buf i).dirty then (s.write (s.buf i)).setBuf i { s.buf i with valid := true, dirty := false }
  else s.setBuf i { s.buf i with valid := true, data := s.home (s.buf i) }

namespace Store

theorem transfer_buf (s : Store) (i j : Fin NBUF) : (s.transfer i).buf j =
    if j = i then
      { s.buf i with
        valid := true
        dirty := false
        data := if (s.buf i).dirty then (s.buf i).data else s.home (s.buf i) }
    else s.buf j := by
  by_cases hd : (s.buf i).dirty = true
  · rw [transfer, if_pos hd, if_pos hd, setBuf_buf]
    rfl
  · rw [transfer, if_neg hd, if_neg hd, setBuf_buf]
    dsimp only
    rw [Bool.not_eq_true _ |>.mp hd]

theorem transfer_disk (s : Store) (i : Fin NBUF) (d b : ℕ) : (s.transfer i).disk d b =
    if (s.buf i).dirty = true ∧ d = (s.buf i).dev % 2 ∧ b = (s.buf i).blockno then (s.buf i).data
    else s.disk d b := by
  by_cases hd : (s.buf i).dirty = true
  · rw [transfer, if_pos hd]
    simp only [hd, true_and]
    exact setBlock_apply ..
  · rw [transfer, if_neg hd, if_neg fun h => hd h.1]
    rfl

@[simp] theorem transfer_order (s : Store) (i : Fin NBUF) : (s.transfer i).order = s.order := by
  unfold transfer
  split <;> rfl

@[simp] theorem transfer_log (s : Store) (i : Fin NBUF) : (s.transfer i).log = s.log := by
  unfold transfer
  split <;> rfl

end Store

namespace Bio

variable {ι : Type}

/-- The buffer. -/
abbrev buf (s : Bio ι) (i : Fin NBUF) : Buf := s.store.buf i

/-- Change a buffer. -/
def setBuf (s : Bio ι) (i : Fin NBUF) (b : Buf) : Bio ι := { s with store := s.store.setBuf i b }

/-- Change the log. -/
def setLog (s : Bio ι) (l : Log) : Bio ι := { s with store := { s.store with log := l } }

/-- Before any process uses the cache. -/
def start (store : Store) : Bio ι where
  store := store
  queue := []
  holds := fun _ _ => false
  changed := fun _ => false
  plain := store.disk
  client := store.disk
  inside := fun _ => false
  logged := fun _ => []
  installed := []

/-- `ideintr`: finish the request at the head of `idequeue`, and start the next
one. -/
def ideintr (s : Bio ι) : Except Stop (Bio ι) :=
  match s.queue with
  | [] => .ok s
  | i :: rest =>
    let s' := { s with store := s.store.transfer i, queue := rest }
    match rest with
    | [] => .ok s'
    | j :: _ =>
      if (s.buf j).blockno ≥ FSSIZE then .error (.panic "incorrect blockno") else .ok s'

/-- `ideintr` when `idewait(1)` is negative. -/
def ideintrError (s : Bio ι) : Except Stop (Bio ι) :=
  match s.queue with
  | [] => .ok s
  | i :: rest =>
    -- the status is not looked at after a write
    if (s.buf i).dirty then s.ideintr
    else
      let s' := { s.setBuf i { s.buf i with valid := true } with queue := rest }
      match rest with
      | [] => .ok s'
      | j :: _ =>
        if (s.buf j).blockno ≥ FSSIZE then .error (.panic "incorrect blockno") else .ok s'

theorem ideintr_eq_ok {s s' : Bio ι} (h : s.ideintr = .ok s') :
    s' = s ∨ ∃ i rest, s.queue = i :: rest ∧
      s' = { s with store := s.store.transfer i, queue := rest } := by
  simp only [ideintr] at h
  split at h
  · exact Or.inl (Except.ok.inj h).symm
  · next i rest hq =>
    refine Or.inr ⟨i, rest, hq, ?_⟩
    split at h
    · exact (Except.ok.inj h).symm
    · split at h
      · cases h
      · exact (Except.ok.inj h).symm

end Bio

/-- A step of process `p`. -/
def BufOp.run {ι : Type} [DecidableEq ι] (p : ι) (s : Bio ι) : (o : BufOp) → Except Stop (o.Ret × Bio ι)
  | bget dev b =>
    match StrideXv6.bget dev b s.store with
    | .done i store =>
      .ok (i, { s with
        store := store
        holds := Function.update s.holds p (Function.update (s.holds p) i true) })
    | .halt e _ => .error e.stop
  | valid i => .ok ((s.buf i).valid, s)
  | iderw i =>
    let b := s.buf i
    if b.busy = false then .error (.panic "iderw: buf not busy")
    else if b.valid && !b.dirty then .error (.panic "iderw: nothing to do")
    else if s.queue = [] ∧ b.blockno ≥ FSSIZE then .error (.panic "incorrect blockno")
    else .ok ((), { s with queue := s.queue ++ [i] })
  | wait i => if (s.buf i).valid && !(s.buf i).dirty then .ok ((), s) else .error .asleep
  | dirty w i =>
    if (s.buf i).busy = false then .error (.panic "bwrite")
    else
      .ok ((), { s.setBuf i { s.buf i with dirty := true } with
        changed := Function.update s.changed i false
        installed := if w = .home then (s.buf i).blockno :: s.installed else s.installed })
  | data i => .ok ((s.buf i).data, s)
  | setData w i f =>
    let b := s.buf i
    .ok ((), { s.setBuf i { b with data := f b.data } with
      changed := Function.update s.changed i true
      plain := setBlock s.plain b.dev b.blockno (f b.data)
      client := if w = .client then setBlock s.client b.dev b.blockno (f b.data) else s.client })
  | brelse i =>
    match StrideXv6.brelse i s.store with
    | .done _ store =>
      .ok ((), { s with
        store := store
        holds := Function.update s.holds p (Function.update (s.holds p) i false) })
    | .halt e _ => .error e.stop
  | logWrite i =>
    if (s.buf i).blockno ∉ s.store.log.lh ∧ LOGSIZE ≤ s.store.log.lh.length then .error .overrun
    else
      .ok ((), { (s.setBuf i { s.buf i with dirty := true }).setLog
          (s.store.log.logWrite (s.buf i).blockno) with
        changed := Function.update s.changed i false
        logged := Function.update s.logged p ((s.logged p).insert (s.buf i).blockno) })
  | log => .ok (s.store.log, s)
  | clear => .ok ((), { s.setLog { s.store.log with lh := [] } with installed := [] })
  | beginOp =>
    match s.store.log.beginOp with
    | none => .error .asleep
    | some l =>
      .ok ((), { s.setLog l with
        inside := Function.update s.inside p true
        logged := Function.update s.logged p [] })
  | endOp =>
    match s.store.log.endOp with
    | .panic => .error (.panic "log.committing")
    | .commit l => .ok (true, { s.setLog l with inside := Function.update s.inside p false })
    | .wakeup l => .ok (false, { s.setLog l with inside := Function.update s.inside p false })
  | finish => .ok ((), s.setLog { s.store.log with committing := false })

/-! ## The code -/

namespace Bio

/-- Ask for a step. -/
def ask (o : BufOp) : BufCode o.Ret := .op o .pure

/-- `bread`. -/
def bread (dev blockno : ℕ) : BufCode (Fin NBUF) := do
  let i ← ask (.bget dev blockno)
  let valid : Bool ← ask (.valid i)
  if valid then pure i
  else do
    ask (.iderw i)
    ask (.wait i)
    pure i

/-- `bwrite`. -/
def bwrite (w : Writer) (i : Fin NBUF) : BufCode Unit := do
  ask (.dirty w i)
  ask (.iderw i)
  ask (.wait i)

/-- One turn of the loop in `write_log`. -/
def logBlock (l : Log) (tail b : ℕ) : BufCode Unit := do
  let dst ← bread l.dev (l.start + tail + 1)
  let src ← bread l.dev b
  let x ← ask (.data src)
  ask (.setData .log dst fun _ => x)
  bwrite .log dst
  ask (.brelse src)
  ask (.brelse dst)

/-- One turn of the loop in `install_trans`. -/
def installBlock (l : Log) (tail b : ℕ) : BufCode Unit := do
  let lbuf ← bread l.dev (l.start + tail + 1)
  let dbuf ← bread l.dev b
  let x ← ask (.data lbuf)
  ask (.setData .home dbuf fun _ => x)
  bwrite .home dbuf
  ask (.brelse lbuf)
  ask (.brelse dbuf)

/-- The loops of `write_log` and `install_trans`, from `tail` on. There is nothing
at or after `LOGSIZE` in `lh.block`. -/
def eachEntry (body : Log → ℕ → ℕ → BufCode Unit) : (turns tail : ℕ) → BufCode Unit
  | 0, _ => pure ()
  | turns + 1, tail => do
    let l ← ask .log
    match l.lh[tail]? with
    | none => pure ()
    | some b => do
      body l tail b
      eachEntry body turns (tail + 1)

/-- `write_log`. -/
def writeLog : BufCode Unit := eachEntry logBlock (LOGSIZE + 1) 0

/-- `install_trans`. -/
def installTrans : BufCode Unit := eachEntry installBlock (LOGSIZE + 1) 0

/-- `write_head`. -/
def writeHead : BufCode Unit := do
  let l ← ask .log
  let i ← bread l.dev l.start
  let l ← ask .log
  ask (.setData .head i (setHead l.lh))
  bwrite .head i
  ask (.brelse i)

/-- `commit`. -/
def commit : BufCode Unit := do
  let l ← ask .log
  if 0 < l.lh.length then do
    writeLog
    writeHead
    installTrans
    ask .clear
    writeHead
  else pure ()

/-- `end_op`. -/
def endOp : BufCode Unit := do
  let doCommit : Bool ← ask .endOp
  if doCommit then do
    commit
    ask .finish
  else pure ()

end Bio

/-- What a process asks for. -/
inductive BufCall : Type where
  | bread (dev : Fin 2) (blockno : ℕ)
  /-- change the contents of a buffer -/
  | change (i : Fin NBUF) (f : Block → Block)
  | bwrite (i : Fin NBUF)
  | logWrite (i : Fin NBUF)
  | brelse (i : Fin NBUF)
  | beginOp
  | endOp

/-- A buffer that `bread` has returned, with the device and the block that it was
called with. -/
structure Fetched : Type where
  i : Fin NBUF
  dev : ℕ
  blockno : ℕ

/-- What the process does then; the result of `bread` is kept. -/
def BufCall.code : BufCall → BufCode (Option Fetched)
  | bread dev b => do
    let i ← Bio.bread dev b
    pure (some ⟨i, dev, b⟩)
  | change i f => do
    Bio.ask (.setData .client i f)
    pure none
  | bwrite i => do
    Bio.bwrite .client i
    pure none
  | logWrite i => do
    Bio.ask (.logWrite i)
    pure none
  | brelse i => do
    Bio.ask (.brelse i)
    pure none
  | beginOp => do
    Bio.ask .beginOp
    pure none
  | endOp => do
    Bio.endOp
    pure none

/-- A process may ask for that: buffers are used by the processes that hold them,
are written when they were changed, and operations are bracketed. -/
def BufCall.Proper {ι : Type} (s : Bio ι) (p : ι) : BufCall → Prop
  | bread _ _ => True
  | change i _ => s.holds p i = true
  | bwrite i => s.holds p i = true
  | logWrite i => s.holds p i = true
  | brelse i => s.holds p i = true ∧ s.changed i = false
  | beginOp => s.inside p = false
  | endOp => s.inside p = true

instance {ι : Type} (s : Bio ι) (p : ι) (c : BufCall) : Decidable (c.Proper s p) :=
  match c with
  | .bread _ _ => isTrue trivial
  | .change i _ | .bwrite i | .logWrite i => inferInstanceAs (Decidable (s.holds p i = true))
  | .brelse i => inferInstanceAs (Decidable (s.holds p i = true ∧ s.changed i = false))
  | .beginOp => inferInstanceAs (Decidable (s.inside p = false))
  | .endOp => inferInstanceAs (Decidable (s.inside p = true))

/-! ## The machine -/

/-- Processes that share the cache. -/
structure Users (ι : Type) : Type where
  bio : Bio ι
  /-- what each process has left to do in `bio.c` and `log.c` -/
  code : ι → BufCode (Option Fetched)

/-- What can happen next. -/
inductive UserAction (ι : Type) : Type where
  | call : ι → BufCall → UserAction ι
  | step : ι → UserAction ι
  /-- the disk interrupts -/
  | intr

namespace Users

variable {ι : Type} [DecidableEq ι]

/-- No process is in the kernel. -/
def start (store : Store) : Users ι where
  bio := Bio.start store
  code := fun _ => .pure none

/-- The next state. -/
def step (s : Users ι) : UserAction ι → Option (Users ι)
  | .call p c =>
    match s.code p with
    | .pure _ =>
      if c.Proper s.bio p then some { s with code := Function.update s.code p c.code } else none
    | .op _ _ => none
  | .step p =>
    match s.code p with
    | .pure _ => none
    | .op o k =>
      match o.run p s.bio with
      | .ok (r, bio) => some { bio := bio, code := Function.update s.code p (k r) }
      | .error _ => none
  | .intr =>
    match s.bio.ideintr with
    | .ok bio => some { s with bio := bio }
    | .error _ => none

/-- The process is about to panic. -/
def Panics (s : Users ι) (p : ι) (msg : String) : Prop :=
  match s.code p with
  | .pure _ => False
  | .op o _ => o.run p s.bio = .error (.panic msg)

theorem step_call {s s' : Users ι} {p : ι} {c : BufCall} (h : s.step (.call p c) = some s') :
    (∃ r, s.code p = .pure r) ∧ c.Proper s.bio p ∧
      s' = { s with code := Function.update s.code p c.code } := by
  simp only [step] at h
  split at h
  · next r hr =>
    split at h
    · next hc => exact ⟨⟨r, hr⟩, hc, (Option.some.inj h).symm⟩
    · cases h
  · cases h

theorem step_step {s s' : Users ι} {p : ι} (h : s.step (.step p) = some s') :
    ∃ o k r bio, s.code p = .op o k ∧ o.run p s.bio = .ok (r, bio) ∧
      s' = { bio := bio, code := Function.update s.code p (k r) } := by
  simp only [step] at h
  split at h
  · cases h
  · next o k hk =>
    split at h
    · next r bio hrun => exact ⟨o, k, r, bio, hk, hrun, (Option.some.inj h).symm⟩
    · cases h

theorem step_intr {s s' : Users ι} (h : s.step .intr = some s') :
    ∃ bio, s.bio.ideintr = .ok bio ∧ s' = { s with bio := bio } := by
  simp only [step] at h
  split at h
  · next bio hbio => exact ⟨bio, hbio, (Option.some.inj h).symm⟩
  · cases h

end Users

end StrideXv6
