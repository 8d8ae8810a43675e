import Mathlib.Data.List.Basic
import Mathlib.Data.Int.Basic

/-!
# The log in memory (`log.c`)

`struct log`, and what its users do to it under `log.lock`: `begin_op` up to the
point where it is admitted or goes to sleep, the first half of `end_op`, and
`log_write`. The header `lh` is the list of its first `n` entries.
-/

namespace StrideXv6

/-- The most blocks an operation writes. -/
def MAXOPBLOCKS : ℕ := 10

/-- The number of data blocks in the on-disk log. -/
def LOGSIZE : ℕ := MAXOPBLOCKS * 3

/-- `struct log`. -/
structure Log : Type where
  /-- first block of the on-disk log -/
  start : ℕ := 0
  /-- its length -/
  size : ℕ := 0
  /-- how many FS system calls are executing -/
  outstanding : ℤ := 0
  /-- in `commit()`, please wait -/
  committing : Bool := false
  /-- the device the log is on -/
  dev : ℕ := 0
  /-- the numbers of the logged blocks -/
  lh : List ℕ := []
  deriving DecidableEq, Repr

namespace Log

/-- The test of `begin_op`: one more operation might exhaust the log. -/
def Full (l : Log) : Prop :=
  (l.lh.length : ℤ) + (l.outstanding + 1) * (MAXOPBLOCKS : ℤ) > (LOGSIZE : ℤ)

instance (l : Log) : Decidable l.Full :=
  inferInstanceAs (Decidable ((l.lh.length : ℤ) + (l.outstanding + 1) * (MAXOPBLOCKS : ℤ) >
    (LOGSIZE : ℤ)))

/-- One turn of the loop in `begin_op`: `none` if the caller has to sleep. -/
def beginOp (l : Log) : Option Log :=
  if l.committing then none
  else if l.Full then none
  else some { l with outstanding := l.outstanding + 1 }

/-- What `end_op` decides under the lock. -/
inductive EndOp : Type where
  /-- `panic("log.committing")` -/
  | panic
  /-- this was the last operation: `do_commit` -/
  | commit : Log → EndOp
  /-- others are still executing; the sleepers in `begin_op` are woken -/
  | wakeup : Log → EndOp

/-- The first half of `end_op`. -/
def endOp (l : Log) : EndOp :=
  let l := { l with outstanding := l.outstanding - 1 }
  if l.committing then .panic
  else if l.outstanding = 0 then .commit { l with committing := true }
  else .wakeup l

/-- `log_write`, as far as the log is concerned: a block that is in the header
already is not entered again. -/
def logWrite (l : Log) (b : ℕ) : Log :=
  if b ∈ l.lh then l else { l with lh := l.lh ++ [b] }

theorem beginOp_eq_none {l : Log} (h : l.beginOp = none) : l.committing = true ∨ l.Full := by
  by_cases hc : l.committing = true
  · exact Or.inl hc
  · by_cases hf : l.Full
    · exact Or.inr hf
    · rw [beginOp, if_neg hc, if_neg hf] at h
      cases h

theorem beginOp_eq_some {l l' : Log} (h : l.beginOp = some l') :
    l.committing = false ∧ l' = { l with outstanding := l.outstanding + 1 } := by
  by_cases hc : l.committing = true
  · rw [beginOp, if_pos hc] at h
    cases h
  · by_cases hf : l.Full
    · rw [beginOp, if_neg hc, if_pos hf] at h
      cases h
    · rw [beginOp, if_neg hc, if_neg hf] at h
      exact ⟨Bool.not_eq_true _ ▸ hc, (Option.some.inj h).symm⟩

/-- The loop over the header finds the block or appends it. -/
theorem logWrite_lh (l : Log) (b : ℕ) :
    b ∈ (l.logWrite b).lh ∧ (∀ b', b' ∈ l.lh → b' ∈ (l.logWrite b).lh) ∧
      l.lh.length ≤ (l.logWrite b).lh.length := by
  unfold logWrite
  split
  · next h => exact ⟨h, fun _ h => h, le_rfl⟩
  · exact ⟨by simp, fun _ h => by simp [h], by simp⟩

theorem logWrite_frame (l : Log) (b : ℕ) :
    (l.logWrite b).outstanding = l.outstanding ∧ (l.logWrite b).committing = l.committing := by
  unfold logWrite
  split <;> exact ⟨rfl, rfl⟩

theorem mem_logWrite_lh {l : Log} {b b' : ℕ} : b' ∈ (l.logWrite b).lh ↔ b' = b ∨ b' ∈ l.lh := by
  unfold logWrite
  split
  · next h => exact ⟨Or.inr, fun h' => h'.elim (fun he => he ▸ h) fun h' => h'⟩
  · rw [List.mem_append, List.mem_singleton]
    exact Or.comm

theorem logWrite_dev (l : Log) (b : ℕ) : (l.logWrite b).dev = l.dev := by
  unfold logWrite
  split <;> rfl

theorem endOp_eq_commit {l l' : Log} (h : l.endOp = .commit l') :
    l.outstanding = 1 ∧ l' = { l with outstanding := l.outstanding - 1, committing := true } := by
  simp only [endOp] at h
  split at h
  · cases h
  split at h
  · next hout =>
    cases h
    exact ⟨by omega, rfl⟩
  · cases h

theorem endOp_eq_wakeup {l l' : Log} (h : l.endOp = .wakeup l') :
    l.outstanding ≠ 1 ∧ l' = { l with outstanding := l.outstanding - 1 } := by
  simp only [endOp] at h
  split at h
  · cases h
  split at h
  · cases h
  · next hout =>
    cases h
    exact ⟨by omega, rfl⟩

/-- More entries do not make room. -/
theorem Full.logWrite {l : Log} (h : l.Full) (b : ℕ) : (l.logWrite b).Full := by
  have hlen := (l.logWrite_lh b).2.2
  unfold Full at h ⊢
  rw [(l.logWrite_frame b).1]
  omega

end Log

end StrideXv6
