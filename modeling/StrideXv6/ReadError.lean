import StrideXv6.Coherence

/-!
# Disks that fail (`ide.c`)

When the disk reports an error, `ideintr` does not read the data, but marks the buffer as
valid nevertheless. What `bread` returns is then what was in the buffer before, which may
have been another block, and it stays in the cache like that.
-/

namespace StrideXv6

open Machine

/-- What can happen next; the disk may also interrupt because of an error. -/
inductive DiskAction (ι : Type) : Type where
  | act : UserAction ι → DiskAction ι
  | readError : DiskAction ι

namespace Users

variable {ι : Type} [DecidableEq ι]

/-- The next state, with a disk that may fail. -/
def diskStep (s : Users ι) : DiskAction ι → Option (Users ι)
  | .act a => s.step a
  | .readError =>
    match s.bio.ideintrError with
    | .ok bio => some { s with bio := bio }
    | .error _ => none

/-- What `bread` has returned are the contents of the block, if it says so. -/
def ReadsTrue (s : Users ι) : Prop :=
  ∀ p x, s.code p = .pure (some x) → (s.bio.buf x.i).valid = true →
    (s.bio.buf x.i).data = s.bio.plain x.dev x.blockno

/-- No read fails. -/
def Works (s : Users ι) : DiskAction ι → Prop
  | .readError => ∀ i ∈ s.bio.queue.head?, (s.bio.buf i).dirty = true
  | .act _ => True

instance (s : Users ι) (a : DiskAction ι) : Decidable (s.Works a) :=
  match a with
  | .readError => inferInstanceAs (Decidable (∀ i ∈ s.bio.queue.head?, (s.bio.buf i).dirty = true))
  | .act _ => isTrue trivial

variable {s s' : Users ι} {a : DiskAction ι}

/-- An error that is not looked at is no error. -/
theorem diskStep_of_works (h : s.Works a) (hstep : s.diskStep a = some s') :
    ∃ b, s.step b = some s' := by
  cases a with
  | act b => exact ⟨b, hstep⟩
  | readError =>
    refine ⟨.intr, ?_⟩
    have hsame : s.bio.ideintrError = s.bio.ideintr := by
      unfold Bio.ideintrError
      cases hq : s.bio.queue with
      | nil => rw [Bio.ideintr, hq]
      | cons i rest =>
        have hdirty : (s.bio.buf i).dirty = true := h i (by rw [hq]; rfl)
        simp only [hdirty, if_true]
    rw [diskStep, hsame] at hstep
    exact hstep

end Users

open Users in
/-- **`bread` returns the contents of the block**, now and later, as long as no read fails. -/
theorem bread_true_of_works {ι : Type} [DecidableEq ι] {store : Store} (h : store.Quiet)
    {as : List (DiskAction ι)} (hworks : AllSteps diskStep Works (Users.start store) as) :
    AllStates diskStep ReadsTrue (Users.start store) as := by
  have hcoheres : AllStates diskStep Coheres (Users.start store) as := by
    refine allStates_of_allSteps (fun s a t hs ha hstep => ?_) (coheres_start h) hworks
    obtain ⟨b, hb⟩ := diskStep_of_works ha hstep
    exact hs.step hb
  exact hcoheres.mono fun s hs p x hx _ => (hs.plain.read p x hx).2.2

/-- The cache of a machine whose disks are full of fives. -/
def fives : Store := Store.binit (fun _ _ _ => 5) { start := 970, size := 30, dev := 1 } 0

/-- A process reads a block, and releases it; a write fails to no harm. -/
theorem bread_true_one : AllStates Users.diskStep Users.ReadsTrue (Users.start fives : Users Unit)
    [.act (.call () (.bread 1 100)), .act (.step ()), .act (.step ()), .act (.step ()),
      .act .intr, .act (.step ()), .act (.call () (.bwrite 0)), .act (.step ()), .act (.step ()),
      .readError, .act (.step ())] :=
  bread_true_of_works (Store.quiet_binit _ _ _ _ _ (by decide)) (by decide +kernel)

local instance pairOfDisks : NeZero 2 := ⟨by decide⟩

/-- A process reads a block, and the disk fails. -/
def failedRead : List (DiskAction Unit) :=
  [.act (.call () (.bread 1 100)), .act (.step ()), .act (.step ()), .act (.step ()), .readError,
    .act (.step ())]

/-- The process releases the buffer and reads the block again. -/
def readAgain : List (DiskAction Unit) :=
  [.act (.call () (.brelse 0)), .act (.step ()), .act (.call () (.bread 1 100)),
    .act (.step ()), .act (.step ())]

/-- What the process has read says that it is valid, and how it starts. -/
def Users.firstByte (s : Users Unit) : Option (ℕ × ℕ) :=
  match s.code () with
  | .pure (some x) =>
    if (s.bio.buf x.i).valid then
      some ((s.bio.buf x.i).data 0, s.bio.plain x.dev x.blockno 0)
    else none
  | _ => none

/-- If the first byte is wrong, then the block is. -/
theorem Users.not_readsTrue {r : Option (Users Unit)} {v w : ℕ} (hne : v ≠ w)
    (h : r.bind firstByte = some (v, w)) : ∃ s, r = some s ∧ ¬ s.ReadsTrue := by
  obtain ⟨s, hs, heq⟩ := Option.bind_eq_some_iff.mp h
  refine ⟨s, hs, fun htrue => hne ?_⟩
  unfold firstByte at heq
  split at heq
  · next x hx =>
    split at heq
    · next hvalid =>
      simp only [Option.some.injEq, Prod.mk.injEq] at heq
      rw [← heq.1, ← heq.2, htrue () x hx hvalid]
    · cases heq
  · cases heq

/-- `bread` returns zeros for fives, and it does so again without asking the disk. -/
theorem bread_keeps_error :
    (∃ s, exec Users.diskStep (Users.start fives) failedRead = some s ∧ ¬ s.ReadsTrue) ∧
    (∃ s, exec Users.diskStep (Users.start fives) (failedRead ++ readAgain) = some s ∧
      ¬ s.ReadsTrue) :=
  ⟨Users.not_readsTrue (show 0 ≠ 5 by decide) (by decide +kernel),
    Users.not_readsTrue (show 0 ≠ 5 by decide) (by decide +kernel)⟩

end StrideXv6
