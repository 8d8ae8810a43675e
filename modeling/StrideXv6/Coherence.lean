import StrideXv6.Bio
import StrideXv6.Setting

/-!
# The buffer cache and a plain disk

What the processes know about the buffers they hold (`Grip`), as far as the code
of `bio.c` and `log.c` goes: whether the contents are there, and whether they are
about to be read or written. `grips` says which step may be taken in which of these
states, and all the code keeps to it (`ends_bread`, `ends_bwrite`, `ends_commit`).

`Tracks` relates that to the cache, the queue of the disk and the disk. A buffer
belongs to one process at most; what it has is what the block should have; and the
disk has it too, unless there is a buffer that is dirty or was just changed. Every
step keeps this (`Tracks.run`, `Tracks.ideintr`).
-/

namespace StrideXv6

open Bracket Crash Machine

/-! ## What processes know -/

/-- How far a process is with a buffer. -/
inductive Hold : Type where
  /-- `bget` returned it -/
  | fetched
  /-- there is nothing in it yet -/
  | stale
  /-- it can be used, and was changed since it was last written, or was not -/
  | ready (changed : Bool)
  /-- `bwrite` has set `B_DIRTY` -/
  | marked
  /-- it was appended to `idequeue` -/
  | queued

/-- How `B_VALID` is taken by `bread`. -/
def Hold.ofValid : Bool → Hold
  | true => .ready false
  | false => .stale

/-- A buffer in the hands of a process, for the block that was asked for. -/
structure Grip : Type where
  dev : ℕ
  blockno : ℕ
  hold : Hold

/-- The buffers in the hands of a process. -/
abbrev Grips : Type := Fin NBUF → Option Grip

namespace Grips

/-- A buffer in a certain state. -/
def Has (g : Grips) (i : Fin NBUF) (h : Hold) : Prop := ∃ d b, g i = some ⟨d, b, h⟩

/-- The state of a buffer changes. -/
def become (g : Grips) (i : Fin NBUF) (h : Hold) : Grips :=
  Function.update g i ((g i).map fun x => { x with hold := h })

theorem become_eq {g : Grips} {i : Fin NBUF} {h h' : Hold} {d b : ℕ} (hi : g i = some ⟨d, b, h⟩) :
    g.become i h' = Function.update g i (some ⟨d, b, h'⟩) := by
  rw [become, hi]
  rfl

/-- No buffer is waited for. -/
def Rest (g : Grips) : Prop := ∀ i x, g i = some x → ∃ c, x.hold = .ready c

end Grips

/-- What may be done with a buffer in which state. -/
def grips : Setting bufSig Grips where
  may g
    | .bget dev _ => dev < 2
    | .valid i => g.Has i .fetched
    | .iderw i => g.Has i .stale ∨ g.Has i .marked
    | .wait i => g.Has i .queued
    | .dirty _ i => ∃ c, g.Has i (.ready c)
    | .data i => ∃ c, g.Has i (.ready c)
    | .setData _ i _ => ∃ c, g.Has i (.ready c)
    | .logWrite i => ∃ c, g.Has i (.ready c)
    | .brelse i => g.Has i (.ready false)
    | _ => True
  after g
    | .bget dev b, i, g' => g i = none ∧ g' = Function.update g i (some ⟨dev, b, .fetched⟩)
    | .valid i, r, g' => g' = g.become i (Hold.ofValid r)
    | .iderw i, _, g' => g' = g.become i .queued
    | .wait i, _, g' => g' = g.become i (.ready false)
    | .dirty _ i, _, g' => g' = g.become i .marked
    | .setData _ i _, _, g' => g' = g.become i (.ready true)
    | .logWrite i, _, g' => g' = g.become i (.ready false)
    | .brelse i, _, g' => g' = Function.update g i none
    | .log, l, g' => l.dev < 2 ∧ g' = g
    | _, _, g' => g' = g

/-! ## The code -/

section Ends

variable {g : Grips} {i : Fin NBUF} {dev b d : ℕ} {c : Bool} {l : Log}

theorem ends_bread (hdev : dev < 2) :
    Ends grips (fun i g' => g i = none ∧ g' = Function.update g i (some ⟨dev, b, .ready false⟩)) g
      (Bio.bread dev b) := by
  refine ⟨hdev, fun (i : Fin NBUF) g₁ ⟨hi, hg₁⟩ => ?_⟩
  rw [hg₁]
  refine ⟨⟨dev, b, Function.update_self ..⟩, fun (r : Bool) g₂ hg₂ => ?_⟩
  rw [hg₂, Grips.become_eq (Function.update_self ..), Function.update_idem]
  cases r with
  | true => exact ⟨hi, rfl⟩
  | false =>
    refine ⟨Or.inl ⟨dev, b, Function.update_self ..⟩, fun _ g₃ hg₃ => ?_⟩
    rw [hg₃, Grips.become_eq (Function.update_self ..), Function.update_idem]
    refine ⟨⟨dev, b, Function.update_self ..⟩, fun _ g₄ hg₄ => ?_⟩
    rw [hg₄, Grips.become_eq (Function.update_self ..), Function.update_idem]
    exact ⟨hi, rfl⟩

theorem ends_bwrite {w : Writer} (hi : g i = some ⟨d, b, .ready c⟩) :
    Ends grips (fun _ g' => g' = Function.update g i (some ⟨d, b, .ready false⟩)) g
      (Bio.bwrite w i) := by
  refine ⟨⟨c, d, b, hi⟩, fun _ g₁ hg₁ => ?_⟩
  rw [hg₁, Grips.become_eq hi]
  refine ⟨Or.inr ⟨d, b, Function.update_self ..⟩, fun _ g₂ hg₂ => ?_⟩
  rw [hg₂, Grips.become_eq (Function.update_self ..), Function.update_idem]
  refine ⟨⟨d, b, Function.update_self ..⟩, fun _ g₃ hg₃ => ?_⟩
  rw [hg₃, Grips.become_eq (Function.update_self ..), Function.update_idem]
  rfl

/-- Two blocks are read, one is changed and written, and both are released. -/
theorem ends_copy {w : Writer} {a : ℕ} {dst src : Fin NBUF} {x : Block} (hne : dst ≠ src)
    (hdst : g dst = none) (hsrc : g src = none) :
    Ends grips (fun _ g' => g' = g)
      (Function.update (Function.update g dst (some ⟨d, b, .ready false⟩)) src
        (some ⟨d, a, .ready false⟩))
      (do
        Bio.ask (.setData w dst fun _ => x)
        Bio.bwrite w dst
        Bio.ask (.brelse src)
        Bio.ask (.brelse dst)) := by
  have hat : Function.update (Function.update g dst (some (⟨d, b, .ready false⟩ : Grip))) src
      (some ⟨d, a, .ready false⟩) dst = some ⟨d, b, .ready false⟩ := by
    rw [Function.update_of_ne hne, Function.update_self]
  refine ⟨⟨false, d, b, hat⟩, fun _ g₁ hg₁ => ?_⟩
  rw [hg₁, Grips.become_eq hat]
  refine (ends_bwrite (Function.update_self ..)).bind fun _ g₂ hg₂ => ?_
  rw [hg₂, Function.update_idem]
  have hsrc' : Function.update (Function.update (Function.update g dst
      (some (⟨d, b, .ready false⟩ : Grip))) src (some ⟨d, a, .ready false⟩)) dst
      (some ⟨d, b, .ready false⟩) src = some ⟨d, a, .ready false⟩ := by
    rw [Function.update_of_ne hne.symm, Function.update_self]
  refine ⟨⟨d, a, hsrc'⟩, fun _ g₃ hg₃ => ?_⟩
  have hdst' : g₃ dst = some ⟨d, b, .ready false⟩ := by
    rw [hg₃, Function.update_of_ne hne, Function.update_self]
  refine ⟨⟨d, b, hdst'⟩, fun _ g₄ hg₄ => ?_⟩
  funext j
  rw [hg₄, hg₃]
  by_cases hjd : j = dst
  · rw [hjd, Function.update_self, hdst]
  · rw [Function.update_of_ne hjd]
    by_cases hjs : j = src
    · rw [hjs, Function.update_self, hsrc]
    · rw [Function.update_of_ne hjs, Function.update_of_ne hjd, Function.update_of_ne hjs,
        Function.update_of_ne hjd]

theorem ends_logBlock {tail : ℕ} (hl : l.dev < 2) :
    Ends grips (fun _ g' => g' = g) g (Bio.logBlock l tail b) := by
  refine (ends_bread hl).bind fun dst g₁ ⟨hdst, hg₁⟩ => ?_
  rw [hg₁]
  refine (ends_bread hl).bind fun src g₂ ⟨hsrc, hg₂⟩ => ?_
  rw [hg₂]
  have hne : dst ≠ src := fun he => by
    rw [he, Function.update_self] at hsrc
    cases hsrc
  rw [Function.update_of_ne hne.symm] at hsrc
  refine ⟨⟨false, l.dev, b, Function.update_self ..⟩, fun x g₃ hg₃ => ?_⟩
  rw [hg₃]
  exact ends_copy hne hdst hsrc

theorem ends_installBlock {tail : ℕ} (hl : l.dev < 2) :
    Ends grips (fun _ g' => g' = g) g (Bio.installBlock l tail b) := by
  refine (ends_bread hl).bind fun lbuf g₁ ⟨hlbuf, hg₁⟩ => ?_
  rw [hg₁]
  refine (ends_bread hl).bind fun dbuf g₂ ⟨hdbuf, hg₂⟩ => ?_
  rw [hg₂]
  have hne : dbuf ≠ lbuf := fun he => by
    rw [he, Function.update_self] at hdbuf
    cases hdbuf
  rw [Function.update_of_ne hne] at hdbuf
  refine ⟨⟨false, l.dev, l.start + tail + 1, ?_⟩, fun x g₃ hg₃ => ?_⟩
  · rw [Function.update_of_ne hne.symm, Function.update_self]
  rw [hg₃, Function.update_comm hne.symm]
  exact ends_copy hne hdbuf hlbuf

theorem ends_eachEntry {body : Log → ℕ → ℕ → BufCode Unit} {turns tail : ℕ}
    (hbody : ∀ l tail b, l.dev < 2 → Ends grips (fun _ g' => g' = g) g (body l tail b)) :
    Ends grips (fun _ g' => g' = g) g (Bio.eachEntry body turns tail) := by
  induction turns generalizing tail with
  | zero => rfl
  | succ turns ih =>
    refine ⟨trivial, fun (l : Log) g₁ hl => ?_⟩
    obtain ⟨hl, hg₁⟩ := hl
    rw [hg₁]
    dsimp only [Code.bind]
    cases l.lh[tail]? with
    | none => rfl
    | some b =>
      refine (hbody l tail b hl).bind fun _ g₂ hg₂ => ?_
      rw [hg₂]
      exact ih

theorem ends_writeHead : Ends grips (fun _ g' => g' = g) g Bio.writeHead := by
  refine ⟨trivial, fun (l : Log) g₁ ⟨hl, hg₁⟩ => ?_⟩
  rw [hg₁]
  refine (ends_bread hl).bind fun i g₂ ⟨hi, hg₂⟩ => ?_
  rw [hg₂]
  refine ⟨trivial, fun (l' : Log) g₃ ⟨_, hg₃⟩ => ?_⟩
  rw [hg₃]
  refine ⟨⟨false, l.dev, l.start, Function.update_self ..⟩, fun _ g₄ hg₄ => ?_⟩
  rw [hg₄, Grips.become_eq (Function.update_self ..), Function.update_idem]
  refine (ends_bwrite (Function.update_self ..)).bind fun _ g₅ hg₅ => ?_
  rw [hg₅, Function.update_idem]
  refine ⟨⟨l.dev, l.start, Function.update_self ..⟩, fun _ g₆ hg₆ => ?_⟩
  change g₆ = g
  rw [hg₆, Function.update_idem, ← hi, Function.update_eq_self]

theorem ends_commit : Ends grips (fun _ g' => g' = g) g Bio.commit := by
  refine ⟨trivial, fun (l : Log) g₁ ⟨_, hg₁⟩ => ?_⟩
  rw [hg₁]
  change Ends grips _ g (if 0 < l.lh.length then _ else _)
  split
  · refine (ends_eachEntry fun l tail b hl => ends_logBlock hl).bind fun _ g₂ hg₂ => ?_
    rw [hg₂]
    refine ends_writeHead.bind fun _ g₃ hg₃ => ?_
    rw [hg₃]
    refine (ends_eachEntry fun l tail b hl => ends_installBlock hl).bind fun _ g₄ hg₄ => ?_
    rw [hg₄]
    refine ⟨trivial, fun _ g₅ hg₅ => ?_⟩
    rw [hg₅]
    exact ends_writeHead
  · rfl

theorem ends_endOp : Ends grips (fun _ g' => g' = g) g Bio.endOp := by
  refine ⟨trivial, fun (r : Bool) g₁ hg₁ => ?_⟩
  rw [hg₁]
  cases r with
  | false => rfl
  | true =>
    refine ends_commit.bind fun _ g₂ hg₂ => ?_
    rw [hg₂]
    exact ⟨trivial, fun _ g₃ hg₃ => hg₃⟩

end Ends

/-- A call is over: nothing is waited for, and a buffer that `bread` returned can be
used. -/
def Returned (r : Option Fetched) (g : Grips) : Prop :=
  g.Rest ∧ ∀ x, r = some x → g x.i = some ⟨x.dev, x.blockno, .ready false⟩

theorem Grips.Rest.update {g : Grips} {i : Fin NBUF} {y : Option Grip} (h : g.Rest)
    (hy : ∀ x, y = some x → ∃ c, x.hold = .ready c) : Grips.Rest (Function.update g i y) := by
  intro j x hx
  by_cases hj : j = i
  · rw [hj, Function.update_self] at hx
    exact hy x hx
  · rw [Function.update_of_ne hj] at hx
    exact h j x hx

/-- The rest of a process that does not return a buffer. -/
theorem Grips.Rest.returned {g : Grips} (h : g.Rest) : Returned none g :=
  ⟨h, fun _ hx => nomatch hx⟩

/-- What a process may ask for is all right with the buffers in its hands. -/
theorem ends_call {g : Grips} {c : BufCall} (hrest : g.Rest)
    (hheld : ∀ i, c = .brelse i → g.Has i (.ready false))
    (huse : ∀ i, (∃ f, c = .change i f) ∨ c = .bwrite i ∨ c = .logWrite i →
      ∃ r, g.Has i (.ready r)) :
    Ends grips Returned g c.code := by
  cases c with
  | bread dev b =>
    refine (ends_bread dev.isLt).bind fun i g₁ ⟨_, hg₁⟩ => ?_
    rw [hg₁]
    refine ⟨hrest.update fun x hx => ?_, fun x hx => ?_⟩
    · cases hx
      exact ⟨false, rfl⟩
    · cases hx
      exact Function.update_self ..
  | change i f =>
    obtain ⟨r, d, b, hi⟩ := huse i (Or.inl ⟨f, rfl⟩)
    refine ⟨⟨r, d, b, hi⟩, fun _ g₁ hg₁ => ?_⟩
    rw [hg₁, Grips.become_eq hi]
    refine (hrest.update fun x hx => ?_).returned
    cases hx
    exact ⟨true, rfl⟩
  | bwrite i =>
    obtain ⟨r, d, b, hi⟩ := huse i (Or.inr (Or.inl rfl))
    refine (ends_bwrite hi).bind fun _ g₁ hg₁ => ?_
    rw [hg₁]
    refine (hrest.update fun x hx => ?_).returned
    cases hx
    exact ⟨false, rfl⟩
  | logWrite i =>
    obtain ⟨r, d, b, hi⟩ := huse i (Or.inr (Or.inr rfl))
    refine ⟨⟨r, d, b, hi⟩, fun _ g₁ hg₁ => ?_⟩
    rw [hg₁, Grips.become_eq hi]
    refine (hrest.update fun x hx => ?_).returned
    cases hx
    exact ⟨false, rfl⟩
  | brelse i =>
    refine ⟨hheld i rfl, fun _ g₁ hg₁ => ?_⟩
    rw [hg₁]
    exact (hrest.update fun x hx => by cases hx).returned
  | beginOp =>
    refine ⟨trivial, fun _ g₁ hg₁ => ?_⟩
    rw [hg₁]
    exact hrest.returned
  | endOp =>
    refine ends_endOp.bind fun _ g₁ hg₁ => ?_
    rw [hg₁]
    exact hrest.returned

/-! ## What processes know is so -/

/-- The buffer is as the process thinks. -/
def Hold.Fits {ι : Type} (s : Bio ι) (i : Fin NBUF) : Hold → Prop
  | fetched => i ∉ s.queue ∧ s.changed i = false
  | stale => (s.buf i).valid = false ∧ (s.buf i).dirty = false ∧ i ∉ s.queue ∧ s.changed i = false
  | ready c => (s.buf i).valid = true ∧ i ∉ s.queue ∧ s.changed i = c
  | marked => (s.buf i).valid = true ∧ (s.buf i).dirty = true ∧ i ∉ s.queue ∧ s.changed i = false
  | queued => s.changed i = false ∧
      (i ∈ s.queue ∧ ((s.buf i).valid = true → (s.buf i).dirty = true) ∨
        i ∉ s.queue ∧ (s.buf i).valid = true ∧ (s.buf i).dirty = false)

theorem Hold.Fits.congr {ι : Type} {s s' : Bio ι} {i : Fin NBUF} {h : Hold} (hfits : h.Fits s i)
    (hbuf : s'.buf i = s.buf i) (hqueue : i ∈ s'.queue ↔ i ∈ s.queue)
    (hchanged : s'.changed i = s.changed i) : h.Fits s' i := by
  cases h <;> simpa only [Hold.Fits, hbuf, hqueue, hchanged] using hfits

/-- The cache, the disks and the buffers in the hands of the processes agree. -/
structure Tracks {ι : Type} (s : Bio ι) (g : ι → Grips) : Prop where
  /-- every buffer is on the list -/
  listed : ∀ i, i ∈ s.store.order
  /-- the device of a buffer is a disk or `-1` -/
  dev : ∀ i, (s.buf i).dev < 2 ∨ (s.buf i).dev = 4294967295
  /-- no block has two buffers -/
  unique : ∀ i j d b, d < 2 → (s.buf i).IsFor d b → (s.buf j).IsFor d b → j = i
  holds : ∀ p i, s.holds p i = true ↔ ∃ x, g p i = some x
  busy : ∀ i, (s.buf i).busy = true ↔ ∃ p x, g p i = some x
  /-- no buffer is held twice -/
  alone : ∀ p q i x y, g p i = some x → g q i = some y → q = p
  grip : ∀ p i x, g p i = some x → (s.buf i).IsFor x.dev x.blockno ∧ x.dev < 2 ∧ x.hold.Fits s i
  /-- nobody waits for a buffer that nobody holds -/
  free : ∀ i, (s.buf i).busy = false → i ∉ s.queue ∧ s.changed i = false
  /-- there is nothing to write in an empty buffer -/
  sound : ∀ i, (s.buf i).dirty = true → (s.buf i).valid = true
  once : s.queue.Nodup
  /-- a buffer has the contents of its block -/
  data : ∀ i d b, d < 2 → (s.buf i).IsFor d b → (s.buf i).valid = true →
    (s.buf i).data = s.plain d b
  /-- so has the disk, unless the buffer is still to be written -/
  disk : ∀ d b, d < 2 → (∀ i, (s.buf i).IsFor d b → (s.buf i).dirty = false ∧ s.changed i = false) →
    s.store.disk d b = s.plain d b
  log : s.store.log.dev < 2

namespace Tracks

variable {ι : Type} [DecidableEq ι] {s s' : Bio ι} {g : ι → Grips} {p : ι} {i : Fin NBUF}

omit [DecidableEq ι] in
/-- A buffer that is held is busy. -/
theorem busy_of_grip (h : Tracks s g) {x : Grip} (hx : g p i = some x) : (s.buf i).busy = true :=
  (h.busy i).mpr ⟨p, x, hx⟩

/-- The buffers of a process that goes on with `y` for the buffer `i`. -/
theorem update_apply (q : ι) (j : Fin NBUF) (y : Option Grip) :
    Function.update g p (Function.update (g p) i y) q j =
      if q = p ∧ j = i then y else g q j := by
  by_cases hq : q = p
  · subst hq
    by_cases hj : j = i
    · subst hj
      simp
    · simp [hj]
  · simp [hq]

/-- A step of the process that holds a buffer, or of the disk on its behalf: only
the buffer, its block, and its place in the queue may change. -/
theorem touch {d b : ℕ} {old new : Hold} (h : Tracks s g) (hold : g p i = some ⟨d, b, old⟩)
    (hbuf : ∀ j, j ≠ i → s'.buf j = s.buf j) (hfor : (s'.buf i).IsFor d b)
    (hbusy : (s'.buf i).busy = true) (horder : s'.store.order = s.store.order)
    (hholds : s'.holds = s.holds) (hlog : s'.store.log.dev = s.store.log.dev)
    (hqueue : ∀ j, j ≠ i → (j ∈ s'.queue ↔ j ∈ s.queue)) (honce : s'.queue.Nodup)
    (hchanged : ∀ j, j ≠ i → s'.changed j = s.changed j)
    (hplain : ∀ d' b', ¬ (d' = d ∧ b' = b) → s'.plain d' b' = s.plain d' b')
    (hdisk : ∀ d' b', d' < 2 → ¬ (d' = d ∧ b' = b) → s'.store.disk d' b' = s.store.disk d' b')
    (hsound : (s'.buf i).dirty = true → (s'.buf i).valid = true)
    (hdata : (s'.buf i).valid = true → (s'.buf i).data = s'.plain d b)
    (hclean : (s'.buf i).dirty = false → s'.changed i = false → s'.store.disk d b = s'.plain d b)
    (hfits : new.Fits s' i) : Tracks s' (Function.update g p ((g p).become i new)) := by
  obtain ⟨hisFor, hd, -⟩ := h.grip p i _ hold
  have hfor' : ∀ j d' b', (s'.buf j).IsFor d' b' ↔ (s.buf j).IsFor d' b' := by
    intro j d' b'
    by_cases hj : j = i
    · subst hj
      unfold Buf.IsFor
      rw [hfor.1, hfor.2, hisFor.1, hisFor.2]
    · rw [hbuf j hj]
  have hg : ∀ q j, (∃ y, Function.update g p ((g p).become i new) q j = some y) ↔
      ∃ y, g q j = some y := by
    intro q j
    rw [Grips.become_eq hold, update_apply]
    split
    · next hqj =>
      obtain ⟨rfl, rfl⟩ := hqj
      exact ⟨fun _ => ⟨_, hold⟩, fun _ => ⟨_, rfl⟩⟩
    · rfl
  refine ⟨fun j => horder ▸ h.listed j, fun j => ?_, fun j k d' b' hd' hj hk => ?_, fun q j => ?_,
    fun j => ?_, fun q q' j x y hx hy => ?_, fun q j x hx => ?_, fun j hj => ?_, fun j hj => ?_,
    honce, fun j d' b' hd' hj hv => ?_, fun d' b' hd' hall => ?_, hlog ▸ h.log⟩
  · by_cases hj : j = i
    · subst hj
      rw [hfor.1]
      exact Or.inl hd
    · rw [hbuf j hj]
      exact h.dev j
  · exact h.unique j k d' b' hd' ((hfor' j d' b').mp hj) ((hfor' k d' b').mp hk)
  · rw [hholds, hg]
    exact h.holds q j
  · by_cases hj : j = i
    · subst hj
      exact ⟨fun _ => ⟨p, (hg p j).mpr ⟨_, hold⟩⟩, fun _ => hbusy⟩
    · rw [hbuf j hj, h.busy j]
      exact ⟨fun ⟨q, hq⟩ => ⟨q, (hg q j).mpr hq⟩, fun ⟨q, hq⟩ => ⟨q, (hg q j).mp hq⟩⟩
  · obtain ⟨x', hx'⟩ := (hg q j).mp ⟨x, hx⟩
    obtain ⟨y', hy'⟩ := (hg q' j).mp ⟨y, hy⟩
    exact h.alone q q' j x' y' hx' hy'
  · rw [Grips.become_eq hold, update_apply] at hx
    split at hx
    · next hqj =>
      obtain ⟨rfl, rfl⟩ := hqj
      cases hx
      exact ⟨hfor, hd, hfits⟩
    · next hqj =>
      obtain ⟨hisFor', hd', hfits'⟩ := h.grip q j x hx
      have hj : j ≠ i := by
        intro he
        subst he
        exact hqj ⟨h.alone p q j _ x hold hx, rfl⟩
      exact ⟨(hfor' j _ _).mpr hisFor', hd', hfits'.congr (hbuf j hj) (hqueue j hj) (hchanged j hj)⟩
  · have hji : j ≠ i := by
      intro he
      rw [he, hbusy] at hj
      cases hj
    rw [hbuf j hji] at hj
    rw [hqueue j hji, hchanged j hji]
    exact h.free j hj
  · by_cases hji : j = i
    · subst hji
      exact hsound hj
    · rw [hbuf j hji] at hj ⊢
      exact h.sound j hj
  · by_cases hji : j = i
    · subst hji
      obtain ⟨rfl, rfl⟩ : d = d' ∧ b = b' := ⟨hfor.1.symm.trans hj.1, hfor.2.symm.trans hj.2⟩
      exact hdata hv
    · have hne : ¬ (d' = d ∧ b' = b) := by
        rintro ⟨rfl, rfl⟩
        exact hji (h.unique i j d' b' hd' hisFor ((hfor' j _ _).mp hj))
      rw [hbuf j hji] at hj hv ⊢
      rw [hplain d' b' hne]
      exact h.data j d' b' hd' hj hv
  · by_cases hdb : d' = d ∧ b' = b
    · obtain ⟨rfl, rfl⟩ := hdb
      exact hclean (hall i hfor).1 (hall i hfor).2
    · rw [hdisk d' b' hd' hdb, hplain d' b' hdb]
      refine h.disk d' b' hd' fun j hj => ?_
      have hji : j ≠ i := by
        rintro rfl
        exact hdb ⟨hj.1.symm.trans hisFor.1, hj.2.symm.trans hisFor.2⟩
      have := hall j ((hfor' j _ _).mpr hj)
      rwa [hbuf j hji, hchanged j hji] at this

/-- Two records of what is held agree on which buffers of the others are held. -/
theorem update_some_iff {y : Option Grip} {q : ι} {j : Fin NBUF} (hj : j ≠ i) :
    (∃ x, Function.update g p (Function.update (g p) i y) q j = some x) ↔ ∃ x, g q j = some x := by
  rw [update_apply, if_neg fun h => hj h.2]

/-- `bget` gives a buffer to the process: its own, or a recycled one. -/
theorem give {d b : ℕ} {B : Buf} (h : Tracks s g) (hd : d < 2) (hfree : (s.buf i).busy = false)
    (hfor : B.IsFor d b) (hbusy : B.busy = true) (hsound : B.dirty = true → B.valid = true)
    (hold : (s.buf i).IsFor d b ∧ B.valid = (s.buf i).valid ∧ B.dirty = (s.buf i).dirty ∧
        B.data = (s.buf i).data ∨
      (∀ j, ¬ (s.buf j).IsFor d b) ∧ (s.buf i).dirty = false ∧ B.valid = false ∧ B.dirty = false) :
    Tracks { s with
        store := s.store.setBuf i B
        holds := Function.update s.holds p (Function.update (s.holds p) i true) }
      (Function.update g p (Function.update (g p) i (some ⟨d, b, .fetched⟩))) := by
  have hnone : ∀ q x, g q i ≠ some x := by
    intro q x hx
    rw [h.busy_of_grip hx] at hfree
    cases hfree
  have hother : ∀ j, j ≠ i → (s.store.setBuf i B).buf j = s.buf j := fun j hj => by
    rw [Store.setBuf_buf, if_neg hj]
  have hself : (s.store.setBuf i B).buf i = B := Store.setBuf_buf_self ..
  refine ⟨h.listed, fun j => ?_, fun j k d' b' hd' hj hk => ?_, fun q j => ?_, fun j => ?_,
    fun q q' j x y hx hy => ?_, fun q j x hx => ?_, fun j hj => ?_, fun j hj => ?_, h.once,
    fun j d' b' hd' hj hv => ?_, fun d' b' hd' hall => ?_, h.log⟩
  · dsimp only [Bio.buf]
    by_cases hj : j = i
    · rw [hj, hself, hfor.1]
      exact Or.inl hd
    · rw [hother j hj]
      exact h.dev j
  · dsimp only [Bio.buf] at hj hk
    -- a buffer that is now for the block of `i` was so before, or there was none
    have hback : ∀ j, j ≠ i → ((s.store.setBuf i B).buf j).IsFor d' b' → (d', b') ≠ (d, b) := by
      intro m hm hmfor he
      rw [hother m hm] at hmfor
      cases he
      rcases hold with ⟨hi, -⟩ | ⟨hall, -⟩
      · exact hm (h.unique i m d b hd hi hmfor)
      · exact hall m hmfor
    by_cases hji : j = i <;> by_cases hki : k = i
    · rw [hji, hki]
    · subst hji
      rw [hself] at hj
      exact absurd (Prod.ext (hj.1.symm.trans hfor.1) (hj.2.symm.trans hfor.2)) (hback k hki hk)
    · subst hki
      rw [hself] at hk
      exact absurd (Prod.ext (hk.1.symm.trans hfor.1) (hk.2.symm.trans hfor.2)) (hback j hji hj)
    · rw [hother j hji] at hj
      rw [hother k hki] at hk
      exact h.unique j k d' b' hd' hj hk
  · rw [update_apply]
    by_cases hq : q = p
    · subst hq
      by_cases hj : j = i
      · subst hj
        simp
      · simp only [Function.update_self, Function.update_of_ne hj, hj, and_false, if_false]
        exact h.holds q j
    · simp only [Function.update_of_ne hq, hq, false_and, if_false]
      exact h.holds q j
  · dsimp only [Bio.buf]
    by_cases hj : j = i
    · subst hj
      rw [hself]
      exact ⟨fun _ => ⟨p, ⟨d, b, .fetched⟩, by simp⟩, fun _ => hbusy⟩
    · rw [hother j hj, h.busy j]
      exact ⟨fun ⟨q, hq⟩ => ⟨q, (update_some_iff hj).mpr hq⟩,
        fun ⟨q, hq⟩ => ⟨q, (update_some_iff hj).mp hq⟩⟩
  · rw [update_apply] at hx hy
    split at hx <;> split at hy
    · next hq hq' => exact hq'.1.trans hq.1.symm
    · next hq _ => exact absurd hy (hq.2 ▸ hnone q' y)
    · next _ hq' => exact absurd hx (hq'.2 ▸ hnone q x)
    · exact h.alone q q' j x y hx hy
  · rw [update_apply] at hx
    split at hx
    · next hqj =>
      obtain ⟨rfl, rfl⟩ := hqj
      cases hx
      refine ⟨?_, hd, h.free j hfree⟩
      dsimp only [Bio.buf]
      rw [hself]
      exact hfor
    · obtain ⟨hjfor, hjd, hfits⟩ := h.grip q j x hx
      have hji : j ≠ i := by
        rintro rfl
        exact hnone q x hx
      refine ⟨?_, hjd, hfits.congr (hother j hji) Iff.rfl rfl⟩
      dsimp only [Bio.buf]
      rw [hother j hji]
      exact hjfor
  · dsimp only [Bio.buf] at hj
    have hji : j ≠ i := by
      rintro rfl
      rw [hself, hbusy] at hj
      cases hj
    rw [hother j hji] at hj
    exact h.free j hj
  · dsimp only [Bio.buf] at hj ⊢
    by_cases hji : j = i
    · rw [hji, hself] at hj ⊢
      exact hsound hj
    · rw [hother j hji] at hj ⊢
      exact h.sound j hj
  · dsimp only [Bio.buf] at hj hv ⊢
    by_cases hji : j = i
    · rw [hji, hself] at hj hv ⊢
      rcases hold with ⟨hi, hvalid, -, hdata⟩ | ⟨-, -, hvalid, -⟩
      · rw [hdata]
        refine h.data i d' b' hd' ?_ (hvalid ▸ hv)
        exact ⟨hi.1.trans (hfor.1.symm.trans hj.1), hi.2.trans (hfor.2.symm.trans hj.2)⟩
      · rw [hvalid] at hv
        cases hv
    · rw [hother j hji] at hj hv ⊢
      exact h.data j d' b' hd' hj hv
  · refine h.disk d' b' hd' fun j hj => ?_
    dsimp only [Bio.buf] at hall
    by_cases hji : j = i
    · subst hji
      rcases hold with ⟨hi, -, hdirty, -⟩ | ⟨-, hdirty, -⟩
      · have hB : B.IsFor d' b' :=
          ⟨hfor.1.trans (hi.1.symm.trans hj.1), hfor.2.trans (hi.2.symm.trans hj.2)⟩
        have := hall j (by rwa [hself])
        rw [hself, hdirty] at this
        exact this
      · exact ⟨hdirty, (h.free j hfree).2⟩
    · have := hall j (by rwa [hother j hji])
      rwa [hother j hji] at this

/-- `brelse` takes a buffer from the process that holds it. -/
theorem release {d b : ℕ} (h : Tracks s g) (hold : g p i = some ⟨d, b, .ready false⟩) :
    Tracks { s with
        store := { s.store.setBuf i { s.buf i with busy := false } with
          order := i :: s.store.order.erase i }
        holds := Function.update s.holds p (Function.update (s.holds p) i false) }
      (Function.update g p (Function.update (g p) i none)) := by
  obtain ⟨hisFor, hd, hvalid, hqueue, hchanged⟩ := h.grip p i _ hold
  have hother : ∀ j, j ≠ i → (s.store.setBuf i { s.buf i with busy := false }).buf j = s.buf j :=
    fun j hj => by rw [Store.setBuf_buf, if_neg hj]
  have hself : (s.store.setBuf i { s.buf i with busy := false }).buf i =
      { s.buf i with busy := false } := Store.setBuf_buf_self ..
  have hkeep : ∀ j, (s.store.setBuf i { s.buf i with busy := false }).buf j =
      { s.buf j with busy := ((s.store.setBuf i { s.buf i with busy := false }).buf j).busy } := by
    intro j
    by_cases hj : j = i
    · rw [hj, hself]
    · rw [hother j hj]
  have hnone : ∀ q x, Function.update g p (Function.update (g p) i none) q i ≠ some x := by
    intro q x hx
    rw [update_apply] at hx
    split at hx
    · cases hx
    · next hq => exact hq ⟨h.alone p q i _ x hold hx, rfl⟩
  refine ⟨fun j => ?_, fun j => ?_, fun j k d' b' hd' hj hk => ?_, fun q j => ?_, fun j => ?_,
    fun q q' j x y hx hy => ?_, fun q j x hx => ?_, fun j hj => ?_, fun j hj => ?_, h.once,
    fun j d' b' hd' hj hv => ?_, fun d' b' hd' hall => ?_, h.log⟩
  · by_cases hj : j = i
    · rw [hj]
      exact List.mem_cons_self ..
    · exact List.mem_cons_of_mem _ ((List.mem_erase_of_ne hj).mpr (h.listed j))
  · dsimp only [Bio.buf]
    rw [hkeep j]
    exact h.dev j
  · dsimp only [Bio.buf] at hj hk
    rw [hkeep] at hj hk
    exact h.unique j k d' b' hd' hj hk
  · rw [update_apply]
    by_cases hq : q = p
    · subst hq
      by_cases hj : j = i
      · subst hj
        simp
      · simp only [Function.update_self, Function.update_of_ne hj, hj, and_false, if_false]
        exact h.holds q j
    · simp only [Function.update_of_ne hq, hq, false_and, if_false]
      exact h.holds q j
  · dsimp only [Bio.buf]
    by_cases hj : j = i
    · subst hj
      rw [hself]
      exact ⟨fun hb => (nomatch hb), fun ⟨q, x, hx⟩ => absurd hx (hnone q x)⟩
    · rw [hother j hj, h.busy j]
      exact ⟨fun ⟨q, hq⟩ => ⟨q, (update_some_iff hj).mpr hq⟩,
        fun ⟨q, hq⟩ => ⟨q, (update_some_iff hj).mp hq⟩⟩
  · have hj : j ≠ i := by
      rintro rfl
      exact hnone q x hx
    obtain ⟨x', hx'⟩ := (update_some_iff hj).mp ⟨x, hx⟩
    obtain ⟨y', hy'⟩ := (update_some_iff hj).mp ⟨y, hy⟩
    exact h.alone q q' j x' y' hx' hy'
  · have hj : j ≠ i := by
      rintro rfl
      exact hnone q x hx
    rw [update_apply, if_neg fun hqj => hj hqj.2] at hx
    obtain ⟨hjfor, hjd, hfits⟩ := h.grip q j x hx
    refine ⟨?_, hjd, hfits.congr (hother j hj) Iff.rfl rfl⟩
    dsimp only [Bio.buf]
    rw [hother j hj]
    exact hjfor
  · dsimp only [Bio.buf] at hj
    by_cases hji : j = i
    · rw [hji]
      exact ⟨hqueue, hchanged⟩
    · rw [hother j hji] at hj
      exact h.free j hj
  · dsimp only [Bio.buf] at hj ⊢
    rw [hkeep] at hj ⊢
    exact h.sound j hj
  · dsimp only [Bio.buf] at hj hv ⊢
    rw [hkeep] at hj hv ⊢
    exact h.data j d' b' hd' hj hv
  · refine h.disk d' b' hd' fun j hj => ?_
    dsimp only [Bio.buf] at hall
    have := hall j (by rw [hkeep]; exact hj)
    rw [hkeep] at this
    exact this

end Tracks

/-! ## Every step -/

theorem brelse_eq_done {i : Fin NBUF} {s s' : Store} {r : Unit} (h : brelse i s = .done r s') :
    s' = { s.setBuf i { s.buf i with busy := false } with order := i :: s.order.erase i } := by
  unfold brelse at h
  rw [get_bind_apply] at h
  split at h
  · cases h
  · cases h
    rfl

namespace Tracks

variable {ι : Type} [DecidableEq ι] {s s' : Bio ι} {g : ι → Grips} {p : ι} {i : Fin NBUF}

omit [DecidableEq ι] in
/-- A change that has nothing to do with buffers. -/
theorem congr (h : Tracks s g) (hbuf : s'.store.buf = s.store.buf)
    (horder : s'.store.order = s.store.order) (hdisk : s'.store.disk = s.store.disk)
    (hlog : s'.store.log.dev = s.store.log.dev) (hqueue : s'.queue = s.queue)
    (hholds : s'.holds = s.holds) (hchanged : s'.changed = s.changed) (hplain : s'.plain = s.plain) :
    Tracks s' g := by
  have hb : ∀ i, s'.buf i = s.buf i := fun i => congrFun hbuf i
  refine ⟨by rw [horder]; exact h.listed, by simp only [hb]; exact h.dev,
    by simp only [hb]; exact h.unique, by rw [hholds]; exact h.holds,
    by simp only [hb]; exact h.busy, h.alone, fun q i x hx => ?_,
    by simp only [hb, hqueue, hchanged]; exact h.free, by simp only [hb]; exact h.sound,
    by rw [hqueue]; exact h.once, by simp only [hb, hplain]; exact h.data,
    by simp only [hb, hdisk, hchanged, hplain]; exact h.disk, by rw [hlog]; exact h.log⟩
  obtain ⟨hfor, hd, hfits⟩ := h.grip q i x hx
  exact ⟨(hb i).symm ▸ hfor, hd, hfits.congr (hb i) (by rw [hqueue]) (by rw [hchanged])⟩

theorem run_bget {dev b : ℕ} {r : Fin NBUF} (h : Tracks s g) (hdev : dev < 2)
    (hrun : (BufOp.bget dev b).run p s = .ok (r, s')) :
    g p r = none ∧
      Tracks s' (Function.update g p (Function.update (g p) r (some ⟨dev, b, .fetched⟩))) := by
  simp only [BufOp.run] at hrun
  split at hrun
  case h_2 => cases hrun
  case h_1 i store hdone =>
    cases hrun
    have hnone : (s.buf r).busy = false → g p r = none := by
      intro hbusy
      cases hx : g p r with
      | none => rfl
      | some x => rw [h.busy_of_grip hx] at hbusy; cases hbusy
    rcases bget_eq_done hdone with ⟨hlookup, hbusy, hstore⟩ | ⟨hlookup, hvictim, hstore⟩
    · have hfor := lookup_eq_some hlookup
      rw [hstore]
      exact ⟨hnone hbusy, h.give hdev hbusy hfor rfl (h.sound r) (Or.inl ⟨hfor, rfl, rfl, rfl⟩)⟩
    · obtain ⟨hbusy, hdirty⟩ := victim_eq_some hvictim
      rw [hstore]
      refine ⟨hnone hbusy, h.give hdev hbusy ⟨rfl, rfl⟩ rfl (fun hd => nomatch hd)
        (Or.inr ⟨fun j hj => ?_, hdirty, rfl, rfl⟩)⟩
      exact List.find?_eq_none.mp hlookup j (h.listed j) (decide_eq_true hj)

theorem run_brelse (h : Tracks s g) (hold : (g p).Has i (.ready false)) {r : Unit}
    (hrun : (BufOp.brelse i).run p s = .ok (r, s')) :
    Tracks s' (Function.update g p (Function.update (g p) i none)) := by
  obtain ⟨d, b, hi⟩ := hold
  simp only [BufOp.run] at hrun
  split at hrun
  case h_2 => cases hrun
  case h_1 store hdone =>
    cases hrun
    rw [brelse_eq_done hdone]
    exact h.release hi

omit [DecidableEq ι] in
/-- The disk has what a clean buffer has. -/
theorem disk_of_clean (h : Tracks s g) {d b : ℕ} (hd : d < 2) (hfor : (s.buf i).IsFor d b)
    (hdirty : (s.buf i).dirty = false) (hchanged : s.changed i = false) :
    s.store.disk d b = s.plain d b := by
  refine h.disk d b hd fun j hj => ?_
  rw [h.unique i j d b hd hfor hj]
  exact ⟨hdirty, hchanged⟩

/-- A process learns something, or a request is queued for it. -/
theorem learn {old new : Hold} (h : Tracks s g) (hold : (g p).Has i old) {queue : List (Fin NBUF)}
    (hqueue : ∀ j, j ≠ i → (j ∈ queue ↔ j ∈ s.queue)) (honce : queue.Nodup)
    (hfits : new.Fits { s with queue := queue } i) :
    Tracks { s with queue := queue } (Function.update g p ((g p).become i new)) := by
  obtain ⟨d, b, hi⟩ := hold
  obtain ⟨hfor, hd, -⟩ := h.grip p i _ hi
  exact h.touch hi (fun _ _ => rfl) hfor (h.busy_of_grip hi) rfl rfl rfl hqueue honce
    (fun _ _ => rfl) (fun _ _ _ => rfl) (fun _ _ _ _ => rfl) (h.sound i) (h.data i d b hd hfor)
    (h.disk_of_clean hd hfor) hfits

/-- The process that holds a buffer sets `B_DIRTY`. -/
theorem pin {d b : ℕ} {c : Bool} {new : Hold} (h : Tracks s g)
    (hi : g p i = some ⟨d, b, .ready c⟩) (hs : s'.store.buf =
      Function.update s.store.buf i { s.buf i with dirty := true })
    (horder : s'.store.order = s.store.order) (hholds : s'.holds = s.holds)
    (hlog : s'.store.log.dev = s.store.log.dev) (hqueue : s'.queue = s.queue)
    (hchanged : s'.changed = Function.update s.changed i false) (hplain : s'.plain = s.plain)
    (hdisk : s'.store.disk = s.store.disk) (hnew : new = .marked ∨ new = .ready false) :
    Tracks s' (Function.update g p ((g p).become i new)) := by
  obtain ⟨hfor, hd, hvalid, hnotin, -⟩ := h.grip p i _ hi
  have hself : s'.buf i = { s.buf i with dirty := true } := by
    rw [Bio.buf, hs, Function.update_self]
  refine h.touch hi (fun j hj => ?_) (hself ▸ hfor) (hself ▸ h.busy_of_grip hi) horder hholds hlog
    (fun j _ => by rw [hqueue]) (hqueue ▸ h.once) (fun j hj => ?_) (fun _ _ _ => by rw [hplain])
    (fun _ _ _ _ => by rw [hdisk]) (fun _ => hself ▸ hvalid) (fun _ => ?_) (fun hclean => ?_) ?_
  · rw [Bio.buf, hs, Function.update_of_ne hj]
  · rw [hchanged, Function.update_of_ne hj]
  · rw [hself, hplain]
    exact h.data i d b hd hfor hvalid
  · rw [hself] at hclean
    cases hclean
  · have hvalid' : (s'.buf i).valid = true := hself ▸ hvalid
    have hnotin' : i ∉ s'.queue := hqueue ▸ hnotin
    have hchanged' : s'.changed i = false := by rw [hchanged, Function.update_self]
    rcases hnew with rfl | rfl
    · exact ⟨hvalid', by rw [hself], hnotin', hchanged'⟩
    · exact ⟨hvalid', hnotin', hchanged'⟩

theorem run_setData {w : Writer} {f : Block → Block} {c : Bool} {r : Unit} (h : Tracks s g)
    (hold : (g p).Has i (.ready c)) (hrun : (BufOp.setData w i f).run p s = .ok (r, s')) :
    Tracks s' (Function.update g p ((g p).become i (.ready true))) := by
  obtain ⟨d, b, hi⟩ := hold
  obtain ⟨hfor, hd, hvalid, hnotin, -⟩ := h.grip p i _ hi
  simp only [BufOp.run, Bio.setBuf] at hrun
  cases hrun
  have hself : (s.store.setBuf i { s.buf i with data := f (s.buf i).data }).buf i =
      { s.buf i with data := f (s.buf i).data } := Store.setBuf_buf_self ..
  refine h.touch hi (fun j hj => ?_) ?_ ?_ rfl rfl rfl (fun _ _ => Iff.rfl) h.once
    (fun j hj => ?_) (fun d' b' hne => ?_) (fun _ _ _ _ => rfl) (fun _ => ?_) (fun _ => ?_)
    (fun _ hch => ?_) ?_
  · dsimp only [Bio.buf]
    rw [Store.setBuf_buf, if_neg hj]
  · dsimp only [Bio.buf] at hself ⊢
    rw [hself]
    exact hfor
  · dsimp only [Bio.buf] at hself ⊢
    rw [hself]
    exact h.busy_of_grip hi
  · exact Function.update_of_ne hj _ _
  · dsimp only
    rw [setBlock_apply, hfor.1, hfor.2, if_neg hne]
  · dsimp only [Bio.buf] at hself ⊢
    rw [hself]
    exact hvalid
  · dsimp only [Bio.buf] at hself ⊢
    rw [hself, setBlock_apply, hfor.1, hfor.2, if_pos ⟨rfl, rfl⟩]
  · dsimp only at hch
    rw [Function.update_self] at hch
    cases hch
  · refine ⟨?_, hnotin, Function.update_self ..⟩
    dsimp only [Bio.buf] at hself ⊢
    rw [hself]
    exact hvalid

/-- Every step. -/
theorem run {o : BufOp} {r : o.Ret} (h : Tracks s g) (hmay : grips.may (g p) o)
    (hrun : o.run p s = .ok (r, s')) :
    ∃ g', grips.after (g p) o r g' ∧ Tracks s' (Function.update g p g') := by
  have hkeep : Function.update g p (g p) = g := Function.update_eq_self ..
  cases o with
  | bget dev b =>
    obtain ⟨hnone, htracks⟩ := h.run_bget hmay hrun
    exact ⟨_, ⟨hnone, rfl⟩, htracks⟩
  | valid i =>
    simp only [BufOp.run] at hrun
    cases hrun
    refine ⟨_, rfl, h.learn hmay (fun _ _ => Iff.rfl) h.once ?_⟩
    obtain ⟨d, b, hi⟩ := hmay
    obtain ⟨-, -, hnotin, hchanged⟩ := h.grip p i _ hi
    cases hv : (s.buf i).valid with
    | true => exact ⟨hv, hnotin, hchanged⟩
    | false =>
      refine ⟨hv, ?_, hnotin, hchanged⟩
      cases hd : (s.buf i).dirty with
      | false => rfl
      | true => rw [h.sound i hd] at hv; cases hv
  | iderw i =>
    have hfits : i ∉ s.queue ∧ s.changed i = false ∧
        ((s.buf i).valid = true → (s.buf i).dirty = true) := by
      rcases hmay with ⟨d, b, hi⟩ | ⟨d, b, hi⟩
      · obtain ⟨-, -, hvalid, -, hnotin, hchanged⟩ := h.grip p i _ hi
        exact ⟨hnotin, hchanged, fun hv => by rw [hvalid] at hv; cases hv⟩
      · obtain ⟨-, -, -, hdirty, hnotin, hchanged⟩ := h.grip p i _ hi
        exact ⟨hnotin, hchanged, fun _ => hdirty⟩
    simp only [BufOp.run] at hrun
    split at hrun
    · cases hrun
    split at hrun
    · cases hrun
    split at hrun
    · cases hrun
    cases hrun
    have hold : ∃ old, (g p).Has i old := hmay.elim (fun hi => ⟨_, hi⟩) fun hi => ⟨_, hi⟩
    obtain ⟨old, hold⟩ := hold
    refine ⟨_, rfl, h.learn hold (fun j hj => ?_) ?_ ⟨hfits.2.1, Or.inl ⟨?_, hfits.2.2⟩⟩⟩
    · rw [List.mem_append, List.mem_singleton, or_iff_left hj]
    · rw [← List.concat_eq_append]
      exact h.once.concat hfits.1
    · exact List.mem_append_right _ (List.mem_singleton_self i)
  | wait i =>
    simp only [BufOp.run] at hrun
    split at hrun
    · next hdone =>
      cases hrun
      refine ⟨_, rfl, h.learn hmay (fun _ _ => Iff.rfl) h.once ?_⟩
      obtain ⟨d, b, hi⟩ := hmay
      obtain ⟨-, -, hchanged, hqueued⟩ := h.grip p i _ hi
      rw [Bool.and_eq_true, Bool.not_eq_true'] at hdone
      rcases hqueued with ⟨-, hdirty⟩ | ⟨hnotin, hvalid, -⟩
      · rw [hdirty hdone.1] at hdone
        exact absurd hdone.2 (by decide)
      · exact ⟨hvalid, hnotin, hchanged⟩
    · cases hrun
  | dirty w i =>
    obtain ⟨c, d, b, hi⟩ := hmay
    simp only [BufOp.run] at hrun
    split at hrun
    · cases hrun
    cases hrun
    exact ⟨_, rfl, h.pin hi rfl rfl rfl rfl rfl rfl rfl rfl (Or.inl rfl)⟩
  | data i =>
    cases hrun
    exact ⟨_, rfl, hkeep.symm ▸ h⟩
  | setData w i f =>
    obtain ⟨c, hold⟩ := hmay
    exact ⟨_, rfl, h.run_setData hold hrun⟩
  | brelse i => exact ⟨_, rfl, h.run_brelse hmay hrun⟩
  | logWrite i =>
    obtain ⟨c, d, b, hi⟩ := hmay
    simp only [BufOp.run] at hrun
    split at hrun
    · cases hrun
    cases hrun
    exact ⟨_, rfl, h.pin hi rfl rfl rfl (Log.logWrite_dev _ _) rfl rfl rfl rfl (Or.inr rfl)⟩
  | log =>
    cases hrun
    exact ⟨_, ⟨h.log, rfl⟩, hkeep.symm ▸ h⟩
  | clear =>
    cases hrun
    exact ⟨_, rfl, hkeep.symm ▸ h.congr rfl rfl rfl rfl rfl rfl rfl rfl⟩
  | beginOp =>
    simp only [BufOp.run] at hrun
    split at hrun
    · cases hrun
    · next l hl =>
      cases hrun
      refine ⟨_, rfl, hkeep.symm ▸ h.congr rfl rfl rfl ?_ rfl rfl rfl rfl⟩
      rw [Bio.setLog, (Log.beginOp_eq_some hl).2]
  | endOp =>
    simp only [BufOp.run] at hrun
    split at hrun
    · cases hrun
    · next l hl =>
      cases hrun
      refine ⟨_, rfl, hkeep.symm ▸ h.congr rfl rfl rfl ?_ rfl rfl rfl rfl⟩
      rw [Bio.setLog, (Log.endOp_eq_commit hl).2]
    · next l hl =>
      cases hrun
      refine ⟨_, rfl, hkeep.symm ▸ h.congr rfl rfl rfl ?_ rfl rfl rfl rfl⟩
      rw [Bio.setLog, (Log.endOp_eq_wakeup hl).2]
  | finish =>
    cases hrun
    exact ⟨_, rfl, hkeep.symm ▸ h.congr rfl rfl rfl rfl rfl rfl rfl rfl⟩

omit [DecidableEq ι] in
/-- Whoever is in the queue is waited for. -/
theorem of_mem_queue (h : Tracks s g) (hi : i ∈ s.queue) :
    ∃ p d b, g p i = some ⟨d, b, .queued⟩ := by
  have hbusy : (s.buf i).busy = true := by
    cases hb : (s.buf i).busy with
    | true => rfl
    | false => exact absurd hi (h.free i hb).1
  obtain ⟨p, ⟨d, b, hold⟩, hx⟩ := (h.busy i).mp hbusy
  obtain ⟨-, -, hfits⟩ := h.grip p i _ hx
  cases hold with
  | fetched => exact absurd hi hfits.1
  | stale => exact absurd hi hfits.2.2.1
  | ready c => exact absurd hi hfits.2.1
  | marked => exact absurd hi hfits.2.2.1
  | queued => exact ⟨p, d, b, hx⟩

theorem ideintr (h : Tracks s g) (hrun : s.ideintr = .ok s') : Tracks s' g := by
  rcases Bio.ideintr_eq_ok hrun with rfl | ⟨i, rest, hq, rfl⟩
  · exact h
  have hmem : i ∈ s.queue := hq ▸ List.mem_cons_self ..
  have honce : (i :: rest).Nodup := hq ▸ h.once
  obtain ⟨p, d, b, hi⟩ := h.of_mem_queue hmem
  obtain ⟨hfor, hd, hchanged, -⟩ := h.grip p i _ hi
  have hdrive : (s.buf i).dev % 2 = d := by rw [hfor.1, Nat.mod_eq_of_lt hd]
  have hself : (s.store.transfer i).buf i = { s.buf i with
      valid := true
      dirty := false
      data := if (s.buf i).dirty then (s.buf i).data else s.store.home (s.buf i) } := by
    rw [Store.transfer_buf, if_pos rfl]
  have hdata : (if (s.buf i).dirty = true then (s.buf i).data else s.store.home (s.buf i)) =
      s.plain d b := by
    split
    · next hdirty => exact h.data i d b hd hfor (h.sound i hdirty)
    · next hclean =>
      rw [Store.home, hdrive, hfor.2]
      exact h.disk_of_clean hd hfor (Bool.not_eq_true _ ▸ hclean) hchanged
  have hqueue : ∀ j, j ≠ i → (j ∈ rest ↔ j ∈ s.queue) := fun j hj => by
    rw [hq, List.mem_cons, or_iff_right hj]
  have hnew : Function.update g p ((g p).become i .queued) = g := by
    rw [Grips.become_eq hi, ← hi, Function.update_eq_self, Function.update_eq_self]
  rw [← hnew]
  refine h.touch hi (fun j hj => ?_) ?_ ?_ ?_ rfl ?_ hqueue (List.nodup_cons.mp honce).2
    (fun _ _ => rfl) (fun _ _ _ => rfl) (fun d' b' _ hne => ?_) (fun _ => ?_) (fun _ => ?_)
    (fun _ _ => ?_) ⟨hchanged, Or.inr ⟨(List.nodup_cons.mp honce).1, ?_, ?_⟩⟩ <;> dsimp only [Bio.buf]
  · rw [Store.transfer_buf, if_neg hj]
  · rw [hself]
    exact hfor
  · rw [hself]
    exact h.busy_of_grip hi
  · rw [Store.transfer_order]
  · rw [Store.transfer_log]
  · rw [Store.transfer_disk, if_neg]
    rintro ⟨-, hd', hb'⟩
    exact hne ⟨hd'.trans hdrive, hb'.trans hfor.2⟩
  · rw [hself]
  · rw [hself]
    exact hdata
  · rw [Store.transfer_disk, hdrive]
    split
    · next hdirty => exact h.data i d b hd hfor (h.sound i hdirty.1)
    · next hclean =>
      refine h.disk_of_clean hd hfor (Bool.not_eq_true _ ▸ fun hdirty => hclean ?_) hchanged
      exact ⟨hdirty, rfl, hfor.2.symm⟩
  · rw [hself]
  · rw [hself]

omit [DecidableEq ι] in
/-- A process at rest can use the buffers that it holds. -/
theorem has_ready (h : Tracks s g) (hrest : (g p).Rest) (hi : s.holds p i = true) :
    (g p).Has i (.ready (s.changed i)) := by
  obtain ⟨⟨d, n, hold⟩, hx⟩ := (h.holds p i).mp hi
  obtain ⟨c, hc⟩ := hrest i _ hx
  obtain ⟨-, -, hfits⟩ := h.grip p i _ hx
  dsimp only at hc hfits
  subst hc
  rw [hfits.2.2]
  exact ⟨d, n, hx⟩

end Tracks

/-! ## Runs -/

/-- Nobody uses the cache, there is nothing to be written, and the log is empty. -/
structure Store.Quiet (s : Store) : Prop where
  listed : ∀ i, i ∈ s.order
  dev : ∀ i, (s.buf i).dev < 2 ∨ (s.buf i).dev = 4294967295
  unique : ∀ i j d b, d < 2 → (s.buf i).IsFor d b → (s.buf j).IsFor d b → j = i
  free : ∀ i, (s.buf i).busy = false
  clean : ∀ i, (s.buf i).dirty = false
  data : ∀ i d b, d < 2 → (s.buf i).IsFor d b → (s.buf i).valid = true → (s.buf i).data = s.disk d b
  log : s.log.dev < 2
  outstanding : s.log.outstanding = 0
  committing : s.log.committing = false
  lh : s.log.lh = []

theorem Store.quiet_binit (disk : ℕ → ℕ → Block) (start size dev budget : ℕ) (hdev : dev < 2) :
    (Store.binit disk { start := start, size := size, dev := dev } budget).Quiet where
  listed i := List.mem_reverse.mpr (List.mem_finRange i)
  dev _ := Or.inr rfl
  unique i j d b hd hi _ := by
    have : d = 4294967295 := hi.1.symm
    omega
  free _ := rfl
  clean _ := rfl
  data _ _ _ _ _ hv := nomatch hv
  log := hdev
  outstanding := rfl
  committing := rfl
  lh := rfl

namespace Users

variable {ι : Type} [DecidableEq ι] {s s' : Users ι}

/-- In every state. -/
def Coheres (s : Users ι) : Prop := Going grips Returned Tracks s.bio s.code

omit [DecidableEq ι] in
theorem tracks_start {store : Store} (h : store.Quiet) :
    Tracks (Users.start store : Users ι).bio fun _ _ => none := by
  refine ⟨h.listed, h.dev, h.unique, fun p i => ?_, fun i => ?_, fun p q i x y hx => (nomatch hx),
    fun p i x hx => (nomatch hx), fun i _ => ⟨List.not_mem_nil, rfl⟩, fun i hi => ?_, List.nodup_nil,
    h.data, fun d b _ _ => rfl, h.log⟩
  · exact ⟨fun hh => (nomatch hh), fun ⟨_, hx⟩ => nomatch hx⟩
  · constructor
    · intro hbusy
      rw [start, Bio.start, Bio.buf, h.free i] at hbusy
      cases hbusy
    · rintro ⟨_, _, hx⟩
      cases hx
  · rw [start, Bio.start, Bio.buf, h.clean i] at hi
    cases hi

omit [DecidableEq ι] in
theorem coheres_start {store : Store} (h : store.Quiet) : (start store : Users ι).Coheres :=
  ⟨fun _ _ => none, tracks_start h, fun _ => Grips.Rest.returned fun _ _ hx => nomatch hx⟩

theorem Coheres.step {a : UserAction ι} (h : s.Coheres) (hstep : s.step a = some s') :
    s'.Coheres := by
  cases a with
  | call p c =>
    obtain ⟨⟨r, hr⟩, hproper, rfl⟩ := step_call hstep
    refine Going.start h hr fun g htracks hreturned => ends_call hreturned.1 ?_ ?_
    · rintro i rfl
      have := htracks.has_ready hreturned.1 hproper.1
      rwa [hproper.2] at this
    · rintro i (⟨f, rfl⟩ | rfl | rfl)
      · exact ⟨_, htracks.has_ready hreturned.1 hproper⟩
      · exact ⟨_, htracks.has_ready hreturned.1 hproper⟩
      · exact ⟨_, htracks.has_ready hreturned.1 hproper⟩
  | step p =>
    obtain ⟨o, k, r, bio, hcode, hrun, rfl⟩ := step_step hstep
    exact Going.answer h hcode fun g htracks hmay => htracks.run hmay hrun
  | intr =>
    obtain ⟨bio, hbio, rfl⟩ := step_intr hstep
    exact Going.outside h fun g htracks => htracks.ideintr hbio

/-- The buffers are used by one process at a time, and are those of a plain disk. -/
structure Plain (s : Users ι) : Prop where
  holder : ∀ p q i j d b, s.bio.holds p i = true → s.bio.holds q j = true →
    (s.bio.buf i).IsFor d b → (s.bio.buf j).IsFor d b → p = q ∧ i = j
  unique : ∀ i j d b, d ≠ 4294967295 → (s.bio.buf i).IsFor d b → (s.bio.buf j).IsFor d b → i = j
  /-- what `bread` has returned -/
  read : ∀ p x, s.code p = .pure (some x) → s.bio.holds p x.i = true ∧
    (s.bio.buf x.i).IsFor x.dev x.blockno ∧ (s.bio.buf x.i).data = s.bio.plain x.dev x.blockno

omit [DecidableEq ι] in
theorem Coheres.plain (h : s.Coheres) : s.Plain := by
  obtain ⟨g, htracks, hends⟩ := h
  refine ⟨fun p q i j d b hp hq hi hj => ?_, fun i j d b hd hi hj => ?_, fun p x hx => ?_⟩
  · obtain ⟨x, hx⟩ := (htracks.holds p i).mp hp
    obtain ⟨y, hy⟩ := (htracks.holds q j).mp hq
    obtain ⟨hfor, hdev, -⟩ := htracks.grip p i x hx
    have hd : d < 2 := hi.1.symm.trans hfor.1 ▸ hdev
    obtain rfl := htracks.unique i j d b hd hi hj
    exact ⟨(htracks.alone p q j x y hx hy).symm, rfl⟩
  · rcases htracks.dev i with hdev | hdev
    · exact (htracks.unique i j d b (hi.1 ▸ hdev) hi hj).symm
    · exact absurd (hi.1.symm.trans hdev) hd
  · have hp := hends p
    rw [hx] at hp
    have hgrip : g p x.i = some ⟨x.dev, x.blockno, .ready false⟩ := hp.2 x rfl
    obtain ⟨hfor, hdev, hvalid, -, -⟩ := htracks.grip p x.i _ hgrip
    exact ⟨(htracks.holds p x.i).mpr ⟨_, hgrip⟩, hfor, htracks.data x.i _ _ hdev hfor hvalid⟩

/-- In all runs. -/
theorem allStates_coheres {store : Store} (h : store.Quiet) (as : List (UserAction ι)) :
    AllStates step Coheres (start store : Users ι) as :=
  allStates_of_step (fun _ _ _ hs hstep => Coheres.step hs hstep) (coheres_start h)

end Users

end StrideXv6
