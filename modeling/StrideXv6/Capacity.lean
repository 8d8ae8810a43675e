import StrideXv6.Coherence

/-!
# The buffers a commit needs

Operations that use the cache between `begin_op` and `end_op` only, change blocks
of the log's device through `log_write`, and release what they hold before
`end_op`. Then a process that commits is the only one that uses the cache.

`duties` adds to what processes know about their buffers the stage they are in; a
process that commits knows the header, which blocks it has installed, and the
contents of all blocks. `Logs` relates that to the log and the cache: every block
in the header has a dirty buffer until it is installed, and outside of the commit
nothing else is dirty.
-/

namespace StrideXv6

open Bracket Crash Machine

/-! ## What processes know -/

/-- Where a process is. -/
inductive Stage : Type where
  | out
  /-- between `begin_op` and `end_op` -/
  | op
  /-- in `commit`: the header, the blocks that were installed, the contents of the
  blocks -/
  | commit (lh done : List ℕ) (blocks : ℕ → Block)

/-- What a process knows. -/
@[ext]
structure Duty : Type where
  grips : Grips
  stage : Stage

/-- The blocks a commit of `n` blocks uses: the header, and the copies. -/
def InLog (start n b : ℕ) : Prop := start ≤ b ∧ b ≤ start + n

instance (start n b : ℕ) : Decidable (InLog start n b) :=
  inferInstanceAs (Decidable (start ≤ b ∧ b ≤ start + n))

/-- What the parts of `commit` write. -/
def Writer.Target (start : ℕ) (lh : List ℕ) (b : ℕ) : Writer → Prop
  | client => False
  | log => ∃ tail, tail < lh.length ∧ b = start + tail + 1
  | head => b = start
  | home => b ∈ lh

/-- No buffer is held. -/
def Grips.Free (g : Grips) : Prop := ∀ i, g i = none

/-- `commit` reads a block when it holds nothing, or a logged block when it holds
one buffer. -/
def Grips.Room (g : Grips) (lh : List ℕ) (b : ℕ) : Prop :=
  g.Free ∨ b ∈ lh ∧ ∃ j, ∀ i, g i ≠ none → i = j

section Setting

variable (strict : Prop) (dev start : ℕ)

/-- What a process does in which stage; `strict` excludes that it reads outside of
operations. -/
def Duty.May (g : Duty) : BufOp → Prop
  | .bget d b => d = dev ∧ (strict → g.stage ≠ .out) ∧
      ∀ lh done x, g.stage = .commit lh done x → g.grips.Room lh b
  | .dirty w i => ∃ lh done x, g.stage = .commit lh done x ∧
      ∀ y, g.grips i = some y → w.Target start lh y.blockno
  | .setData w i f => (g.stage = .op → w = .client) ∧ g.stage ≠ .out ∧
      ∀ lh done x, g.stage = .commit lh done x → w ≠ .client ∧
        ∀ y, g.grips i = some y → (∀ b ∈ lh, ¬ InLog start lh.length b) →
          InLog start lh.length y.blockno ∨ f (x y.blockno) = x y.blockno
  | .logWrite _ => g.stage = .op
  | .clear => g.grips.Free ∧ ∃ lh done x, g.stage = .commit lh done x ∧ ∀ b ∈ lh, b ∈ done
  | .beginOp => g.stage = .out
  | .endOp => g.stage = .op ∧ g.grips.Free
  | .finish => g.grips.Free ∧ ∃ x, g.stage = .commit [] [] x
  | _ => True

/-- And where it is then. -/
def Duty.After (g : Duty) : (o : BufOp) → o.Ret → Stage → Prop
  | .dirty w i, _, stage' => ∀ lh done x y, g.stage = .commit lh done x → g.grips i = some y →
      stage' = .commit lh (if w = .home then y.blockno :: done else done) x
  | .data i, (r : Block), stage' => stage' = g.stage ∧
      ∀ lh done x y, g.stage = .commit lh done x → g.grips i = some y → r = x y.blockno
  | .setData _ i f, _, stage' => (g.stage = .op → stage' = .op) ∧
      ∀ lh done x y, g.stage = .commit lh done x → g.grips i = some y →
        stage' = .commit lh done (Function.update x y.blockno (f (x y.blockno)))
  | .log, (l : Log), stage' => stage' = g.stage ∧ l.dev = dev ∧ l.start = start ∧
      ∀ lh done x, g.stage = .commit lh done x → l.lh = lh
  | .clear, _, stage' => ∀ lh done x, g.stage = .commit lh done x → stage' = .commit [] [] x
  | .beginOp, _, stage' => stage' = .op
  | .endOp, (r : Bool), stage' =>
      (r = true → ∃ lh x, lh.length ≤ LOGSIZE ∧ stage' = .commit lh [] x) ∧
        (r = false → stage' = .out)
  | .finish, _, stage' => stage' = .out
  | _, _, stage' => stage' = g.stage

/-- The two together. -/
def duties : Setting bufSig Duty where
  may g o := grips.may g.grips o ∧ g.May strict dev start o
  after g o r g' := grips.after g.grips o r g'.grips ∧ g.After dev start o r g'.stage

end Setting

/-! ## The code -/

section Ends

variable {strict : Prop} {dev start : ℕ} {g : Duty} {i : Fin NBUF} {b : ℕ} {c : Bool} {l : Log}
  {lh done : List ℕ} {x : ℕ → Block}

theorem Duty.eq_mk {g' : Duty} {y : Grips} {t : Stage} (hg : g'.grips = y) (hs : g'.stage = t) :
    g' = ⟨y, t⟩ :=
  Duty.ext hg hs

/-- A step that leaves the stage as it is. -/
theorem Duty.keep {g g' : Duty} {y : Grips} (hg : g'.grips = y) (hs : g'.stage = g.stage) :
    g' = ⟨y, g.stage⟩ :=
  Duty.ext hg hs

theorem duties_bread (hdev : dev < 2) (hmay : g.May strict dev start (.bget dev b)) :
    Ends (duties strict dev start) (fun i g' => g.grips i = none ∧
        g' = ⟨Function.update g.grips i (some ⟨dev, b, .ready false⟩), g.stage⟩) g
      (Bio.bread dev b) := by
  refine ⟨⟨hdev, hmay⟩, fun (i : Fin NBUF) g₁ ⟨⟨hi, hg₁⟩, hs₁⟩ => ?_⟩
  rw [Duty.keep hg₁ hs₁]
  refine ⟨⟨⟨dev, b, Function.update_self ..⟩, trivial⟩, fun (r : Bool) g₂ ⟨hg₂, hs₂⟩ => ?_⟩
  have hg₂ : g₂.grips = Function.update g.grips i (some ⟨dev, b, Hold.ofValid r⟩) :=
    Eq.trans hg₂ (by rw [Grips.become_eq (Function.update_self ..), Function.update_idem])
  rw [Duty.keep hg₂ hs₂]
  cases r with
  | true => exact ⟨hi, rfl⟩
  | false =>
    refine ⟨⟨Or.inl ⟨dev, b, Function.update_self ..⟩, trivial⟩, fun _ g₃ ⟨hg₃, hs₃⟩ => ?_⟩
    have hg₃ : g₃.grips = Function.update g.grips i (some ⟨dev, b, .queued⟩) :=
      Eq.trans hg₃ (by rw [Grips.become_eq (Function.update_self ..), Function.update_idem])
    rw [Duty.keep hg₃ hs₃]
    refine ⟨⟨⟨dev, b, Function.update_self ..⟩, trivial⟩, fun _ g₄ ⟨hg₄, hs₄⟩ => ?_⟩
    have hg₄ : g₄.grips = Function.update g.grips i (some ⟨dev, b, .ready false⟩) :=
      Eq.trans hg₄ (by rw [Grips.become_eq (Function.update_self ..), Function.update_idem])
    exact ⟨hi, Duty.keep hg₄ hs₄⟩

theorem duties_bwrite {w : Writer} {y : Grips} (hi : y i = some ⟨dev, b, .ready c⟩)
    (hw : w.Target start lh b) :
    Ends (duties strict dev start) (fun _ g' => g' = ⟨Function.update y i (some ⟨dev, b, .ready false⟩),
        .commit lh (if w = .home then b :: done else done) x⟩) ⟨y, .commit lh done x⟩
      (Bio.bwrite w i) := by
  refine ⟨⟨⟨c, dev, b, hi⟩, lh, done, x, rfl, fun y' hy' => ?_⟩, fun _ g₁ ⟨hg₁, hs₁⟩ => ?_⟩
  · have := hi.symm.trans hy'
    cases this
    exact hw
  have hg₁ : g₁.grips = Function.update y i (some ⟨dev, b, .marked⟩) :=
    Eq.trans hg₁ (Grips.become_eq hi)
  rw [Duty.eq_mk hg₁ (hs₁ lh done x _ rfl hi)]
  refine ⟨⟨Or.inr ⟨dev, b, Function.update_self ..⟩, trivial⟩, fun _ g₂ ⟨hg₂, hs₂⟩ => ?_⟩
  have hg₂ : g₂.grips = Function.update y i (some ⟨dev, b, .queued⟩) :=
    Eq.trans hg₂ (by rw [Grips.become_eq (Function.update_self ..), Function.update_idem])
  rw [Duty.keep hg₂ hs₂]
  refine ⟨⟨⟨dev, b, Function.update_self ..⟩, trivial⟩, fun _ g₃ ⟨hg₃, hs₃⟩ => ?_⟩
  have hg₃ : g₃.grips = Function.update y i (some ⟨dev, b, .ready false⟩) :=
    Eq.trans hg₃ (by rw [Grips.become_eq (Function.update_self ..), Function.update_idem])
  exact Duty.keep hg₃ hs₃

/-- Nothing in hand. -/
def noGrips : Grips := fun _ => none

theorem update_update_noGrips {j : Fin NBUF} {y y' : Option Grip} :
    Function.update (Function.update (Function.update (Function.update noGrips i y) j y') j none) i
      none = noGrips := by
  funext k
  by_cases hi : k = i
  · rw [hi, Function.update_self]
    rfl
  · rw [Function.update_of_ne hi]
    by_cases hj : k = j
    · rw [hj, Function.update_self]
      rfl
    · rw [Function.update_of_ne hj, Function.update_of_ne hj, Function.update_of_ne hi]

/-- Of two buffers in hand, one is changed and written, and both are released. -/
theorem duties_copy {w : Writer} {a : ℕ} {dst src : Fin NBUF} {v : Block} (hne : dst ≠ src)
    (hw : w.Target start lh b) (hclient : w ≠ .client)
    (hv : (∀ b ∈ lh, ¬ InLog start lh.length b) → InLog start lh.length b ∨ v = x b) :
    Ends (duties strict dev start) (fun _ g' => g' = ⟨noGrips,
        .commit lh (if w = .home then b :: done else done) (Function.update x b v)⟩)
      ⟨Function.update (Function.update noGrips dst (some ⟨dev, b, .ready false⟩)) src
        (some ⟨dev, a, .ready false⟩), .commit lh done x⟩
      (do
        Bio.ask (.setData w dst fun _ => v)
        Bio.bwrite w dst
        Bio.ask (.brelse src)
        Bio.ask (.brelse dst)) := by
  have hat : Function.update (Function.update noGrips dst (some (⟨dev, b, .ready false⟩ : Grip))) src
      (some ⟨dev, a, .ready false⟩) dst = some ⟨dev, b, .ready false⟩ := by
    rw [Function.update_of_ne hne, Function.update_self]
  refine ⟨⟨⟨false, dev, b, hat⟩, nofun, nofun, fun lh' done' x' he => ?_⟩, fun _ g₁ ⟨hg₁, hs₁⟩ => ?_⟩
  · cases he
    refine ⟨hclient, fun y hy => ?_⟩
    dsimp only at hy
    rw [hat] at hy
    cases hy
    exact hv
  have hg₁ : g₁.grips = Function.update (Function.update (Function.update noGrips dst
      (some ⟨dev, b, .ready false⟩)) src (some ⟨dev, a, .ready false⟩)) dst
      (some ⟨dev, b, .ready true⟩) :=
    Eq.trans hg₁ (Grips.become_eq hat)
  rw [Duty.eq_mk hg₁ (hs₁.2 lh done x _ rfl hat)]
  refine (duties_bwrite (Function.update_self ..) hw).bind fun _ g₂ hg₂ => ?_
  rw [hg₂, Function.update_idem]
  have hcomm : Function.update (Function.update (Function.update noGrips dst
      (some (⟨dev, b, .ready false⟩ : Grip))) src (some ⟨dev, a, .ready false⟩)) dst
      (some ⟨dev, b, .ready false⟩) = Function.update (Function.update noGrips dst
      (some (⟨dev, b, .ready false⟩ : Grip))) src (some ⟨dev, a, .ready false⟩) := by
    rw [Function.update_comm hne.symm, Function.update_idem]
  rw [hcomm]
  refine ⟨⟨⟨dev, a, Function.update_self ..⟩, trivial⟩, fun _ g₃ ⟨hg₃, hs₃⟩ => ?_⟩
  rw [Duty.keep hg₃ hs₃]
  have hdst : Function.update (Function.update (Function.update noGrips dst
      (some (⟨dev, b, .ready false⟩ : Grip))) src (some ⟨dev, a, .ready false⟩)) src none dst =
      some ⟨dev, b, .ready false⟩ := by
    rw [Function.update_of_ne hne, hat]
  refine ⟨⟨⟨dev, b, hdst⟩, trivial⟩, fun _ g₄ ⟨hg₄, hs₄⟩ => ?_⟩
  exact Duty.ext (hg₄.trans update_update_noGrips) hs₄

/-- The first buffer `commit` reads. -/
theorem may_bget_free : Duty.May strict dev start ⟨noGrips, .commit lh done x⟩ (.bget dev b) :=
  ⟨rfl, fun _ => nofun, fun _ _ _ _ => Or.inl fun _ => rfl⟩

/-- The second one. -/
theorem may_bget_logged {y : Grip} (hb : b ∈ lh) :
    Duty.May strict dev start ⟨Function.update noGrips i (some y), .commit lh done x⟩ (.bget dev b) := by
  refine ⟨rfl, fun _ => nofun, fun lh' _ _ he => ?_⟩
  cases he
  refine Or.inr ⟨hb, i, fun j hj => ?_⟩
  by_contra hji
  exact hj (Function.update_of_ne hji _ _)

theorem duties_logBlock {tail : ℕ} (hdev : dev < 2) (hl : l.dev = dev) (hstart : l.start = start)
    (htail : tail < lh.length) (hb : b ∈ lh) :
    Ends (duties strict dev start) (fun _ g' => g' =
        ⟨noGrips, .commit lh done (Function.update x (start + tail + 1) (x b))⟩)
      ⟨noGrips, .commit lh done x⟩ (Bio.logBlock l tail b) := by
  unfold Bio.logBlock
  rw [hl, hstart]
  refine (duties_bread hdev may_bget_free).bind fun dst g₁ ⟨_, hg₁⟩ => ?_
  rw [hg₁]
  refine (duties_bread hdev (may_bget_logged hb)).bind fun src g₂ ⟨hsrc, hg₂⟩ => ?_
  rw [hg₂]
  have hne : dst ≠ src := fun he => by
    dsimp only at hsrc
    rw [he, Function.update_self] at hsrc
    cases hsrc
  refine ⟨⟨⟨false, dev, b, Function.update_self ..⟩, trivial⟩, fun v g₃ ⟨hg₃, hs₃, hv⟩ => ?_⟩
  rw [Duty.keep hg₃ hs₃]
  have hv : v = x b := hv lh done x _ rfl (Function.update_self ..)
  rw [← hv]
  exact duties_copy hne ⟨tail, htail, rfl⟩ nofun fun _ => Or.inl ⟨by omega, by omega⟩

theorem duties_installBlock {tail : ℕ} (hdev : dev < 2) (hl : l.dev = dev) (hstart : l.start = start)
    (hb : b ∈ lh) (hcopy : (∀ b ∈ lh, ¬ InLog start lh.length b) → x (start + tail + 1) = x b) :
    Ends (duties strict dev start) (fun _ g' => g' =
        ⟨noGrips, .commit lh (b :: done) (Function.update x b (x (start + tail + 1)))⟩)
      ⟨noGrips, .commit lh done x⟩ (Bio.installBlock l tail b) := by
  unfold Bio.installBlock
  rw [hl, hstart]
  refine (duties_bread hdev may_bget_free).bind fun lbuf g₁ ⟨_, hg₁⟩ => ?_
  rw [hg₁]
  refine (duties_bread hdev (may_bget_logged hb)).bind fun dbuf g₂ ⟨hdbuf, hg₂⟩ => ?_
  rw [hg₂]
  have hne : dbuf ≠ lbuf := fun he => by
    dsimp only at hdbuf
    rw [he, Function.update_self] at hdbuf
    cases hdbuf
  have hlbuf : Function.update (Function.update noGrips lbuf
      (some (⟨dev, start + tail + 1, .ready false⟩ : Grip))) dbuf (some ⟨dev, b, .ready false⟩) lbuf =
      some ⟨dev, start + tail + 1, .ready false⟩ := by
    rw [Function.update_of_ne hne.symm, Function.update_self]
  refine ⟨⟨⟨false, dev, start + tail + 1, hlbuf⟩, trivial⟩, fun v g₃ ⟨hg₃, hs₃, hv⟩ => ?_⟩
  rw [Duty.keep hg₃ hs₃]
  have hv : v = x (start + tail + 1) := hv lh done x _ rfl hlbuf
  dsimp only
  rw [Function.update_comm hne.symm, ← hv]
  exact duties_copy (w := .home) hne hb nofun fun hout => Or.inr (hv.trans (hcopy hout))

/-- The loops of `commit`, with an invariant of what is installed and of the contents
of the blocks. -/
theorem duties_eachEntry {body : Log → ℕ → ℕ → BufCode Unit}
    {J : ℕ → List ℕ → (ℕ → Block) → Prop} {turns tail : ℕ}
    (hbody : ∀ l tail b done x, l.dev = dev → l.start = start → lh[tail]? = some b →
      J tail done x → Ends (duties strict dev start) (fun _ g' => ∃ done' x', J (tail + 1) done' x' ∧
        g' = ⟨noGrips, .commit lh done' x'⟩) ⟨noGrips, .commit lh done x⟩ (body l tail b))
    (hJ : J tail done x) (hturns : lh.length < tail + turns) :
    Ends (duties strict dev start) (fun _ g' => ∃ tail' done' x', lh.length ≤ tail' ∧ J tail' done' x' ∧
        g' = ⟨noGrips, .commit lh done' x'⟩) ⟨noGrips, .commit lh done x⟩
      (Bio.eachEntry body turns tail) := by
  induction turns generalizing tail done x with
  | zero => exact ⟨tail, done, x, by omega, hJ, rfl⟩
  | succ turns ih =>
    refine ⟨⟨trivial, trivial⟩, fun (l : Log) g₁ hg => ?_⟩
    obtain ⟨⟨-, hg₁⟩, hs₁, hdev, hstart, hlh⟩ := hg
    rw [Duty.keep hg₁ hs₁]
    have hlh : l.lh = lh := hlh lh done x rfl
    dsimp only [Code.bind]
    rw [hlh]
    cases hb : lh[tail]? with
    | none => exact ⟨tail, done, x, List.getElem?_eq_none_iff.mp hb, hJ, rfl⟩
    | some b =>
      refine (hbody l tail b done x hdev hstart hb hJ).bind fun _ g₂ hg => ?_
      obtain ⟨done', x', hJ', hg₂⟩ := hg
      rw [hg₂]
      exact ih hJ' (by omega)

/-- The log has copies of the first `tail` blocks of the header. -/
def Mirrored (start : ℕ) (lh : List ℕ) (tail : ℕ) (x : ℕ → Block) : Prop :=
  (∀ b ∈ lh, ¬ InLog start lh.length b) →
    ∀ t b, t < tail → lh[t]? = some b → x (start + t + 1) = x b

/-- A change elsewhere. -/
theorem Mirrored.congr {tail : ℕ} {x' : ℕ → Block} (h : Mirrored start lh tail x)
    (hx : ∀ t, t < tail → t < lh.length → x' (start + t + 1) = x (start + t + 1))
    (hx' : ∀ b ∈ lh, ¬ InLog start lh.length b → x' b = x b) : Mirrored start lh tail x' := by
  intro hout t b ht hb
  have hmem : b ∈ lh := List.mem_of_getElem? hb
  rw [hx t ht (List.getElem?_eq_some_iff.mp hb).1, hx' b hmem (hout b hmem)]
  exact h hout t b ht hb

theorem duties_writeLog (hdev : dev < 2) (hlen : lh.length ≤ LOGSIZE) :
    Ends (duties strict dev start) (fun _ g' => ∃ x', Mirrored start lh lh.length x' ∧
        g' = ⟨noGrips, .commit lh [] x'⟩) ⟨noGrips, .commit lh [] x⟩ Bio.writeLog := by
  refine (duties_eachEntry (J := fun tail done x => done = [] ∧ Mirrored start lh tail x) ?_
    ⟨rfl, fun _ t b ht => absurd ht (Nat.not_lt_zero t)⟩ (by omega)).mono ?_
  · rintro l tail b done x hl hstart hb ⟨rfl, hJ⟩
    have htail := (List.getElem?_eq_some_iff.mp hb).1
    refine (duties_logBlock hdev hl hstart htail (List.mem_of_getElem? hb)).mono fun _ g' hg' => ?_
    refine ⟨[], _, ⟨rfl, fun hout t b' ht hb' => ?_⟩, hg'⟩
    have hne : ∀ c ∈ lh, c ≠ start + tail + 1 := fun c hc he =>
      hout c hc ⟨by omega, by omega⟩
    rw [Function.update_of_ne (hne b' (List.mem_of_getElem? hb'))]
    by_cases htt : t = tail
    · subst htt
      rw [Function.update_self, Option.some.inj (hb.symm.trans hb')]
    · rw [Function.update_of_ne (by omega)]
      exact hJ hout t b' (by omega) hb'
  · rintro _ g' ⟨tail', done', x', hle, ⟨rfl, hJ⟩, hg'⟩
    exact ⟨x', fun hout t b ht hb => hJ hout t b (by omega) hb, hg'⟩

theorem duties_installTrans (hdev : dev < 2) (hlen : lh.length ≤ LOGSIZE)
    (hcopied : Mirrored start lh lh.length x) :
    Ends (duties strict dev start) (fun _ g' => ∃ done' x', (∀ b ∈ lh, b ∈ done') ∧
        g' = ⟨noGrips, .commit lh done' x'⟩) ⟨noGrips, .commit lh [] x⟩ Bio.installTrans := by
  refine (duties_eachEntry (J := fun tail done x =>
    (∀ t b, t < tail → lh[t]? = some b → b ∈ done) ∧ Mirrored start lh lh.length x) ?_
    ⟨fun t b ht => absurd ht (Nat.not_lt_zero t), hcopied⟩ (by omega)).mono ?_
  · rintro l tail b done x hl hstart hb ⟨hdone, hJ⟩
    have htail := (List.getElem?_eq_some_iff.mp hb).1
    have hmem := List.mem_of_getElem? hb
    refine Ends.mono (duties_installBlock hdev hl hstart hmem fun hout => hJ hout tail b htail hb)
      fun _ g' hg' => ?_
    refine ⟨b :: done, _, ⟨fun t b' ht hb' => ?_, fun hout => ?_⟩, hg'⟩
    · by_cases htt : t = tail
      · subst htt
        rw [Option.some.inj (hb'.symm.trans hb)]
        exact List.mem_cons_self ..
      · exact List.mem_cons_of_mem _ (hdone t b' (by omega) hb')
    · -- the block gets what it has
      rw [hJ hout tail b htail hb, Function.update_eq_self]
      exact hJ hout
  · rintro _ g' ⟨tail', done', x', hle, ⟨hdone, -⟩, hg'⟩
    refine ⟨done', x', fun b hb => ?_, hg'⟩
    obtain ⟨t, ht, hget⟩ := List.getElem_of_mem hb
    exact hdone t b (by omega) (List.getElem?_eq_some_iff.mpr ⟨ht, hget⟩)

theorem duties_writeHead (hdev : dev < 2) :
    Ends (duties strict dev start) (fun _ g' => ∃ x', (∀ b, b ≠ start → x' b = x b) ∧
        g' = ⟨noGrips, .commit lh done x'⟩) ⟨noGrips, .commit lh done x⟩ Bio.writeHead := by
  refine ⟨⟨trivial, trivial⟩, fun (l : Log) g₁ ⟨⟨_, hg₁⟩, hs₁, hl, hstart, _⟩ => ?_⟩
  rw [Duty.keep hg₁ hs₁]
  change Ends (duties strict dev start) _ _ (Bio.bread l.dev l.start >>= _)
  rw [hl, hstart]
  refine (duties_bread hdev may_bget_free).bind fun i g₂ ⟨_, hg₂⟩ => ?_
  rw [hg₂]
  refine ⟨⟨trivial, trivial⟩, fun (l' : Log) g₃ ⟨⟨_, hg₃⟩, hs₃, _⟩ => ?_⟩
  rw [Duty.keep hg₃ hs₃]
  have hi : Function.update noGrips i (some (⟨dev, start, .ready false⟩ : Grip)) i =
      some ⟨dev, start, .ready false⟩ := Function.update_self ..
  refine ⟨⟨⟨false, dev, start, hi⟩, nofun, nofun, fun lh' done' x' he => ?_⟩,
    fun _ g₄ ⟨hg₄, hs₄⟩ => ?_⟩
  · cases he
    refine ⟨nofun, fun y hy _ => ?_⟩
    cases hi.symm.trans hy
    exact Or.inl ⟨Nat.le_refl _, Nat.le_add_right _ _⟩
  have hg₄ : g₄.grips = Function.update noGrips i (some ⟨dev, start, .ready true⟩) :=
    Eq.trans hg₄ (by rw [Grips.become_eq hi, Function.update_idem])
  rw [Duty.eq_mk hg₄ (hs₄.2 lh done x _ rfl hi)]
  refine (duties_bwrite (w := .head) (Function.update_self ..) rfl).bind fun _ g₅ hg₅ => ?_
  rw [hg₅, Function.update_idem]
  refine ⟨⟨⟨dev, start, Function.update_self ..⟩, trivial⟩, fun _ g₆ ⟨hg₆, hs₆⟩ => ?_⟩
  refine ⟨_, fun b hb => Function.update_of_ne hb _ _, Duty.eq_mk (hg₆.trans ?_) hs₆⟩
  rw [Function.update_idem]
  exact Function.update_eq_self i noGrips

theorem duties_commit (hdev : dev < 2) (hlen : lh.length ≤ LOGSIZE) :
    Ends (duties strict dev start) (fun _ g' => ∃ x', g' = ⟨noGrips, .commit [] [] x'⟩)
      ⟨noGrips, .commit lh [] x⟩ Bio.commit := by
  refine ⟨⟨trivial, trivial⟩, fun (l : Log) g₁ ⟨⟨_, hg₁⟩, hs₁, _, _, hlh⟩ => ?_⟩
  rw [Duty.keep hg₁ hs₁]
  have hlh : l.lh = lh := hlh lh [] x rfl
  change Ends (duties strict dev start) _ _ (if 0 < l.lh.length then _ else _)
  rw [hlh]
  split
  · refine (duties_writeLog hdev hlen).bind fun _ g₂ ⟨x₂, hcopied, hg₂⟩ => ?_
    rw [hg₂]
    refine (duties_writeHead hdev).bind fun _ g₃ ⟨x₃, hx₃, hg₃⟩ => ?_
    rw [hg₃]
    have hcopied₃ : Mirrored start lh lh.length x₃ :=
      hcopied.congr (fun t _ _ => hx₃ _ (by omega)) fun b _ hb =>
        hx₃ b fun he => hb ⟨he.ge, by omega⟩
    refine (duties_installTrans hdev hlen hcopied₃).bind fun _ g₄ ⟨done, x₄, hdone, hg₄⟩ => ?_
    rw [hg₄]
    refine ⟨⟨trivial, fun _ => rfl, lh, done, x₄, rfl, hdone⟩, fun _ g₅ ⟨hg₅, hs₅⟩ => ?_⟩
    rw [Duty.eq_mk hg₅ (hs₅ lh done x₄ rfl)]
    exact (duties_writeHead hdev).mono fun _ g₆ ⟨x₆, _, hg₆⟩ => ⟨x₆, hg₆⟩
  · next hzero =>
    have hnil : lh = [] := List.length_eq_zero_iff.mp (by omega)
    exact ⟨x, by rw [hnil]⟩

theorem duties_endOp (hdev : dev < 2) (hstage : g.stage = .op) (hfree : g.grips.Free) :
    Ends (duties strict dev start) (fun _ g' => g' = ⟨noGrips, .out⟩) g Bio.endOp := by
  refine ⟨⟨trivial, hstage, hfree⟩, fun (r : Bool) g₁ ⟨hg₁, hcommit, hout⟩ => ?_⟩
  have hnone : g₁.grips = noGrips := Eq.trans hg₁ (funext hfree)
  cases r with
  | false => exact Duty.eq_mk hnone (hout rfl)
  | true =>
    obtain ⟨lh, x, hlen, hs₁⟩ := hcommit rfl
    rw [Duty.eq_mk hnone hs₁]
    refine (duties_commit hdev hlen).bind fun _ g₂ ⟨x', hg₂⟩ => ?_
    rw [hg₂]
    exact ⟨⟨trivial, fun _ => rfl, x', rfl⟩, fun _ g₃ ⟨hg₃, hs₃⟩ => Duty.eq_mk hg₃ hs₃⟩

/-- A call is over. -/
def Settled (strict : Prop) (r : Option Fetched) (g : Duty) : Prop :=
  Returned r g.grips ∧ (g.stage = .out ∧ (strict → g.grips.Free) ∨ g.stage = .op)

end Ends

/-! ## What processes know is so -/

/-- The process is in `commit`. -/
def Stage.IsCommit : Stage → Prop
  | commit _ _ _ => True
  | _ => False

/-- The buffer is about to be written. -/
def Grips.Writing (g : Grips) (i : Fin NBUF) : Prop := g.Has i .marked ∨ g.Has i .queued

/-- The log knows which processes are in operations, and which one commits. -/
structure Admits {ι : Type} (strict : Prop) (s : Bio ι) (g : ι → Duty) : Prop where
  inside : ∀ p, s.inside p = true ↔ (g p).stage = .op
  count : ∃ ps : List ι, ps.Nodup ∧ (∀ p, p ∈ ps ↔ (g p).stage = .op) ∧
    s.store.log.outstanding = ps.length
  committing : s.store.log.committing = true ↔ ∃ p, (g p).stage.IsCommit
  sole : ∀ p q, (g p).stage.IsCommit → (g q).stage.IsCommit → q = p
  /-- a commit waits for all operations, and they for it -/
  alone : s.store.log.committing = true → ∀ p, (g p).stage ≠ .op
  out : strict → ∀ p, (g p).stage = .out → (g p).grips.Free

/-- The buffers that are dirty are those of the logged blocks, until these are
installed. -/
structure Pins {ι : Type} (dev start : ℕ) (s : Bio ι) (g : ι → Duty) : Prop where
  nodup : s.store.log.lh.Nodup
  bound : s.store.log.lh.length ≤ LOGSIZE
  /-- nothing is installed but by a commit -/
  fresh : s.store.log.committing = false → s.installed = []
  pinned : ∀ b ∈ s.store.log.lh, b ∉ s.installed →
    (s.store.log.committing = true → ¬ InLog start s.store.log.lh.length b) →
      ∃ i, (s.buf i).IsFor dev b ∧ (s.buf i).dirty = true
  dirty : ∀ i, (s.buf i).dirty = true →
    ((s.buf i).dev = dev ∧ (s.buf i).blockno ∈ s.store.log.lh ∧ (s.buf i).blockno ∉ s.installed) ∨
      ∃ p, (g p).grips.Writing i
  /-- what a commit writes is a block of the log, or one that is installed -/
  writing : ∀ p i y, (g p).grips i = some y →
    (y.hold = .marked ∨ y.hold = .queued ∧ (s.buf i).dirty = true) →
      (g p).stage.IsCommit ∧
        (InLog start s.store.log.lh.length y.blockno ∨ y.blockno ∈ s.installed)

/-- The cache, the log and the processes agree. -/
structure Logs {ι : Type} (strict : Prop) (dev start : ℕ) (s : Bio ι) (g : ι → Duty) : Prop where
  tracks : Tracks s fun p => (g p).grips
  logDev : s.store.log.dev = dev
  logStart : s.store.log.start = start
  admits : Admits strict s g
  pins : Pins dev start s g
  known : ∀ p lh done x, (g p).stage = .commit lh done x →
    s.store.log.lh = lh ∧ s.installed = done ∧ s.plain dev = x
  /-- all buffers are for the device of the log -/
  grip : ∀ p i y, (g p).grips i = some y → y.dev = dev

section Steps

variable {ι : Type} [DecidableEq ι] {strict : Prop} {dev start : ℕ} {s s' : Bio ι} {g : ι → Duty}
  {p : ι}
  {i : Fin NBUF} {g' : Duty}

theorem update_grips : (fun q => (Function.update g p g' q).grips) =
    Function.update (fun q => (g q).grips) p g'.grips := by
  funext q
  by_cases hq : q = p
  · subst hq
    rw [Function.update_self, Function.update_self]
  · rw [Function.update_of_ne hq, Function.update_of_ne hq]

/-- A process goes on to another stage. -/
theorem restage_grips {t : Stage} (q : ι) :
    (Function.update g p ⟨(g p).grips, t⟩ q).grips = (g q).grips := by
  by_cases hq : q = p
  · subst hq
    rw [Function.update_self]
  · rw [Function.update_of_ne hq]

/-- A process stays inside, outside, or in `commit`. -/
theorem Admits.keep (h : Admits strict s g) (hinside : s'.inside = s.inside)
    (hout : s'.store.log.outstanding = s.store.log.outstanding)
    (hcommitting : s'.store.log.committing = s.store.log.committing)
    (hop : g'.stage = .op ↔ (g p).stage = .op)
    (hcommit : g'.stage.IsCommit ↔ (g p).stage.IsCommit)
    (hfree : strict → g'.stage = .out → g'.grips.Free) : Admits strict s' (Function.update g p g') := by
  have hop' : ∀ q, (Function.update g p g' q).stage = .op ↔ (g q).stage = .op := by
    intro q
    by_cases hq : q = p
    · subst hq
      rw [Function.update_self]
      exact hop
    · rw [Function.update_of_ne hq]
  have hcommit' : ∀ q, (Function.update g p g' q).stage.IsCommit ↔ (g q).stage.IsCommit := by
    intro q
    by_cases hq : q = p
    · subst hq
      rw [Function.update_self]
      exact hcommit
    · rw [Function.update_of_ne hq]
  refine ⟨fun q => ?_, ?_, ?_, fun q q' hq hq' => ?_, fun hc q hq => ?_, fun hs q hq => ?_⟩
  · rw [hinside, hop']
    exact h.inside q
  · obtain ⟨ps, hnodup, hmem, hlen⟩ := h.count
    exact ⟨ps, hnodup, fun q => (hmem q).trans (hop' q).symm, hout.trans hlen⟩
  · rw [hcommitting, h.committing]
    exact exists_congr fun q => (hcommit' q).symm
  · exact h.sole q q' ((hcommit' q).mp hq) ((hcommit' q').mp hq')
  · exact h.alone (hcommitting ▸ hc) q ((hop' q).mp hq)
  · by_cases hqp : q = p
    · subst hqp
      rw [Function.update_self] at hq ⊢
      exact hfree hs hq
    · rw [Function.update_of_ne hqp] at hq ⊢
      exact h.out hs q hq

omit [DecidableEq ι] in
/-- While a process commits, all others are outside. -/
theorem Admits.others (h : Admits strict s g) (hs : strict) (hp : (g p).stage.IsCommit) {q : ι} (hq : q ≠ p) :
    (g q).grips.Free := by
  have hc : s.store.log.committing = true := h.committing.mpr ⟨p, hp⟩
  cases hstage : (g q).stage with
  | out => exact h.out hs q hstage
  | op => exact absurd hstage (h.alone hc q)
  | commit lh done x => exact absurd (h.sole p q hp (by rw [hstage]; trivial)) hq

omit [DecidableEq ι] in
/-- Nobody commits while a process is in an operation. -/
theorem Admits.not_committing (h : Admits strict s g) (hp : (g p).stage = .op) :
    s.store.log.committing = false := by
  cases hc : s.store.log.committing with
  | false => rfl
  | true => exact absurd hp (h.alone hc p)

omit [DecidableEq ι] in
theorem Admits.no_commit (h : Admits strict s g) (hnot : s.store.log.committing = false) (q : ι) :
    ¬ (g q).stage.IsCommit := by
  intro hq
  rw [h.committing.mpr ⟨q, hq⟩] at hnot
  cases hnot

/-- A step that leaves the log and the dirty buffers as they are. -/
theorem Pins.keep (h : Pins dev start s g) (hcommit : (g p).stage.IsCommit → g'.stage.IsCommit)
    (hlh : s'.store.log.lh = s.store.log.lh)
    (hcommitting : s'.store.log.committing = s.store.log.committing)
    (hinstalled : s'.installed = s.installed)
    (hbuf : ∀ j, (s.buf j).dirty = true ∨ (s'.buf j).dirty = true →
      (s'.buf j).dev = (s.buf j).dev ∧ (s'.buf j).blockno = (s.buf j).blockno ∧
        (s'.buf j).dirty = (s.buf j).dirty)
    (hwriting : ∀ j, (g p).grips.Writing j → (s.buf j).dirty = true → g'.grips.Writing j)
    (hnew : ∀ j y, g'.grips j = some y →
      (y.hold = .marked ∨ y.hold = .queued ∧ (s.buf j).dirty = true) →
        ∃ y', (g p).grips j = some y' ∧ y'.blockno = y.blockno ∧
          (y'.hold = .marked ∨ y'.hold = .queued ∧ (s.buf j).dirty = true)) :
    Pins dev start s' (Function.update g p g') := by
  refine ⟨hlh ▸ h.nodup, hlh ▸ h.bound, fun hc => ?_, fun b hb hnot hin => ?_, fun j hj => ?_,
    fun q j y hy hhold => ?_⟩
  · rw [hinstalled]
    exact h.fresh (hcommitting ▸ hc)
  · rw [hlh] at hb hin
    rw [hinstalled] at hnot
    rw [hcommitting] at hin
    obtain ⟨j, hfor, hdirty⟩ := h.pinned b hb hnot hin
    obtain ⟨hd, hn, hd'⟩ := hbuf j (Or.inl hdirty)
    exact ⟨j, ⟨hd.trans hfor.1, hn.trans hfor.2⟩, hd'.trans hdirty⟩
  · obtain ⟨hd, hn, hd'⟩ := hbuf j (Or.inr hj)
    have hjd : (s.buf j).dirty = true := hd'.symm.trans hj
    rw [hd, hn, hlh, hinstalled]
    refine (h.dirty j hjd).imp id fun ⟨q, hq⟩ => ⟨q, ?_⟩
    by_cases hqp : q = p
    · subst hqp
      rw [Function.update_self]
      exact hwriting j hq hjd
    · rwa [Function.update_of_ne hqp]
  · rw [hlh, hinstalled]
    have hsame : ∀ y : Grip, y.hold = .marked ∨ y.hold = .queued ∧ (s'.buf j).dirty = true →
        y.hold = .marked ∨ y.hold = .queued ∧ (s.buf j).dirty = true := fun y =>
      Or.imp_right fun hd => ⟨hd.1, (hbuf j (Or.inr hd.2)).2.2.symm.trans hd.2⟩
    by_cases hqp : q = p
    · subst hqp
      rw [Function.update_self] at hy ⊢
      obtain ⟨y', hy', hn, hhold'⟩ := hnew j y hy (hsame y hhold)
      rw [← hn]
      exact (h.writing q j y' hy' hhold').imp_left hcommit
    · rw [Function.update_of_ne hqp] at hy ⊢
      exact h.writing q j y hy (hsame y hhold)

/-- What a step leaves as it is that has nothing to do with the log: all but the
buffers, and these as far as they are dirty. -/
structure Bio.Same (s s' : Bio ι) : Prop where
  log : s'.store.log = s.store.log
  installed : s'.installed = s.installed
  inside : s'.inside = s.inside
  buf : ∀ j, (s.buf j).dirty = true ∨ (s'.buf j).dirty = true →
    (s'.buf j).dev = (s.buf j).dev ∧ (s'.buf j).blockno = (s.buf j).blockno ∧
      (s'.buf j).dirty = (s.buf j).dirty

omit [DecidableEq ι] in
/-- One buffer changes. -/
theorem Bio.Same.of_update (hlog : s'.store.log = s.store.log)
    (hinstalled : s'.installed = s.installed) (hinside : s'.inside = s.inside)
    (hbuf : ∀ j, j ≠ i → s'.buf j = s.buf j)
    (hi : (s.buf i).dirty = true ∨ (s'.buf i).dirty = true →
      (s'.buf i).dev = (s.buf i).dev ∧ (s'.buf i).blockno = (s.buf i).blockno ∧
        (s'.buf i).dirty = (s.buf i).dirty) : s.Same s' := by
  refine ⟨hlog, hinstalled, hinside, fun j hj => ?_⟩
  by_cases hji : j = i
  · subst hji
    exact hi hj
  · rw [hbuf j hji]
    exact ⟨rfl, rfl, rfl⟩

/-- Such a step of a process that is not outside. -/
theorem Logs.keep (h : Logs strict dev start s g)
    (htracks : Tracks s' (Function.update (fun q => (g q).grips) p g'.grips)) (hsame : s.Same s')
    (hfree : strict → g'.stage = .out → g'.grips.Free) (hop : g'.stage = .op ↔ (g p).stage = .op)
    (hcommit : g'.stage.IsCommit ↔ (g p).stage.IsCommit)
    (hknown : ∀ lh done x, g'.stage = .commit lh done x →
      s.store.log.lh = lh ∧ s.installed = done ∧ s'.plain dev = x)
    (hplain : ∀ q, q ≠ p → (g q).stage.IsCommit → s'.plain = s.plain)
    (hwriting : ∀ j, (g p).grips.Writing j → (s.buf j).dirty = true → g'.grips.Writing j)
    (hnew : ∀ j y, g'.grips j = some y →
      (∃ y', (g p).grips j = some y' ∧ y'.blockno = y.blockno ∧ y'.dev = y.dev ∧
          (y.hold = .marked ∨ y.hold = .queued ∧ (s.buf j).dirty = true →
            y'.hold = .marked ∨ y'.hold = .queued ∧ (s.buf j).dirty = true)) ∨
        y.dev = dev ∧ y.hold = .fetched) :
    Logs strict dev start s' (Function.update g p g') := by
  have hlh : s'.store.log.lh = s.store.log.lh := by rw [hsame.log]
  have hcommitting : s'.store.log.committing = s.store.log.committing := by rw [hsame.log]
  refine ⟨by rw [update_grips]; exact htracks, by rw [hsame.log]; exact h.logDev,
    by rw [hsame.log]; exact h.logStart, ?_, ?_, fun q lh done x hq => ?_, fun q j y hy => ?_⟩
  · exact h.admits.keep hsame.inside (by rw [hsame.log]) hcommitting hop hcommit hfree
  · refine h.pins.keep hcommit.mpr hlh hcommitting hsame.installed hsame.buf hwriting fun j y hy hhold => ?_
    rcases hnew j y hy with ⟨y', hy', hn, -, hold⟩ | ⟨-, hfetched⟩
    · exact ⟨y', hy', hn, hold hhold⟩
    · rw [hfetched] at hhold
      rcases hhold with hm | ⟨hq, -⟩
      · cases hm
      · cases hq
  · rw [hlh, hsame.installed]
    by_cases hqp : q = p
    · subst hqp
      rw [Function.update_self] at hq
      exact hknown lh done x hq
    · rw [Function.update_of_ne hqp] at hq
      rw [hplain q hqp (by rw [hq]; trivial)]
      exact h.known q lh done x hq
  · by_cases hqp : q = p
    · subst hqp
      rw [Function.update_self] at hy
      rcases hnew j y hy with ⟨y', hy', -, hd, -⟩ | ⟨hd, -⟩
      · exact hd ▸ h.grip q j y' hy'
      · exact hd
    · rw [Function.update_of_ne hqp] at hy
      exact h.grip q j y hy

/-- The process stays where it is, and so do the contents of the blocks. -/
theorem Logs.stay {y : Grips} (h : Logs strict dev start s g)
    (htracks : Tracks s' (Function.update (fun q => (g q).grips) p y)) (hsame : s.Same s')
    (hplain : s'.plain = s.plain) (hnotout : strict → (g p).stage ≠ .out)
    (hwriting : ∀ j, (g p).grips.Writing j → (s.buf j).dirty = true → y.Writing j)
    (hnew : ∀ j z, y j = some z →
      (∃ z', (g p).grips j = some z' ∧ z'.blockno = z.blockno ∧ z'.dev = z.dev ∧
          (z.hold = .marked ∨ z.hold = .queued ∧ (s.buf j).dirty = true →
            z'.hold = .marked ∨ z'.hold = .queued ∧ (s.buf j).dirty = true)) ∨
        z.dev = dev ∧ z.hold = .fetched) :
    Logs strict dev start s' (Function.update g p ⟨y, (g p).stage⟩) :=
  h.keep htracks hsame (fun hs hout => absurd hout (hnotout hs)) Iff.rfl Iff.rfl
    (fun lh done x hx => hplain ▸ h.known p lh done x hx) (fun _ _ _ => hplain) hwriting hnew

omit [DecidableEq ι] in
/-- A process with a buffer in its hands is not outside. -/
theorem Logs.not_out (h : Logs strict dev start s g) {old : Hold} (hi : (g p).grips.Has i old) :
    strict → (g p).stage ≠ .out := by
  intro hs hout
  obtain ⟨d, b, hi⟩ := hi
  rw [h.admits.out hs p hout i] at hi
  cases hi

/-- The state of one buffer in hand changes. -/
theorem Grips.become_some {y : Grips} {old new : Hold} {j : Fin NBUF} {z : Grip}
    (hi : y.Has i old) (hz : y.become i new j = some z) :
    ∃ z', y j = some z' ∧ z'.blockno = z.blockno ∧ z'.dev = z.dev ∧
      (j ≠ i → z' = z) ∧ (j = i → z.hold = new ∧ z'.hold = old) := by
  obtain ⟨d, b, hi⟩ := hi
  rw [Grips.become_eq hi] at hz
  by_cases hj : j = i
  · subst hj
    rw [Function.update_self] at hz
    cases hz
    exact ⟨_, hi, rfl, rfl, fun hne => absurd rfl hne, fun _ => ⟨rfl, rfl⟩⟩
  · rw [Function.update_of_ne hj] at hz
    exact ⟨z, hz, rfl, rfl, fun _ => rfl, fun he => absurd he hj⟩

theorem Grips.Writing.become {y : Grips} {new : Hold} {j : Fin NBUF} (h : y.Writing j)
    (hnew : j = i → new = .marked ∨ new = .queued) : (y.become i new).Writing j := by
  by_cases hj : j = i
  · subst hj
    obtain ⟨d, b, hold, hy⟩ : ∃ d b hold, y j = some ⟨d, b, hold⟩ := by
      rcases h with ⟨d, b, hy⟩ | ⟨d, b, hy⟩
      · exact ⟨d, b, _, hy⟩
      · exact ⟨d, b, _, hy⟩
    rw [Grips.become_eq hy]
    rcases hnew rfl with rfl | rfl
    · exact Or.inl ⟨d, b, Function.update_self ..⟩
    · exact Or.inr ⟨d, b, Function.update_self ..⟩
  · unfold Grips.Writing Grips.Has Grips.become
    rw [Function.update_of_ne hj]
    exact h

/-- A step that changes the state of a buffer in hand: it is not dirty when the
process stops or starts waiting for it. -/
theorem Logs.become {old new : Hold} (h : Logs strict dev start s g) (hi : (g p).grips.Has i old)
    (htracks : Tracks s' (Function.update (fun q => (g q).grips) p ((g p).grips.become i new)))
    (hsame : s.Same s') (hplain : s'.plain = s.plain)
    (hold : old = .marked ∨ old = .queued → (s.buf i).dirty = true → new = .marked ∨ new = .queued)
    (hnew : new = .marked ∨ new = .queued ∧ (s.buf i).dirty = true →
      old = .marked ∨ old = .queued ∧ (s.buf i).dirty = true) :
    Logs strict dev start s' (Function.update g p ⟨(g p).grips.become i new, (g p).stage⟩) := by
  refine h.stay htracks hsame hplain (h.not_out hi) (fun j hj hdirty => ?_) fun j y hy => ?_
  · refine hj.become fun he => ?_
    subst he
    obtain ⟨d, b, hi⟩ := hi
    refine hold ?_ hdirty
    rcases hj with ⟨d', b', hj⟩ | ⟨d', b', hj⟩
    · rw [hi] at hj
      cases hj
      exact Or.inl rfl
    · rw [hi] at hj
      cases hj
      exact Or.inr rfl
  · obtain ⟨y', hy', hn, hd, hne, heq⟩ := Grips.become_some hi hy
    refine Or.inl ⟨y', hy', hn, hd, fun hhold => ?_⟩
    by_cases hj : j = i
    · subst hj
      rw [(heq rfl).1] at hhold
      rw [(heq rfl).2]
      exact hnew hhold
    · rw [hne hj]
      exact hhold

theorem Grips.not_writing_of_none {y : Grips} (hi : y i = none) : ¬ y.Writing i := by
  rintro (⟨d, b, hy⟩ | ⟨d, b, hy⟩)
  · rw [hi] at hy
    cases hy
  · rw [hi] at hy
    cases hy

theorem Grips.not_writing_of_ready {y : Grips} {c : Bool} (hi : y.Has i (.ready c)) :
    ¬ y.Writing i := by
  obtain ⟨d, b, hi⟩ := hi
  rintro (⟨d', b', hy⟩ | ⟨d', b', hy⟩)
  · rw [hi] at hy
    cases hy
  · rw [hi] at hy
    cases hy

/-- Another buffer comes or goes. -/
theorem Grips.Writing.update {y : Grips} {z : Option Grip} {j : Fin NBUF} (h : y.Writing j)
    (hi : ¬ y.Writing i) : Grips.Writing (Function.update y i z) j := by
  have hj : j ≠ i := by
    rintro rfl
    exact hi h
  unfold Grips.Writing Grips.Has
  rw [Function.update_of_ne hj]
  exact h

theorem run_bget_same {d b : ℕ} {r : Fin NBUF} (hrun : (BufOp.bget d b).run p s = .ok (r, s')) :
    s.Same s' ∧ s'.plain = s.plain ∧ s'.client = s.client := by
  simp only [BufOp.run] at hrun
  split at hrun
  case h_2 => cases hrun
  case h_1 i store hdone =>
    cases hrun
    refine ⟨?_, rfl, rfl⟩
    rcases bget_eq_done hdone with ⟨-, -, rfl⟩ | ⟨-, hvictim, rfl⟩
    · refine Bio.Same.of_update (i := r) rfl rfl rfl (fun j hj => ?_) fun _ => ?_
      · exact Function.update_of_ne hj _ _
      · dsimp only [Bio.buf]
        rw [Store.setBuf_buf_self]
        exact ⟨rfl, rfl, rfl⟩
    · refine Bio.Same.of_update (i := r) rfl rfl rfl (fun j hj => ?_) fun hdirty => ?_
      · exact Function.update_of_ne hj _ _
      · dsimp only [Bio.buf] at hdirty
        rw [Store.setBuf_buf_self, (victim_eq_some hvictim).2] at hdirty
        exact hdirty.elim ((by rintro ⟨⟩)) (by rintro ⟨⟩)

theorem run_brelse_same {r : Unit} (hrun : (BufOp.brelse i).run p s = .ok (r, s')) :
    s.Same s' ∧ s'.plain = s.plain ∧ s'.client = s.client := by
  simp only [BufOp.run] at hrun
  split at hrun
  case h_2 => cases hrun
  case h_1 store hdone =>
    cases hrun
    rw [brelse_eq_done hdone]
    refine ⟨Bio.Same.of_update (i := i) rfl rfl rfl (fun j hj => ?_) fun _ => ?_, rfl, rfl⟩
    · exact Function.update_of_ne hj _ _
    · dsimp only [Bio.buf]
      have : (s.store.setBuf i { s.store.buf i with busy := false }).buf i =
          { s.store.buf i with busy := false } := Store.setBuf_buf_self ..
      rw [this]
      exact ⟨rfl, rfl, rfl⟩

theorem Logs.run_bget {d b : ℕ} {r : Fin NBUF} (h : Logs strict dev start s g)
    (hmay : (duties strict dev start).may (g p) (.bget d b))
    (hrun : (BufOp.bget d b).run p s = .ok (r, s')) :
    ∃ g', (duties strict dev start).after (g p) (.bget d b) r g' ∧
      Logs strict dev start s' (Function.update g p g') := by
  obtain ⟨hd, hdev, hnotout, -⟩ := hmay
  obtain ⟨hnone, htracks⟩ := h.tracks.run_bget hd hrun
  obtain ⟨hsame, hplain, -⟩ := run_bget_same hrun
  refine ⟨⟨Function.update (g p).grips r (some ⟨d, b, .fetched⟩), (g p).stage⟩,
    ⟨⟨hnone, rfl⟩, rfl⟩, h.stay htracks hsame hplain hnotout
      (fun j hj _ => hj.update (Grips.not_writing_of_none hnone)) fun j y hy => ?_⟩
  by_cases hj : j = r
  · subst hj
    rw [Function.update_self] at hy
    cases hy
    exact Or.inr ⟨hdev, rfl⟩
  · rw [Function.update_of_ne hj] at hy
    exact Or.inl ⟨y, hy, rfl, rfl, id⟩

theorem Logs.run_brelse {r : Unit} (h : Logs strict dev start s g)
    (hmay : (duties strict dev start).may (g p) (.brelse i))
    (hrun : (BufOp.brelse i).run p s = .ok (r, s')) :
    ∃ g', (duties strict dev start).after (g p) (.brelse i) r g' ∧
      Logs strict dev start s' (Function.update g p g') := by
  have hi : (g p).grips.Has i (.ready false) := hmay.1
  have htracks := h.tracks.run_brelse hi hrun
  obtain ⟨hsame, hplain, -⟩ := run_brelse_same hrun
  refine ⟨⟨Function.update (g p).grips i none, (g p).stage⟩, ⟨rfl, rfl⟩,
    h.stay htracks hsame hplain (h.not_out hi)
      (fun j hj _ => hj.update (Grips.not_writing_of_ready hi)) fun j y hy => ?_⟩
  by_cases hj : j = i
  · subst hj
    rw [Function.update_self] at hy
    cases hy
  · rw [Function.update_of_ne hj] at hy
    exact Or.inl ⟨y, hy, rfl, rfl, id⟩

/-- A buffer becomes dirty. -/
structure Bio.Soils (s s' : Bio ι) (i : Fin NBUF) : Prop where
  other : ∀ j, j ≠ i → s'.buf j = s.buf j
  self : s'.buf i = { s.buf i with dirty := true }
  plain : s'.plain = s.plain
  client : s'.client = s.client
  inside : s'.inside = s.inside

omit [DecidableEq ι] in
theorem Bio.Soils.isFor {d b : ℕ} {j : Fin NBUF} (h : s.Soils s' i) (hj : (s.buf j).IsFor d b) :
    (s'.buf j).IsFor d b := by
  by_cases hji : j = i
  · subst hji
    rw [h.self]
    exact hj
  · rw [h.other j hji]
    exact hj

omit [DecidableEq ι] in
theorem Bio.Soils.dirty {j : Fin NBUF} (h : s.Soils s' i) (hj : (s.buf j).dirty = true) :
    (s'.buf j).dirty = true := by
  by_cases hji : j = i
  · subst hji
    rw [h.self]
  · rw [h.other j hji]
    exact hj

theorem run_dirty_eq {w : Writer} {r : Unit} (hrun : (BufOp.dirty w i).run p s = .ok (r, s')) :
    s.Soils s' i ∧ s'.store.log = s.store.log ∧
      s'.installed = if w = .home then (s.buf i).blockno :: s.installed else s.installed := by
  simp only [BufOp.run] at hrun
  split at hrun
  · cases hrun
  · cases hrun
    exact ⟨⟨fun j hj => Function.update_of_ne hj _ _, Function.update_self .., rfl, rfl, rfl⟩, rfl, rfl⟩

/-- `bwrite` is called by `commit`. -/
theorem Pins.run_dirty {w : Writer} {lh done done' : List ℕ} {x : ℕ → Block} {c : Bool} {b : ℕ}
    (h : Logs strict dev start s g) (hsoils : s.Soils s' i) (hlog : s'.store.log = s.store.log)
    (hinst : s'.installed = if w = .home then (s.buf i).blockno :: s.installed else s.installed)
    (hi : (g p).grips i = some ⟨dev, b, .ready c⟩) (hstage : (g p).stage = .commit lh done x)
    (htarget : w.Target start lh b) :
    Pins dev start s' (Function.update g p ⟨(g p).grips.become i .marked, .commit lh done' x⟩) := by
  have hcommit : (g p).stage.IsCommit := by rw [hstage]; trivial
  obtain ⟨hfor, hd, -⟩ := h.tracks.grip p i _ hi
  have hcommitting : s.store.log.committing = true := h.admits.committing.mpr ⟨p, hcommit⟩
  have hmono : ∀ a, a ∈ s.installed → a ∈ s'.installed := by
    intro a ha
    rw [hinst]
    split
    · exact List.mem_cons_of_mem _ ha
    · exact ha
  refine ⟨hlog ▸ h.pins.nodup, hlog ▸ h.pins.bound, fun hc => ?_, fun a ha hnot hin => ?_,
    fun j hj => ?_, fun q j y hy hhold => ?_⟩
  · rw [hlog, hcommitting] at hc
    cases hc
  · rw [hlog] at ha hin
    obtain ⟨j, hfor', hdirty⟩ := h.pins.pinned a ha (fun hmem => hnot (hmono a hmem)) hin
    exact ⟨j, hsoils.isFor hfor', hsoils.dirty hdirty⟩
  · by_cases hji : j = i
    · subst hji
      refine Or.inr ⟨p, Or.inl ⟨dev, b, ?_⟩⟩
      rw [Function.update_self]
      dsimp only
      rw [Grips.become_eq hi, Function.update_self]
    · rw [hsoils.other j hji] at hj ⊢
      rcases h.pins.dirty j hj with ⟨hjd, hjlh, hjnot⟩ | ⟨q, hq⟩
      · refine Or.inl ⟨hjd, hlog ▸ hjlh, fun hmem => ?_⟩
        rw [hinst] at hmem
        split at hmem
        · rcases List.mem_cons.mp hmem with he | he
          · exact hji (h.tracks.unique i j dev b hd hfor ⟨hjd, he.trans hfor.2⟩)
          · exact hjnot he
        · exact hjnot hmem
      · refine Or.inr ⟨q, ?_⟩
        by_cases hqp : q = p
        · subst hqp
          rw [Function.update_self]
          exact hq.become fun he => absurd he hji
        · rwa [Function.update_of_ne hqp]
  · rw [hlog]
    by_cases hqp : q = p
    · subst hqp
      rw [Function.update_self] at hy ⊢
      refine ⟨trivial, ?_⟩
      obtain ⟨y', hy', hn, -, hne, -⟩ := Grips.become_some ⟨dev, b, hi⟩ hy
      by_cases hj : j = i
      · subst hj
        rw [hi] at hy'
        cases hy'
        dsimp only at hn
        rw [← hn, (h.known q lh done x hstage).1]
        cases w with
        | client => exact htarget.elim
        | log =>
          obtain ⟨tail, htail, rfl⟩ := htarget
          exact Or.inl ⟨by omega, by omega⟩
        | head =>
          obtain rfl : b = start := htarget
          exact Or.inl ⟨Nat.le_refl _, Nat.le_add_right _ _⟩
        | home =>
          rw [hinst, if_pos rfl, hfor.2]
          exact Or.inr (List.mem_cons_self ..)
      · rw [hsoils.other j hj] at hhold
        obtain rfl := hne hj
        exact (h.pins.writing q j y' hy' hhold).2.imp_right (hmono _)
    · rw [Function.update_of_ne hqp] at hy
      have hji : j ≠ i := fun he => hqp (h.tracks.alone p q i _ y hi (he ▸ hy))
      rw [hsoils.other j hji] at hhold
      exact absurd (h.admits.sole p q hcommit (h.pins.writing q j y hy hhold).1) hqp

theorem Logs.run_dirty {w : Writer} {r : Unit} (h : Logs strict dev start s g)
    (hmay : (duties strict dev start).may (g p) (.dirty w i))
    (hrun : (BufOp.dirty w i).run p s = .ok (r, s')) :
    ∃ g', (duties strict dev start).after (g p) (.dirty w i) r g' ∧
      Logs strict dev start s' (Function.update g p g') := by
  obtain ⟨hgrip, lh, done, x, hstage, htarget⟩ := hmay
  obtain ⟨g₁, hg₁, htracks⟩ := h.tracks.run (o := .dirty w i) hgrip hrun
  obtain rfl : g₁ = (g p).grips.become i .marked := hg₁
  obtain ⟨c, d, b, hi⟩ := hgrip
  obtain rfl : d = dev := h.grip p i _ hi
  obtain ⟨hsoils, hlog, hinst⟩ := run_dirty_eq hrun
  obtain ⟨hlh, hdone, hx⟩ := h.known p lh done x hstage
  obtain ⟨hfor, -, -⟩ := h.tracks.grip p i _ hi
  refine ⟨⟨(g p).grips.become i .marked, .commit lh (if w = .home then b :: done else done) x⟩,
    ⟨rfl, fun lh' done' x' y he hy => ?_⟩, by rw [update_grips]; exact htracks, hlog ▸ h.logDev,
    hlog ▸ h.logStart, ?_, ?_, fun q lh' done' x' hq => ?_, fun q j y hy => ?_⟩
  · rw [hstage] at he
    cases he
    rw [hi] at hy
    cases hy
    rfl
  · refine h.admits.keep hsoils.inside (by rw [hlog]) (by rw [hlog]) ?_ ?_ nofun
    · rw [hstage]
      exact ⟨nofun, nofun⟩
    · rw [hstage]
      exact Iff.rfl
  · exact Pins.run_dirty h hsoils hlog hinst hi hstage (htarget _ hi)
  · by_cases hqp : q = p
    · subst hqp
      rw [Function.update_self] at hq
      cases hq
      refine ⟨hlog ▸ hlh, ?_, hsoils.plain ▸ hx⟩
      rw [hinst, hdone, hfor.2]
    · rw [Function.update_of_ne hqp] at hq
      exact absurd (h.admits.sole p q (by rw [hstage]; trivial) (by rw [hq]; trivial)) hqp
  · by_cases hqp : q = p
    · subst hqp
      rw [Function.update_self] at hy
      obtain ⟨y', hy', -, hyd, -⟩ := Grips.become_some ⟨d, b, hi⟩ hy
      exact hyd ▸ h.grip q j y' hy'
    · rw [Function.update_of_ne hqp] at hy
      exact h.grip q j y hy

theorem run_setData_eq {w : Writer} {f : Block → Block} {r : Unit}
    (hrun : (BufOp.setData w i f).run p s = .ok (r, s')) :
    s.Same s' ∧
      s'.plain = setBlock s.plain (s.buf i).dev (s.buf i).blockno (f (s.buf i).data) ∧
      s'.client = if w = .client then setBlock s.client (s.buf i).dev (s.buf i).blockno
        (f (s.buf i).data) else s.client := by
  simp only [BufOp.run] at hrun
  cases hrun
  refine ⟨Bio.Same.of_update (i := i) rfl rfl rfl (fun j hj => ?_) fun _ => ?_, rfl, rfl⟩
  · exact Function.update_of_ne hj _ _
  · dsimp only [Bio.buf, Bio.setBuf]
    rw [Store.setBuf_buf_self]
    exact ⟨rfl, rfl, rfl⟩

/-- The contents of a buffer are changed, in an operation or by `commit`. -/
theorem Logs.run_setData {w : Writer} {f : Block → Block} {r : Unit} (h : Logs strict dev start s g)
    (hmay : (duties strict dev start).may (g p) (.setData w i f))
    (hrun : (BufOp.setData w i f).run p s = .ok (r, s')) :
    ∃ g', (duties strict dev start).after (g p) (.setData w i f) r g' ∧
      Logs strict dev start s' (Function.update g p g') := by
  obtain ⟨⟨c, hi⟩, -, hnotout, -⟩ := hmay
  have htracks := h.tracks.run_setData hi hrun
  obtain ⟨hsame, hplain, -⟩ := run_setData_eq hrun
  have hready := hi
  obtain ⟨d, b, hi⟩ := hi
  obtain rfl : d = dev := h.grip p i _ hi
  obtain ⟨hfor, hd, hvalid, -, -⟩ := h.tracks.grip p i _ hi
  have hwriting : ∀ j, (g p).grips.Writing j → (s.buf j).dirty = true →
      ((g p).grips.become i (.ready true)).Writing j := fun j hj _ =>
    hj.become fun he => absurd (he ▸ hj) (Grips.not_writing_of_ready hready)
  have hnew : ∀ j y, (g p).grips.become i (.ready true) j = some y →
      (∃ y', (g p).grips j = some y' ∧ y'.blockno = y.blockno ∧ y'.dev = y.dev ∧
        (y.hold = .marked ∨ y.hold = .queued ∧ (s.buf j).dirty = true →
          y'.hold = .marked ∨ y'.hold = .queued ∧ (s.buf j).dirty = true)) ∨
      y.dev = d ∧ y.hold = .fetched := by
    intro j y hy
    obtain ⟨y', hy', hn, hyd, hne, heq⟩ := Grips.become_some hready hy
    refine Or.inl ⟨y', hy', hn, hyd, fun hhold => ?_⟩
    by_cases hj : j = i
    · rw [(heq hj).1] at hhold
      rcases hhold with hm | ⟨hq, -⟩
      · cases hm
      · cases hq
    · rw [hne hj]
      exact hhold
  cases hstage : (g p).stage with
  | out => exact absurd hstage hnotout
  | op =>
    refine ⟨⟨(g p).grips.become i (.ready true), .op⟩, ⟨rfl, fun _ => rfl, fun lh done x y he => ?_⟩,
      h.keep htracks hsame nofun ⟨fun _ => hstage, fun _ => rfl⟩ (by rw [hstage]) nofun ?_ hwriting
        hnew⟩
    · rw [hstage] at he
      cases he
    · intro q _ hq
      exact absurd hstage (h.admits.alone (h.admits.committing.mpr ⟨q, hq⟩) p)
  | commit lh done x =>
    have hcommit : (g p).stage.IsCommit := by rw [hstage]; trivial
    obtain ⟨hlh, hdone, hx⟩ := h.known p lh done x hstage
    refine ⟨⟨(g p).grips.become i (.ready true), .commit lh done (Function.update x b (f (x b)))⟩,
      ⟨rfl, fun he => ?_, fun lh' done' x' y he hy => ?_⟩,
      h.keep htracks hsame nofun (by rw [hstage]; exact ⟨nofun, nofun⟩) (by rw [hstage]; rfl)
        (fun lh' done' x' he => ?_) ?_ hwriting hnew⟩
    · rw [hstage] at he
      cases he
    · rw [hstage] at he
      cases he
      rw [hi] at hy
      cases hy
      rfl
    · cases he
      refine ⟨hlh, hdone, ?_⟩
      rw [hplain, hfor.1, hfor.2, h.tracks.data i d b hd hfor hvalid, ← hx]
      exact Function.update_self ..
    · intro q hqp hq
      exact absurd (h.admits.sole p q hcommit hq) hqp

theorem run_logWrite_eq {r : Unit} (hrun : (BufOp.logWrite i).run p s = .ok (r, s')) :
    s.Soils s' i ∧ s'.store.log = s.store.log.logWrite (s.buf i).blockno ∧
      s'.installed = s.installed ∧
      ((s.buf i).blockno ∈ s.store.log.lh ∨ s.store.log.lh.length < LOGSIZE) := by
  simp only [BufOp.run] at hrun
  split at hrun
  · cases hrun
  · next hroom =>
    cases hrun
    refine ⟨⟨fun j hj => Function.update_of_ne hj _ _, Function.update_self .., rfl, rfl, rfl⟩, rfl, rfl,
      ?_⟩
    by_contra hnot
    exact hroom ⟨fun hmem => hnot (Or.inl hmem), by omega⟩

/-- `log_write` pins a buffer that is for the device of the log. -/
theorem Pins.run_logWrite {b : ℕ} {c : Bool} (h : Logs strict dev start s g) (hsoils : s.Soils s' i)
    (hlog : s'.store.log = s.store.log.logWrite (s.buf i).blockno)
    (hinst : s'.installed = s.installed)
    (hroom : (s.buf i).blockno ∈ s.store.log.lh ∨ s.store.log.lh.length < LOGSIZE)
    (hi : (g p).grips i = some ⟨dev, b, .ready c⟩) (hstage : (g p).stage = .op) :
    Pins dev start s' (Function.update g p ⟨(g p).grips.become i (.ready false), .op⟩) := by
  obtain ⟨hfor, -, -⟩ := h.tracks.grip p i _ hi
  have hnot := h.admits.not_committing hstage
  have hcommitting : s'.store.log.committing = false := by
    rw [hlog, (Log.logWrite_frame _ _).2, hnot]
  have hinst' : s'.installed = [] := hinst.trans (h.pins.fresh hnot)
  have hready : (g p).grips.Has i (.ready c) := ⟨dev, b, hi⟩
  refine ⟨?_, ?_, fun _ => hinst', fun a ha _ _ => ?_, fun j hj => ?_, fun q j y hy hhold => ?_⟩
  · rw [hlog, Log.logWrite]
    split
    · exact h.pins.nodup
    · next hnew =>
      rw [← List.concat_eq_append]
      exact h.pins.nodup.concat hnew
  · rw [hlog, Log.logWrite]
    split
    · exact h.pins.bound
    · next hnew =>
      have := hroom.resolve_left hnew
      rw [List.length_append, List.length_singleton]
      omega
  · rw [hlog, Log.mem_logWrite_lh] at ha
    rcases ha with rfl | ha
    · exact ⟨i, hsoils.isFor ⟨hfor.1, rfl⟩, by rw [hsoils.self]⟩
    · obtain ⟨j, hjfor, hjdirty⟩ := h.pins.pinned a ha (by rw [h.pins.fresh hnot]; exact List.not_mem_nil)
        fun hc => by rw [hnot] at hc; cases hc
      exact ⟨j, hsoils.isFor hjfor, hsoils.dirty hjdirty⟩
  · rw [hinst', hlog, Log.mem_logWrite_lh]
    by_cases hji : j = i
    · subst hji
      rw [hsoils.self]
      exact Or.inl ⟨hfor.1, Or.inl rfl, List.not_mem_nil⟩
    · rw [hsoils.other j hji] at hj ⊢
      rcases h.pins.dirty j hj with ⟨hjd, hjlh, -⟩ | ⟨q, hq⟩
      · exact Or.inl ⟨hjd, Or.inr hjlh, List.not_mem_nil⟩
      · refine Or.inr ⟨q, ?_⟩
        by_cases hqp : q = p
        · subst hqp
          rw [Function.update_self]
          exact hq.become fun he => absurd he hji
        · rwa [Function.update_of_ne hqp]
  · -- nothing is being written outside of a commit
    exfalso
    have hno : ∀ z, (g q).grips j = some z →
        ¬ (z.hold = .marked ∨ z.hold = .queued ∧ (s.buf j).dirty = true) := by
      intro z hz hhold'
      exact h.admits.no_commit hnot q (h.pins.writing q j z hz hhold').1
    by_cases hji : j = i
    · by_cases hqp : q = p
      · subst hqp
        rw [Function.update_self] at hy
        obtain ⟨y', hy', -, -, -, heq⟩ := Grips.become_some hready hy
        rw [(heq hji).1] at hhold
        rcases hhold with hm | ⟨hq, -⟩
        · cases hm
        · cases hq
      · rw [Function.update_of_ne hqp] at hy
        rw [hji] at hy
        exact hqp (h.tracks.alone p q i _ y hi hy)
    · rw [hsoils.other j hji] at hhold
      by_cases hqp : q = p
      · subst hqp
        rw [Function.update_self] at hy
        obtain ⟨y', hy', -, -, hne, -⟩ := Grips.become_some hready hy
        obtain rfl := hne hji
        exact hno y' hy' hhold
      · rw [Function.update_of_ne hqp] at hy
        exact hno y hy hhold

theorem Logs.run_logWrite {r : Unit} (h : Logs strict dev start s g)
    (hmay : (duties strict dev start).may (g p) (.logWrite i))
    (hrun : (BufOp.logWrite i).run p s = .ok (r, s')) :
    ∃ g', (duties strict dev start).after (g p) (.logWrite i) r g' ∧
      Logs strict dev start s' (Function.update g p g') := by
  obtain ⟨hgrip, hstage⟩ := hmay
  have hstage : (g p).stage = .op := hstage
  obtain ⟨g₁, hg₁, htracks⟩ := h.tracks.run (o := .logWrite i) hgrip hrun
  obtain rfl : g₁ = (g p).grips.become i (.ready false) := hg₁
  obtain ⟨c, d, b, hi⟩ := hgrip
  obtain rfl : d = dev := h.grip p i _ hi
  obtain ⟨hsoils, hlog, hinst, hroom⟩ := run_logWrite_eq hrun
  have hframe := Log.logWrite_frame s.store.log (s.buf i).blockno
  refine ⟨⟨(g p).grips.become i (.ready false), .op⟩, ⟨rfl, hstage.symm⟩,
    by rw [update_grips]; exact htracks, ?_, ?_, ?_, ?_, fun q lh done x hq => ?_, fun q j y hy => ?_⟩
  · rw [hlog, Log.logWrite_dev]
    exact h.logDev
  · rw [hlog, Log.logWrite]
    split
    · exact h.logStart
    · exact h.logStart
  · refine h.admits.keep hsoils.inside (by rw [hlog, hframe.1]) (by rw [hlog, hframe.2]) ?_ ?_ nofun
    · exact ⟨fun _ => hstage, fun _ => rfl⟩
    · rw [hstage]
  · exact Pins.run_logWrite h hsoils hlog hinst hroom hi hstage
  · exfalso
    by_cases hqp : q = p
    · subst hqp
      rw [Function.update_self] at hq
      cases hq
    · rw [Function.update_of_ne hqp] at hq
      have hc := h.admits.committing.mpr ⟨q, by rw [hq]; trivial⟩
      exact h.admits.alone hc p hstage
  · by_cases hqp : q = p
    · subst hqp
      rw [Function.update_self] at hy
      obtain ⟨y', hy', -, hyd, -⟩ := Grips.become_some ⟨d, b, hi⟩ hy
      exact hyd ▸ h.grip q j y' hy'
    · rw [Function.update_of_ne hqp] at hy
      exact h.grip q j y hy

omit [DecidableEq ι] in
/-- When a process with nothing in its hands commits, nothing is being written. -/
theorem Logs.not_writing (h : Logs strict dev start s g) (hcommit : (g p).stage.IsCommit)
    (hfree : (g p).grips.Free) {q : ι} {j : Fin NBUF} {y : Grip} (hy : (g q).grips j = some y) :
    ¬ (y.hold = .marked ∨ y.hold = .queued ∧ (s.buf j).dirty = true) := by
  intro hhold
  obtain rfl := h.admits.sole p q hcommit (h.pins.writing q j y hy hhold).1
  rw [hfree j] at hy
  cases hy

omit [DecidableEq ι] in
/-- And nothing is dirty but logged blocks that are not installed. -/
theorem Logs.dirty_of_commit (h : Logs strict dev start s g) (hcommit : (g p).stage.IsCommit)
    (hfree : (g p).grips.Free) {j : Fin NBUF} (hj : (s.buf j).dirty = true) :
    (s.buf j).dev = dev ∧ (s.buf j).blockno ∈ s.store.log.lh ∧ (s.buf j).blockno ∉ s.installed := by
  rcases h.pins.dirty j hj with hlogged | ⟨q, ⟨d, b, hq⟩ | ⟨d, b, hq⟩⟩
  · exact hlogged
  · exact absurd (Or.inl rfl) (h.not_writing hcommit hfree hq)
  · exact absurd (Or.inr ⟨rfl, hj⟩) (h.not_writing hcommit hfree hq)

theorem Logs.run_clear {r : Unit} (h : Logs strict dev start s g)
    (hmay : (duties strict dev start).may (g p) .clear) (hrun : BufOp.clear.run p s = .ok (r, s')) :
    ∃ g', (duties strict dev start).after (g p) .clear r g' ∧
      Logs strict dev start s' (Function.update g p g') := by
  obtain ⟨-, hfree, lh, done, x, hstage, hdone⟩ := hmay
  have hcommit : (g p).stage.IsCommit := by rw [hstage]; trivial
  obtain ⟨hlh, hinst, hx⟩ := h.known p lh done x hstage
  cases hrun
  refine ⟨⟨(g p).grips, .commit [] [] x⟩, ⟨rfl, fun lh' done' x' he => ?_⟩, ?_, h.logDev, h.logStart,
    ?_, ?_, fun q lh' done' x' hq => ?_, fun q j y hy => ?_⟩
  · rw [hstage] at he
    cases he
    rfl
  · simp only [restage_grips]
    exact h.tracks.congr rfl rfl rfl rfl rfl rfl rfl rfl
  · refine h.admits.keep rfl rfl rfl ?_ ?_ nofun
    · rw [hstage]
      exact ⟨nofun, nofun⟩
    · rw [hstage]
      rfl
  · refine ⟨List.nodup_nil, Nat.zero_le _, fun _ => rfl, fun b hb => absurd hb List.not_mem_nil,
      fun j hj => ?_, fun q j y hy hhold => ?_⟩
    · obtain ⟨-, hmem, hnot⟩ := h.dirty_of_commit hcommit hfree hj
      rw [hlh] at hmem
      rw [hinst] at hnot
      exact absurd (hdone _ hmem) hnot
    · rw [restage_grips] at hy
      exact absurd hhold (h.not_writing hcommit hfree hy)
  · by_cases hqp : q = p
    · subst hqp
      rw [Function.update_self] at hq
      cases hq
      exact ⟨rfl, rfl, hx⟩
    · rw [Function.update_of_ne hqp] at hq
      exact absurd (h.admits.sole p q hcommit (by rw [hq]; trivial)) hqp
  · rw [restage_grips] at hy
    exact h.grip q j y hy

/-- A process enters or leaves an operation while nobody commits. -/
theorem Logs.cross {t : Stage} {b : Bool} {n : ℤ} {logged : ι → List ℕ} (h : Logs strict dev start s g)
    (hnot : s.store.log.committing = false) (ht : ¬ t.IsCommit) (hb : b = true ↔ t = .op)
    (hcount : ∃ ps : List ι, ps.Nodup ∧
      (∀ q, q ∈ ps ↔ (Function.update g p ⟨(g p).grips, t⟩ q).stage = .op) ∧ n = ps.length)
    (hfree : strict → t = .out → (g p).grips.Free) :
    Logs strict dev start
      { s.setLog { s.store.log with outstanding := n } with
        inside := Function.update s.inside p b, logged := logged }
      (Function.update g p ⟨(g p).grips, t⟩) := by
  have hnocommit : ∀ q, ¬ (Function.update g p ⟨(g p).grips, t⟩ q).stage.IsCommit := by
    intro q hq
    by_cases hqp : q = p
    · subst hqp
      rw [Function.update_self] at hq
      exact ht hq
    · rw [Function.update_of_ne hqp] at hq
      exact h.admits.no_commit hnot q hq
  refine ⟨?_, h.logDev, h.logStart, ⟨fun q => ?_, hcount,
    ⟨fun hc => ?_, fun ⟨q, hq⟩ => absurd hq (hnocommit q)⟩,
    fun q q' hq => absurd hq (hnocommit q), fun hc => ?_, fun hs q hq => ?_⟩, ?_,
    fun q lh done x hq => absurd (by rw [hq]; trivial) (hnocommit q), fun q j y hy => ?_⟩
  · simp only [restage_grips]
    exact h.tracks.congr rfl rfl rfl rfl rfl rfl rfl rfl
  · by_cases hqp : q = p
    · subst hqp
      simpa using hb
    · rw [Function.update_of_ne hqp]
      dsimp only [Bio.setLog]
      rw [Function.update_of_ne hqp]
      exact h.admits.inside q
  · dsimp only [Bio.setLog] at hc
    rw [hnot] at hc
    cases hc
  · dsimp only [Bio.setLog] at hc
    rw [hnot] at hc
    cases hc
  · by_cases hqp : q = p
    · subst hqp
      rw [Function.update_self] at hq ⊢
      exact hfree hs hq
    · rw [Function.update_of_ne hqp] at hq ⊢
      exact h.admits.out hs q hq
  · exact h.pins.keep (fun hc => absurd hc (h.admits.no_commit hnot p)) rfl rfl rfl (fun _ _ => ⟨rfl, rfl, rfl⟩) (fun _ hj _ => hj)
      fun j y hy hhold => ⟨y, hy, rfl, hhold⟩
  · rw [restage_grips] at hy
    exact h.grip q j y hy

theorem Logs.run_beginOp {r : Unit} (h : Logs strict dev start s g)
    (hmay : (duties strict dev start).may (g p) .beginOp) (hrun : BufOp.beginOp.run p s = .ok (r, s')) :
    ∃ g', (duties strict dev start).after (g p) .beginOp r g' ∧
      Logs strict dev start s' (Function.update g p g') := by
  have hstage : (g p).stage = .out := hmay.2
  simp only [BufOp.run] at hrun
  split at hrun
  · cases hrun
  next l hl =>
  obtain ⟨hnot, rfl⟩ := Log.beginOp_eq_some hl
  cases hrun
  refine ⟨⟨(g p).grips, .op⟩, ⟨rfl, rfl⟩, h.cross hnot id (by simp) ?_ fun _ => (by rintro ⟨⟩)⟩
  obtain ⟨ps, hnodup, hmem, hlen⟩ := h.admits.count
  have hp : p ∉ ps := fun hp => by
    rw [(hmem p).mp hp] at hstage
    cases hstage
  refine ⟨p :: ps, List.nodup_cons.mpr ⟨hp, hnodup⟩, fun q => ?_, ?_⟩
  · rw [List.mem_cons]
    by_cases hqp : q = p
    · subst hqp
      simp
    · rw [Function.update_of_ne hqp, or_iff_right hqp]
      exact hmem q
  · rw [hlen, List.length_cons]
    omega

/-- An operation is over, and it was not the last one. -/
theorem Logs.leave (h : Logs strict dev start s g) (hstage : (g p).stage = .op)
    (hfree : (g p).grips.Free) :
    Logs strict dev start { s.setLog { s.store.log with outstanding := s.store.log.outstanding - 1 } with
        inside := Function.update s.inside p false }
      (Function.update g p ⟨(g p).grips, .out⟩) := by
  refine h.cross (h.admits.not_committing hstage) id (by simp) ?_ fun _ _ => hfree
  obtain ⟨ps, hnodup, hmem, hlen⟩ := h.admits.count
  have hp : p ∈ ps := (hmem p).mpr hstage
  refine ⟨ps.erase p, hnodup.erase p, fun q => ?_, ?_⟩
  · by_cases hqp : q = p
    · subst hqp
      rw [Function.update_self]
      exact ⟨fun hq => absurd hq hnodup.not_mem_erase, nofun⟩
    · rw [Function.update_of_ne hqp, List.mem_erase_of_ne hqp]
      exact hmem q
  · have hpos := List.length_pos_of_mem hp
    rw [hlen, List.length_erase_of_mem hp]
    omega

/-- The last operation is over: a commit starts. -/
theorem Logs.takeOver (h : Logs strict dev start s g) (hstage : (g p).stage = .op)
    (hone : s.store.log.outstanding = 1) :
    Logs strict dev start
      { s.setLog { s.store.log with
          outstanding := s.store.log.outstanding - 1, committing := true } with
        inside := Function.update s.inside p false }
      (Function.update g p ⟨(g p).grips, .commit s.store.log.lh [] (s.plain dev)⟩) := by
  have hnot := h.admits.not_committing hstage
  have hcommit := h.admits.no_commit hnot
  -- nobody else is in an operation
  have hop : ∀ q, q ≠ p → (g q).stage ≠ .op := by
    obtain ⟨ps, hnodup, hmem, hlen⟩ := h.admits.count
    intro q hqp hq
    have hone' : ps.length = 1 := by omega
    obtain ⟨a, rfl⟩ := List.length_eq_one_iff.mp hone'
    have hqa := List.mem_singleton.mp ((hmem q).mpr hq)
    have hpa := List.mem_singleton.mp ((hmem p).mpr hstage)
    exact hqp (hqa.trans hpa.symm)
  have hop' : ∀ q, (Function.update g p ⟨(g p).grips, .commit s.store.log.lh [] (s.plain dev)⟩ q).stage
      ≠ .op := by
    intro q
    by_cases hqp : q = p
    · subst hqp
      rw [Function.update_self]
      exact nofun
    · rw [Function.update_of_ne hqp]
      exact hop q hqp
  refine ⟨?_, h.logDev, h.logStart, ⟨fun q => ?_, ?_, ?_, fun q q' hq hq' => ?_, fun _ => hop',
    fun hs q hq => ?_⟩, ⟨h.pins.nodup, h.pins.bound, nofun, fun b hb hin _ => ?_, fun j hj => ?_,
      fun q j y hy hhold => ?_⟩, fun q lh done x hq => ?_, fun q j y hy => ?_⟩
  · simp only [restage_grips]
    exact h.tracks.congr rfl rfl rfl rfl rfl rfl rfl rfl
  · by_cases hqp : q = p
    · subst hqp
      simp
    · rw [Function.update_of_ne hqp]
      dsimp only [Bio.setLog]
      rw [Function.update_of_ne hqp]
      exact h.admits.inside q
  · refine ⟨[], List.nodup_nil, fun q => ⟨fun hq => absurd hq List.not_mem_nil,
      fun hq => absurd hq (hop' q)⟩, ?_⟩
    dsimp only [Bio.setLog]
    rw [hone]
    rfl
  · exact ⟨fun _ => ⟨p, by rw [Function.update_self]; trivial⟩, fun _ => rfl⟩
  · have honly : ∀ q, (Function.update g p
        ⟨(g p).grips, .commit s.store.log.lh [] (s.plain dev)⟩ q).stage.IsCommit → q = p := by
      intro q hq
      by_contra hqp
      rw [Function.update_of_ne hqp] at hq
      exact hcommit q hq
    rw [honly q hq, honly q' hq']
  · by_cases hqp : q = p
    · subst hqp
      rw [Function.update_self] at hq
      cases hq
    · rw [Function.update_of_ne hqp] at hq ⊢
      exact h.admits.out hs q hq
  · exact h.pins.pinned b hb hin fun hc => by rw [hnot] at hc; cases hc
  · refine (h.pins.dirty j hj).imp id fun ⟨q, hq⟩ => ⟨q, ?_⟩
    rw [restage_grips]
    exact hq
  · rw [restage_grips] at hy
    exact absurd (h.pins.writing q j y hy hhold).1 (hcommit q)
  · by_cases hqp : q = p
    · subst hqp
      rw [Function.update_self] at hq
      cases hq
      exact ⟨rfl, h.pins.fresh hnot, rfl⟩
    · rw [Function.update_of_ne hqp] at hq
      exact absurd (by rw [hq]; trivial) (hcommit q)
  · rw [restage_grips] at hy
    exact h.grip q j y hy

theorem Logs.run_endOp {r : Bool} (h : Logs strict dev start s g)
    (hmay : (duties strict dev start).may (g p) .endOp) (hrun : BufOp.endOp.run p s = .ok (r, s')) :
    ∃ g', (duties strict dev start).after (g p) .endOp r g' ∧
      Logs strict dev start s' (Function.update g p g') := by
  obtain ⟨-, hstage, hfree⟩ := hmay
  simp only [BufOp.run] at hrun
  split at hrun
  · cases hrun
  · next l hl =>
    obtain ⟨hone, rfl⟩ := Log.endOp_eq_commit hl
    cases hrun
    exact ⟨⟨(g p).grips, .commit s.store.log.lh [] (s.plain dev)⟩,
      ⟨rfl, fun _ => ⟨_, _, h.pins.bound, rfl⟩, (by rintro ⟨⟩)⟩, h.takeOver hstage hone⟩
  · next l hl =>
    obtain ⟨-, rfl⟩ := Log.endOp_eq_wakeup hl
    cases hrun
    exact ⟨⟨(g p).grips, .out⟩, ⟨rfl, (by rintro ⟨⟩), fun _ => rfl⟩, h.leave hstage hfree⟩

theorem Logs.run_finish {r : Unit} (h : Logs strict dev start s g)
    (hmay : (duties strict dev start).may (g p) .finish) (hrun : BufOp.finish.run p s = .ok (r, s')) :
    ∃ g', (duties strict dev start).after (g p) .finish r g' ∧
      Logs strict dev start s' (Function.update g p g') := by
  obtain ⟨-, hfree, x, hstage⟩ := hmay
  have hcommit : (g p).stage.IsCommit := by rw [hstage]; trivial
  have hcommitting := h.admits.committing.mpr ⟨p, hcommit⟩
  obtain ⟨hlh, hinst, -⟩ := h.known p [] [] x hstage
  cases hrun
  have hnocommit : ∀ q, ¬ (Function.update g p ⟨(g p).grips, .out⟩ q).stage.IsCommit := by
    intro q hq
    by_cases hqp : q = p
    · subst hqp
      rw [Function.update_self] at hq
      exact hq
    · rw [Function.update_of_ne hqp] at hq
      exact hqp (h.admits.sole p q hcommit hq)
  have hop : ∀ q, (Function.update g p ⟨(g p).grips, .out⟩ q).stage = .op ↔ (g q).stage = .op := by
    intro q
    by_cases hqp : q = p
    · subst hqp
      rw [Function.update_self, hstage]
      exact ⟨nofun, nofun⟩
    · rw [Function.update_of_ne hqp]
  refine ⟨⟨(g p).grips, .out⟩, ⟨rfl, rfl⟩, ?_, h.logDev, h.logStart, ⟨fun q => ?_, ?_,
    ⟨nofun, fun ⟨q, hq⟩ => absurd hq (hnocommit q)⟩, fun q q' hq => absurd hq (hnocommit q), nofun,
    fun hs q hq => ?_⟩, ⟨h.pins.nodup, h.pins.bound, fun _ => hinst, fun b hb => ?_, fun j hj => ?_,
      fun q j y hy hhold => ?_⟩,
    fun q lh done x hq => absurd (by rw [hq]; trivial) (hnocommit q), fun q j y hy => ?_⟩
  · simp only [restage_grips]
    exact h.tracks.congr rfl rfl rfl rfl rfl rfl rfl rfl
  · rw [hop]
    exact h.admits.inside q
  · obtain ⟨ps, hnodup, hmem, hlen⟩ := h.admits.count
    exact ⟨ps, hnodup, fun q => (hmem q).trans (hop q).symm, hlen⟩
  · rw [restage_grips]
    by_cases hqp : q = p
    · subst hqp
      exact hfree
    · exact h.admits.others hs hcommit hqp
  · dsimp only [Bio.setLog] at hb
    rw [hlh] at hb
    cases hb
  · exact Or.inl (h.dirty_of_commit hcommit hfree hj)
  · rw [restage_grips] at hy
    exact absurd hhold (h.not_writing hcommit hfree hy)
  · rw [restage_grips] at hy
    exact h.grip q j y hy

/-- A step in which a process only learns something about a buffer, or waits for it. -/
theorem Logs.learn {old new : Hold} {queue : List (Fin NBUF)} (h : Logs strict dev start s g)
    (hi : (g p).grips.Has i old)
    (htracks : Tracks { s with queue := queue }
      (Function.update (fun q => (g q).grips) p ((g p).grips.become i new)))
    (hold : old = .marked ∨ old = .queued → (s.buf i).dirty = true → new = .marked ∨ new = .queued)
    (hnew : new = .marked ∨ new = .queued ∧ (s.buf i).dirty = true →
      old = .marked ∨ old = .queued ∧ (s.buf i).dirty = true) :
    Logs strict dev start { s with queue := queue }
      (Function.update g p ⟨(g p).grips.become i new, (g p).stage⟩) :=
  h.become hi htracks ⟨rfl, rfl, rfl, fun _ _ => ⟨rfl, rfl, rfl⟩⟩ rfl hold hnew

/-- Every step. -/
theorem Logs.run {o : BufOp} {r : o.Ret} (h : Logs strict dev start s g)
    (hmay : (duties strict dev start).may (g p) o) (hrun : o.run p s = .ok (r, s')) :
    ∃ g', (duties strict dev start).after (g p) o r g' ∧ Logs strict dev start s' (Function.update g p g') := by
  have hkeep : Function.update g p (g p) = g := Function.update_eq_self ..
  cases o with
  | bget d b => exact h.run_bget hmay hrun
  | valid i =>
    obtain ⟨hgrip, -⟩ := hmay
    obtain ⟨g₁, hg₁, htracks⟩ := h.tracks.run (o := .valid i) hgrip hrun
    simp only [BufOp.run] at hrun
    cases hrun
    obtain rfl : g₁ = (g p).grips.become i (Hold.ofValid (s.buf i).valid) := hg₁
    refine ⟨⟨_, (g p).stage⟩, ⟨rfl, rfl⟩, h.learn hgrip htracks ?_ ?_⟩
    · rintro (he | he) <;> cases he
    · cases (s.buf i).valid
      · rintro (he | ⟨he, -⟩) <;> cases he
      · rintro (he | ⟨he, -⟩) <;> cases he
  | iderw i =>
    obtain ⟨hgrip, -⟩ := hmay
    obtain ⟨g₁, hg₁, htracks⟩ := h.tracks.run (o := .iderw i) hgrip hrun
    obtain rfl : g₁ = (g p).grips.become i .queued := hg₁
    simp only [BufOp.run] at hrun
    split at hrun
    · cases hrun
    split at hrun
    · cases hrun
    split at hrun
    · cases hrun
    cases hrun
    refine ⟨⟨(g p).grips.become i .queued, (g p).stage⟩, ⟨rfl, rfl⟩, ?_⟩
    rcases hgrip with hi | hi
    · refine h.learn hi htracks (fun _ _ => Or.inr rfl) ?_
      rintro (he | ⟨-, hdirty⟩)
      · cases he
      · -- the buffer was just recycled
        obtain ⟨d, b, hi⟩ := hi
        obtain ⟨-, -, -, hclean, -⟩ := h.tracks.grip p i _ hi
        rw [hclean] at hdirty
        cases hdirty
    · exact h.learn hi htracks (fun _ _ => Or.inr rfl) fun _ => Or.inl rfl
  | wait i =>
    obtain ⟨hgrip, -⟩ := hmay
    obtain ⟨g₁, hg₁, htracks⟩ := h.tracks.run (o := .wait i) hgrip hrun
    obtain rfl : g₁ = (g p).grips.become i (.ready false) := hg₁
    simp only [BufOp.run] at hrun
    split at hrun
    · next hdone =>
      cases hrun
      rw [Bool.and_eq_true, Bool.not_eq_true'] at hdone
      refine ⟨⟨(g p).grips.become i (.ready false), (g p).stage⟩, ⟨rfl, rfl⟩,
        h.learn hgrip htracks (fun _ hdirty => ?_) ?_⟩
      · rw [hdone.2] at hdirty
        cases hdirty
      · rintro (he | ⟨he, -⟩) <;> cases he
    · cases hrun
  | dirty w i => exact h.run_dirty hmay hrun
  | data i =>
    obtain ⟨⟨c, d, b, hi⟩, -⟩ := hmay
    cases hrun
    refine ⟨g p, ⟨rfl, rfl, fun lh done x y hstage hy => ?_⟩, hkeep.symm ▸ h⟩
    rw [hi] at hy
    cases hy
    obtain ⟨hfor, hd, hvalid, -⟩ := h.tracks.grip p i _ hi
    obtain rfl : d = dev := h.grip p i _ hi
    rw [← (h.known p lh done x hstage).2.2]
    exact h.tracks.data i d b hd hfor hvalid
  | setData w i f => exact h.run_setData hmay hrun
  | brelse i => exact h.run_brelse hmay hrun
  | logWrite i => exact h.run_logWrite hmay hrun
  | log =>
    cases hrun
    exact ⟨g p, ⟨⟨h.tracks.log, rfl⟩, rfl, h.logDev, h.logStart,
      fun lh done x hstage => (h.known p lh done x hstage).1⟩, hkeep.symm ▸ h⟩
  | clear => exact h.run_clear hmay hrun
  | beginOp => exact h.run_beginOp hmay hrun
  | endOp => exact h.run_endOp hmay hrun
  | finish => exact h.run_finish hmay hrun

/-- A transfer ends; what was written is in the log, or installed. -/
theorem Logs.ideintr (h : Logs strict dev start s g) (hrun : s.ideintr = .ok s') : Logs strict dev start s' g := by
  have htracks := h.tracks.ideintr hrun
  rcases Bio.ideintr_eq_ok hrun with rfl | ⟨i, rest, hq, rfl⟩
  · exact h
  have hother : ∀ j, j ≠ i → (s.store.transfer i).buf j = s.buf j := fun j hj => by
    rw [Store.transfer_buf, if_neg hj]
  have hclean : ((s.store.transfer i).buf i).dirty = false := by
    rw [Store.transfer_buf, if_pos rfl]
  obtain ⟨q₀, d, b, hi⟩ := h.tracks.of_mem_queue (i := i) (hq ▸ List.mem_cons_self ..)
  obtain ⟨hfor, -, -⟩ := h.tracks.grip q₀ i _ hi
  refine ⟨htracks, ?_, ?_, ⟨h.admits.inside, ?_, ?_, h.admits.sole, ?_, h.admits.out⟩,
    ⟨?_, ?_, ?_, fun a ha hnot hin => ?_, fun j hj => ?_, fun q j y hy hhold => ?_⟩, ?_, h.grip⟩
  all_goals dsimp only [Bio.buf]
  all_goals try rw [Store.transfer_log]
  · exact h.logDev
  · exact h.logStart
  · exact h.admits.count
  · exact h.admits.committing
  · exact h.admits.alone
  · exact h.pins.nodup
  · exact h.pins.bound
  · exact h.pins.fresh
  · dsimp only at ha hin
    rw [Store.transfer_log] at ha hin
    obtain ⟨j, hjfor, hjdirty⟩ := h.pins.pinned a ha hnot hin
    have hji : j ≠ i := by
      rintro rfl
      obtain ⟨hc, hlog | hinst⟩ := h.pins.writing q₀ j _ hi (Or.inr ⟨rfl, hjdirty⟩)
      · exact hin (h.admits.committing.mpr ⟨q₀, hc⟩) (by rwa [← hjfor.2, hfor.2])
      · exact hnot (by rwa [← hjfor.2, hfor.2])
    exact ⟨j, by rwa [hother j hji], by rwa [hother j hji]⟩
  · dsimp only [Bio.buf] at hj
    have hji : j ≠ i := by
      rintro rfl
      rw [hclean] at hj
      cases hj
    rw [hother j hji] at hj ⊢
    exact h.pins.dirty j hj
  · dsimp only [Bio.buf] at hhold
    refine h.pins.writing q j y hy ?_
    by_cases hji : j = i
    · subst hji
      rw [hclean] at hhold
      exact hhold.imp_right fun hd => absurd hd.2 (by decide)
    · rwa [hother j hji] at hhold
  · exact h.known

end Steps

/-! ## Runs -/

namespace Users

variable {ι : Type} [DecidableEq ι] {strict : Prop} {dev start : ℕ} {s s' : Users ι}

/-- Buffers are for blocks of the device of the log. They are changed, and given to
`log_write`, inside of operations; they are not given to `bwrite`, and are released
before `end_op`. -/
def Operating (s : Users ι) : UserAction ι → Prop
  | .call _ (.bread d _) => d = s.bio.store.log.dev
  | .call p (.change _ _) => s.bio.inside p = true
  | .call _ (.bwrite _) => False
  | .call p (.logWrite _) => s.bio.inside p = true
  | .call p .endOp => ∀ i, s.bio.holds p i = false
  | _ => True

/-- Blocks are read inside of operations only. -/
def Confined (s : Users ι) : UserAction ι → Prop
  | .call p (.bread _ _) => s.bio.inside p = true
  | _ => True

/-- In every state of such a run. -/
def Operates (strict : Prop) (dev start : ℕ) (s : Users ι) : Prop :=
  Going (duties strict dev start) (Settled strict) (Logs strict dev start) s.bio s.code

omit [DecidableEq ι] in
/-- What processes in operations ask for. -/
theorem duties_call {g : ι → Duty} {p : ι} {c : BufCall} {r : Option Fetched}
    (h : Logs strict dev start s.bio g) (hsettled : Settled strict r (g p))
    (hproper : c.Proper s.bio p) (hop : s.Operating (.call p c))
    (hconf : strict → s.Confined (.call p c)) :
    Ends (duties strict dev start) (Settled strict) (g p) c.code := by
  obtain ⟨⟨hrest, -⟩, hstage⟩ := hsettled
  have hdev : dev < 2 := h.logDev ▸ h.tracks.log
  have hinside := (h.admits.inside p).mp
  cases c with
  | bread d b =>
    have hdd : (d : ℕ) = dev := Eq.trans hop h.logDev
    have hnotout : strict → (g p).stage ≠ .out := fun hs hout => by
      rw [hinside (hconf hs)] at hout
      cases hout
    have hmay : (g p).May strict dev start (.bget dev b) := by
      refine ⟨rfl, hnotout, fun lh done x he => ?_⟩
      rw [he] at hstage
      rcases hstage with ⟨hout, -⟩ | hin
      · cases hout
      · cases hin
    simp only [BufCall.code]
    rw [hdd]
    refine (duties_bread hdev hmay).bind fun i g₁ ⟨_, hg₁⟩ => ?_
    rw [hg₁]
    refine ⟨⟨hrest.update fun x hx => ?_, fun x hx => ?_⟩,
      hstage.imp_left fun hout => ⟨hout.1, fun hs => absurd hout.1 (hnotout hs)⟩⟩
    · cases hx
      exact ⟨false, rfl⟩
    · cases hx
      exact Function.update_self ..
  | change i f =>
    have hin := hinside hop
    obtain ⟨d, b, hi⟩ := h.tracks.has_ready hrest hproper
    refine ⟨⟨⟨_, d, b, hi⟩, fun _ => rfl, by rw [hin]; exact nofun, fun lh done x he => ?_⟩,
      fun _ g₁ ⟨hg₁, hs₁, _⟩ => ?_⟩
    · rw [hin] at he
      cases he
    have hg₁ : g₁.grips = Function.update (g p).grips i (some ⟨d, b, .ready true⟩) :=
      Eq.trans hg₁ (Grips.become_eq hi)
    refine ⟨?_, Or.inr (hs₁ hin)⟩
    rw [hg₁]
    refine (hrest.update fun x hx => ?_).returned
    cases hx
    exact ⟨true, rfl⟩
  | bwrite i => exact hop.elim
  | logWrite i =>
    have hin := hinside hop
    obtain ⟨d, b, hi⟩ := h.tracks.has_ready hrest hproper
    refine ⟨⟨⟨_, d, b, hi⟩, hin⟩, fun _ g₁ ⟨hg₁, hs₁⟩ => ?_⟩
    have hg₁ : g₁.grips = Function.update (g p).grips i (some ⟨d, b, .ready false⟩) :=
      Eq.trans hg₁ (Grips.become_eq hi)
    refine ⟨?_, Or.inr (hs₁.trans hin)⟩
    rw [hg₁]
    refine (hrest.update fun x hx => ?_).returned
    cases hx
    exact ⟨false, rfl⟩
  | brelse i =>
    have hi := h.tracks.has_ready hrest hproper.1
    rw [hproper.2] at hi
    refine ⟨⟨hi, trivial⟩, fun _ g₁ ⟨hg₁, hs₁⟩ => ?_⟩
    have hg₁ : g₁.grips = Function.update (g p).grips i none := hg₁
    have hs₁ : g₁.stage = (g p).stage := hs₁
    refine ⟨?_, ?_⟩
    · rw [hg₁]
      exact (hrest.update fun x hx => by cases hx).returned
    · rw [hs₁]
      exact hstage.imp_left fun hout => ⟨hout.1, fun hs => absurd hout.1 (h.not_out hi hs)⟩
  | beginOp =>
    have hout : (g p).stage = .out := by
      rcases hstage with hout | hin
      · exact hout.1
      · have : s.bio.inside p = false := hproper
        rw [(h.admits.inside p).mpr hin] at this
        cases this
    refine ⟨⟨trivial, hout⟩, fun _ g₁ ⟨hg₁, hs₁⟩ => ?_⟩
    have hg₁ : g₁.grips = (g p).grips := hg₁
    refine ⟨?_, Or.inr hs₁⟩
    rw [hg₁]
    exact hrest.returned
  | endOp =>
    have hfree : (g p).grips.Free := by
      intro i
      cases hi : (g p).grips i with
      | none => rfl
      | some x =>
        have hfalse := hop i
        rw [(h.tracks.holds p i).mpr ⟨x, hi⟩] at hfalse
        cases hfalse
    refine (duties_endOp hdev (hinside hproper) hfree).bind fun _ g₁ hg₁ => ?_
    rw [hg₁]
    exact ⟨Grips.Rest.returned fun i x hx => (nomatch hx), Or.inl ⟨rfl, fun _ _ => rfl⟩⟩

theorem Operates.step {a : UserAction ι} (h : s.Operates strict dev start) (hop : s.Operating a)
    (hconf : strict → s.Confined a) (hstep : s.step a = some s') : s'.Operates strict dev start := by
  cases a with
  | call p c =>
    obtain ⟨⟨r, hr⟩, hproper, rfl⟩ := step_call hstep
    exact Going.start h hr fun g hlogs hsettled => duties_call hlogs hsettled hproper hop hconf
  | step p =>
    obtain ⟨o, k, r, bio, hcode, hrun, rfl⟩ := step_step hstep
    exact Going.answer h hcode fun g hlogs hmay => hlogs.run hmay hrun
  | intr =>
    obtain ⟨bio, hbio, rfl⟩ := step_intr hstep
    exact Going.outside h fun g hlogs => hlogs.ideintr hbio

omit [DecidableEq ι] in
theorem operates_start {store : Store} (h : store.Quiet) :
    (Users.start store : Users ι).Operates strict store.log.dev store.log.start := by
  refine ⟨fun _ => ⟨noGrips, .out⟩, ⟨tracks_start h, rfl, rfl, ⟨fun p => ?_, ⟨[], List.nodup_nil,
    fun p => ?_, ?_⟩, ?_, fun p q hp => hp.elim, fun hc => ?_, fun _ p _ _ => rfl⟩,
    ⟨?_, ?_, fun _ => rfl, fun b hb => ?_, fun i hi => ?_, fun p i y hy => (nomatch hy)⟩,
    fun p lh done x hx => (nomatch hx), fun p i y hy => (nomatch hy)⟩,
    fun p => ⟨Grips.Rest.returned fun i x hx => (nomatch hx), Or.inl ⟨rfl, fun _ _ => rfl⟩⟩⟩
  all_goals dsimp only [Users.start, Bio.start, Bio.buf] at *
  · exact ⟨nofun, nofun⟩
  · exact ⟨nofun, nofun⟩
  · exact h.outstanding
  · rw [h.committing]
    exact ⟨nofun, fun ⟨p, hp⟩ => hp.elim⟩
  · rw [h.committing] at hc
    cases hc
  · rw [h.lh]
    exact List.nodup_nil
  · rw [h.lh]
    exact Nat.zero_le _
  · rw [h.lh] at hb
    cases hb
  · rw [h.clean i] at hi
    cases hi

end Users

end StrideXv6
