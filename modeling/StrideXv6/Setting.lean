import StrideXv6.Bracket
import Mathlib.Logic.Function.Basic

/-!
# Programs in a setting

What a program knows while it runs, as far as it can be told from the operations
it asked for and the answers it got. A `Setting` says what may be asked for and
how things stand after an answer; `Ends W Q g c` says that the program `c`,
started where things stand as in `g`, asks only for what it may, whatever it is
answered, and ends in `Q`.

How things stand can be a record kept for the purpose, such as what the program
is responsible for, or the state it works on, or both. Several programs that run
side by side each have a record of their own; `Kept` is the invariant of such a
pool: the records agree with the state, and each program ends from where it is.
-/

namespace Bracket

variable {S : Sig} {γ α β : Type}

/-- What may be asked for, and how things stand after the answer. -/
structure Setting (S : Sig) (γ : Type) : Type where
  may : γ → S.Op → Prop
  after : γ → (o : S.Op) → S.Ret o → γ → Prop

/-- The setting of programs with brackets, which change nothing. -/
def Setting.bracket (W : Setting S γ) : Setting S.bracket γ where
  may g
    | .op o => W.may g o
    | _ => True
  after g
    | .enter, _, g' => g' = g
    | .leave, _, g' => g' = g
    | .op o, r, g' => W.after g o r g'

/-- The program asks for what it may, and ends in `Q`. -/
def Ends (W : Setting S γ) (Q : α → γ → Prop) : γ → Code S α → Prop
  | g, .pure a => Q a g
  | g, .op o k => W.may g o ∧ ∀ r g', W.after g o r g' → Ends W Q g' (k r)

/-- The program asks only for what may always be asked for and leaves things as
they are. -/
def Idle (W : Setting S γ) : Code S α → Prop
  | .pure _ => True
  | .op o k => (∀ g, W.may g o ∧ ∀ r g', W.after g o r g' → g' = g) ∧ ∀ r, Idle W (k r)

variable {W : Setting S γ} {g : γ}

namespace Ends

variable {Q : β → γ → Prop} {R : α → γ → Prop}

theorem mono {R' : α → γ → Prop} {c : Code S α} (hc : Ends W R g c)
    (hR : ∀ a g', R a g' → R' a g') : Ends W R' g c := by
  induction c generalizing g with
  | pure a => exact hR a g hc
  | op o k ih => exact ⟨hc.1, fun r g' hg' => ih r (hc.2 r g' hg')⟩

/-- Sequencing. -/
theorem bind {c : Code S α} {f : α → Code S β} (hc : Ends W R g c)
    (hf : ∀ a g', R a g' → Ends W Q g' (f a)) : Ends W Q g (c >>= f) := by
  induction c generalizing g with
  | pure a => exact hf a g hc
  | op o k ih => exact ⟨hc.1, fun r g' hg' => ih r (hc.2 r g' hg')⟩

/-- Code without brackets in a program. -/
theorem lift {c : Code S α} (hc : Ends W R g c) : Ends W.bracket R g c.lift := by
  induction c generalizing g with
  | pure a => exact hc
  | op o k ih => exact ⟨hc.1, fun r g' hg' => ih r (hc.2 r g' hg')⟩

/-- A loop; the invariant knows what is left to do. -/
theorem forEach {J : List α → γ → Prop} {f : α → Code S Unit} {bs : List α}
    (hf : ∀ b bs g, J (b :: bs) g → Ends W (fun _ => J bs) g (f b)) (hJ : J bs g) :
    Ends W (fun _ => J []) g (Code.forEach bs f) := by
  induction bs generalizing g with
  | nil => exact hJ
  | cons b bs ih => exact (hf b bs g hJ).bind fun _ g' hg' => ih hg'

/-- A search, with an invariant as long as nothing is found. -/
theorem firstSome {J : List β → γ → Prop} {f : β → Code S (Option α)} {bs : List β}
    (hf : ∀ b bs g, J (b :: bs) g →
      Ends W (fun r g' => (r = none → J bs g') ∧ ∀ a, r = some a → R a g') g (f b))
    (hJ : J bs g) :
    Ends W (fun r g' => (r = none → J [] g') ∧ ∀ a, r = some a → R a g') g
      (Code.firstSome bs f) := by
  induction bs generalizing g with
  | nil => exact ⟨fun _ => hJ, fun _ h => nomatch h⟩
  | cons b bs ih =>
    refine (hf b bs g hJ).bind fun r g' hg' => ?_
    cases r with
    | none => exact ih (hg'.1 rfl)
    | some a => exact ⟨fun h => (nomatch h), hg'.2⟩

end Ends

namespace Idle

theorem bind {c : Code S α} {f : α → Code S β} (hc : Idle W c) (hf : ∀ a, Idle W (f a)) :
    Idle W (c >>= f) := by
  induction c with
  | pure a => exact hf a
  | op o k ih => exact ⟨hc.1, fun r => ih r (hc.2 r)⟩

theorem forEach {bs : List α} {f : α → Code S Unit} (hf : ∀ b, Idle W (f b)) :
    Idle W (Code.forEach bs f) := by
  induction bs with
  | nil => trivial
  | cons b bs ih => exact (hf b).bind fun _ => ih

theorem mapEach {bs : List α} {f : α → Code S β} (hf : ∀ b, Idle W (f b)) :
    Idle W (Code.mapEach bs f) := by
  induction bs with
  | nil => trivial
  | cons b bs ih => exact (hf b).bind fun _ => ih.bind fun _ => trivial

theorem firstSome {bs : List α} {f : α → Code S (Option β)} (hf : ∀ b, Idle W (f b)) :
    Idle W (Code.firstSome bs f) := by
  induction bs with
  | nil => trivial
  | cons b bs ih =>
    refine (hf b).bind fun r => ?_
    cases r with
    | none => exact ih
    | some a => trivial

/-- Things stand as before. -/
theorem ends {c : Code S α} (hc : Idle W c) : Ends W (fun _ g' => g' = g) g c := by
  induction c with
  | pure a => rfl
  | op o k ih =>
    refine ⟨(hc.1 g).1, fun r g' hg' => ?_⟩
    rw [(hc.1 g).2 r g' hg']
    exact ih r (hc.2 r)

theorem seq {c : Code S α} {f : α → Code S β} {Q : β → γ → Prop} (hc : Idle W c)
    (hf : ∀ a, Ends W Q g (f a)) : Ends W Q g (c >>= f) :=
  hc.ends.bind fun a g' hg' => by rw [hg']; exact hf a

end Idle

/-! ## Pools of programs -/

section Pool

variable {σ ι : Type} [DecidableEq ι]

/-- A program that is over has the record `idle`; one that is not ends, and has a
record that says so. -/
def Resumes (W : Setting S γ) (Q : α → γ → Prop) (idle : γ) (busy : γ → Prop) (g : γ) :
    Code S α → Prop
  | .pure _ => g = idle
  | .op o k => busy g ∧ Ends W Q g (.op o k)

/-- The records agree with the state, and every program ends. -/
def Kept (W : Setting S γ) (Q : α → γ → Prop) (idle : γ) (busy : γ → Prop)
    (I : σ → (ι → γ) → Prop) (s : σ) (code : ι → Code S α) : Prop :=
  ∃ g, I s g ∧ ∀ p, Resumes W Q idle busy (g p) (code p)

variable {Q : α → γ → Prop} {idle : γ} {busy : γ → Prop} {I : σ → (ι → γ) → Prop} {s s' : σ}
  {code : ι → Code S α} {p : ι}

/-- A program goes on with `c` and the record `g'`; one that is over gives its record up. -/
theorem Kept.goOn {g : ι → γ} {g' : γ} {c : Code S α}
    (hcode : ∀ q, q ≠ p → Resumes W Q idle busy (g q) (code q))
    (hI : I s (Function.update g p g')) (hbusy : busy g') (hc : Ends W Q g' c)
    (hrest : ∀ g a, I s g → Q a (g p) → I s (Function.update g p idle)) :
    Kept W Q idle busy I s (Function.update code p c) := by
  cases c with
  | pure a =>
    refine ⟨Function.update g p idle, ?_, fun q => ?_⟩
    · have hq : Q a (Function.update g p g' p) := by rwa [Function.update_self]
      have := hrest _ a hI hq
      rwa [Function.update_idem] at this
    · by_cases hq : q = p
      · subst hq
        simp [Resumes]
      · rw [Function.update_of_ne hq, Function.update_of_ne hq]
        exact hcode q hq
  | op o k =>
    refine ⟨Function.update g p g', hI, fun q => ?_⟩
    by_cases hq : q = p
    · subst hq
      rw [Function.update_self, Function.update_self]
      exact ⟨hbusy, hc⟩
    · rw [Function.update_of_ne hq, Function.update_of_ne hq]
      exact hcode q hq

/-- An operation is answered. -/
theorem Kept.answer {o : S.Op} {k : S.Ret o → Code S α} {r : S.Ret o}
    (h : Kept W Q idle busy I s code) (hcode : code p = .op o k)
    (hrun : ∀ g, I s g → busy (g p) → W.may (g p) o →
      ∃ g', W.after (g p) o r g' ∧ busy g' ∧ I s' (Function.update g p g'))
    (hrest : ∀ g a, I s' g → Q a (g p) → I s' (Function.update g p idle)) :
    Kept W Q idle busy I s' (Function.update code p (k r)) := by
  obtain ⟨g, hI, hres⟩ := h
  have hp := hres p
  rw [hcode] at hp
  obtain ⟨hbusy, hmay, hk⟩ : busy (g p) ∧ Ends W Q (g p) (.op o k) := hp
  obtain ⟨g', hafter, hbusy', hI'⟩ := hrun g hI hbusy hmay
  exact Kept.goOn (fun q _ => hres q) hI' hbusy' (hk r g' hafter) hrest

/-- A new program is started. -/
theorem Kept.start {c : Code S α} {a : α} (h : Kept W Q idle busy I s code)
    (hcode : code p = .pure a)
    (hstart : ∀ g, I s g → g p = idle →
      ∃ g', busy g' ∧ I s (Function.update g p g') ∧ Ends W Q g' c)
    (hrest : ∀ g a, I s g → Q a (g p) → I s (Function.update g p idle)) :
    Kept W Q idle busy I s (Function.update code p c) := by
  obtain ⟨g, hI, hres⟩ := h
  have hp := hres p
  rw [hcode] at hp
  obtain ⟨g', hbusy, hI', hc⟩ := hstart g hI hp
  exact Kept.goOn (fun q _ => hres q) hI' hbusy hc hrest

omit [DecidableEq ι] in
/-- The state changes by itself. -/
theorem Kept.outside (h : Kept W Q idle busy I s code) {a : α} (hcode : code p = .pure a)
    (hI : ∀ g, I s g → g p = idle → I s' g) : Kept W Q idle busy I s' code := by
  obtain ⟨g, hg, hres⟩ := h
  have hp := hres p
  rw [hcode] at hp
  exact ⟨g, hI g hg hp, hres⟩

omit [DecidableEq ι] in
/-- When all programs are over, all records are `idle`. -/
theorem Kept.atRest (h : Kept W Q idle busy I s code) (hcode : ∀ p, ∃ a, code p = .pure a) :
    I s fun _ => idle := by
  obtain ⟨g, hI, hres⟩ := h
  have hg : g = fun _ => idle := by
    funext p
    obtain ⟨a, ha⟩ := hcode p
    have hp := hres p
    rw [ha] at hp
    exact hp
  rwa [hg] at hI

end Pool

/-! ## Pools without a common record -/

section Going

variable {σ ι : Type} [DecidableEq ι]

/-- The records agree with the state, and every program ends from where it is; the
record of one that is over says how it ended. -/
def Going (W : Setting S γ) (Q : α → γ → Prop) (I : σ → (ι → γ) → Prop) (s : σ)
    (code : ι → Code S α) : Prop :=
  ∃ g, I s g ∧ ∀ p, Ends W Q (g p) (code p)

variable {Q : α → γ → Prop} {I : σ → (ι → γ) → Prop} {s s' : σ} {code : ι → Code S α} {p : ι}

/-- An operation is answered. -/
theorem Going.answer {o : S.Op} {k : S.Ret o → Code S α} {r : S.Ret o}
    (h : Going W Q I s code) (hcode : code p = .op o k)
    (hrun : ∀ g, I s g → W.may (g p) o →
      ∃ g', W.after (g p) o r g' ∧ I s' (Function.update g p g')) :
    Going W Q I s' (Function.update code p (k r)) := by
  obtain ⟨g, hI, hends⟩ := h
  have hp := hends p
  rw [hcode] at hp
  obtain ⟨g', hafter, hI'⟩ := hrun g hI hp.1
  refine ⟨Function.update g p g', hI', fun q => ?_⟩
  by_cases hq : q = p
  · subst hq
    rw [Function.update_self, Function.update_self]
    exact hp.2 r g' hafter
  · rw [Function.update_of_ne hq, Function.update_of_ne hq]
    exact hends q

/-- A new program is started. -/
theorem Going.start {c : Code S α} {a : α} (h : Going W Q I s code) (hcode : code p = .pure a)
    (hc : ∀ g, I s g → Q a (g p) → Ends W Q (g p) c) :
    Going W Q I s (Function.update code p c) := by
  obtain ⟨g, hI, hends⟩ := h
  have hp := hends p
  rw [hcode] at hp
  refine ⟨g, hI, fun q => ?_⟩
  by_cases hq : q = p
  · subst hq
    rw [Function.update_self]
    exact hc g hI hp
  · rw [Function.update_of_ne hq]
    exact hends q

omit [DecidableEq ι] in
/-- The state changes by itself. -/
theorem Going.outside (h : Going W Q I s code) (hI : ∀ g, I s g → I s' g) :
    Going W Q I s' code := by
  obtain ⟨g, hg, hends⟩ := h
  exact ⟨g, hI g hg, hends⟩

end Going

end Bracket
