import Mathlib.Data.Set.Function

/-!
# Runs of a guarded transition function

The systems of this development are all of one shape: a state, a type of
actions, and a partial function `step` that takes a state and an action to the
next state, or to `none` where the action is not enabled. This module has what
is said about such a system in general.

* `exec step s as` — take the actions `as` in order.
* `AllStates step P s as` — `P` holds in every state the run passes through,
  its two ends included.
* `AllSteps step C s as` — every step of the run meets `C`, a condition on the
  state *before* the step and the action taken.

The two recursions are the two halves of the one rule every safety theorem
uses (`allStates_of_allSteps`): what a step preserves under the condition, a
run preserves whose steps all meet it.
-/

namespace Machine

universe u v w

variable {σ : Type u} {α : Type v} {step : σ → α → Option σ}

/-- Take the actions in order; `none` as soon as one is not enabled. -/
def exec (step : σ → α → Option σ) : σ → List α → Option σ
  | s, [] => some s
  | s, a :: as => (step s a).bind fun t => exec step t as

/-- `P` holds in every state of the run, the first and the last included. -/
def AllStates (step : σ → α → Option σ) (P : σ → Prop) : σ → List α → Prop
  | s, [] => P s
  | s, a :: as => P s ∧ ∀ t, step s a = some t → AllStates step P t as

/-- Every step of the run meets `C`. -/
def AllSteps (step : σ → α → Option σ) (C : σ → α → Prop) : σ → List α → Prop
  | _, [] => True
  | s, a :: as => C s a ∧ ∀ t, step s a = some t → AllSteps step C t as

/-- A condition that can be checked can be checked along a run. -/
instance AllSteps.decidable (C : σ → α → Prop) [∀ s a, Decidable (C s a)] :
    ∀ (s : σ) (as : List α), Decidable (AllSteps step C s as)
  | _, [] => isTrue trivial
  | s, a :: as =>
    match h : step s a with
    | none => decidable_of_iff (C s a) (by simp [AllSteps, h])
    | some t =>
      have := AllSteps.decidable C t as
      decidable_of_iff (C s a ∧ AllSteps step C t as) (by simp [AllSteps, h])

@[simp] theorem exec_nil (s : σ) : exec step s [] = some s := rfl

@[simp] theorem exec_cons (s : σ) (a : α) (as : List α) :
    exec step s (a :: as) = (step s a).bind fun t => exec step t as := rfl

/-- Inversion for a run that starts with the action `a`. -/
theorem exec_cons_eq_some {s u : σ} {a : α} {as : List α}
    (h : exec step s (a :: as) = some u) :
    ∃ t, step s a = some t ∧ exec step t as = some u := by
  rw [exec_cons] at h
  exact Option.bind_eq_some_iff.mp h

/-- Runs compose. -/
theorem exec_append {as bs : List α} :
    ∀ {s t u : σ}, exec step s as = some t → exec step t bs = some u →
      exec step s (as ++ bs) = some u := by
  induction as with
  | nil =>
    intro s t u hs ht
    obtain rfl := Option.some.inj hs
    exact ht
  | cons a as ih =>
    intro s t u hs ht
    obtain ⟨s', hs', hrest⟩ := exec_cons_eq_some hs
    rw [List.cons_append, exec_cons, hs']
    exact ih hrest ht

/-- The first state of a run is one of its states. -/
theorem AllStates.head {P : σ → Prop} {s : σ} :
    ∀ {as : List α}, AllStates step P s as → P s
  | [], h => h
  | _ :: _, h => h.1

theorem AllStates.mono {P Q : σ → Prop} {as : List α} (hPQ : ∀ s, P s → Q s) :
    ∀ {s : σ}, AllStates step P s as → AllStates step Q s as := by
  induction as with
  | nil => intro s h; exact hPQ s h
  | cons a as ih =>
    intro s h
    exact ⟨hPQ s h.1, fun t ht => ih (h.2 t ht)⟩

/-- The last state of a run is one of its states. -/
theorem AllStates.last {P : σ → Prop} {as : List α} :
    ∀ {s t : σ}, AllStates step P s as → exec step s as = some t → P t := by
  induction as with
  | nil =>
    intro s t h ht
    obtain rfl := Option.some.inj ht
    exact h
  | cons a as ih =>
    intro s t h ht
    obtain ⟨s', hs', hrest⟩ := exec_cons_eq_some ht
    exact ih (h.2 s' hs') hrest

/-- A run that ends outside `P` is not one inside it. -/
theorem not_allStates {P : σ → Prop} {s t : σ} {as : List α} (ht : exec step s as = some t)
    (hP : ¬ P t) : ¬ AllStates step P s as := fun h => hP (h.last ht)

/-- A condition on all steps is one on the step taken after any part of the run. -/
theorem AllSteps.after {C : σ → α → Prop} {a : α} {as bs : List α} :
    ∀ {s t : σ}, AllSteps step C s (as ++ a :: bs) → exec step s as = some t → C t a := by
  induction as with
  | nil =>
    intro s t h ht
    obtain rfl := Option.some.inj ht
    exact h.1
  | cons b as ih =>
    intro s t h ht
    obtain ⟨s', hs', hrest⟩ := exec_cons_eq_some ht
    exact ih (h.2 s' hs') hrest

/-- **The invariant rule**: what every step that meets `C` preserves, holds in
every state of a run whose steps all meet `C`. -/
theorem allStates_of_allSteps {P : σ → Prop} {C : σ → α → Prop}
    (hstep : ∀ s a t, P s → C s a → step s a = some t → P t) {as : List α} :
    ∀ {s : σ}, P s → AllSteps step C s as → AllStates step P s as := by
  induction as with
  | nil => intro s hP _; exact hP
  | cons a as ih =>
    intro s hP hC
    exact ⟨hP, fun t ht => ih (hstep s a t hP hC.1 ht) (hC.2 t ht)⟩

/-- The invariant rule without a condition on the steps. -/
theorem allStates_of_step {P : σ → Prop}
    (hstep : ∀ s a t, P s → step s a = some t → P t) {as : List α} :
    ∀ {s : σ}, P s → AllStates step P s as := by
  induction as with
  | nil => intro s hP; exact hP
  | cons a as ih =>
    intro s hP
    exact ⟨hP, fun t ht => ih (hstep s a t hP ht)⟩

/-- What every step preserves holds in the last state of a run. -/
theorem exec_invariant {P : σ → Prop}
    (hstep : ∀ s a t, P s → step s a = some t → P t) {s t : σ} {as : List α}
    (hP : P s) (h : exec step s as = some t) : P t :=
  (allStates_of_step hstep hP).last h

/-- A condition that follows, in every state of an invariant, from what is
known of the step holds at every step of the run. -/
theorem allSteps_of_invariant {P : σ → Prop} {C D : σ → α → Prop}
    (hstep : ∀ s a t, P s → C s a → step s a = some t → P t)
    (hCD : ∀ s a, P s → C s a → D s a) {as : List α} :
    ∀ {s : σ}, P s → AllSteps step C s as → AllSteps step D s as := by
  induction as with
  | nil => intro s _ _; trivial
  | cons a as ih =>
    intro s hP hC
    exact ⟨hCD s a hP hC.1, fun t ht => ih (hstep s a t hP hC.1 ht) (hC.2 t ht)⟩

/-- Systems that go on side by side, as long as the steps of the first one meet a condition: what
relates them after a step relates them after a run. -/
theorem exec_rel_of_allSteps {τ : Type w} {step' : τ → α → Option τ} {R : σ → τ → Prop}
    {C : σ → α → Prop} (hstep : ∀ s t a, R s t → C s a → Option.Rel R (step s a) (step' t a))
    {as : List α} : ∀ {s : σ} {t : τ}, R s t → AllSteps step C s as →
      Option.Rel R (exec step s as) (exec step' t as) := by
  induction as with
  | nil => exact fun h _ => .some h
  | cons a as ih =>
    intro s t h hC
    have hnext := hstep s t a h hC.1
    have hrest := hC.2
    rw [exec_cons, exec_cons]
    generalize step s a = x at hnext hrest
    generalize step' t a = y at hnext
    cases hnext with
    | some hR => exact ih hR (hrest _ rfl)
    | none => exact .none

/-- Systems that go on side by side. -/
theorem exec_rel {τ : Type w} {step' : τ → α → Option τ} {R : σ → τ → Prop}
    (hstep : ∀ s t a, R s t → Option.Rel R (step s a) (step' t a)) {as : List α} {s : σ} {t : τ}
    (h : R s t) : Option.Rel R (exec step s as) (exec step' t as) := by
  have hall : ∀ s, AllSteps step (fun _ _ => True) s as := by
    induction as with
    | nil => exact fun _ => trivial
    | cons a as ih => exact fun _ => ⟨trivial, fun t _ => ih t⟩
  exact exec_rel_of_allSteps (fun s t a h _ => hstep s t a h) h (hall s)

end Machine
