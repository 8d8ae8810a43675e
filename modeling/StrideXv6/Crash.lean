import Mathlib.Data.List.Basic

/-!
# Programs that can stop

A small program logic for code that reads and changes a state and can stop at
any point: because the power fails, because it gives up, because it waits for
something that does not come. What is left of the state then matters as much as
the result of a run that ends.

`Prog σ ε α` is such a program over the state `σ`, with result `α` and reasons
`ε` to stop. A triple `Triple P c Q C` has two postconditions: from `P` the
program ends in `Q` or stops in the *crash condition* `C`. The rules are the
usual ones; `C` stays the same throughout a program, and every rule for a step
that can stop asks that it holds there.
-/

namespace Crash

/-- How a run ends: with a result, or by stopping. -/
inductive Outcome (σ ε α : Type) : Type where
  | done : α → σ → Outcome σ ε α
  | halt : ε → σ → Outcome σ ε α

/-- The state a run leaves. -/
def Outcome.state {σ ε α : Type} : Outcome σ ε α → σ
  | done _ s => s
  | halt _ s => s

/-- The run ended with a result. -/
def Outcome.isDone {σ ε α : Type} : Outcome σ ε α → Bool
  | done _ _ => true
  | halt _ _ => false

theorem Outcome.eq_done {σ ε : Type} : ∀ {o : Outcome σ ε Unit}, o.isDone = true →
    o = .done () o.state
  | done () _, _ => rfl

/-- Programs over a state. -/
def Prog (σ ε α : Type) : Type := σ → Outcome σ ε α

variable {σ ε α β : Type}

instance : Monad (Prog σ ε) where
  pure a := fun s => .done a s
  bind c f := fun s =>
    match c s with
    | .done a s' => f a s'
    | .halt e s' => .halt e s'

/-- Read the state. -/
def get : Prog σ ε σ := fun s => .done s s

/-- Change the state. -/
def modify (f : σ → σ) : Prog σ ε Unit := fun s => .done () (f s)

/-- Stop. -/
def halt (e : ε) : Prog σ ε α := fun s => .halt e s

/-- Run a program for the items of a list in turn. -/
def forEach : List β → (β → Prog σ ε Unit) → Prog σ ε Unit
  | [], _ => pure ()
  | b :: bs, f => do
    f b
    forEach bs f

section Run

variable (s : σ)

@[simp] theorem pure_apply (a : α) : (pure a : Prog σ ε α) s = .done a s := rfl

theorem bind_apply (c : Prog σ ε β) (f : β → Prog σ ε α) :
    (c >>= f) s = match c s with
      | .done b s' => f b s'
      | .halt e s' => .halt e s' := rfl

@[simp] theorem get_bind_apply (f : σ → Prog σ ε α) : (get >>= f) s = f s s := rfl

@[simp] theorem modify_bind_apply (g : σ → σ) (f : Unit → Prog σ ε α) :
    (modify g >>= f) s = f () (g s) := rfl

@[simp] theorem modify_apply (g : σ → σ) : (modify g : Prog σ ε Unit) s = .done () (g s) := rfl

@[simp] theorem halt_apply (e : ε) : (halt e : Prog σ ε α) s = .halt e s := rfl

theorem bind_of_done {c : Prog σ ε β} {f : β → Prog σ ε α} {b : β} {s' : σ}
    (h : c s = .done b s') : (c >>= f) s = f b s' := by
  rw [bind_apply, h]

theorem bind_of_halt {c : Prog σ ε β} {f : β → Prog σ ε α} {e : ε} {s' : σ}
    (h : c s = .halt e s') : (c >>= f) s = .halt e s' := by
  rw [bind_apply, h]

theorem bind_assoc {γ : Type} (c : Prog σ ε γ) (f : γ → Prog σ ε β) (g : β → Prog σ ε α) :
    (c >>= f) >>= g = c >>= fun a => f a >>= g := by
  funext s
  rw [bind_apply s c]
  rcases hc : c s with ⟨a, s'⟩ | ⟨e, s'⟩
  · rw [bind_apply, bind_of_done s hc]
    rfl
  · rw [bind_of_halt s (bind_of_halt s hc)]

end Run

/-- The run ended in `Q` or stopped in `C`. -/
def Outcome.Meets (Q : α → σ → Prop) (C : σ → Prop) : Outcome σ ε α → Prop
  | done a s => Q a s
  | halt _ s => C s

/-- From `P` the program ends in `Q` or stops in `C`. -/
def Triple (P : σ → Prop) (c : Prog σ ε α) (Q : α → σ → Prop) (C : σ → Prop) : Prop :=
  ∀ s, P s → (c s).Meets Q C

namespace Triple

variable {P P' : σ → Prop} {Q Q' : α → σ → Prop} {C : σ → Prop}

theorem conseq {c : Prog σ ε α} (h : Triple P' c Q' C) (hP : ∀ s, P s → P' s)
    (hQ : ∀ a s, Q' a s → Q a s) : Triple P c Q C := by
  intro s hs
  have h' := h s (hP s hs)
  rcases hc : c s with ⟨a, s'⟩ | ⟨e, s'⟩
  · rw [hc] at h'
    exact hQ a s' h'
  · rw [hc] at h'
    exact h'

theorem pre {c : Prog σ ε α} (h : Triple P' c Q C) (hP : ∀ s, P s → P' s) : Triple P c Q C :=
  h.conseq hP fun _ _ h => h

theorem pure {a : α} (h : ∀ s, P s → Q a s) : Triple P (Pure.pure a : Prog σ ε α) Q C :=
  fun s hs => h s hs

theorem bind {c : Prog σ ε β} {f : β → Prog σ ε α} {R : β → σ → Prop} (hc : Triple P c R C)
    (hf : ∀ b, Triple (R b) (f b) Q C) : Triple P (c >>= f) Q C := by
  intro s hs
  have h := hc s hs
  rcases hrun : c s with ⟨b, s'⟩ | ⟨e, s'⟩
  · rw [hrun] at h
    rw [bind_of_done s hrun]
    exact hf b s' h
  · rw [hrun] at h
    rw [bind_of_halt s hrun]
    exact h

/-- Sequencing where the first program has no result. -/
theorem seq {c : Prog σ ε Unit} {f : Unit → Prog σ ε α} {R : σ → Prop}
    (hc : Triple P c (fun _ => R) C) (hf : Triple R (f ()) Q C) : Triple P (c >>= f) Q C :=
  bind hc fun _ => hf

/-- What is known of the state can be used where it is read. -/
theorem get_bind {f : σ → Prog σ ε α} (h : ∀ s₀, P s₀ → Triple (fun s => s = s₀) (f s₀) Q C) :
    Triple P (get >>= f) Q C :=
  fun s hs => h s hs s rfl

theorem modify {f : σ → σ} {Q : Unit → σ → Prop} (h : ∀ s, P s → Q () (f s)) :
    Triple P (Crash.modify f : Prog σ ε Unit) Q C :=
  fun s hs => h s hs

/-- What the precondition says about other things than the state. -/
theorem of_fact {φ : Prop} {c : Prog σ ε α} (hφ : ∀ s, P s → φ) (h : φ → Triple P c Q C) :
    Triple P c Q C :=
  fun s hs => h (hφ s hs) s hs

theorem of_exists {ι : Sort*} {P : ι → σ → Prop} {c : Prog σ ε α}
    (h : ∀ x, Triple (P x) c Q C) : Triple (fun s => ∃ x, P x s) c Q C :=
  fun s ⟨x, hs⟩ => h x s hs

/-- A condition the program ends and stops in holds in the state it leaves. -/
theorem state {c : Prog σ ε α} {s : σ} (h : Triple P c (fun _ => C) C) (hs : P s) :
    C (c s).state := by
  have := h s hs
  rcases hc : c s with ⟨a, s'⟩ | ⟨e, s'⟩ <;> rw [hc] at this <;> exact this

/-- The postcondition of a run that ended. -/
theorem of_done {c : Prog σ ε α} {s s' : σ} {a : α} (h : Triple P c Q C) (hs : P s)
    (hc : c s = .done a s') : Q a s' := by
  have := h s hs
  rw [hc] at this
  exact this

/-- The rule for loops: an invariant that speaks of the items done so far. -/
theorem forEach {I : List β → σ → Prop} {l : List β} {f : β → Prog σ ε Unit}
    (h : ∀ done b rest, l = done ++ b :: rest →
      Triple (I done) (f b) (fun _ => I (done ++ [b])) C) :
    Triple (I []) (Crash.forEach l f) (fun _ => I l) C := by
  -- the items still to do, with the invariant for those before them
  have hrest : ∀ rest done, l = done ++ rest →
      Triple (I done) (Crash.forEach rest f) (fun _ => I l) C := by
    intro rest
    induction rest with
    | nil =>
      intro done hl
      rw [List.append_nil] at hl
      exact Triple.pure fun s hs => hl ▸ hs
    | cons b rest ih =>
      intro done hl
      exact (h done b rest hl).seq (ih (done ++ [b]) (by rw [hl, List.append_assoc]; rfl))
  exact hrest l [] rfl

end Triple

end Crash
