import StrideXv6.Setting

/-!
# Programs that run alone

A program runs alone on a state: every operation is answered at once, or ends the
run with an error. What is left open by the operations is decided by a list of
choices, one for each of them.

The state can then be what a program knows (`Setting.alone`), so that `Ends` are the
rules of pre- and postconditions for such runs: what a program ends in is what it
returns, and the errors it runs into are those that it may.
-/

namespace Bracket

variable {S : Sig} {σ ε α β : Type}

/-- What operations do, given a choice: an answer and a new state, or an error. -/
abbrev Semantics (S : Sig) (σ ε : Type) : Type :=
  ℕ → σ → (o : S.Op) → Except ε (S.Ret o × σ)

/-- With brackets, which do nothing. -/
def Semantics.bracket (run : Semantics S σ ε) : Semantics S.bracket σ ε
  | _, s, .enter => .ok ((), s)
  | _, s, .leave => .ok ((), s)
  | n, s, .op o => run n s o

/-- Run a program; what is returned is its result, the choices that are left and
the state. -/
def Code.exec (run : Semantics S σ ε) : Code S α → List ℕ → σ → Except ε (α × List ℕ × σ)
  | .pure a, ns, s => .ok (a, ns, s)
  | .op o k, ns, s =>
    match run (ns.headD 0) s o with
    | .ok (r, s') => (k r).exec run ns.tail s'
    | .error e => .error e

/-- The state is known; only the errors in `bad` must not come. -/
def Setting.alone (run : Semantics S σ ε) (bad : ε → Prop) : Setting S σ where
  may s o := ∀ n e, run n s o = .error e → ¬ bad e
  after s o r s' := ∃ n, run n s o = .ok (r, s')

variable {run : Semantics S σ ε} {bad : ε → Prop} {Q : α → σ → Prop} {s : σ}

/-- **Programs do what they end in.** -/
theorem Ends.exec {c : Code S α} (h : Ends (.alone run bad) Q s c) (ns : List ℕ) :
    (∀ a ns' s', c.exec run ns s = .ok (a, ns', s') → Q a s') ∧
      ∀ e, c.exec run ns s = .error e → ¬ bad e := by
  induction c generalizing s ns with
  | pure a =>
    refine ⟨fun b ns' s' hb => ?_, fun e he => (nomatch he)⟩
    cases hb
    exact h
  | op o k ih =>
    unfold Code.exec
    cases hrun : run (ns.headD 0) s o with
    | ok x => exact ih x.1 (h.2 x.1 x.2 ⟨_, hrun⟩) ns.tail
    | error e =>
      refine ⟨fun _ _ _ hb => (nomatch hb), fun e' he => ?_⟩
      cases he
      exact h.1 _ e hrun

/-- The same with brackets. -/
theorem Ends.bracket {c : Code S.bracket α} (h : Ends (Setting.alone run bad).bracket Q s c) :
    Ends (.alone run.bracket bad) Q s c := by
  induction c generalizing s with
  | pure a => exact h
  | op o k ih =>
    cases o with
    | enter =>
      refine ⟨fun _ _ he => (nomatch he), fun r s' hr => ?_⟩
      obtain ⟨_, hr⟩ := hr
      cases hr
      exact ih () (h.2 () s rfl)
    | leave =>
      refine ⟨fun _ _ he => (nomatch he), fun r s' hr => ?_⟩
      obtain ⟨_, hr⟩ := hr
      cases hr
      exact ih () (h.2 () s rfl)
    | op o => exact ⟨h.1, fun r s' hr => ih r (h.2 r s' hr)⟩

end Bracket
