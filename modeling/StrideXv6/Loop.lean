import Mathlib.Data.Nat.Notation

/-!
# Loops

A loop is its body: a function that goes on with a new state (`inl`) or leaves the loop
with a result (`inr`), and that may fail to return itself (`none`). `run body n` takes at
most `n` turns.
-/

namespace Loop

universe u v

variable {σ : Type u} {ρ : Type v} {body : σ → Option (σ ⊕ ρ)} {s t : σ} {r : ρ} {n : ℕ}

/-- Take at most `n` turns; `none` if they are not enough. -/
def run (body : σ → Option (σ ⊕ ρ)) : ℕ → σ → Option ρ
  | 0, _ => none
  | n + 1, s =>
    match body s with
    | none => none
    | some (.inl t) => run body n t
    | some (.inr r) => some r

theorem run_succ_inl (h : body s = some (.inl t)) : run body (n + 1) s = run body n t := by
  rw [run, h]

theorem run_succ_inr (h : body s = some (.inr r)) : run body (n + 1) s = some r := by
  rw [run, h]

/-- What is left in some turn is left when there are more. -/
theorem run_of_le {k : ℕ} (hk : ∀ n, run body (k + (n + 1)) s = some r) (h : k < n) :
    run body n s = some r := by
  obtain ⟨m, rfl⟩ := Nat.exists_eq_add_of_lt h
  exact hk m

end Loop
