import Mathlib.Logic.Function.Basic
import Mathlib.Order.Defs.Unbundled

/-!
# Code with a state that may stop with an error

`Gives c s Q E` says what the code `c` does from the state `s`: it returns an
answer and a state with `Q`, or it stops with an error in a state with `E`. Taken
backwards through a program the rules are equations (`gives_bind`, `gives_pure`,
…), so they are used for rewriting; a function is used through what it was proved
to give (`Gives.bind`).

`Always P F c` says that `c`, from every state, relates the state before to the
state after by `P`, whether it returns or stops, and that it stops only with an
error in `F`.
-/

namespace Effect

variable {σ ε α β : Type}

/-- Code with a state that may stop with an error; the state is still there then. -/
abbrev Eff (σ ε : Type) : Type → Type := ExceptT ε (StateM σ)

/-- The answer or the error, and the state after it. -/
def Eff.exec (c : Eff σ ε α) (s : σ) : Except ε α × σ := c s

/-- What the code does from the state `s`. -/
def Gives (c : Eff σ ε α) (s : σ) (Q : α → σ → Prop) (E : ε → σ → Prop) : Prop :=
  match c.exec s with
  | (.ok a, t) => Q a t
  | (.error e, t) => E e t

variable {c : Eff σ ε α} {s t : σ} {Q R : α → σ → Prop} {E F : ε → σ → Prop} {a : α}

theorem Gives.ok (h : Gives c s Q E) (hc : c.exec s = (.ok a, t)) : Q a t := by
  unfold Gives at h
  rwa [hc] at h

theorem Gives.error (h : Gives c s Q E) {e : ε} (hc : c.exec s = (.error e, t)) : E e t := by
  unfold Gives at h
  rwa [hc] at h

/-- Code that never stops with an error returns something. -/
theorem Gives.returns (h : Gives c s Q fun _ _ => False) :
    ∃ a t, c.exec s = (.ok a, t) ∧ Q a t := by
  unfold Gives at h
  rcases hc : c.exec s with ⟨_ | a, t⟩
  · rw [hc] at h
    exact h.elim
  · rw [hc] at h
    exact ⟨a, t, rfl, h⟩

/-- Code that never returns stops with an error. -/
theorem Gives.stops (h : Gives c s (fun _ _ => False) E) :
    ∃ e t, c.exec s = (.error e, t) ∧ E e t := by
  unfold Gives at h
  rcases hc : c.exec s with ⟨e | _, t⟩
  · rw [hc] at h
    exact ⟨e, t, rfl, h⟩
  · rw [hc] at h
    exact h.elim

theorem Gives.mono (h : Gives c s Q E) (hQ : ∀ a t, Q a t → R a t) (hE : ∀ e t, E e t → F e t) :
    Gives c s R F := by
  unfold Gives at *
  rcases hc : c.exec s with ⟨_ | _, t⟩
  · rw [hc] at h
    exact hE _ _ h
  · rw [hc] at h
    exact hQ _ _ h

theorem gives_pure : Gives (pure a) s Q E ↔ Q a s := Iff.rfl

/-- What comes second starts where the first part returned. -/
theorem exec_bind (k : α → Eff σ ε β) (s : σ) :
    Eff.exec (c >>= k) s = match c.exec s with
      | (.ok a, t) => (k a).exec t
      | (.error e, t) => (.error e, t) := by
  change (match c.exec s with | (r, t) => ExceptT.bindCont k r t) = _
  rcases c.exec s with ⟨e | a, t⟩ <;> rfl

theorem gives_bind {k : α → Eff σ ε β} {Q : β → σ → Prop} :
    Gives (c >>= k) s Q E ↔ Gives c s (fun a t => Gives (k a) t Q E) E := by
  unfold Gives
  rw [exec_bind]
  rcases c.exec s with ⟨e | a, t⟩ <;> exact Iff.rfl

theorem gives_get {Q : σ → σ → Prop} : Gives (get : Eff σ ε σ) s Q E ↔ Q s s := Iff.rfl

theorem gives_modify {f : σ → σ} {Q : PUnit → σ → Prop} :
    Gives (modify f : Eff σ ε PUnit) s Q E ↔ Q ⟨⟩ (f s) := Iff.rfl

theorem gives_throw {e : ε} : Gives (throw e : Eff σ ε α) s Q E ↔ E e s := Iff.rfl

/-- First one part, then the rest. -/
theorem Gives.bind {k : α → Eff σ ε β} {R : β → σ → Prop} (h : Gives c s Q E)
    (hk : ∀ a t, Q a t → Gives (k a) t R F) (hE : ∀ e t, E e t → F e t) : Gives (c >>= k) s R F :=
  gives_bind.mpr (h.mono hk hE)

/-- Two things that are shown apart. -/
theorem Gives.and (h : Gives c s Q E) (h' : Gives c s R F) :
    Gives c s (fun a t => Q a t ∧ R a t) fun e t => E e t ∧ F e t := by
  unfold Gives at *
  rcases hc : c.exec s with ⟨e | a, t⟩
  · rw [hc] at h h'
    exact ⟨h, h'⟩
  · rw [hc] at h h'
    exact ⟨h, h'⟩

-- programs are not to be run by unification
attribute [irreducible] Gives

/-! ## What holds of every run -/

/-- The code relates the states before and after by `P` and stops with errors in `F`
only. -/
structure Always (P : σ → σ → Prop) (F : ε → Prop) (c : Eff σ ε α) : Prop where
  gives : ∀ s, Gives c s (fun _ t => P s t) fun e t => P s t ∧ F e

namespace Always

variable {P : σ → σ → Prop} {F : ε → Prop}

theorem pure [Std.Refl P] (a : α) : Always P F (pure a : Eff σ ε α) :=
  ⟨fun s => gives_pure.mpr (Std.Refl.refl s)⟩

theorem get [Std.Refl P] : Always P F (get : Eff σ ε σ) :=
  ⟨fun s => gives_get.mpr (Std.Refl.refl s)⟩

theorem throw [Std.Refl P] {e : ε} (he : F e) : Always P F (throw e : Eff σ ε α) :=
  ⟨fun s => gives_throw.mpr ⟨Std.Refl.refl s, he⟩⟩

theorem modify {f : σ → σ} (h : ∀ s, P s (f s)) : Always P F (modify f : Eff σ ε PUnit) :=
  ⟨fun s => gives_modify.mpr (h s)⟩

theorem bind [IsTrans σ P] {k : α → Eff σ ε β} (hc : Always P F c)
    (hk : ∀ a, Always P F (k a)) : Always P F (c >>= k) :=
  ⟨fun s => (hc.gives s).bind
    (fun a t hst => ((hk a).gives t).mono (fun _ _ htu => IsTrans.trans _ _ _ hst htu)
      fun _ _ htu => ⟨IsTrans.trans _ _ _ hst htu.1, htu.2⟩) fun _ _ h => h⟩

theorem ite {p : Prop} [Decidable p] {c c' : Eff σ ε α} (hc : Always P F c) (hc' : Always P F c') :
    Always P F (if p then c else c') := by
  split
  · exact hc
  · exact hc'

theorem any (hc : Always P F c) : Always P (fun _ => True) c :=
  ⟨fun s => (hc.gives s).mono (fun _ _ h => h) fun _ _ h => ⟨h.1, trivial⟩⟩

end Always

end Effect
