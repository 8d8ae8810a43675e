import Mathlib.Data.List.Basic

/-!
# Programs with brackets

Programs that ask their surroundings for one operation after the other, and a
discipline for them: some operations are *guarded*, and may only be asked for
between an `enter` and the matching `leave`.

`Code S α` is a program over the operations of the signature `S`; what an
operation does is somebody else's business, the program goes on with the answer.
Code over `S` has no brackets. It becomes part of a program with brackets, which
is code over `S.bracket`, by `Code.lift`; so where the brackets are is visible in
the types.

`Fits D Q d c` says that `c`, started inside of `d` brackets, keeps to the
discipline `D` whatever it is answered, and ends in `Q`. Outside of all brackets
`D` may exclude answers: a program may ask there for something that it does not
get (`Discipline.outside`). Lifted code needs no proof inside a bracket
(`Fits.lift_bind`).
-/

namespace Bracket

/-- Operations and the types of their answers. -/
structure Sig : Type 1 where
  Op : Type
  Ret : Op → Type

/-- A program that ends with an `α`. -/
inductive Code (S : Sig) (α : Type) : Type where
  | pure : α → Code S α
  | op : (o : S.Op) → (S.Ret o → Code S α) → Code S α

/-- An operation, or a bracket. -/
inductive Cmd (Op : Type) : Type where
  | enter
  | leave
  | op : Op → Cmd Op

/-- The signature with brackets added. -/
def Sig.bracket (S : Sig) : Sig where
  Op := Cmd S.Op
  Ret
    | .enter => Unit
    | .leave => Unit
    | .op o => S.Ret o

namespace Code

variable {S : Sig} {α β : Type}

/-- Sequencing. -/
def bind : Code S α → (α → Code S β) → Code S β
  | pure a, f => f a
  | op o k, f => op o fun r => bind (k r) f

instance : Monad (Code S) where
  pure := Code.pure
  bind := Code.bind

/-- Code without brackets as part of a program. -/
def lift : Code S α → Code S.bracket α
  | pure a => pure a
  | op o k => op (.op o) fun r => lift (k r)

/-- Do something for the items of a list in turn. -/
def forEach : List β → (β → Code S Unit) → Code S Unit
  | [], _ => Code.pure ()
  | b :: bs, f => Code.bind (f b) fun _ => forEach bs f

/-- The same with results. -/
def mapEach : List β → (β → Code S α) → Code S (List α)
  | [], _ => Code.pure []
  | b :: bs, f => Code.bind (f b) fun a => Code.bind (mapEach bs f) fun as => Code.pure (a :: as)

/-- Go through a list until there is a result. -/
def firstSome : List β → (β → Code S (Option α)) → Code S (Option α)
  | [], _ => Code.pure none
  | b :: bs, f => Code.bind (f b) fun r =>
    match r with
    | some a => Code.pure (some a)
    | none => firstSome bs f

end Code

/-- What a program with brackets keeps to. -/
structure Discipline (S : Sig) : Type where
  /-- how deep brackets may be nested -/
  limit : ℕ
  /-- operations for inside only -/
  guarded : S.Op → Prop
  /-- the answers that are given outside of brackets -/
  outside : (o : S.Op) → S.Ret o → Prop

variable {S : Sig} {α β : Type} {D : Discipline S}

/-- Code without brackets that asks for nothing guarded, as long as it gets the
answers that are given outside. -/
def Unguarded (D : Discipline S) : Code S α → Prop
  | .pure _ => True
  | .op o k => ¬ D.guarded o ∧ ∀ r, D.outside o r → Unguarded D (k r)

namespace Unguarded

theorem bind {c : Code S α} {f : α → Code S β} (hc : Unguarded D c) (hf : ∀ a, Unguarded D (f a)) :
    Unguarded D (c >>= f) := by
  induction c with
  | pure a => exact hf a
  | op o k ih => exact ⟨hc.1, fun r hr => ih r (hc.2 r hr)⟩

theorem mapEach {bs : List α} {f : α → Code S β} (hf : ∀ b, Unguarded D (f b)) :
    Unguarded D (Code.mapEach bs f) := by
  induction bs with
  | nil => trivial
  | cons b bs ih => exact (hf b).bind fun _ => ih.bind fun _ => trivial

end Unguarded

/-- The program keeps to the discipline, from depth `d` on, and ends in `Q`. -/
def Fits (D : Discipline S) (Q : α → ℕ → Prop) : ℕ → Code S.bracket α → Prop
  | d, .pure a => Q a d
  | d, .op .enter k => d < D.limit ∧ Fits D Q (d + 1) (k ())
  | d, .op .leave k => 0 < d ∧ Fits D Q (d - 1) (k ())
  | d, .op (.op o) k =>
    (D.guarded o → 0 < d) ∧ ∀ r, (d = 0 → D.outside o r) → Fits D Q d (k r)

namespace Fits

variable {Q : β → ℕ → Prop} {R : α → ℕ → Prop} {d : ℕ}

/-- Sequencing. -/
theorem bind {c : Code S.bracket α} {f : α → Code S.bracket β} (hc : Fits D R d c)
    (hf : ∀ a e, R a e → Fits D Q e (f a)) : Fits D Q d (c >>= f) := by
  induction c generalizing d with
  | pure a => exact hf a d hc
  | op o k ih =>
    cases o with
    | enter => exact ⟨hc.1, ih () hc.2⟩
    | leave => exact ⟨hc.1, ih () hc.2⟩
    | op o => exact ⟨hc.1, fun r hr => ih r (hc.2 r hr)⟩

/-- Sequencing of a program that comes back to the depth it started at. -/
theorem seq {c : Code S.bracket α} {f : α → Code S.bracket β}
    (hc : Fits D (fun _ e => e = d) d c) (hf : ∀ a, Fits D Q d (f a)) :
    Fits D Q d (c >>= f) :=
  hc.bind fun a e he => by rw [he]; exact hf a

/-- Inside a bracket, code without brackets can do what it likes. -/
theorem lift (hd : 0 < d) (c : Code S α) : Fits D (fun _ e => e = d) d c.lift := by
  induction c with
  | pure a => rfl
  | op o k ih => exact ⟨fun _ => hd, fun r _ => ih r⟩

/-- Unguarded code can be anywhere. -/
theorem unguarded {c : Code S α} (hc : Unguarded D c) : Fits D (fun _ e => e = d) d c.lift := by
  induction c with
  | pure a => rfl
  | op o k ih =>
    refine ⟨fun ho => absurd ho hc.1, fun r hr => ?_⟩
    rcases Nat.eq_zero_or_pos d with hd | hd
    · exact ih r (hc.2 r (hr hd))
    · exact lift hd (k r)

theorem lift_bind {c : Code S α} {f : α → Code S.bracket β} (hd : 0 < d)
    (hf : ∀ a, Fits D Q d (f a)) : Fits D Q d (c.lift >>= f) :=
  (lift hd c).seq hf

/-- A loop whose body comes back to the depth it started at. -/
theorem forEach {bs : List α} {f : α → Code S.bracket Unit}
    (hf : ∀ b, Fits D (fun _ e => e = d) d (f b)) :
    Fits D (fun _ e => e = d) d (Code.forEach bs f) := by
  induction bs with
  | nil => rfl
  | cons b bs ih => exact (hf b).seq fun _ => ih

theorem firstSome {γ : Type} {bs : List γ} {f : γ → Code S.bracket (Option α)}
    (hf : ∀ b, Fits D (fun _ e => e = d) d (f b)) :
    Fits D (fun _ e => e = d) d (Code.firstSome bs f) := by
  induction bs with
  | nil => rfl
  | cons b bs ih =>
    refine (hf b).seq fun r => ?_
    cases r with
    | none => exact ih
    | some a => rfl

end Fits

end Bracket
