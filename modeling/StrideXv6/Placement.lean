import Mathlib.Data.Set.Basic
import Mathlib.Logic.Function.Basic

/-!
# Resources and their places

A *placement* says what is at each place: a resource or nothing. It is `Separate`
when no resource is at two places.

`Shift f g` says that going from the placement `f` to the placement `g` nothing
came in that was not there and what was apart still is; `Keeps f g` says that
nothing was lost either. Both compose, so what a function does to a placement is
put together from single moves. `Separate.glue` takes what was shown for some of the
places to all of them.
-/

namespace Placement

universe u v w x

variable {P : Type u} {Q : Type v} {T : Type w} {R : Type x}
variable {f : P → Option R} {g : Q → Option R} {h : T → Option R}

/-- No resource is at two places. -/
def Separate (f : P → Option R) : Prop := ∀ ⦃x y r⦄, f x = some r → f y = some r → x = y

/-- The resource is somewhere. -/
def Holds (f : P → Option R) (r : R) : Prop := ∃ x, f x = some r

/-- Resources were moved around, or dropped. -/
structure Shift (f : P → Option R) (g : Q → Option R) : Prop where
  /-- no resource came to be at two places -/
  apart : Separate f → Separate g
  /-- nothing is new -/
  holds : ∀ r, Holds g r → Holds f r

/-- Nothing was dropped. -/
def Keeps (f : P → Option R) (g : Q → Option R) : Prop := ∀ r, Holds f r → Holds g r

/-- Two places of one placement have different resources. -/
theorem Separate.ne (hf : Separate f) {x y : P} {r r' : R} (hx : f x = some r) (hy : f y = some r')
    (hxy : x ≠ y) : r ≠ r' := by
  rintro rfl
  exact hxy (hf hx hy)

namespace Shift

theorem refl (f : P → Option R) : Shift f f := ⟨id, fun _ h => h⟩

theorem trans (hfg : Shift f g) (hgh : Shift g h) : Shift f h :=
  ⟨fun hf => hgh.apart (hfg.apart hf), fun r hr => hfg.holds r (hgh.holds r hr)⟩

/-- The general move: `o` tells where the resource at a place comes from. -/
theorem of_origin (o : Q → P) (ho : ∀ y r, g y = some r → f (o y) = some r)
    (hinj : ∀ y z, g y ≠ none → g z ≠ none → o y = o z → y = z) : Shift f g := by
  refine ⟨fun hf y z r hy hz => ?_, ?_⟩
  · refine hinj y z (by rw [hy]; nofun) (by rw [hz]; nofun) ?_
    exact hf (ho y r hy) (ho z r hz)
  · rintro r ⟨y, hy⟩
    exact ⟨o y, ho y r hy⟩

/-- The same, where `t` tells where the resource at a place goes. -/
theorem of_inverse (o : Q → P) (t : P → Q) (ho : ∀ y r, g y = some r → f (o y) = some r)
    (ht : ∀ y, g y ≠ none → t (o y) = y) : Shift f g :=
  of_origin o ho fun y z hy hz h => by rw [← ht y hy, h, ht z hz]

/-- Dropping. -/
theorem of_le {g : P → Option R} (hle : ∀ x, g x = none ∨ g x = f x) : Shift f g := by
  refine of_origin id (fun x r hr => ?_) fun _ _ _ _ h => h
  rcases hle x with hn | he
  · rw [hn] at hr
    cases hr
  · exact he.symm.trans hr

/-- The resource at `a` is moved to `b`; other places may have been emptied. -/
theorem move [DecidableEq P] {g : P → Option R} {a b : P} (hgb : g b = f a) (hga : g a = none)
    (hother : ∀ x, x ≠ a → x ≠ b → g x = none ∨ g x = f x) : Shift f g := by
  have hfrom : ∀ x, x ≠ b → g x ≠ none → x ≠ a ∧ g x = f x := by
    intro x hxb hx
    have hxa : x ≠ a := fun h => hx (h ▸ hga)
    exact ⟨hxa, (hother x hxa hxb).resolve_left hx⟩
  refine of_origin (fun x => if x = b then a else x) ?_ ?_
  · intro x r hr
    split
    · next hxb =>
      subst hxb
      exact hgb.symm.trans hr
    · next hxb =>
      exact (hfrom x hxb (by rw [hr]; nofun)).2.symm.trans hr
  · intro x y hx hy
    split <;> split
    · next hxb hyb => exact fun _ => hxb.trans hyb.symm
    · next hyb => exact fun h => absurd h.symm (hfrom y hyb hy).1
    · next hxb _ => exact fun h => absurd h (hfrom x hxb hx).1
    · exact id

end Shift

namespace Keeps

theorem refl (f : P → Option R) : Keeps f f := fun _ h => h

theorem trans (hfg : Keeps f g) (hgh : Keeps g h) : Keeps f h := fun r hr => hgh r (hfg r hr)

/-- Where each resource went. -/
theorem of_target (t : P → Q) (ht : ∀ x r, f x = some r → g (t x) = some r) : Keeps f g := by
  rintro r ⟨x, hr⟩
  exact ⟨t x, ht x r hr⟩

/-- A move to an empty place keeps everything. -/
theorem move [DecidableEq P] {g : P → Option R} {a b : P} (hfb : f b = none) (hgb : g b = f a)
    (hother : ∀ x, x ≠ a → x ≠ b → f x = none ∨ g x = f x) : Keeps f g := by
  refine of_target (fun x => if x = a then b else x) fun x r hr => ?_
  split
  · next hxa =>
    subst hxa
    exact hgb.trans hr
  · next hxa =>
    have hxb : x ≠ b := by
      rintro rfl
      rw [hfb] at hr
      cases hr
    have hsome : f x ≠ none := by
      rw [hr]
      nofun
    exact ((hother x hxa hxb).resolve_left hsome).trans hr

end Keeps

/-- What the first of two shifts lost, the second cannot bring back. -/
theorem Shift.keeps_trans_iff (hfg : Shift f g) (hgh : Shift g h) :
    Keeps f h ↔ Keeps f g ∧ Keeps g h :=
  ⟨fun hk => ⟨fun r hr => hgh.holds r (hk r hr), fun r hr => hk r (hfg.holds r hr)⟩,
    fun hk => hk.1.trans hk.2⟩

/-- Where something was at `a` only and is nowhere now, it was lost. -/
theorem not_keeps_of_drop {a : P} {r : R} (ha : f a = some r) (hg : ∀ y, g y ≠ some r) :
    ¬Keeps f g := fun hk => by
  obtain ⟨y, hy⟩ := hk r ⟨a, ha⟩
  exact hg y hy

/-- The places in the range of `emb` were worked on, and nothing else was. -/
theorem Separate.glue {G G' : Q → Option R} (hG : Separate G) (emb : P → Q)
    (hout : ∀ y, (∀ x, emb x ≠ y) → G' y = G y) (hin : Separate (G' ∘ emb))
    (hsub : ∀ r, Holds (G' ∘ emb) r → Holds (G ∘ emb) r) : Separate G' := by
  have hmixed : ∀ x y r, G' (emb x) = some r → (∀ z, emb z ≠ y) → G' y ≠ some r := by
    intro x y r hx hy hr
    obtain ⟨z, hz⟩ := hsub r ⟨x, hx⟩
    exact hy z (hG hz ((hout y hy).symm.trans hr))
  intro x y r hx hy
  by_cases hxe : ∃ a, emb a = x <;> by_cases hye : ∃ b, emb b = y
  · obtain ⟨a, rfl⟩ := hxe
    obtain ⟨b, rfl⟩ := hye
    rw [hin hx hy]
  · obtain ⟨a, rfl⟩ := hxe
    exact absurd hy (hmixed a y r hx (not_exists.mp hye))
  · obtain ⟨b, rfl⟩ := hye
    exact absurd hx (hmixed b x r hy (not_exists.mp hxe))
  · rw [hout x (not_exists.mp hxe)] at hx
    rw [hout y (not_exists.mp hye)] at hy
    exact hG hx hy

end Placement
