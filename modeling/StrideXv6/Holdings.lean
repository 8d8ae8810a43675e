import StrideXv6.AddressSpace

/-!
# Everybody's pages

The functions of `vm.c` work on one address space (`Works`); the machine has many.
A `Spot` is a place in the whole machine: on the free list, a pipe, or a place that
belongs to an `Owner`. What was shown for the part one owner has to do with holds
for the whole machine, because a page that is at one place is at no other
(`Sound.works`).
-/

namespace StrideXv6

open Effect Placement

/-- Who has an address space. -/
inductive Owner (ι : Type) : Type where
  /-- the kernel, when no process is running -/
  | kernel
  /-- `exec`, before it commits -/
  | building
  | task (p : ι)
  deriving DecidableEq

/-- Where a page can be in the machine. -/
inductive Spot (ι : Type) : Type where
  | free (n : ℕ)
  | pipe (g : ℕ)
  | of (k : Owner ι) (x : Place)
  deriving DecidableEq

variable {ι : Type}

/-- What is at the spots. -/
def Phys.spot (m : Phys) (pipes : ℕ → Bool) (env : Owner ι → Env) : Spot ι → Option ℕ
  | .free n => freeAt m.free n
  | .pipe g => if pipes g then some g else none
  | .of _ (.free _) => none
  | .of k x => m.place (env k) x

/-- No page is at two spots, and all of them may be allocated. -/
structure Sound (L : Layout) (m : Phys) (pipes : ℕ → Bool) (env : Owner ι → Env) : Prop where
  apart : Separate (m.spot pipes env)
  ranged : ∀ g, Holds (m.spot pipes env) g → L.first ≤ g ∧ g < PHYSTOP

/-- Where a place that an owner has to do with is in the machine. -/
def Spot.at (k : Owner ι) : Place → Spot ι
  | .free n => .free n
  | x => .of k x

section

variable {L : Layout} {m m' : Phys} {pipes pipes' : ℕ → Bool} {env env' : Owner ι → Env}
  {k k' : Owner ι} {x y : Place} {g : ℕ}

theorem Spot.at_inj (h : Spot.at k x = Spot.at k y) : x = y := by
  cases x <;> cases y <;> first | rfl | cases h <;> rfl

theorem spot_at : m.spot pipes env (Spot.at k x) = m.place (env k) x := by
  cases x <;> rfl

theorem Spot.at_of (hx : ∀ n, x ≠ .free n) : Spot.at k x = .of k x := by
  cases x with
  | free n => exact absurd rfl (hx n)
  | _ => rfl

theorem spot_comp_at : m.spot pipes env ∘ Spot.at k = m.place (env k) := funext fun _ => spot_at

namespace Sound

/-- The part of one owner. -/
theorem owned (h : Sound L m pipes env) (k : Owner ι) : Owned L m (env k) := by
  refine ⟨fun x y g hx hy => ?_, fun g hg => ?_⟩
  · exact Spot.at_inj (h.apart (spot_at.trans hx) (spot_at.trans hy))
  · obtain ⟨x, hx⟩ := hg
    exact h.ranged g ⟨Spot.at k x, spot_at.trans hx⟩

/-- A page that is somewhere else is not among those of the owner. -/
theorem not_holds (h : Sound L m pipes env) {y : Spot ι} (hy : m.spot pipes env y = some g)
    (hout : ∀ x, Spot.at k x ≠ y) : ¬Holds (m.place (env k)) g := by
  rintro ⟨x, hx⟩
  exact hout x (h.apart (spot_at.trans hx) hy)

theorem at_ne (hk : k' ≠ k) : ∀ x, Spot.at k x ≠ Spot.of k' y := by
  intro x hx
  cases x with
  | free n => cases hx
  | _ => exact hk (Spot.of.inj hx).1.symm

/-- What was done for one owner does not touch the others. -/
theorem place_other (h : Sound L m pipes env) {e' : Env} (hw : Works L m m' (env k) e')
    (hk : k' ≠ k) (hx : ∀ n, x ≠ .free n) : m'.place (env k') x = m.place (env k') x := by
  have hbyte : ∀ g, m.TablePage (env k') g → m'.byte g = m.byte g := by
    rintro g (hd | ⟨i, hi⟩)
    · have hat : m.spot pipes env (.of k' .dir) = some g := hd
      exact hw.frame g (h.ranged g ⟨_, hat⟩).1 (h.not_holds hat (at_ne hk))
    · have hat : m.spot pipes env (.of k' (.table i)) = some g := hi
      exact hw.frame g (h.ranged g ⟨_, hat⟩).1 (h.not_holds hat (at_ne hk))
  obtain ⟨htable, huser⟩ := Phys.space_congr rfl rfl hbyte
  cases x with
  | free n => exact absurd rfl (hx n)
  | table i => exact htable i
  | user v => exact huser v
  | _ => rfl

variable [DecidableEq ι]

/-- From one owner to the whole machine. -/
theorem shift_works (h : Sound L m pipes env) {e' : Env} (hw : Works L m m' (env k) e') :
    Shift (m.spot pipes env) (m'.spot pipes (Function.update env k e')) := by
  have hafter : m'.spot pipes (Function.update env k e') ∘ Spot.at k = m'.place e' := by
    rw [spot_comp_at, Function.update_self]
  have hsub : ∀ g, Holds (m'.spot pipes (Function.update env k e') ∘ Spot.at k) g →
      Holds (m.spot pipes env ∘ Spot.at k) g := by
    intro g hg
    rw [hafter] at hg
    rw [spot_comp_at]
    exact hw.shift.holds g hg
  have hout : ∀ y, (∀ x, Spot.at k x ≠ y) →
      m'.spot pipes (Function.update env k e') y = m.spot pipes env y := by
    intro y hy
    cases y with
    | free n => exact absurd rfl (hy (.free n))
    | pipe g => rfl
    | of k' x =>
      by_cases hx : ∃ n, x = .free n
      · obtain ⟨n, rfl⟩ := hx
        rfl
      · have hx' := not_exists.mp hx
        have hk : k' ≠ k := by
          rintro rfl
          exact hy x (Spot.at_of hx')
        rw [← Spot.at_of hx', spot_at, spot_at, Function.update_of_ne hk]
        exact h.place_other hw hk hx'
  refine ⟨fun _ => h.apart.glue (Spot.at k) hout ?_ hsub, fun g hg => ?_⟩
  · rw [hafter]
    exact hw.shift.apart (h.owned k).apart
  · obtain ⟨y, hy⟩ := hg
    by_cases hin : ∃ x, Spot.at k x = y
    · obtain ⟨x, rfl⟩ := hin
      obtain ⟨z, hz⟩ := hsub g ⟨x, hy⟩
      exact ⟨_, hz⟩
    · rw [hout y (not_exists.mp hin)] at hy
      exact ⟨y, hy⟩

theorem works (h : Sound L m pipes env) {e' : Env} (hw : Works L m m' (env k) e') :
    Sound L m' pipes (Function.update env k e') :=
  ⟨(h.shift_works hw).apart h.apart, fun g hg => h.ranged g ((h.shift_works hw).holds g hg)⟩

omit [DecidableEq ι] in
/-- Pages change hands without being touched. -/
theorem shift (h : Sound L m pipes env) (hs : Shift (m.spot pipes env) (m.spot pipes' env')) :
    Sound L m pipes' env' :=
  ⟨hs.apart h.apart, fun g hg => h.ranged g (hs.holds g hg)⟩

omit [DecidableEq ι] in
theorem spot_congr (hk : env' k = env k) (x : Place) :
    m.spot pipes env' (.of k x) = m.spot pipes env (.of k x) := by
  cases x <;> simp only [Phys.spot, hk]

omit [DecidableEq ι] in
/-- An owner of nothing. -/
theorem spot_empty (hk : env k = {}) (x : Place) : m.spot pipes env (.of k x) = none := by
  cases x <;> simp only [Phys.spot, hk, Phys.place, Option.bind_none, ite_self]

/-- Where the pages of `p` come from, when it gets the new address space. -/
def ofNew (p : ι) : Spot ι → Spot ι
  | .of (.task q) x => if q = p ∧ x ≠ .stack then .of .building x else .of (.task q) x
  | y => y

/-- Where those of the new address space go. -/
def toTask (p : ι) : Spot ι → Spot ι
  | .of .building x => .of (.task p) x
  | y => y

/-- The new address space becomes that of a process that has none. -/
theorem adopt (h : Sound L m pipes env) {p : ι} {d : ℕ} {stack : Option ℕ}
    (hnew : env .building = { dir := some d }) (hold : env (.task p) = { stack := stack })
    (hp : env' (.task p) = { dir := some d, stack := stack }) (hb : env' .building = {})
    (hk : ∀ k, k ≠ .task p → k ≠ .building → env' k = env k) : Sound L m pipes env' := by
  have hspace : ∀ x, x ≠ .stack →
      m.spot pipes env' (.of (.task p) x) = m.spot pipes env (.of .building x) := by
    intro x hx
    cases x with
    | stack => exact absurd rfl hx
    | _ => simp only [Phys.spot, hp, hnew, Phys.place]
  refine h.shift (Shift.of_inverse (ofNew p) (toTask p) (fun y r hr => ?_) fun y hy => ?_)
  · rcases y with n | g | ⟨k, x⟩
    · exact hr
    · exact hr
    cases k with
    | kernel => exact (spot_congr (hk .kernel (by rintro ⟨⟩) (by rintro ⟨⟩)) x).symm.trans hr
    | building =>
      rw [spot_empty hb] at hr
      cases hr
    | task q =>
      by_cases hq : q = p
      · subst hq
        by_cases hx : x = .stack
        · subst hx
          rw [show ofNew q (.of (.task q) .stack) = .of (.task q) .stack from if_neg fun h => h.2 rfl]
          simp only [Phys.spot, hp, hold, Phys.place] at hr ⊢
          exact hr
        · rw [show ofNew q (.of (.task q) x) = .of .building x from if_pos ⟨rfl, hx⟩, ← hspace x hx, hr]
      · rw [show ofNew p (.of (.task q) x) = .of (.task q) x from if_neg fun h => hq h.1,
          ← spot_congr (hk (.task q) (fun h => hq (Owner.task.inj h)) (by rintro ⟨⟩)) x, hr]
  · rcases y with n | g | ⟨k, x⟩
    · rfl
    · rfl
    cases k with
    | kernel => rfl
    | building => exact absurd (spot_empty hb x) hy
    | task q =>
      by_cases hq : q = p ∧ x ≠ .stack
      · rw [show ofNew p (.of (.task q) x) = .of .building x from if_pos hq, hq.1]
        rfl
      · rw [show ofNew p (.of (.task q) x) = .of (.task q) x from if_neg hq]
        rfl

/-- The page in hand becomes a pipe. -/
theorem toPipe (h : Sound L m pipes env) (hmem : env .building = { mem := some g })
    (hb : env' .building = {}) (hk : ∀ k, k ≠ .building → env' k = env k)
    (hg : pipes' g = true) (hpipes : ∀ g', g' ≠ g → pipes' g' = pipes g') :
    Sound L m pipes' env' := by
  refine h.shift (Shift.move (a := .of .building .mem) (b := .pipe g) ?_ (spot_empty hb _) ?_)
  · simp only [Phys.spot, hg, if_true, hmem, Phys.place]
  · intro y hya hyb
    cases y with
    | free n => exact Or.inr rfl
    | pipe g' =>
      right
      simp only [Phys.spot, hpipes g' fun h => hyb (h ▸ rfl)]
    | of k x =>
      by_cases hkb : k = .building
      · subst hkb
        exact Or.inl (spot_empty hb x)
      · exact Or.inr (by cases x <;> simp only [Phys.spot, hk k hkb])

/-- The page of a pipe comes into hand. -/
theorem ofPipe (h : Sound L m pipes env) (hb : env' .building = { mem := some g }) (hk : ∀ k, k ≠ .building → env' k = env k)
    (hg : pipes g = true) (hg' : pipes' g = false)
    (hpipes : ∀ g', g' ≠ g → pipes' g' = pipes g') : Sound L m pipes' env' := by
  refine h.shift (Shift.move (a := .pipe g) (b := .of .building .mem) ?_ ?_ ?_)
  · simp only [Phys.spot, hg, if_true, hb, Phys.place]
  · simp only [Phys.spot, hg', Bool.false_eq_true, if_false]
  · intro y hya hyb
    cases y with
    | free n => exact Or.inr rfl
    | pipe g' =>
      right
      simp only [Phys.spot, hpipes g' fun h => hya (h ▸ rfl)]
    | of k x =>
      by_cases hkb : k = .building
      · subst hkb
        left
        cases x with
        | mem => exact absurd rfl hyb
        | _ => simp only [Phys.spot, hb, Phys.place, Option.bind_none, ite_self]
      · exact Or.inr (by cases x <;> simp only [Phys.spot, hk k hkb])

end Sound

end

end StrideXv6
