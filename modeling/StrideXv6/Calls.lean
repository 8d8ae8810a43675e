import StrideXv6.Holdings
import StrideXv6.Loading
import StrideXv6.Tasks

/-!
# What the calls do to memory

For each call what it does to the pages of the process it is about, and then to
those of the whole machine: `Kept` is what every call keeps, whether there is memory
left or not.
-/

namespace StrideXv6

open Bytes Effect Placement Memory

/-! ## On the pages -/

section

variable {L : Layout} {m m' : Phys} {e : Env} {d v g cur : ℕ}

/-- `forks` on the pages. -/
theorem Owned.forkPages (h : Owned L m {}) {p sz : ℕ} (hfrozen : Frozen L m {} p)
    (hsz : sz ≤ KERNBASE) :
    Gives (forkPages L p sz) m
      (fun r m' => (r = none ∧ Works L m m' {} {}) ∨
        ∃ st d, r = some (st, d) ∧ Works L m m' {} { dir := some d, stack := some st } ∧
          ∀ v, v < pgroundup sz → m'.mapped d v ≠ none)
      fun q _ => (q = .pteShouldExist ∨ q = .pageNotPresent) ∧
        ∃ v, v < pgroundup sz ∧ m.mapped p v = none := by
  have hpages := pgroundup_le hsz
  have hnpage : KERNPAGE < NPAGE := by decide
  unfold Memory.forkPages
  rw [gives_bind, gives_kalloc]
  refine ⟨fun _ => gives_pure.mpr (Or.inl ⟨rfl, Works.refl⟩), fun st free hfree => ?_⟩
  have htake := Owned.takeStack (L := L) (e := {}) hfree rfl
  have h1 := h.works htake
  obtain ⟨hparent, hfrozen'⟩ := htake.frozen hfrozen
  refine (h1.copyuvm rfl rfl rfl hfrozen' hsz).bind ?_ ?_
  · rintro r m1 (⟨rfl, hwork⟩ | ⟨d, rfl, hwork, -, hcopied, -⟩)
    · have h2 := h1.works hwork
      obtain ⟨hlo, hhi⟩ := h2.ranged st ⟨.stack, rfl⟩
      dsimp only
      rw [gives_bind, gives_kfree hlo hhi, gives_pure]
      exact Or.inl ⟨rfl, htake.trans (hwork.trans (h2.giveStack rfl))⟩
    · exact gives_pure.mpr (Or.inr ⟨st, d, rfl, htake.trans hwork,
        fun v hv => (hcopied v hv).mapped⟩)
  · rintro q _ ⟨hq, v, hv, hnone⟩
    refine ⟨hq, v, hv, ?_⟩
    rwa [Phys.mapped_eq, hparent v (by omega), ← Phys.mapped_eq] at hnone

/-- Whether `fork` loses a page is known from the number of free pages and the size. -/
theorem Owned.forkPages_ample (h : Owned L m {}) {p sz : ℕ} (hsz : sz ≤ KERNBASE) :
    Gives (Memory.forkPages L p sz) m
      (fun _ m' => m'.lost = m.lost ↔ Ample (m.free.length - 1) (pgroundup sz))
      fun _ _ => True := by
  unfold Memory.forkPages
  rw [gives_bind, gives_kalloc]
  refine ⟨fun hnil => ?_, fun st free hfree => ?_⟩
  · rw [gives_pure, hnil]
    exact iff_of_true rfl (Or.inl rfl)
  · rw [hfree, List.length_cons, Nat.add_sub_cancel]
    refine ((h.works (Owned.takeStack hfree rfl)).copyuvm_ample rfl rfl rfl hsz).bind ?_
      fun _ _ _ => trivial
    intro r m2 hiff
    cases r with
    | some d => exact gives_pure.mpr hiff
    | none =>
      -- nothing is recorded by `kfree`
      refine ((adds_kfree (S := fun _ => False)).gives m2).bind ?_ fun _ _ _ => trivial
      intro _ m3 hadd
      rw [gives_pure, lost_of_adds hadd fun _ => id]
      exact hiff

/-- What `growproc` leaves. -/
structure Resized (L : Layout) (m m' : Phys) (e : Env) (d sz : ℕ) (n : ℤ) (r : Option ℕ) :
    Prop where
  works : Works L m m' e e
  le : ∀ sz', r = some sz' → sz' ≤ KERNBASE
  /-- what is below the size stays mapped, unless the last page gets no page table or the
  size should be 0 -/
  mapped : (0 < n → ¬m.Starving d sz (sz + n).toNat) → (sz : ℤ) + n ≠ 0 ∨ n = 0 →
    (∀ v, v < pgroundup sz → m.mapped d v ≠ none) →
    ∀ v, v < pgroundup (r.getD sz) → m'.mapped d v ≠ none

theorem Owned.growPages (h : Owned L m e) (hmem : e.mem = none) (hd : e.dir = some d)
    (hlow : e.low = 0) {sz : ℕ} (hsz : sz ≤ KERNBASE) {n : ℤ} (hn : -2147483648 ≤ n)
    (hn' : n ≤ Word32.intMax) : Gives (growPages L d sz n) m (fun r m' => Resized L m m' e d sz n r) fun p _ => p = .remap := by
  have hpages := pgroundup_le hsz
  have hnpage : KERNPAGE < NPAGE := by decide
  unfold Memory.growPages
  split
  · next hpos =>
    refine ((h.allocuvm hmem hd hlow).and (h.allocuvm_last hmem hd hlow)).bind ?_
      fun _ _ h => h.1.1
    rintro r m1 ⟨⟨hwork, l, -, -, ha⟩, hlast⟩
    rw [gives_pure]
    -- what is below the old size is not touched
    have hkeep : ∀ {newsz : ℕ}, m.Touches m1 d {v | pgroundup sz ≤ v ∧ v < pgroundup newsz} →
        ∀ v, v < pgroundup sz → m1.mapped d v = m.mapped d v := by
      intro newsz htouch v hv
      refine htouch.mapped (by omega) fun hin => ?_
      have := hin.1
      omega
    cases ha with
    | failed htouch _ =>
      refine ⟨hwork, nofun, fun _ _ hmap v hv => ?_⟩
      rw [hkeep htouch v hv]
      exact hmap v hv
    | nothing hlt heq =>
      subst heq
      rw [if_neg (by omega)]
      refine ⟨hwork, fun sz' hr => ?_, fun _ _ hmap => hmap⟩
      obtain rfl := Option.some.inj hr
      exact hsz
    | grown hle hnew hgrown =>
      split
      · refine ⟨hwork, nofun, fun _ _ hmap v hv => ?_⟩
        rw [hkeep hgrown.touches v hv]
        exact hmap v hv
      · refine ⟨hwork, fun sz' hr => ?_, fun hfed _ hmap v hv => ?_⟩
        · obtain rfl := Option.some.inj hr
          exact hnew.le
        · by_cases hlt : v < pgroundup sz
          · rw [hkeep hgrown.touches v hlt]
            exact hmap v hlt
          · rcases Building.backed_of_grownAt (hgrown.pages v (by omega) hv) with ⟨g, -, -, hg⟩ | ⟨hs, -⟩
            · rw [hg]
              nofun
            · -- only the last page can be without a page table
              change v < pgroundup (uint (sz + n)) at hv
              have hv' : v = pgroundup (uint (sz + n)) - 1 := by
                have := hgrown.starved v hs
                omega
              have hsum : uint (sz + n) = (sz + n).toNat := by
                unfold uint
                unfold KERNBASE at hsz
                unfold Word32.intMax at hn'
                omega
              rw [hv']
              exact hlast rfl hle hnew (by omega) (hsum ▸ hfed hpos)
  · split
    · next hneg =>
      refine (h.deallocuvm hmem hd hlow hsz).bind ?_ nofun
      rintro r m1 ⟨rfl, hdone⟩
      rw [gives_pure]
      have hkeep : ∀ v, v < pgroundup sz → v < pgroundup (uint (sz + n)) →
          m1.mapped d v = m.mapped d v := by
        intro v hv hv'
        rw [Phys.mapped_eq, hdone.outside v (by omega) (Or.inl hv'), Phys.mapped_eq]
      have huint : uint (sz + n) = 0 → (sz : ℤ) + n = 0 := by
        unfold uint
        unfold KERNBASE at hsz
        omega
      have hmono : ∀ {a b : ℕ}, a ≤ b → pgroundup a ≤ pgroundup b := by
        intro a b hab
        unfold pgroundup
        omega
      by_cases hge : uint (sz + n) ≥ sz
      · -- the sum wrapped around: nothing is done
        have := hmono hge
        rw [if_pos hge]
        have hr : ∀ sz', (if sz = 0 then none else some sz) = some sz' → sz' = sz := by
          intro sz' hr
          split at hr
          · cases hr
          · exact (Option.some.inj hr).symm
        have hgetD : (if sz = 0 then none else some sz).getD sz = sz := by
          split <;> rfl
        refine ⟨hdone.works, fun sz' hr' => by rw [hr sz' hr']; exact hsz, fun _ _ hmap v hv => ?_⟩
        rw [hgetD] at hv
        rw [hkeep v hv (by omega)]
        exact hmap v hv
      · have := hmono (show uint (sz + n) ≤ sz by omega)
        rw [if_neg hge]
        refine ⟨hdone.works, fun sz' hr => ?_, fun _ hcond hmap v hv => ?_⟩
        · split at hr
          · cases hr
          · obtain rfl := Option.some.inj hr
            omega
        · rw [if_neg fun h0 => hcond.elim (fun hne => hne (huint h0)) (by omega)] at hv
          change v < pgroundup (uint (sz + n)) at hv
          rw [hkeep v (by omega) hv]
          exact hmap v (by omega)
    · rw [gives_pure]
      refine ⟨Works.refl, fun sz' hr => ?_, fun _ _ hmap => hmap⟩
      obtain rfl := Option.some.inj hr
      exact hsz

/-- `wait` on the pages. -/
theorem Owned.reapPages {st : ℕ} (h : Owned L m { dir := some d, stack := some st }) :
    Gives (reapPages L st d) m
      (fun _ m' => Works L m m' { dir := some d, stack := some st } {}) fun _ _ => False := by
  obtain ⟨hlo, hhi⟩ := h.ranged st ⟨.stack, rfl⟩
  have hgive := h.giveStack rfl
  unfold Memory.reapPages
  rw [gives_bind, gives_kfree hlo hhi]
  refine ((h.works hgive).freevm rfl rfl rfl).mono ?_ nofun
  rintro _ m' ⟨hfree, -⟩
  exact hgive.trans hfree

end

/-! ## On the machine -/

section

variable {ι : Type}

/-- The places of a process. The page directory of one that is gone does not count. -/
def Memory.Task.env (t : Task ι) : Env :=
  match t.life with
  | .live | .zombie => { dir := some t.pgdir, stack := t.kstack }
  | .unused | .embryo => { stack := t.kstack }

namespace Memory.Machine

/-- The places of everybody. -/
def env (s : Machine ι) : Owner ι → Env
  | .kernel => { dir := some s.kpgdir }
  | .building => {}
  | .task p => (s.task p).env

/-- Which pages are pipes. -/
def isPipe (s : Machine ι) (g : ℕ) : Bool := (s.pipes g).isSome

end Memory.Machine

/-- The entry of a process makes sense. -/
structure Memory.Task.Fit (t : Task ι) : Prop where
  /-- a process has a kernel stack until it is waited for -/
  stack : t.life = .live ∨ t.life = .zombie → t.kstack ≠ none
  unused : t.life = .unused → t.kstack = none
  size : t.sz ≤ KERNBASE

/-- What every call keeps. -/
structure Kept (L : Layout) (s : Machine ι) : Prop where
  sound : Sound L s.phys s.isPipe s.env
  fit : ∀ p, (s.task p).Fit

/-- Every page below the size of a live process is mapped. -/
def Whole (s : Machine ι) : Prop :=
  ∀ p, (s.task p).life = .live → ∀ v, v < pgroundup (s.task p).sz →
    s.phys.mapped (s.task p).pgdir v ≠ none

variable {L : Layout} {s : Machine ι} {E : VmPanic → Machine ι → Prop} {p q : ι}

theorem gives_onPhys {α : Type} {c : Vm α} {Q : α → Machine ι → Prop} :
    Gives (onPhys c) s Q E ↔ Gives c s.phys (fun a m => Q a { s with phys := m })
      fun e m => E e { s with phys := m } := by
  unfold Gives Eff.exec onPhys
  dsimp only
  rcases c s.phys with ⟨_ | _, m⟩ <;> exact Iff.rfl

theorem env_of_live (h : (s.task p).life = .live) :
    s.env (.task p) = { dir := some (s.task p).pgdir, stack := (s.task p).kstack } := by
  simp only [Machine.env, Task.env, h]

theorem env_of_zombie (h : (s.task p).life = .zombie) :
    s.env (.task p) = { dir := some (s.task p).pgdir, stack := (s.task p).kstack } := by
  simp only [Machine.env, Task.env, h]

theorem Kept.env_of_unused (hs : Kept L s) (h : (s.task p).life = .unused) :
    s.env (.task p) = {} := by
  simp only [Machine.env, Task.env, h, (hs.fit p).unused h]

/-- What is done for one owner does not unmap the pages of another. -/
theorem Sound.mapped_other {m m' : Phys} {pipes : ℕ → Bool} {env : Owner ι → Env}
    (h : Sound L m pipes env) {k k' : Owner ι} {e' : Env} {d v : ℕ} (hw : Works L m m' (env k) e')
    (hk : k' ≠ k) (hd : (env k').dir = some d) (hlow : (env k').low = 0) (hv : v < KERNPAGE) :
    m'.mapped d v = m.mapped d v := by
  have hother := h.place_other hw hk (x := .user v) nofun
  rwa [Phys.place_user_of_dir hd hlow hv, Phys.place_user_of_dir hd hlow hv] at hother

theorem Kept.mapped_other (hs : Kept L s) {m' : Phys} {k : Owner ι} {e' : Env}
    (hw : Works L s.phys m' (s.env k) e') (hk : .task q ≠ k) (hq : (s.task q).life = .live) {v : ℕ}
    (hv : v < KERNPAGE) : m'.mapped (s.task q).pgdir v = s.phys.mapped (s.task q).pgdir v :=
  hs.sound.mapped_other hw hk (by rw [env_of_live hq]) (by rw [env_of_live hq]) hv

theorem Kept.lt_of_page (hs : Kept L s) {v : ℕ} (hv : v < pgroundup (s.task p).sz) :
    v < KERNPAGE := by
  have := pgroundup_le (hs.fit p).size
  omega

variable [DecidableEq ι]

theorem env_setTask {t : Memory.Task ι} :
    (s.setTask p t).env = Function.update s.env (.task p) t.env := by
  funext k
  match k with
  | .kernel => exact (Function.update_of_ne (show Owner.kernel ≠ .task p from nofun) _ _).symm
  | .building => exact (Function.update_of_ne (show Owner.building ≠ .task p from nofun) _ _).symm
  | .task q =>
    by_cases hq : q = p
    · subst hq
      simp only [Machine.env, Machine.setTask, Function.update_self]
    · have hne : Owner.task q ≠ .task p := fun h => hq (Owner.task.inj h)
      simp only [Machine.env, Machine.setTask, Function.update_of_ne hq, Function.update_of_ne hne]

/-- The entry of one process changes, and the memory it has to do with. -/
theorem Kept.setTask (hs : Kept L s) {m' : Phys} {t : Memory.Task ι}
    (hw : Works L s.phys m' (s.env (.task p)) t.env)
    (ht : t.Fit) : Kept L ({ s with phys := m' }.setTask p t) := by
  refine ⟨?_, fun q => ?_⟩
  · rw [env_setTask]
    exact hs.sound.works hw
  · by_cases hq : q = p
    · subst hq
      simpa only [Machine.setTask, Function.update_self] using ht
    · simpa only [Machine.setTask, Function.update_of_ne hq] using hs.fit q

theorem Whole.setTask (hs : Kept L s) (hwhole : Whole s) {m' : Phys} {t : Memory.Task ι}
    (hw : Works L s.phys m' (s.env (.task p)) t.env)
    (ht : t.life = .live → ∀ v, v < pgroundup t.sz → m'.mapped t.pgdir v ≠ none) :
    Whole ({ s with phys := m' }.setTask p t) := by
  intro q hq v hv
  by_cases hqp : q = p
  · subst hqp
    simp only [Machine.setTask, Function.update_self] at hq hv ⊢
    exact ht hq v hv
  · simp only [Machine.setTask, Function.update_of_ne hqp] at hq hv ⊢
    rw [hs.mapped_other hw (fun h => hqp (Owner.task.inj h)) hq (hs.lt_of_page hv)]
    exact hwhole q hq v hv

/-- Memory changes in the part of one owner, and nothing else. -/
theorem Kept.phys (hs : Kept L s) {m' : Phys} {k : Owner ι}
    (hw : Works L s.phys m' (s.env k) (s.env k)) : Kept L { s with phys := m' } := by
  have hsound := hs.sound.works hw
  rw [Function.update_eq_self] at hsound
  exact ⟨hsound, hs.fit⟩

theorem Whole.phys (hs : Kept L s) (hwhole : Whole s) {m' : Phys} {k : Owner ι}
    (hw : Works L s.phys m' (s.env k) (s.env k))
    (hk : ∀ p, k = .task p → (s.task p).life = .live → ∀ v, v < pgroundup (s.task p).sz →
      m'.mapped (s.task p).pgdir v ≠ none) : Whole { s with phys := m' } := by
  intro q hq v hv
  by_cases hqk : k = .task q
  · exact hk q hqk hq v hv
  · rw [hs.mapped_other hw (Ne.symm hqk) hq (hs.lt_of_page hv)]
    exact hwhole q hq v hv

omit [DecidableEq ι] in
/-- The page tables of a process are not among the pages that `fork` works on. -/
theorem Kept.frozen (hs : Kept L s) (hp : (s.task p).life = .live) {k : Owner ι}
    (hk : .task p ≠ k) : Frozen L s.phys (s.env k) (s.task p).pgdir := by
  have henv := env_of_live hp
  rintro g (rfl | ⟨i, hi, hg⟩)
  · have hat : s.phys.spot s.isPipe s.env (.of (.task p) .dir) = some (s.task p).pgdir := by
      simp only [Phys.spot, henv, Phys.place]
    exact ⟨(hs.sound.ranged _ ⟨_, hat⟩).1, hs.sound.not_holds hat (Sound.at_ne hk)⟩
  · have hat : s.phys.spot s.isPipe s.env (.of (.task p) (.table i)) = some g := by
      change s.phys.place (s.env (.task p)) (.table i) = some g
      rw [henv, Phys.place_table_of_dir rfl (Nat.zero_le _) hi, hg]
    exact ⟨(hs.sound.ranged _ ⟨_, hat⟩).1, hs.sound.not_holds hat (Sound.at_ne hk)⟩

/-- `fork`. -/
theorem Kept.forks (hs : Kept L s) (hp : (s.task p).life = .live) {np : Option ι}
    (hnp : ∀ q, np = some q → (s.task q).life = .unused) :
    Gives (Memory.forks L p np) s
      (fun ok s' => Kept L s' ∧ (Whole s → Whole s') ∧
        (ok = false → Works L s.phys s'.phys {} {}))
      fun q _ => (q = .pteShouldExist ∨ q = .pageNotPresent) ∧
        ∃ v, v < pgroundup (s.task p).sz ∧ s.phys.mapped (s.task p).pgdir v = none := by
  cases np with
  | none => exact gives_pure.mpr ⟨hs, id, fun _ => Works.refl⟩
  | some np =>
    have hun := hnp np rfl
    have henv := hs.env_of_unused hun
    have hne : Owner.task p ≠ .task np := by
      intro h
      rw [Owner.task.inj h, hun] at hp
      cases hp
    have howned := hs.sound.owned (.task np)
    have hfrozen := hs.frozen hp hne
    rw [henv] at howned hfrozen
    rw [Memory.forks, gives_bind, gives_get]
    dsimp only
    rw [gives_bind, gives_onPhys]
    refine (howned.forkPages hfrozen (hs.fit p).size).mono ?_ fun _ _ h => h
    rintro r m' (⟨rfl, hwork⟩ | ⟨st, d, rfl, hwork, hmapped⟩)
    · dsimp only
      rw [gives_pure]
      refine ⟨hs.phys (k := .building) hwork, fun hwhole => ?_, fun _ => hwork⟩
      exact hwhole.phys hs (k := .building) hwork nofun
    · dsimp only
      rw [gives_bind, gives_modify, gives_pure]
      rw [← henv] at hwork
      refine ⟨hs.setTask hwork ⟨fun _ => nofun, nofun, (hs.fit p).size⟩, fun hwhole => ?_, nofun⟩
      exact hwhole.setTask hs hwork fun _ => hmapped

/-- `growproc`. -/
theorem Kept.growproc (hs : Kept L s) (hp : (s.task p).life = .live) {n : ℤ}
    (hn : -2147483648 ≤ n) (hn' : n ≤ Word32.intMax) : Gives (growproc L p n) s
      (fun _ s' => Kept L s' ∧
        ((0 < n → ¬s.phys.Starving (s.task p).pgdir (s.task p).sz ((s.task p).sz + n).toNat) →
          ((s.task p).sz : ℤ) + n ≠ 0 ∨ n = 0 → Whole s → Whole s')) fun q _ => q = .remap := by
  have henv := env_of_live hp
  have hdir : (s.env (.task p)).dir = some (s.task p).pgdir := by rw [henv]
  have hmem : (s.env (.task p)).mem = none := by rw [henv]
  have hlow : (s.env (.task p)).low = 0 := by rw [henv]
  rw [Memory.growproc, gives_bind, gives_get]
  dsimp only
  rw [gives_bind, gives_onPhys]
  refine ((hs.sound.owned (.task p)).growPages hmem hdir hlow (hs.fit p).size hn hn').mono ?_
    fun _ _ h => h
  intro r m' hr
  cases r with
  | none =>
    dsimp only
    rw [gives_pure]
    refine ⟨hs.phys hr.works, fun hfed hcond hwhole => hwhole.phys hs hr.works ?_⟩
    rintro q hq -
    obtain rfl := Owner.task.inj hq
    exact hr.mapped hfed hcond (hwhole p hp)
  | some sz =>
    dsimp only
    rw [gives_bind, gives_modify, gives_pure]
    have hfit := hs.fit p
    refine ⟨hs.setTask hr.works ⟨hfit.stack, hfit.unused, hr.le sz rfl⟩,
      fun hfed hcond hwhole => ?_⟩
    exact hwhole.setTask hs hr.works fun _ => hr.mapped hfed hcond (hwhole p hp)

/-- `wait`. -/
theorem Kept.wait (hs : Kept L s) (hq : (s.task q).life = .zombie) :
    Gives (wait L q) s (fun _ s' => Kept L s' ∧ (Whole s → Whole s')) fun _ _ => False := by
  obtain ⟨st, hst⟩ := Option.ne_none_iff_exists'.mp ((hs.fit q).stack (Or.inr hq))
  have henv := env_of_zombie hq
  rw [hst] at henv
  have howned := hs.sound.owned (.task q)
  rw [henv] at howned
  rw [Memory.wait, gives_bind, gives_get]
  dsimp only
  rw [gives_bind, gives_onPhys, hst]
  refine howned.reapPages.mono ?_ nofun
  intro _ m' hwork
  rw [gives_modify]
  rw [← henv] at hwork
  exact ⟨hs.setTask hwork ⟨nofun, fun _ => rfl, (hs.fit q).size⟩,
    fun hwhole => hwhole.setTask hs hwork nofun⟩

/-- `exit` only marks the process. -/
theorem Kept.exit (hs : Kept L s) (hp : (s.task p).life = .live) {initproc : ι} :
    Gives (Memory.exit initproc p) s (fun _ s' => Kept L s' ∧ (Whole s → Whole s'))
      fun q _ => q = .initExiting := by
  unfold Memory.exit
  split
  · exact gives_throw.mpr rfl
  · rw [gives_modify]
    -- only the marks change
    let t : ι → Memory.Task ι := fun q =>
      let t := s.task q
      let t := if t.parent = some p then { t with parent := some initproc } else t
      if q = p then { t with life := .zombie } else t
    have hsame : ∀ q, (t q).pgdir = (s.task q).pgdir ∧ (t q).kstack = (s.task q).kstack ∧
        (t q).sz = (s.task q).sz ∧
        (((s.task q).life = .live ∧ (t q).life = .zombie) ∨ (t q).life = (s.task q).life) := by
      intro q
      by_cases hqp : q = p
      · subst hqp
        simp only [t, if_true]
        split <;> exact ⟨rfl, rfl, rfl, Or.inl ⟨hp, trivial⟩⟩
      · simp only [t, if_neg hqp]
        split <;> exact ⟨rfl, rfl, rfl, Or.inr rfl⟩
    change Kept L { s with task := t } ∧ (Whole s → Whole { s with task := t })
    refine ⟨⟨?_, fun q => ?_⟩, fun hwhole q hq v hv => ?_⟩
    · have henv : ({ s with task := t } : Machine ι).env = s.env := by
        funext k
        match k with
        | .kernel => rfl
        | .building => rfl
        | .task q =>
          obtain ⟨hpgdir, hkstack, -, hlife⟩ := hsame q
          rcases hlife with ⟨hl, hl'⟩ | hl
          · simp only [Machine.env, Task.env, hpgdir, hkstack, hl, hl']
          · simp only [Machine.env, Task.env, hpgdir, hkstack, hl]
      rw [henv]
      exact hs.sound
    · obtain ⟨-, hkstack, hsz, hlife⟩ := hsame q
      have hfit := hs.fit q
      change (t q).Fit
      rcases hlife with ⟨hl, hl'⟩ | hl
      · refine ⟨fun _ => hkstack ▸ hfit.stack (Or.inl hl), fun h => ?_, hsz ▸ hfit.size⟩
        rw [hl'] at h
        cases h
      · exact ⟨hl ▸ hkstack ▸ hfit.stack, hl ▸ hkstack ▸ hfit.unused, hsz ▸ hfit.size⟩
    · obtain ⟨hpgdir, -, hsz, hlife⟩ := hsame q
      change (t q).life = .live at hq
      change v < pgroundup (t q).sz at hv
      change s.phys.mapped (t q).pgdir v ≠ none
      rcases hlife with ⟨-, hl'⟩ | hl
      · rw [hl'] at hq
        cases hq
      · rw [hpgdir]
        exact hwhole q (hl ▸ hq) v (hsz ▸ hv)

/-- A store of user code hits a user page. -/
theorem Kept.userStore (hs : Kept L s) (hp : (s.task p).life = .live) {va : ℕ} {b : Byte}
    (hva : va < KERNBASE) :
    Gives (userStore p va b) s (fun _ s' => Kept L s' ∧ (Whole s → Whole s'))
      fun _ _ => False := by
  have henv := env_of_live hp
  have hdir : (s.env (.task p)).dir = some (s.task p).pgdir := by rw [henv]
  have hlow : (s.env (.task p)).low = 0 := by rw [henv]
  have hv : va / 4096 < KERNPAGE := by
    unfold KERNBASE at hva
    unfold KERNPAGE
    omega
  have hnpage : KERNPAGE < NPAGE := by decide
  unfold Memory.userStore
  rw [gives_modify]
  split
  · next x hx =>
    split
    · next hbits =>
      have hmapped : s.phys.mapped (s.task p).pgdir (va / 4096) = some (pteAddr x) := by
        rw [Phys.mapped_eq, hx]
        exact if_pos hbits.1
      have hstored := (hs.sound.owned (.task p)).stored hdir hlow hv hmapped
        (b := splice (s.phys.byte (pteAddr x)) (va % 4096) 1 fun _ => b)
      refine ⟨hs.phys hstored.works, fun hwhole => hwhole.phys hs hstored.works ?_⟩
      rintro q hq hlive v hv
      obtain rfl := Owner.task.inj hq
      have := hs.lt_of_page hv
      rw [Phys.store, Phys.mapped_eq, hstored.walk v (by omega), ← Phys.mapped_eq]
      exact hwhole p hlive v hv
    · exact ⟨hs, id⟩
  · exact ⟨hs, id⟩

omit [DecidableEq ι] in
/-- Processes do not change. -/
theorem Whole.congr {s' : Machine ι} (hs : Kept L s) (hwhole : Whole s) (htask : s'.task = s.task)
    (hmapped : ∀ q, (s.task q).life = .live → ∀ v, v < KERNPAGE →
      s'.phys.mapped (s.task q).pgdir v = s.phys.mapped (s.task q).pgdir v) : Whole s' := by
  intro q hq v hv
  rw [htask] at hq hv ⊢
  rw [hmapped q hq v (hs.lt_of_page hv)]
  exact hwhole q hq v hv

/-- A page becomes a pipe. -/
theorem Kept.newPipe (hs : Kept L s) {g : ℕ} {free : List ℕ} (hfree : s.phys.free = g :: free)
    (pi : Pipe) :
    Kept L (({ s with phys := s.phys.setFree free } : Machine ι).setPipe g (some pi)) ∧
      (Whole s → Whole (({ s with phys := s.phys.setFree free } : Machine ι).setPipe g (some pi))) := by
  have hwork : Works L s.phys (s.phys.setFree free) (s.env .building) { mem := some g } :=
    Owned.takeMem hfree rfl
  refine ⟨⟨?_, hs.fit⟩, fun hwhole => hwhole.congr hs rfl fun q hq v hv => ?_⟩
  · refine (hs.sound.works hwork).toPipe (Function.update_self _ _ _) rfl (fun k hk => ?_) ?_ ?_
    · rw [Function.update_of_ne hk]
      cases k <;> rfl
    · simp only [Machine.isPipe, Machine.setPipe, Function.update_self, Option.isSome_some]
    · intro g' hg'
      simp only [Machine.isPipe, Machine.setPipe, Function.update_of_ne hg']
  · exact hs.mapped_other hwork nofun hq hv

/-- `pipeclose`. -/
theorem Kept.pipeclose (hs : Kept L s) {g : ℕ} {writable : Bool} :
    Gives (pipeclose L g writable) s (fun _ s' => Kept L s' ∧ (Whole s → Whole s'))
      fun _ _ => False := by
  rw [Memory.pipeclose, gives_bind, gives_get]
  cases hg : s.pipes g with
  | none => exact gives_pure.mpr ⟨hs, id⟩
  | some pi =>
    have hpipe : s.isPipe g = true := by
      rw [Machine.isPipe, hg]
      rfl
    dsimp only
    generalize (if writable then { pi with writeopen := false } else
      { pi with readopen := false } : Pipe) = pi'
    split
    · -- the page comes into hand, and is given back
      rw [gives_bind, gives_modify, gives_onPhys]
      have hsound : Sound L s.phys (s.setPipe g none).isPipe
          (Function.update s.env .building { mem := some g }) := by
        refine hs.sound.ofPipe (Function.update_self _ _ _)
          (fun k hk => Function.update_of_ne hk _ _) hpipe ?_ fun g' hg' => ?_
        · simp only [Machine.isPipe, Machine.setPipe, Function.update_self, Option.isSome_none]
        · simp only [Machine.isPipe, Machine.setPipe, Function.update_of_ne hg']
      have howned := hsound.owned .building
      rw [Function.update_self] at howned
      obtain ⟨hlo, hhi⟩ := howned.ranged g ⟨.mem, rfl⟩
      rw [gives_kfree (m := (s.setPipe g none).phys) hlo hhi]
      have hwork := howned.giveMem rfl
      have hafter := hsound.works (k := .building) (by rw [Function.update_self]; exact hwork)
      have hback : Function.update (Function.update s.env .building { mem := some g }) .building
          ({} : Env) = s.env := by
        rw [Function.update_idem]
        exact Function.update_eq_self Owner.building s.env
      dsimp only at hafter
      rw [hback] at hafter
      refine ⟨⟨hafter, hs.fit⟩, fun hwhole => hwhole.congr hs rfl fun q hq v hv => ?_⟩
      have hne : Owner.task q ≠ .building := nofun
      refine hsound.mapped_other (k := .building) (by rw [Function.update_self]; exact hwork) hne
        ?_ ?_ hv
      · rw [Function.update_of_ne hne, env_of_live hq]
      · rw [Function.update_of_ne hne, env_of_live hq]
    · rw [gives_modify]
      refine ⟨⟨?_, hs.fit⟩, fun hwhole => hwhole.congr hs rfl fun _ _ _ _ => rfl⟩
      have hsame : (s.setPipe g (some pi')).isPipe = s.isPipe := by
        funext g'
        by_cases hg' : g' = g
        · subst hg'
          simp only [Machine.isPipe, Machine.setPipe, Function.update_self, hg, Option.isSome_some]
        · simp only [Machine.isPipe, Machine.setPipe, Function.update_of_ne hg']
      rw [hsame]
      exact hs.sound

/-- `sys_pipe`. -/
theorem Kept.sysPipe (hs : Kept L s) {files fds : Bool} :
    Gives (Memory.sysPipe L files fds) s (fun _ s' => Kept L s' ∧ (Whole s → Whole s'))
      fun _ _ => False := by
  unfold Memory.sysPipe
  split
  · rw [gives_bind, gives_onPhys, gives_kalloc]
    refine ⟨fun _ => gives_pure.mpr ⟨hs, id⟩, fun g free hfree => ?_⟩
    obtain ⟨hnew, hwhole⟩ := hs.newPipe hfree {}
    dsimp only
    rw [gives_bind, gives_modify]
    split
    · exact gives_pure.mpr ⟨hnew, hwhole⟩
    · refine hnew.pipeclose.bind ?_ nofun
      rintro _ s1 ⟨hs1, hw1⟩
      refine hs1.pipeclose.bind ?_ nofun
      rintro _ s2 ⟨hs2, hw2⟩
      exact gives_pure.mpr ⟨hs2, hw2 ∘ hw1 ∘ hwhole⟩
  · exact gives_pure.mpr ⟨hs, id⟩

/-- `exec` commits: the new address space takes the place of the old one. -/
theorem Kept.commit (hs : Kept L s) (hp : (s.task p).life = .live) {m1 : Phys} {d sz : ℕ}
    {suits : Prop} (hbuilt : Works L s.phys m1 {} { dir := some d }) (hsz : sz < KERNBASE)
    (hmapped : suits → ∀ v, v < pgroundup sz → m1.mapped d v ≠ none) :
    Gives (freevm L (s.task p).pgdir) m1 (fun _ m' =>
      Kept L ({ s with phys := m' }.setTask p { s.task p with pgdir := d, sz := sz }) ∧
        (suits → Whole s →
          Whole ({ s with phys := m' }.setTask p { s.task p with pgdir := d, sz := sz })))
      fun _ _ => False := by
  have henv := env_of_live hp
  have hne : Owner.task p ≠ .building := nofun
  have hsound := hs.sound.works (k := .building) hbuilt
  have hold : Function.update s.env .building { dir := some d } (.task p) =
      { dir := some (s.task p).pgdir, stack := (s.task p).kstack } := by
    rw [Function.update_of_ne hne, henv]
  have howned := hsound.owned (.task p)
  rw [hold] at howned
  refine (howned.freevm rfl rfl rfl).mono ?_ nofun
  rintro _ m' ⟨hfree, -⟩
  have hwork : Works L m1 m' (Function.update s.env .building { dir := some d } (.task p))
      { stack := (s.task p).kstack } := by
    rw [hold]
    exact hfree
  have hsound' := hsound.works hwork
  have henv' : ({ s.task p with pgdir := d, sz := sz } : Memory.Task ι).env =
      { dir := some d, stack := (s.task p).kstack } := by
    simp only [Task.env, hp]
  have hpages := pgroundup_le hsz.le
  refine ⟨⟨?_, fun q => ?_⟩, fun hsuits hwhole q hq v hv => ?_⟩
  · refine hsound'.adopt (p := p) (d := d) ?_ (?_ : _ = ({ stack := (s.task p).kstack } : Env)) ?_ ?_ fun k hkp hkb => ?_
    · rw [Function.update_of_ne hne.symm, Function.update_self]
    · rw [Function.update_self]
    · rw [env_setTask, Function.update_self, henv']
    · rfl
    · rw [env_setTask, Function.update_of_ne hkp, Function.update_of_ne hkp,
        Function.update_of_ne hkb]
      cases k <;> rfl
  · by_cases hqp : q = p
    · subst hqp
      have hfit := hs.fit q
      simp only [Machine.setTask, Function.update_self]
      exact ⟨hfit.stack, hfit.unused, hsz.le⟩
    · simp only [Machine.setTask, Function.update_of_ne hqp]
      exact hs.fit q
  · by_cases hqp : q = p
    · subst hqp
      simp only [Machine.setTask, Function.update_self] at hv ⊢
      have hkeep : m'.mapped d v = m1.mapped d v := by
        refine hsound.mapped_other hwork hne.symm ?_ ?_ (by omega)
        · rw [Function.update_self]
        · rw [Function.update_self]
      rw [hkeep]
      exact hmapped hsuits v hv
    · simp only [Machine.setTask, Function.update_of_ne hqp] at hq hv ⊢
      have hpage := hs.lt_of_page hv
      have hqb : Owner.task q ≠ .building := nofun
      have hkeep : m'.mapped (s.task q).pgdir v = m1.mapped (s.task q).pgdir v := by
        have hqp' : Owner.task q ≠ .task p := fun h => hqp (Owner.task.inj h)
        refine hsound.mapped_other hwork hqp' ?_ ?_ hpage
        · rw [Function.update_of_ne hqb, env_of_live hq]
        · rw [Function.update_of_ne hqb, env_of_live hq]
      rw [hkeep, hs.mapped_other hbuilt hqb hq hpage]
      exact hwhole q hq v hv

/-- If there is a file, its last page gets a page table and the arguments fit into it. -/
def Memory.Suited (img : Option Image) (free : ℕ) (argv : List Arg) : Prop :=
  ∀ i, img = some i → i.Suits free i.pages argv

/-- `exec`. -/
theorem Kept.execCall (hs : Kept L s) (hp : (s.task p).life = .live) {img : Option Image}
    {junk : ℕ → Byte} {argv : List Arg} :
    Gives (execCall L p img junk argv) s
      (fun ok s' => (Wild s.phys s'.phys ∧ ∃ i, img = some i ∧ ¬Tame i) ∨
        (Told s.phys s'.phys ∧
          (∀ i, img = some i → i.type ≠ .dev → Ample s.phys.free.length i.pages →
            s'.phys.lost = s.phys.lost) ∧
          ((Nulled s.phys s'.phys ∧ ¬Suited img s.phys.free.length argv) ∨
            (Kept L s' ∧ (Suited img s.phys.free.length argv → Whole s → Whole s') ∧
              (ok = false → Works L s.phys s'.phys {} {})))))
      fun q s' => (Misled s.phys s'.phys q ∧
          ∀ i, img = some i → Tame i → ¬Ample s.phys.free.length i.pages) ∨
        (Memory.Quiet q ∧ Told s.phys s'.phys ∧
          (∀ i, img = some i → i.type ≠ .dev → Ample s.phys.free.length i.pages →
            s'.phys.lost = s.phys.lost) ∧
          Nulled s.phys s'.phys ∧ ¬Suited img s.phys.free.length argv) := by
  rw [Memory.execCall, gives_bind, gives_get, gives_bind, gives_onPhys]
  cases img with
  | none =>
    dsimp only [Memory.exec]
    rw [gives_pure]
    refine gives_pure.mpr (Or.inr ⟨⟨[], (List.append_nil _).symm, ?_⟩, fun _ hi => (by cases hi),
      Or.inr ⟨hs, fun _ => id, fun _ => Works.refl⟩⟩)
    exact (Course.start (L := L) fun n hn => absurd hn List.not_mem_nil).verdict
  | some img =>
    have howned : Owned L s.phys {} := hs.sound.owned .building
    have hsuits : Suited (some img) s.phys.free.length argv →
        img.Suits s.phys.free.length img.pages argv := fun h => h img rfl
    refine (howned.buildImage rfl rfl rfl).bind ?_ fun _ _ hp => hp.imp
      (fun hq => ⟨hq.1, by rintro i ⟨⟩; exact hq.2⟩)
      fun ⟨hquiet, htold, hlost, hnull, hout⟩ => ⟨hquiet, htold, by rintro i ⟨⟩; exact hlost, hnull,
        fun h => hout (hsuits h)⟩
    rintro r m1 (⟨hwild, huntame⟩ | ⟨htold, hlost, hbuilt⟩)
    · cases r with
      | none =>
        dsimp only
        rw [gives_pure]
        exact gives_pure.mpr (Or.inl ⟨hwild, img, rfl, huntame⟩)
      | some r =>
        refine (hwild.gives adds_freevm).bind (fun _ m2 hwild => ?_) fun _ _ h => Or.inl
          ⟨Or.inl h, by rintro i ⟨⟩ ht; exact absurd ht huntame⟩
        rw [gives_pure]
        dsimp only
        rw [gives_bind, gives_modify, gives_pure]
        exact Or.inl ⟨hwild, img, rfl, huntame⟩
    · have hlost1 : ∀ i, some img = some i → i.type ≠ .dev →
          Ample s.phys.free.length i.pages → m1.lost = s.phys.lost := by
        rintro i ⟨⟩
        exact hlost
      -- nothing is recorded by `freevm`
      have hlost2 : ∀ {m2 : Phys}, Adds (fun _ => False) m1 m2 → ∀ i, some img = some i →
          i.type ≠ .dev → Ample s.phys.free.length i.pages → m2.lost = s.phys.lost := by
        intro m2 hadd
        rw [lost_of_adds hadd fun _ => id]
        exact hlost1
      cases hbuilt with
      | nulled hnull hunsuited =>
        have hout := fun h => hunsuited (hsuits h)
        cases r with
        | none =>
          dsimp only
          rw [gives_pure]
          exact gives_pure.mpr (Or.inr ⟨htold, hlost1, Or.inl ⟨hnull, hout⟩⟩)
        | some r =>
          refine ((hnull.gives (F := Memory.Quiet) adds_freevm).and
            ((adds_freevm (S := fun _ => False)).gives m1)).bind ?_ ?_
          · rintro _ m2 ⟨hnull', hadd⟩
            rw [gives_pure]
            dsimp only
            rw [gives_bind, gives_modify, gives_pure]
            exact Or.inr ⟨htold.same hadd, hlost2 hadd, Or.inl ⟨hnull', hout⟩⟩
          · rintro q m2 ⟨hnull', hadd, hquiet⟩
            exact Or.inr ⟨hquiet, htold.same hadd, hlost2 hadd, hnull', hout⟩
      | bad hwork =>
        dsimp only
        rw [gives_pure]
        refine gives_pure.mpr (Or.inr ⟨htold, hlost1, Or.inr ⟨hs.phys (k := .building) hwork,
          fun _ hwhole => hwhole.phys hs (k := .building) hwork nofun, fun _ => hwork⟩⟩)
      | image hwork hsz hmapped =>
        refine ((hs.commit hp hwork hsz hmapped).and
          ((adds_freevm (S := fun _ => False)).gives m1)).bind ?_ fun _ _ h => h.1.elim
        rintro _ m2 ⟨⟨hkept, hwhole⟩, hadd⟩
        rw [gives_pure]
        dsimp only
        rw [gives_bind, gives_modify, gives_pure]
        exact Or.inr ⟨htold.same hadd, hlost2 hadd,
          Or.inr ⟨hkept, fun h => hwhole (hsuits h), nofun⟩⟩

end

end StrideXv6
