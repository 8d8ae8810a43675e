import StrideXv6.Ownership

/-!
# What the functions of `vm.c` do

One lemma for each function: what it does to the pages (`Works`), and what it does
to the address space, which is seen through `Phys.walk`, the page table entry a
virtual page has if it has a page table. Loops go by induction on the number of
pages that are left.
-/

namespace StrideXv6

open Bytes Effect Placement

/-! ## Views of an address space -/

/-- The page of an entry, if there is one and it is present. -/
def pageOf (x : Option ℕ) : Option ℕ :=
  x.bind fun x => if isPresent x then some (pteAddr x) else none

theorem pageOf_mkPte {g perm : ℕ} (hperm : perm < 4096) :
    pageOf (some (mkPte g (perm ||| PTE_P))) = some g := by
  unfold pageOf
  rw [Option.bind_some, if_pos isPresent_mkPte, pteAddr_mkPte (or_present_lt hperm)]

namespace Phys

variable {m m' m'' : Phys} {d v t j g x : ℕ} {b : ℕ → Byte} {S T : Set ℕ}

theorem mapped_eq : m.mapped d v = pageOf (m.walk d v) := by
  unfold mapped walk pageOf
  cases m.entry d (v / NPTENTRIES) <;> rfl

theorem walk_of_entry (h : m.entry d (v / NPTENTRIES) = some t) :
    m.walk d v = some (m.pte t (v % NPTENTRIES)) := by
  unfold walk
  rw [h]
  rfl

theorem mapped_of_entry (h : m.entry d (v / NPTENTRIES) = some t) :
    m.mapped d v = m.entry t (v % NPTENTRIES) := by
  unfold mapped
  rw [h]
  rfl

/-- From `m` to `m'` the address space `d` changes at the user pages in `S` only,
but there may be new page tables. -/
structure Touches (m m' : Phys) (d : ℕ) (S : Set ℕ) : Prop where
  users : ∀ v, v < KERNPAGE → v ∉ S →
    m'.walk d v = m.walk d v ∨ (m.walk d v = none ∧ m'.walk d v = some 0)
  kernel : ∀ v, KERNPAGE ≤ v → v < NPAGE → m'.walk d v = m.walk d v
  data : ∀ v g, v < KERNPAGE → v ∉ S → m.mapped d v = some g → m'.byte g = m.byte g

namespace Touches

theorem of_walk (h : ∀ v, v < NPAGE → m'.walk d v = m.walk d v)
    (hdata : ∀ v g, v < KERNPAGE → v ∉ S → m.mapped d v = some g → m'.byte g = m.byte g) :
    Touches m m' d S := by
  refine ⟨fun v hv _ => Or.inl (h v ?_), fun v _ hv => h v hv, hdata⟩
  unfold KERNPAGE NPAGE at *
  omega

theorem refl : Touches m m d S := of_walk (fun _ _ => rfl) fun _ _ _ _ _ => rfl

theorem mono (h : Touches m m' d S) (hST : ∀ v, v ∈ S → v ∈ T) : Touches m m' d T :=
  ⟨fun v hv hT => h.users v hv fun hS => hT (hST v hS), h.kernel,
    fun v g hv hT => h.data v g hv fun hS => hT (hST v hS)⟩

theorem mapped (h : Touches m m' d S) (hv : v < KERNPAGE) (hS : v ∉ S) :
    m'.mapped d v = m.mapped d v := by
  rw [mapped_eq, mapped_eq]
  rcases h.users v hv hS with h1 | ⟨h1, h2⟩
  · rw [h1]
  · rw [h1, h2]
    rfl

theorem trans (h : Touches m m' d S) (h' : Touches m' m'' d S) : Touches m m'' d S := by
  refine ⟨fun v hv hS => ?_, fun v hv hv' => (h'.kernel v hv hv').trans (h.kernel v hv hv'),
    fun v g hv hS hg => ?_⟩
  · rcases h.users v hv hS with h1 | ⟨h1, h2⟩ <;> rcases h'.users v hv hS with h3 | ⟨h3, h4⟩
    · exact Or.inl (h3.trans h1)
    · exact Or.inr ⟨h1.symm.trans h3, h4⟩
    · exact Or.inr ⟨h1, h3.trans h2⟩
    · rw [h2] at h3
      cases h3
  · rw [h'.data v g hv hS ((h.mapped hv hS).trans hg), h.data v g hv hS hg]

end Touches

end Phys

/-! ## Pages -/

/-- The place is one for pages that are not page tables. -/
def Place.IsData : Place → Prop
  | .mem | .stack | .user _ => True
  | .free _ | .dir | .table _ => False

/-- The pages in hand keep their bytes, but for page tables. -/
def Phys.DataKept (m m' : Phys) (e : Env) : Prop :=
  ∀ x g, x.IsData → m.place e x = some g → m'.byte g = m.byte g

section

variable {L : Layout} {m : Phys} {e : Env} {d v g t : ℕ} {E : VmPanic → Phys → Prop}

theorem Phys.DataKept.touches {m' : Phys} (h : m.DataKept m' e) (hd : e.dir = some d)
    (hlow : e.low = 0) (hv : v < KERNPAGE) (hg : m.mapped d v = some g) : m'.byte g = m.byte g :=
  h (.user v) g trivial ((Phys.place_user_of_dir hd hlow hv).trans hg)

/-- The first free page is no user page. -/
theorem Owned.ne_fresh (h : Owned L m e) (hd : e.dir = some d) (hlow : e.low = 0) {free : List ℕ}
    (hfree : m.free = g :: free) {p : ℕ} (hv : v < KERNPAGE) (hp : m.mapped d v = some p) :
    p ≠ g := by
  have hat : m.place e (.free free.length) = some g := by
    simp only [Phys.place, hfree, freeAt_cons, if_true]
  exact h.apart.ne ((Phys.place_user_of_dir hd hlow hv).trans hp) hat (by rintro ⟨⟩)

theorem gives_kalloc {Q : Option ℕ → Phys → Prop} : Gives kalloc m Q E ↔
    (m.free = [] → Q none m) ∧ ∀ g free, m.free = g :: free → Q (some g) (m.setFree free) := by
  unfold kalloc
  rw [gives_bind, gives_get]
  cases m.free with
  | nil =>
    rw [gives_pure]
    exact ⟨fun h => ⟨fun _ => h, nofun⟩, fun h => h.1 rfl⟩
  | cons g free =>
    rw [gives_bind, gives_modify, gives_pure]
    refine ⟨fun h => ⟨nofun, fun g' free' hfree => ?_⟩, fun h => h.2 g free rfl⟩
    obtain ⟨rfl, rfl⟩ := List.cons.inj hfree
    exact h

theorem gives_kfree {Q : Unit → Phys → Prop} (hlo : L.first ≤ g) (hhi : g < PHYSTOP) :
    Gives (kfree L g) m Q E ↔ Q () (Owned.freed m g) := by
  unfold kfree
  rw [if_neg (by omega), gives_bind, gives_modify, gives_modify]
  exact Iff.rfl

theorem gives_walkpgdir {Q : Option (ℕ × ℕ) → Phys → Prop} :
    Gives (walkpgdir d v false) m Q E ↔
      Q ((m.entry d (v / NPTENTRIES)).map fun t => (t, v % NPTENTRIES)) m := by
  unfold walkpgdir
  rw [gives_bind, gives_get]
  dsimp only
  split
  · next hp =>
    rw [Phys.entry_of_present hp]
    exact gives_pure
  · next hp =>
    rw [Phys.entry_of_absent (Bool.eq_false_iff.mpr hp)]
    exact gives_pure

theorem walk_eq_none : m.walk d v = none ↔ m.entry d (v / NPTENTRIES) = none := Option.map_eq_none_iff

theorem Owned.lt_NPAGE (h : Owned L m e) {x : Place} (hx : m.place e x = some g) : g < NPAGE := by
  have := (h.ranged g ⟨x, hx⟩).2
  unfold PHYSTOP NPAGE at *
  omega

/-- Other page tables and the page directory are not this page. -/
theorem Owned.walk_congr {m' : Phys} (hd : e.dir = some d) (hlow : e.low = 0) (hv : v < NPAGE)
    (hpde : m'.pte d (v / NPTENTRIES) = m.pte d (v / NPTENTRIES))
    (hpte : ∀ t, m.place e (.table (v / NPTENTRIES)) = some t → m'.byte t = m.byte t) :
    m'.walk d v = m.walk d v := by
  have hi : v / NPTENTRIES < NPTENTRIES := by
    unfold NPTENTRIES NPAGE at *
    omega
  unfold Phys.walk
  rw [Phys.entry_congr hpde]
  cases ht : m.entry d (v / NPTENTRIES) with
  | none => rfl
  | some t =>
    have hplace := (Phys.place_table_of_dir hd (hlow ▸ Nat.zero_le _) hi).trans ht
    simp only [Option.map_some, Phys.pte_congr (hpte t hplace)]

/-- What is stored elsewhere does not change the address space. -/
theorem Owned.walk_setPage (hd : e.dir = some d) (hlow : e.low = 0) (hg : ¬m.TablePage e g)
    {b : ℕ → Byte} (hv : v < NPAGE) : (m.setPage g b).walk d v = m.walk d v := by
  refine Owned.walk_congr hd hlow hv (Phys.pte_congr (Phys.byte_setPage_ne ?_)) fun t ht => ?_
  · rintro rfl
    exact hg (Or.inl hd)
  · refine Phys.byte_setPage_ne ?_
    rintro rfl
    exact hg (Or.inr ⟨_, ht⟩)

/-- Writing one page table entry. -/
theorem Owned.walk_setPte (h : Owned L m e) (hd : e.dir = some d) (hlow : e.low = 0)
    (ht : m.entry d (v / NPTENTRIES) = some t) (hv : v < NPAGE) {w : ℕ} (hw : w < 4294967296) :
    (m.setPte t (v % NPTENTRIES) w).walk d v = some w ∧
      ∀ v', v' < NPAGE → v' ≠ v → (m.setPte t (v % NPTENTRIES) w).walk d v' = m.walk d v' := by
  have hi : v / NPTENTRIES < NPTENTRIES := by
    unfold NPTENTRIES NPAGE at *
    omega
  have hplace := (Phys.place_table_of_dir hd (hlow ▸ Nat.zero_le _) hi).trans ht
  have hdt : d ≠ t := h.apart.ne (x := .dir) hd hplace nofun
  have hsame : ∀ i, (m.setPte t (v % NPTENTRIES) w).entry d i = m.entry d i :=
    fun _ => Phys.entry_congr (Phys.pte_setPte_ne (Or.inl hdt))
  constructor
  · rw [Phys.walk_of_entry ((hsame _).trans ht), Phys.pte_setPte_self hw]
  · intro v' hv' hne
    by_cases hreg : v' / NPTENTRIES = v / NPTENTRIES
    · have hmod : v' % NPTENTRIES ≠ v % NPTENTRIES := by
        unfold NPTENTRIES at *
        omega
      rw [Phys.walk_of_entry (v := v') (hreg ▸ (hsame _).trans ht),
        Phys.walk_of_entry (v := v') (hreg ▸ ht), Phys.pte_setPte_ne (Or.inr hmod)]
    · refine Owned.walk_congr hd hlow hv' (Phys.pte_setPte_ne (Or.inl hdt)) fun t' ht' => ?_
      refine Phys.byte_setPage_ne (h.apart.ne ht' hplace fun hne => hreg ?_)
      exact Place.table.inj hne

/-- What a new page table looks like. -/
theorem Owned.walk_newTable (h : Owned L m e) (hd : e.dir = some d) (hlow : e.low = 0)
    {i : ℕ} {free : List ℕ} (hfree : m.free = t :: free) :
    let m' := ((m.setFree free).fill t 0#8).setPte d i (mkPte t (PTE_P + PTE_W + PTE_U))
    m'.entry d i = some t ∧ (∀ v', v' / NPTENTRIES = i → m'.walk d v' = some 0) ∧
      ∀ v', v' / NPTENTRIES ≠ i → v' < NPAGE → m'.walk d v' = m.walk d v' := by
  intro m'
  have hat : m.place e (.free free.length) = some t := by
    simp only [Phys.place, hfree, freeAt_cons, if_true]
  have hdt : d ≠ t := h.apart.ne (x := .dir) hd hat (by rintro ⟨⟩)
  have hentry : m'.entry d i = some t := by
    change (Phys.setPte _ d i (mkPte t (7 ||| PTE_P))).entry d i = some t
    exact entry_mkPte (by decide) (h.lt_NPAGE hat)
  refine ⟨hentry, ?_, ?_⟩
  · rintro v' rfl
    rw [Phys.walk_of_entry hentry, Phys.pte_setPte_ne (Or.inl hdt.symm), Phys.pte_fill_zero]
  · intro v' hi hv'
    refine Owned.walk_congr hd hlow hv' ?_ fun t' ht' => ?_
    · rw [Phys.pte_setPte_ne (Or.inr hi)]
      exact Phys.pte_congr (Phys.byte_setPage_ne hdt)
    · have hdir := h.apart.ne ht' (y := .dir) hd (by rintro ⟨⟩)
      have hfree := h.apart.ne ht' hat (by rintro ⟨⟩)
      exact (Phys.byte_setPage_ne hdir).trans (Phys.byte_setPage_ne hfree)

/-- `walkpgdir` that may make a page table. -/
theorem Owned.walkpgdir (h : Owned L m e) (hd : e.dir = some d) (hlow : e.low = 0)
    (hv : v < NPAGE) : Gives (walkpgdir d v true) m
      (fun r m' => (r = none ∧ m' = m ∧ m.free = [] ∧ m.walk d v = none) ∨
        ∃ t, r = some (t, v % NPTENTRIES) ∧ Works L m m' e e ∧
          m'.entry d (v / NPTENTRIES) = some t ∧ m'.notes = m.notes ∧ m.DataKept m' e ∧
          ∀ v', v' < NPAGE → m'.walk d v' = m.walk d v' ∨
            (v' / NPTENTRIES = v / NPTENTRIES ∧ m.walk d v' = none ∧ m'.walk d v' = some 0))
      fun _ _ => False := by
  have hi : v / NPTENTRIES < NPTENTRIES := by
    unfold NPTENTRIES NPAGE at *
    omega
  unfold StrideXv6.walkpgdir
  rw [gives_bind, gives_get]
  dsimp only
  split
  · next hp =>
    rw [gives_pure]
    exact Or.inr ⟨_, rfl, Works.refl, Phys.entry_of_present hp, rfl, fun _ _ _ _ => rfl,
      fun _ _ => Or.inl rfl⟩
  · next hp =>
    have hnone := Phys.entry_of_absent (Bool.eq_false_iff.mpr hp)
    rw [if_pos rfl, gives_bind, gives_kalloc]
    refine ⟨fun hfree => ?_, fun t free hfree => ?_⟩
    · rw [gives_pure]
      exact Or.inl ⟨rfl, rfl, hfree, walk_eq_none.mpr hnone⟩
    · have hat : m.place e (.free free.length) = some t := by
        simp only [Phys.place, hfree, freeAt_cons, if_true]
      rw [gives_bind, gives_modify, gives_bind, gives_modify, gives_pure]
      refine Or.inr ⟨t, rfl, h.takeTable hfree hd (hlow ▸ Nat.zero_le _) hi hnone (h.lt_NPAGE hat),
        (h.walk_newTable hd hlow hfree).1, rfl, fun x p hx hp => ?_, fun v' hv' => ?_⟩
      · have hpd : p ≠ d := h.apart.ne hp (y := .dir) hd (by rintro rfl; exact hx)
        have hpt : p ≠ t := h.apart.ne hp hat (by rintro rfl; exact hx)
        exact (Phys.byte_setPage_ne hpd).trans (Phys.byte_setPage_ne hpt)
      obtain ⟨-, hin, hout⟩ := h.walk_newTable hd hlow (i := v / NPTENTRIES) hfree
      by_cases hreg : v' / NPTENTRIES = v / NPTENTRIES
      · exact Or.inr ⟨hreg, walk_eq_none.mpr (hreg ▸ hnone), hin v' hreg⟩
      · exact Or.inl (hout v' hreg hv')

/-- New page tables do not change where the other pages are. -/
theorem Phys.place_data_of_walk {m' : Phys} {x : Place} {P : ℕ → Prop} (hd : e.dir = some d)
    (hlow : e.low = 0)
    (hwalk : ∀ v', v' < NPAGE → m'.walk d v' = m.walk d v' ∨
      (P v' ∧ m.walk d v' = none ∧ m'.walk d v' = some 0))
    (hx : x.IsData) (hg : m.place e x = some g) : m'.place e x = some g := by
  cases x with
  | user v =>
    have hv : v < KERNPAGE := by
      by_contra hv
      rw [place_user, if_neg hv] at hg
      cases hg
    rw [place_user_of_dir hd hlow hv, mapped_eq] at hg ⊢
    rcases hwalk v (by unfold KERNPAGE NPAGE at *; omega) with hw | ⟨-, hw, -⟩
    · rwa [hw]
    · rw [hw] at hg
      cases hg
  | mem => exact hg
  | stack => exact hg
  | free n => exact hx.elim
  | dir => exact hx.elim
  | table i => exact hx.elim

/-- One user page is mapped, or its page is lost. -/
theorem Owned.mappages_user (h : Owned L m e) (hd : e.dir = some d) (hlow : e.low = 0)
    (hmem : e.mem = some g) (hv : v < KERNPAGE) {perm : ℕ} (hperm : perm < 4096) :
    Gives (mappages d v 1 g perm) m
      (fun ok m' => Works L m m' e { e with mem := none } ∧ m.Touches m' d {v} ∧ m.DataKept m' e ∧
        ((ok = true ∧ m'.walk d v = some (mkPte g (perm ||| PTE_P)) ∧ m'.notes = m.notes) ∨
          (ok = false ∧ m' = m.note (.starved v) ∧ m.free = [] ∧ m.walk d v = none)))
      fun p _ => p = .remap ∧ m.mapped d v ≠ none := by
  have hv' : v < NPAGE := by
    unfold KERNPAGE NPAGE at *
    omega
  have hj : v % NPTENTRIES < NPTENTRIES := Nat.mod_lt _ (by decide)
  have hi : v / NPTENTRIES < NPTENTRIES := by
    unfold NPTENTRIES NPAGE at *
    omega
  rw [show (1 : ℕ) = 0 + 1 from rfl, mappages]
  refine (h.walkpgdir hd hlow hv').bind ?_ nofun
  rintro r m1 (⟨rfl, rfl, hfree, hnone⟩ | ⟨t, rfl, hwork, hentry, hnotes, hdata, hwalk⟩)
  · -- there is no page for the page table
    dsimp only
    rw [gives_bind, gives_modify, gives_pure]
    exact ⟨h.loseMem hmem v, Phys.Touches.of_walk (fun _ _ => rfl) fun _ _ _ _ _ => rfl,
      fun _ _ _ _ => rfl, Or.inr ⟨rfl, rfl, hfree, hnone⟩⟩
  · have h1 := h.works hwork
    have hplace := (Phys.place_table_of_dir hd (hlow ▸ Nat.zero_le _) hi).trans hentry
    dsimp only
    rw [gives_bind, gives_get]
    split
    · next hp =>
      rw [gives_throw]
      refine ⟨rfl, ?_⟩
      have hmapped := Phys.mapped_of_entry hentry
      rw [Phys.entry_of_present hp, Phys.mapped_eq] at hmapped
      rw [Phys.mapped_eq]
      rcases hwalk v hv' with hw | ⟨-, -, hw⟩
      · rw [← hw, hmapped]
        nofun
      · rw [hw] at hmapped
        cases hmapped
    · next hp =>
      have hlt := h1.lt_NPAGE (x := .mem) hmem
      have hnone := Phys.entry_of_absent (Bool.eq_false_iff.mpr hp)
      have hword := mkPte_lt hlt (or_present_lt hperm)
      -- the page table is none of the pages whose bytes count
      have hdata' : m.DataKept (m1.setPte t (v % NPTENTRIES) (mkPte g (perm ||| PTE_P))) e := by
        intro x p hx hp
        refine (Phys.byte_setPage_ne (h1.apart.ne (x := x) ?_ hplace ?_)).trans (hdata x p hx hp)
        · exact Phys.place_data_of_walk hd hlow hwalk hx hp
        · rintro rfl
          exact hx
      rw [gives_bind, gives_modify, mappages, gives_pure]
      refine ⟨hwork.trans ?_, ⟨fun v' hlt' hne => ?_, fun v' hge hlt' => ?_,
        fun v' p hlt' _ => hdata'.touches hd hlow hlt'⟩, hdata', Or.inl ⟨rfl, ?_, hnotes⟩⟩
      · refine h1.map hmem hplace hj ?_ hnone hperm hlt
        rwa [Nat.div_add_mod']
      · have hlt'' : v' < NPAGE := by
          unfold KERNPAGE NPAGE at *
          omega
        rw [(h1.walk_setPte hd hlow hentry hv' hword).2 v' hlt'' hne]
        rcases hwalk v' hlt'' with hw | ⟨-, hw⟩
        · exact Or.inl hw
        · exact Or.inr hw
      · rw [(h1.walk_setPte hd hlow hentry hv' hword).2 v' hlt' (by omega)]
        refine (hwalk v' hlt').resolve_right fun hw => ?_
        unfold KERNPAGE NPTENTRIES at *
        omega
      · exact (h1.walk_setPte hd hlow hentry hv' hword).1

/-! ## The kernel's part -/

/-- No entry for a kernel page has `PTE_U`. -/
def Phys.NoUser (m : Phys) (d : ℕ) : Prop :=
  ∀ v, KERNPAGE ≤ v → v < NPAGE → ∀ x, m.walk d v = some x → isUser x = false

/-- What a part of `setupkvm` does: everything is at kernel pages below `hi`. -/
structure KernelPart (L : Layout) (m m' : Phys) (e : Env) (d hi : ℕ) : Prop where
  works : Works L m m' e e
  notes : m'.notes = m.notes
  users : ∀ v, v < KERNPAGE → m'.walk d v = m.walk d v
  noUser : m'.NoUser d
  above : ∀ v, hi ≤ v → v < NPAGE → m'.mapped d v = none

theorem KernelPart.trans {m' m'' : Phys} {hi hi' : ℕ} (h : KernelPart L m m' e d hi)
    (h' : KernelPart L m' m'' e d hi') : KernelPart L m m'' e d hi' :=
  ⟨h.works.trans h'.works, h'.notes.trans h.notes,
    fun v hv => (h'.users v hv).trans (h.users v hv), h'.noUser, h'.above⟩

theorem isUser_mkPte {perm : ℕ} (hperm : perm = 0 ∨ perm = PTE_W) :
    isUser (mkPte g (perm ||| PTE_P)) = false := by
  have hbits : (perm ||| PTE_P) / 4 % 2 = 0 ∧ (perm ||| PTE_P) < 4 := by
    rcases hperm with rfl | rfl <;> decide
  unfold isUser mkPte
  rw [beq_eq_false_iff_ne]
  omega

/-- `mappages` for kernel pages, by induction on how many there are. -/
theorem Owned.mappages_kernel {perm : ℕ} (hperm : perm = 0 ∨ perm = PTE_W) (hd : e.dir = some d)
    (hlow : e.low = 0) (n : ℕ) :
    ∀ {m : Phys} {v g : ℕ}, Owned L m e → KERNPAGE ≤ v → v + n ≤ NPAGE → g + n ≤ NPAGE →
      (∀ v', v ≤ v' → v' < NPAGE → m.mapped d v' = none) → m.NoUser d →
      Gives (mappages d v n g perm) m
        (fun ok m' => ∃ m1, KernelPart L m m1 e d (v + n) ∧
          ((ok = true ∧ m' = m1) ∨ (ok = false ∧ ∃ w, m' = m1.note (.starved w))))
        fun _ _ => False := by
  induction n with
  | zero =>
    intro m v g h _ _ _ habove hno
    rw [mappages, gives_pure]
    exact ⟨m, ⟨Works.refl, rfl, fun _ _ => rfl, hno, habove⟩, Or.inl ⟨rfl, rfl⟩⟩
  | succ n ih =>
    intro m v g h hv hn hg habove hno
    have hv' : v < NPAGE := by omega
    have hi : v / NPTENTRIES < NPTENTRIES := by
      unfold NPTENTRIES NPAGE at *
      omega
    rw [mappages]
    refine (h.walkpgdir hd hlow hv').bind ?_ nofun
    rintro r m1 (⟨rfl, rfl, hfree, hnone⟩ | ⟨t, rfl, hwork, hentry, hnotes, -, hwalk⟩)
    · dsimp only
      rw [gives_bind, gives_modify, gives_pure]
      exact ⟨m1, ⟨Works.refl, rfl, fun _ _ => rfl, hno, fun v' hlo => habove v' (by omega)⟩,
        Or.inr ⟨rfl, v, rfl⟩⟩
    · have h1 := h.works hwork
      have hplace := (Phys.place_table_of_dir hd (hlow ▸ Nat.zero_le _) hi).trans hentry
      have hmapped : ∀ v', v ≤ v' → v' < NPAGE → m1.mapped d v' = none := by
        intro v' hlo hlt
        have hnone := habove v' hlo hlt
        rw [Phys.mapped_eq] at hnone ⊢
        rcases hwalk v' hlt with hw | ⟨-, -, hw⟩
        · rw [hw, hnone]
        · rw [hw]
          rfl
      have habsent : isPresent (m1.pte t (v % NPTENTRIES)) = false := by
        have hnone := hmapped v le_rfl hv'
        rw [Phys.mapped_of_entry hentry] at hnone
        by_contra hp
        rw [Phys.entry_of_present (Bool.eq_true_of_not_eq_false hp)] at hnone
        cases hnone
      have hperm' : perm < 4096 := by
        rcases hperm with rfl | rfl <;> decide
      have hword : mkPte g (perm ||| PTE_P) < 4294967296 :=
        mkPte_lt (by omega) (or_present_lt hperm')
      have hset := h1.walk_setPte hd hlow hentry hv' hword
      dsimp only
      rw [gives_bind, gives_get, habsent, if_neg Bool.false_ne_true, gives_bind, gives_modify]
      have hpart : KernelPart L m (m1.setPte t (v % NPTENTRIES) (mkPte g (perm ||| PTE_P))) e d
          (v + 1) := by
        refine ⟨hwork.trans (h1.setKernelPte hplace ?_), hnotes, fun v' hlt => ?_, ?_, ?_⟩
        · unfold KERNPAGE NPTENTRIES at *
          omega
        · have hlt' : v' < NPAGE := by
            unfold KERNPAGE NPAGE at *
            omega
          rw [hset.2 v' hlt' (by omega)]
          refine (hwalk v' hlt').resolve_right fun hw => ?_
          unfold KERNPAGE NPTENTRIES at *
          omega
        · intro v' hlo hlt x hx
          by_cases heq : v' = v
          · rw [heq, hset.1] at hx
            obtain rfl := Option.some.inj hx
            exact isUser_mkPte hperm
          · rw [hset.2 v' hlt heq] at hx
            rcases hwalk v' hlt with hw | ⟨-, -, hw⟩
            · exact hno v' hlo hlt x (hw ▸ hx)
            · rw [hw] at hx
              obtain rfl := Option.some.inj hx
              rfl
        · intro v' hlo hlt
          rw [Phys.mapped_eq, hset.2 v' hlt (by omega), ← Phys.mapped_eq]
          exact hmapped v' (by omega) hlt
      refine (ih (h.works hpart.works) (by omega) (by omega) (by omega) hpart.above
        hpart.noUser).mono ?_ nofun
      rintro ok m' ⟨m3, hrest, hend⟩
      rw [Nat.add_assoc, Nat.add_comm 1 n] at hrest
      exact ⟨m3, hpart.trans hrest, hend⟩

/-- The loop of `setupkvm`. -/
theorem Owned.mapKernel (hd : e.dir = some d) (hlow : e.low = 0) (ks : List (ℕ × ℕ × ℕ × ℕ)) :
    ∀ {m : Phys} {lo : ℕ}, Owned L m e → (∀ v', lo ≤ v' → v' < NPAGE → m.mapped d v' = none) →
      m.NoUser d →
      -- the regions are in order
      ks.Pairwise (fun k k' => k.1 + k.2.1 ≤ k'.1) →
      (∀ k ∈ ks, lo ≤ k.1 ∧ KERNPAGE ≤ k.1 ∧ k.1 + k.2.1 ≤ NPAGE ∧ k.2.2.1 + k.2.1 ≤ NPAGE ∧
        (k.2.2.2 = 0 ∨ k.2.2.2 = PTE_W)) →
      Gives (mapKernel d ks) m
        (fun ok m' => ∃ m1 hi, KernelPart L m m1 e d hi ∧
          ((ok = true ∧ m' = m1) ∨ (ok = false ∧ ∃ w, m' = m1.note (.starved w))))
        fun _ _ => False := by
  induction ks with
  | nil =>
    intro m lo h habove hno _ _
    rw [StrideXv6.mapKernel, gives_pure]
    exact ⟨m, lo, ⟨Works.refl, rfl, fun _ _ => rfl, hno, habove⟩, Or.inl ⟨rfl, rfl⟩⟩
  | cons k ks ih =>
    intro m lo h habove hno hord hk
    obtain ⟨virt, n, phys, perm⟩ := k
    obtain ⟨hlo, hkern, hn, hphys, hperm⟩ := hk _ List.mem_cons_self
    rw [StrideXv6.mapKernel]
    refine (h.mappages_kernel hperm hd hlow n hkern hn hphys
      (fun v' hv' => habove v' (hlo.trans hv')) hno).bind ?_ nofun
    rintro ok m' ⟨m1, hpart, ⟨rfl, rfl⟩ | ⟨rfl, w, rfl⟩⟩
    · rw [if_pos rfl]
      have hord' := List.pairwise_cons.mp hord
      refine (ih (h.works hpart.works) hpart.above hpart.noUser hord'.2 fun k' hk' => ?_).mono ?_
        nofun
      · exact ⟨hord'.1 k' hk', (hk k' (List.mem_cons_of_mem _ hk')).2⟩
      · rintro ok m' ⟨m2, hi, hrest, hend⟩
        exact ⟨m2, hi, hpart.trans hrest, hend⟩
    · rw [if_neg Bool.false_ne_true, gives_pure]
      exact ⟨m1, _, hpart, Or.inr ⟨rfl, w, rfl⟩⟩

/-- The regions of `kmap` are in order and in the kernel's half. -/
theorem kmap_pairwise (L : Layout) : (kmap L).Pairwise (fun k k' => k.1 + k.2.1 ≤ k'.1) := by
  have := L.text
  have := L.le
  have := L.fits
  unfold kmap KERNPAGE EXTMEM PHYSTOP DEVSPACE NPAGE at *
  simp only [List.pairwise_cons, List.mem_cons, List.not_mem_nil, or_false, forall_eq_or_imp,
    forall_eq, false_imp_iff, implies_true, List.Pairwise.nil, and_true]
  omega

theorem kmap_bounds (L : Layout) : ∀ k ∈ kmap L, KERNPAGE ≤ k.1 ∧ KERNPAGE ≤ k.1 ∧
    k.1 + k.2.1 ≤ NPAGE ∧ k.2.2.1 + k.2.1 ≤ NPAGE ∧ (k.2.2.2 = 0 ∨ k.2.2.2 = PTE_W) := by
  have := L.text
  have := L.le
  have := L.fits
  unfold kmap KERNPAGE EXTMEM PHYSTOP DEVSPACE NPAGE at *
  simp only [List.mem_cons, List.not_mem_nil, or_false, forall_eq_or_imp, forall_eq, true_or,
    or_true, and_true]
  omega

/-- `setupkvm`: a new address space with nothing in the user part. -/
theorem Owned.setupkvm (h : Owned L m e) (hdir : e.dir = none) (hlow : e.low = 0) :
    Gives (setupkvm L) m
      (fun r m' => (r = none ∧ Works L m m' e e) ∨
        ∃ d, r = some d ∧ Works L m m' e { e with dir := some d } ∧ m'.notes = m.notes ∧
          (∀ v, v < KERNPAGE → m'.walk d v = none) ∧ m'.NoUser d)
      fun _ _ => False := by
  unfold StrideXv6.setupkvm
  rw [gives_bind, gives_kalloc]
  refine ⟨fun _ => ?_, fun d free hfree => ?_⟩
  · rw [gives_pure]
    exact Or.inl ⟨rfl, Works.refl⟩
  · dsimp only
    rw [gives_bind, gives_modify]
    have hwork := h.takeDir hfree hdir
    have hentry : ∀ i, ((m.setFree free).fill d 0#8).entry d i = none := fun i =>
      Phys.entry_of_absent (by rw [Phys.pte_fill_zero]; rfl)
    have hwalk : ∀ v, ((m.setFree free).fill d 0#8).walk d v = none := by
      intro v
      unfold Phys.walk
      rw [hentry]
      rfl
    refine (Owned.mapKernel (e := { e with dir := some d }) rfl hlow (kmap L) (h.works hwork)
      (fun v (_ : KERNPAGE ≤ v) _ => ?_) (fun v _ _ x hx => ?_) (kmap_pairwise L)
      (kmap_bounds L)).bind ?_ nofun
    · rw [Phys.mapped_eq, hwalk]
      rfl
    · rw [hwalk] at hx
      cases hx
    · rintro ok m' ⟨m1, hi, hpart, ⟨rfl, rfl⟩ | ⟨rfl, w, rfl⟩⟩
      · rw [if_pos rfl, gives_pure]
        refine Or.inr ⟨d, rfl, hwork.trans hpart.works, hpart.notes, fun v hv => ?_, hpart.noUser⟩
        rw [hpart.users v hv, hwalk]
      · -- the page directory is forgotten
        rw [if_neg Bool.false_ne_true, gives_pure]
        have hdone := hwork.trans hpart.works
        have hlose := (h.works hdone).loseDir rfl w
        have henv : ({ e with dir := none } : Env) = e := by
          rw [← hdir]
        dsimp only at hlose
        rw [henv] at hlose
        exact Or.inl ⟨rfl, hdone.trans hlose⟩

/-! ## Giving back -/

/-- One user page is given back. -/
theorem Owned.freeEntry (h : Owned L m e) (hmem : e.mem = none) (hd : e.dir = some d)
    (hlow : e.low = 0) (hv : v < KERNPAGE) (hentry : m.entry d (v / NPTENTRIES) = some t) :
    Gives (freeEntry L t (v % NPTENTRIES)) m
      (fun _ m' => Works L m m' e e ∧ m'.notes = m.notes ∧
        (m'.walk d v = m.walk d v ∨ m'.walk d v = some 0) ∧ m'.mapped d v = none ∧
        (∀ v', v' < NPAGE → v' ≠ v → m'.walk d v' = m.walk d v') ∧
        m'.free = (m.mapped d v).toList ++ m.free ∧
        ∀ v' g, v' < KERNPAGE → v' ≠ v → m.mapped d v' = some g → m'.byte g = m.byte g)
      fun _ _ => False := by
  have hv' : v < NPAGE := by
    unfold KERNPAGE NPAGE at *
    omega
  have hj : v % NPTENTRIES < NPTENTRIES := Nat.mod_lt _ (by decide)
  have hi : v / NPTENTRIES < NPTENTRIES := by
    unfold NPTENTRIES NPAGE at *
    omega
  have hplace := (Phys.place_table_of_dir hd (hlow ▸ Nat.zero_le _) hi).trans hentry
  have hat : v / NPTENTRIES * NPTENTRIES + v % NPTENTRIES < KERNPAGE := by rwa [Nat.div_add_mod']
  unfold StrideXv6.freeEntry
  rw [gives_bind, gives_get]
  dsimp only
  split
  · next hp =>
    have hg := Phys.entry_of_present hp
    obtain ⟨hlo, hhi⟩ := h.ranged _ ⟨_, (place_user_at hplace hj hat).trans hg⟩
    have hunmap := h.unmap hmem hplace hj hat hg
    have h1 := h.works hunmap
    have hgive := h1.giveMem rfl
    have henv : ({ e with mem := none } : Env) = e := by
      rw [← hmem]
    dsimp only at hgive
    rw [henv] at hgive
    rw [gives_bind, gives_kfree hlo hhi, gives_modify, freed_setPte (h.ne_of_entry hplace hj hat hg)]
    -- the page is junk now, but no page table
    have hdata := Phys.not_tablePage h1.apart (x := .mem) rfl nofun nofun
    have hjunk : ∀ v', v' < NPAGE → (freed (m.setPte t (v % NPTENTRIES) 0)
        (pteAddr (m.pte t (v % NPTENTRIES)))).walk d v' =
          (m.setPte t (v % NPTENTRIES) 0).walk d v' := fun v' hlt =>
      Owned.walk_setPage (e := { e with mem := some _ }) hd hlow hdata hlt
    have hset := h.walk_setPte hd hlow hentry hv' (w := 0) (by decide)
    refine ⟨hunmap.trans hgive, rfl, Or.inr ?_, ?_, fun v' hlt hne => ?_, ?_,
      fun v' p hlt hne hp => ?_⟩
    · rw [hjunk v hv', hset.1]
    · rw [Phys.mapped_eq, hjunk v hv', hset.1]
      rfl
    · rw [hjunk v' hlt, hset.2 v' hlt hne]
    · rw [Phys.mapped_of_entry hentry, hg]
      rfl
    · have hp' := (Phys.place_user_of_dir hd hlow hlt).trans hp
      have hne' : p ≠ pteAddr (m.pte t (v % NPTENTRIES)) := by
        refine h.apart.ne hp' ((Phys.place_user_of_dir hd hlow hv).trans
          ((Phys.mapped_of_entry hentry).trans hg)) fun heq => hne (Place.user.inj heq)
      exact (Phys.byte_setPage_ne hne').trans (Phys.byte_setPage_ne (h.apart.ne hp' hplace nofun))
  · next hp =>
    have hnone : m.mapped d v = none := by
      rw [Phys.mapped_of_entry hentry, Phys.entry_of_absent (Bool.eq_false_iff.mpr hp)]
    rw [gives_pure]
    refine ⟨Works.refl, rfl, Or.inl rfl, hnone, fun _ _ _ => rfl, ?_, fun _ _ _ _ _ => rfl⟩
    rw [hnone]
    rfl

/-- The loop of `deallocuvm` that starts at the page `a` comes to the page `v`. Where
there is no page table it goes on 1024 pages later, and not with the next page table:
so what it can miss is in the front part of the first page table it finds. -/
def Phys.Visits (m : Phys) (d a v : ℕ) : Prop :=
  a % NPTENTRIES ≤ v % NPTENTRIES ∨
    ∃ k < v / NPTENTRIES, a / NPTENTRIES ≤ k ∧ m.entry d k ≠ none

instance (m : Phys) (d a v : ℕ) : Decidable (m.Visits d a v) :=
  inferInstanceAs (Decidable (_ ∨ _))

/-- From a page table that is there the loop misses nothing. -/
theorem Phys.visits_of_entry {a : ℕ} (hentry : m.entry d (a / NPTENTRIES) ≠ none) (hv : a ≤ v) :
    m.Visits d a v := by
  unfold Visits
  by_cases hreg : v / NPTENTRIES = a / NPTENTRIES
  · left
    unfold NPTENTRIES at *
    omega
  · refine Or.inr ⟨a / NPTENTRIES, ?_, le_rfl, hentry⟩
    unfold NPTENTRIES at *
    omega

theorem Phys.visits_of_aligned {a : ℕ} (ha : a % NPTENTRIES = 0) : m.Visits d a v :=
  Or.inl (ha ▸ Nat.zero_le _)

/-- Without a page table the loop jumps. -/
theorem Phys.visits_add {a : ℕ} (hnone : m.entry d (a / NPTENTRIES) = none) :
    m.Visits d (a + NPTENTRIES) v ↔ m.Visits d a v := by
  have hdiv : (a + NPTENTRIES) / NPTENTRIES = a / NPTENTRIES + 1 := by
    unfold NPTENTRIES
    omega
  unfold Visits
  rw [Nat.add_mod_right, hdiv]
  refine or_congr_right (exists_congr fun k => and_congr_right fun _ => ⟨fun h => ⟨by omega, h.2⟩,
    fun h => ⟨Nat.succ_le_of_lt (lt_of_le_of_ne h.1 ?_), h.2⟩⟩)
  rintro rfl
  exact h.2 hnone

/-- A page that is not visited before the jump is not there. -/
theorem Phys.mapped_of_jumped {a : ℕ} (hnone : m.entry d (a / NPTENTRIES) = none)
    (hv : v < a + NPTENTRIES) (hlo : a ≤ v) (hvis : m.Visits d a v) : m.mapped d v = none := by
  have hreg : v / NPTENTRIES = a / NPTENTRIES := by
    rcases hvis with hmod | ⟨k, hk, hk', hsome⟩
    · unfold NPTENTRIES at *
      omega
    · have : k = a / NPTENTRIES := by
        unfold NPTENTRIES at *
        omega
      exact absurd (this ▸ hnone) hsome
  unfold mapped
  rw [hreg, hnone]
  rfl

/-- The pages the loop of `deallocuvm` gives back, in this order. -/
def Phys.visited (m : Phys) (d a last : ℕ) : List ℕ :=
  (List.range' a (last - a)).filterMap fun v => if m.Visits d a v then m.mapped d v else none

/-- What `deallocuvm` leaves of the pages from `a` to `last`. -/
structure Deallocated (L : Layout) (m m' : Phys) (e : Env) (d a last : ℕ) : Prop where
  works : Works L m m' e e
  notes : m'.notes = m.notes
  outside : ∀ v, v < NPAGE → (v < a ∨ last ≤ v) → m'.walk d v = m.walk d v
  inside : ∀ v, a ≤ v → v < last → m'.walk d v = m.walk d v ∨
    (m.walk d v ≠ none ∧ m'.walk d v = some 0)
  gone : ∀ v, a ≤ v → v < last → m.Visits d a v → m'.mapped d v = none
  missed : ∀ v, a ≤ v → v < last → ¬m.Visits d a v → m'.walk d v = m.walk d v
  free : m'.free = (m.visited d a last).reverse ++ m.free
  data : ∀ v g, v < KERNPAGE → (v < a ∨ last ≤ v) → m.mapped d v = some g → m'.byte g = m.byte g

/-- A loop that starts where a page table does, or where there is one, misses
nothing. -/
theorem Deallocated.none {m' : Phys} {a last : ℕ} (h : Deallocated L m m' e d a last)
    (hstart : a % NPTENTRIES = 0 ∨ m.walk d a ≠ none) (hlo : a ≤ v) (hhi : v < last) :
    m'.mapped d v = none := by
  refine h.gone v hlo hhi ?_
  rcases hstart with ha | hwalk
  · exact Phys.visits_of_aligned ha
  · exact Phys.visits_of_entry (fun hn => hwalk (walk_eq_none.mpr hn)) hlo

/-- There is nothing to do. -/
theorem Deallocated.refl {a last : ℕ} (hle : last ≤ a) : Deallocated L m m e d a last := by
  refine ⟨Works.refl, rfl, fun _ _ _ => rfl, fun _ _ _ => Or.inl rfl, fun v hlo hhi => by omega,
    fun _ _ _ _ => rfl, ?_, fun _ _ _ _ _ => rfl⟩
  unfold Phys.visited
  rw [Nat.sub_eq_zero_of_le hle]
  rfl

/-- The list of pages where the loop jumps. -/
theorem Phys.visited_of_none {a last : ℕ} (hnone : m.entry d (a / NPTENTRIES) = none) :
    m.visited d a last = m.visited d (a + NPTENTRIES) last := by
  have hskip : ∀ v ∈ List.range' a (min (last - a) NPTENTRIES),
      (if m.Visits d a v then m.mapped d v else none) = none := by
    intro v hv
    rw [List.mem_range'_1] at hv
    split
    · next hvis => exact mapped_of_jumped hnone (by omega) hv.1 hvis
    · rfl
  unfold visited
  simp only [visits_add hnone]
  rw [show last - a = min (last - a) NPTENTRIES + (last - (a + NPTENTRIES)) by omega,
    ← List.range'_append_1, List.filterMap_append, List.filterMap_eq_nil_iff.mpr hskip,
    List.nil_append]
  by_cases hle : NPTENTRIES ≤ last - a
  · rw [Nat.min_eq_right hle]
  · rw [show last - (a + NPTENTRIES) = 0 by omega]
    rfl

/-- The list of pages where the loop gives one back. -/
theorem Phys.visited_of_some {m' : Phys} {a last : ℕ} (ha : a < last)
    (hsome : m.entry d (a / NPTENTRIES) ≠ none)
    (hnext : ∀ v, a < v → v < last → m'.Visits d (a + 1) v ∧ m'.mapped d v = m.mapped d v) :
    m.visited d a last = (m.mapped d a).toList ++ m'.visited d (a + 1) last := by
  unfold visited
  rw [show last - a = last - (a + 1) + 1 by omega, List.range'_succ, List.filterMap_cons,
    if_pos (visits_of_entry hsome le_rfl)]
  have hrest : (List.range' (a + 1) (last - (a + 1))).filterMap
        (fun v => if m.Visits d a v then m.mapped d v else none) =
      (List.range' (a + 1) (last - (a + 1))).filterMap
        fun v => if m'.Visits d (a + 1) v then m'.mapped d v else none := by
    refine List.filterMap_congr fun v hv => ?_
    rw [List.mem_range'_1] at hv
    obtain ⟨hvis, hmap⟩ := hnext v (by omega) (by omega)
    rw [if_pos (visits_of_entry hsome (by omega)), if_pos hvis, hmap]
  rw [hrest]
  cases m.mapped d a <;> rfl

/-- The loop of `deallocuvm`, by induction on its fuel. -/
theorem Owned.deallocLoop {last : ℕ} (hmem : e.mem = none) (hd : e.dir = some d) (hlow : e.low = 0)
    (hlast : last ≤ KERNPAGE) (fuel : ℕ) : ∀ {m : Phys} {a : ℕ}, Owned L m e → last - a ≤ fuel →
      Gives (deallocLoop L d last a fuel) m (fun _ m' => Deallocated L m m' e d a last)
        fun _ _ => False := by
  have hnpage : KERNPAGE < NPAGE := by decide
  induction fuel with
  | zero =>
    intro m a h hfuel
    rw [StrideXv6.deallocLoop, gives_pure]
    exact Deallocated.refl (by omega)
  | succ fuel ih =>
    intro m a h hfuel
    rw [StrideXv6.deallocLoop]
    split
    · next ha =>
      rw [gives_bind, gives_walkpgdir]
      cases hentry : m.entry d (a / NPTENTRIES) with
      | none =>
        -- no page table: the loop goes on 1024 pages later
        refine (ih h (by unfold NPTENTRIES; omega)).mono ?_ nofun
        rintro _ m' ⟨hwork, hnotes, hout, hin, hgone, hmissed, hfree, hdata⟩
        refine ⟨hwork, hnotes, fun v hv hout' => hout v hv (by omega), fun v hlo hhi => ?_,
          fun v hlo hhi hvis => ?_, fun v hlo hhi hvis => ?_, ?_,
          fun v p hv hout' => hdata v p hv (by omega)⟩
        · by_cases hv : v < a + NPTENTRIES
          · exact Or.inl (hout v (by omega) (Or.inl hv))
          · exact hin v (by omega) hhi
        · by_cases hv : v < a + NPTENTRIES
          · rw [Phys.mapped_eq, hout v (by omega) (Or.inl hv), ← Phys.mapped_eq]
            exact Phys.mapped_of_jumped hentry hv hlo hvis
          · exact hgone v (by omega) hhi ((Phys.visits_add hentry).mpr hvis)
        · by_cases hv : v < a + NPTENTRIES
          · exact hout v (by omega) (Or.inl hv)
          · exact hmissed v (by omega) hhi fun hvis' => hvis ((Phys.visits_add hentry).mp hvis')
        · rw [hfree, Phys.visited_of_none hentry]
      | some t =>
        have hsome : m.entry d (a / NPTENTRIES) ≠ none := by
          rw [hentry]
          nofun
        refine (h.freeEntry hmem hd hlow (by omega) hentry).bind ?_ nofun
        rintro _ m1 ⟨hwork, hnotes, hself, hgone1, hother, hfree1, hdata1⟩
        have hwalk : m.walk d a ≠ none := fun hn => hsome (walk_eq_none.mp hn)
        have hmapped : ∀ v, v < NPAGE → v ≠ a → m1.mapped d v = m.mapped d v := by
          intro v hv hne
          rw [Phys.mapped_eq, hother v hv hne, Phys.mapped_eq]
        -- from here on every page is visited
        have hvis : ∀ v, a + 1 ≤ v → v < last → m1.Visits d (a + 1) v := by
          intro v hlo hhi
          by_cases hmod : (a + 1) % NPTENTRIES = 0
          · exact Phys.visits_of_aligned hmod
          · have hreg : (a + 1) / NPTENTRIES = a / NPTENTRIES := by
              unfold NPTENTRIES at *
              omega
            refine Phys.visits_of_entry (fun hn => ?_) hlo
            rw [← walk_eq_none, hother (a + 1) (by omega) (by omega), walk_eq_none, hreg] at hn
            exact hsome hn
        refine (ih (h.works hwork) (by omega)).mono ?_ nofun
        rintro _ m' ⟨hwork', hnotes', hout, hin, hgone, hmissed, hfree, hdata⟩
        have hafter : m'.walk d a = m1.walk d a := hout a (by omega) (Or.inl (by omega))
        refine ⟨hwork.trans hwork', hnotes'.trans hnotes, fun v hv hout' => ?_, fun v hlo hhi => ?_,
          fun v hlo hhi _ => ?_, fun v hlo hhi hmiss => ?_, ?_, fun v p hv hout' hp => ?_⟩
        · rw [hout v hv (by omega), hother v hv (by omega)]
        · by_cases hva : v = a
          · subst hva
            rw [hafter]
            exact hself.imp_right fun hzero => ⟨hwalk, hzero⟩
          · rw [← hother v (by omega) hva]
            exact hin v (by omega) hhi
        · by_cases hva : v = a
          · rw [hva, Phys.mapped_eq, hafter, ← Phys.mapped_eq, hgone1]
          · exact hgone v (by omega) hhi (hvis v (by omega) hhi)
        · exact absurd (Phys.visits_of_entry hsome hlo) hmiss
        · rw [hfree, hfree1, Phys.visited_of_some ha hsome fun v hlo hhi =>
            ⟨hvis v hlo hhi, hmapped v (by omega) (by omega)⟩, List.reverse_append,
            List.append_assoc]
          cases m.mapped d a <;> rfl
        · rw [hdata v p hv (by omega) ((hmapped v (by omega) (by omega)).trans hp),
            hdata1 v p hv (by omega) hp]
    · rw [gives_pure]
      exact Deallocated.refl (by omega)

theorem pgroundup_le {sz : ℕ} (h : sz ≤ KERNBASE) : pgroundup sz ≤ KERNPAGE := by
  unfold pgroundup KERNPAGE
  unfold KERNBASE at h
  omega

theorem Owned.deallocuvm (h : Owned L m e) (hmem : e.mem = none) (hd : e.dir = some d)
    (hlow : e.low = 0) {oldsz newsz : ℕ} (hold : oldsz ≤ KERNBASE) :
    Gives (deallocuvm L d oldsz newsz) m
      (fun r m' => r = (if newsz ≥ oldsz then oldsz else newsz) ∧
        Deallocated L m m' e d (pgroundup newsz) (pgroundup oldsz))
      fun _ _ => False := by
  unfold StrideXv6.deallocuvm
  split
  · next hge =>
    rw [gives_pure]
    refine ⟨rfl, Deallocated.refl ?_⟩
    unfold pgroundup
    omega
  · refine (Owned.deallocLoop hmem hd hlow (pgroundup_le hold) _ h (by omega)).bind ?_ nofun
    intro _ m' hdone
    rw [gives_pure]
    exact ⟨rfl, hdone⟩

/-- The loop of `freevm` over the page tables. -/
theorem Owned.freeTables (hd : e.dir = some d) (n : ℕ) :
    ∀ {m : Phys} {i : ℕ}, Owned L m { e with low := i } → i + n ≤ NPTENTRIES →
      (∀ v, m.place { e with low := i } (.user v) = none) →
      Gives (freeTables L d i n) m
        (fun _ m' => Works L m m' { e with low := i } { e with low := i + n } ∧ m'.notes = m.notes)
        fun _ _ => False := by
  induction n with
  | zero =>
    intro m i h _ _
    rw [StrideXv6.freeTables, gives_pure]
    exact ⟨Works.refl, rfl⟩
  | succ n ih =>
    intro m i h hn hnone
    have htable : m.place { e with low := i } (.table i) = m.entry d i :=
      Phys.place_table_of_dir hd le_rfl (by omega)
    rw [StrideXv6.freeTables, freeTable, gives_bind, gives_bind, gives_get]
    dsimp only
    have hrest : ∀ m1 : Phys, Works L m m1 { e with low := i } { e with low := i + 1 } →
        m1.notes = m.notes → (∀ v, m1.place { e with low := i + 1 } (.user v) = none) →
        Gives (StrideXv6.freeTables L d (i + 1) n) m1 (fun _ m' =>
          Works L m m' { e with low := i } { e with low := i + (n + 1) } ∧ m'.notes = m.notes)
          fun _ _ => False := by
      intro m1 hwork hnotes hnone'
      refine (ih (h.works hwork) (by omega) hnone').mono ?_ nofun
      rintro _ m' ⟨hwork', hnotes'⟩
      rw [Nat.add_assoc, Nat.add_comm 1 n] at hwork'
      exact ⟨hwork.trans hwork', hnotes'.trans hnotes⟩
    split
    · next hp =>
      have hentry := htable.trans (Phys.entry_of_present hp)
      obtain ⟨hlo, hhi⟩ := h.ranged _ ⟨_, hentry⟩
      obtain ⟨hwork, hnone'⟩ := h.giveTable hentry hnone
      rw [gives_kfree hlo hhi]
      exact hrest _ hwork rfl hnone'
    · next hp =>
      have hentry := htable.trans (Phys.entry_of_absent (Bool.eq_false_iff.mpr hp))
      have hskip := Owned.skipTable hentry hnone
      rw [gives_pure]
      refine hrest m (Works.same hskip (fun _ _ _ => rfl) (List.prefix_refl _) rfl) rfl fun v => ?_
      exact (congrFun hskip (.user v)).trans (hnone v)

/-- `freevm` gives back everything that is in the address space. -/
theorem Owned.freevm (h : Owned L m e) (hmem : e.mem = none) (hd : e.dir = some d)
    (hlow : e.low = 0) : Gives (freevm L d) m
      (fun _ m' => Works L m m' e { e with dir := none } ∧ m'.notes = m.notes) fun _ _ => False := by
  unfold StrideXv6.freevm
  refine (h.deallocuvm hmem hd hlow le_rfl).bind ?_ nofun
  rintro _ m1 ⟨-, hdone⟩
  have h1 := h.works hdone.works
  have hpages : pgroundup KERNBASE = KERNPAGE := rfl
  have hnone : ∀ v, m1.place e (.user v) = none := by
    intro v
    by_cases hv : v < KERNPAGE
    · rw [Phys.place_user_of_dir hd hlow hv]
      exact hdone.none (Or.inl rfl) (Nat.zero_le _) (hpages ▸ hv)
    · rw [Phys.place_user, if_neg hv]
  have henv : ({ e with low := 0 } : Env) = e := by
    rw [← hlow]
  have htables := Owned.freeTables (L := L) hd NPTENTRIES (m := m1) (i := 0)
  rw [henv] at htables
  refine (htables h1 (by omega) hnone).bind ?_ nofun
  rintro _ m2 ⟨hwork, hnotes⟩
  have h2 := h1.works hwork
  obtain ⟨hlo, hhi⟩ := h2.ranged d ⟨.dir, hd⟩
  rw [gives_kfree hlo hhi]
  have hgive := h2.giveDir hd (by dsimp only; omega)
  have henv' : ({ e with dir := none, low := 0 } : Env) = { e with dir := none } := by
    rw [← hlow]
  exact ⟨hdone.works.trans (hwork.trans (henv' ▸ hgive)), hnotes.trans hdone.notes⟩

/-! ## Growing -/

/-- The note is about allocating a page from `a` on before `last`. -/
def Note.Within (first a last : ℕ) : Note → Prop
  | .grown v g => a ≤ v ∧ v < last ∧ first ≤ g
  | .starved v => a ≤ v ∧ v < last
  | _ => False

theorem Note.Within.mono {first a last a' last' : ℕ} {n : Note} (h : n.Within first a last)
    (ha : a' ≤ a) (hlast : last ≤ last') : n.Within first a' last' := by
  unfold Note.Within at *
  split at h
  · exact ⟨by omega, by omega, h.2.2⟩
  · exact ⟨by omega, by omega⟩
  · cases h

/-- What `allocuvm` did for the page `v`, with `l` what was recorded: it is mapped to
the page that was allocated for it, or that page is lost. -/
def GrownAt (m : Phys) (d : ℕ) (l : List Note) (v : ℕ) : Prop :=
  (∃ g, .grown v g ∈ l ∧ .starved v ∉ l ∧
      m.walk d v = some (mkPte g (PTE_W + PTE_U ||| PTE_P))) ∨
    (.starved v ∈ l ∧ (m.walk d v = none ∨ m.walk d v = some 0))

theorem GrownAt.touches {m' : Phys} {S : Set ℕ} {l : List Note} (h : GrownAt m d l v)
    (ht : m.Touches m' d S) (hv : v < KERNPAGE) (hS : v ∉ S) : GrownAt m' d l v := by
  rcases h with ⟨g, hg, hs, hwalk⟩ | ⟨hs, hnone⟩
  · refine Or.inl ⟨g, hg, hs, ?_⟩
    refine ((ht.users v hv hS).resolve_right fun hn => ?_).trans hwalk
    rw [hn.1] at hwalk
    cases hwalk
  · refine Or.inr ⟨hs, ?_⟩
    rcases ht.users v hv hS with hsame | ⟨-, hzero⟩
    · rwa [hsame]
    · exact Or.inr hzero

/-- Notes about other pages do not matter. -/
theorem GrownAt.append {l l' : List Note} {first a last : ℕ}
    (h' : ∀ e ∈ l', Note.Within first a last e) (hv : v < a ∨ last ≤ v) :
    (GrownAt m d l v → GrownAt m d (l ++ l') v) ∧ (GrownAt m d l v → GrownAt m d (l' ++ l) v) := by
  have hs : Note.starved v ∉ l' := fun hs => by
    have := h' _ hs
    unfold Note.Within at this
    omega
  unfold GrownAt
  simp only [List.mem_append, hs, or_false, false_or]
  constructor <;>
  · rintro (⟨g, hg, hrest⟩ | hrest)
    · exact Or.inl ⟨g, by simp only [hg, true_or, or_true], hrest⟩
    · exact Or.inr hrest

theorem Deallocated.touches {m' : Phys} {a last : ℕ} (h : Deallocated L m m' e d a last)
    (hlast : last ≤ KERNPAGE) : m.Touches m' d {v | a ≤ v ∧ v < last} := by
  have hnpage : KERNPAGE < NPAGE := by decide
  have hout : ∀ v, v ∉ {v | a ≤ v ∧ v < last} → v < a ∨ last ≤ v := by
    intro v hS
    by_contra hin
    exact hS ⟨by omega, by omega⟩
  exact ⟨fun v hv hS => Or.inl (h.outside v (by omega) (hout v hS)),
    fun v hge hlt => h.outside v hlt (Or.inr (by omega)), fun v g hv hS => h.data v g hv (hout v hS)⟩

/-- The page that was just allocated is filled. -/
theorem Owned.setMem (h : Owned L m e) (hmem : e.mem = some g) (hd : e.dir = some d)
    (hlow : e.low = 0) {b : ℕ → Byte} :
    Works L m (m.setPage g b) e e ∧ ∀ v, v < NPAGE → (m.setPage g b).walk d v = m.walk d v := by
  have hdata := Phys.not_tablePage h.apart (x := .mem) hmem nofun nofun
  exact ⟨Owned.setPage hdata (Or.inl ⟨.mem, hmem⟩), fun v hv =>
    Owned.walk_setPage hd hlow hdata hv⟩

/-- What the loop of `allocuvm` does from the page `a` on when it gets to the end. -/
structure Grown (m m' : Phys) (d a last : ℕ) (l : List Note) : Prop where
  touches : m.Touches m' d {v | a ≤ v ∧ v < last}
  pages : ∀ v, a ≤ v → v < last → GrownAt m' d l v
  /-- where a page is lost there are no more pages -/
  starved : ∀ v, .starved v ∈ l → v + 1 = last
  free : a < last → m.free ≠ []
  zeroed : ∀ v g, a ≤ v → v < last → m'.mapped d v = some g → m'.byte g = fun _ => 0#8

/-- Everything the loop of `allocuvm` got when it comes to the page `a` can be given
back: there is nothing, or there is a page table at the start. -/
def Phys.Undoable (m : Phys) (d old last a : ℕ) : Prop :=
  ((∀ v, old ≤ v → v < last → m.mapped d v = none) ∧ (a = old ∨ m.free = [])) ∨
    m.walk d old ≠ none

/-- One turn of the loop of `allocuvm`, which got a page for `a`. -/
structure Turned (L : Layout) (m m' : Phys) (e : Env) (d a : ℕ) (l : List Note) : Prop where
  works : Works L m m' e e
  touches : m.Touches m' d {a}
  zeroed : ∀ p, m'.mapped d a = some p → m'.byte p = fun _ => 0#8
  stays : m.walk d a ≠ none → m'.walk d a ≠ none
  notes : m'.notes = m.notes ++ l
  within : ∀ n ∈ l, n.Within L.first a (a + 1)
  grown : GrownAt m' d l a
  /-- a page is lost only if there are no more pages -/
  starved : ∀ v, .starved v ∈ l → m'.free = []

/-- The page is recorded, cleared and mapped. -/
theorem Owned.allocTurn (h : Owned L m e) (hmem : e.mem = none) (hd : e.dir = some d)
    (hlow : e.low = 0) {a : ℕ} (ha : a < KERNPAGE) {free : List ℕ} (hfree : m.free = g :: free) :
    Gives (mappages d a 1 g (PTE_W + PTE_U)) (((m.setFree free).note (.grown a g)).fill g 0#8)
      (fun _ m' => ∃ l, Turned L m m' e d a l) fun p _ => p = .remap ∧ m.mapped d a ≠ none := by
  have ha' : a < NPAGE := by
    unfold KERNPAGE NPAGE at *
    omega
  have htake := Owned.takeMem (L := L) hfree hmem
  have h1 := h.works htake
  have hnote : Works L (m.setFree free) ((m.setFree free).note (.grown a g))
      { e with mem := some g } { e with mem := some g } := by
    refine Works.same rfl (fun _ _ _ => rfl) (List.prefix_append _ _) ?_
    unfold Phys.lost Phys.note
    rw [List.countP_append]
    rfl
  have h2 := h1.works hnote
  obtain ⟨hfill, hwalk⟩ := h2.setMem (d := d) (b := fun _ => 0#8) rfl hd hlow
  have hsame : ∀ v, v < NPAGE →
      (((m.setFree free).note (.grown a g)).fill g 0#8).walk d v = m.walk d v := hwalk
  have h3 := h2.works hfill
  have henv : ({ e with mem := none } : Env) = e := by
    rw [← hmem]
  have hperm : PTE_W + PTE_U < 4096 := by decide
  refine (h3.mappages_user (d := d) hd hlow rfl ha hperm).mono ?_ ?_
  · rintro ok m3 ⟨hmap, htouch, hdata, hres⟩
    dsimp only at hmap
    rw [henv] at hmap
    have hwork := htake.trans (hnote.trans (hfill.trans hmap))
    have htouch' : m.Touches m3 d {a} := (Phys.Touches.of_walk hsame fun v p hv _ hp =>
      Phys.byte_setPage_ne (h.ne_fresh hd hlow hfree hv hp)).trans htouch
    have ha1 : a ≤ a ∧ a < a + 1 := by omega
    have hfirst := (h1.ranged g ⟨.mem, rfl⟩).1
    rcases hres with ⟨-, hself, hnotes⟩ | ⟨-, rfl, hnil, hnone⟩
    · have hs : ∀ v, Note.starved v ∉ [Note.grown a g] := by
        simp only [List.mem_singleton, reduceCtorEq, not_false_eq_true, implies_true]
      refine ⟨[.grown a g], hwork, htouch', fun p hp => ?_, fun _ => ?_, hnotes, ?_,
        Or.inl ⟨g, List.mem_singleton_self _, hs a, hself⟩, fun v hv => absurd hv (hs v)⟩
      · rw [Phys.mapped_eq, hself, pageOf_mkPte hperm] at hp
        obtain rfl := Option.some.inj hp
        exact (hdata .mem g trivial rfl).trans Phys.byte_setPage_self
      · rw [hself]
        nofun
      · rw [List.forall_mem_singleton]
        exact ⟨ha1.1, ha1.2, hfirst⟩
    · refine ⟨[.grown a g, .starved a], hwork, htouch', fun p hp => ?_, fun hsome => ?_,
        List.append_assoc _ _ _, ?_, Or.inr ⟨?_, Or.inl hnone⟩, fun _ _ => hnil⟩
      · have hp' : pageOf ((((m.setFree free).note (.grown a g)).fill g 0#8).walk d a) = some p :=
          Phys.mapped_eq.symm.trans hp
        exact absurd (hp'.symm.trans (congrArg pageOf hnone)) nofun
      · exact absurd ((hsame a ha').symm.trans hnone) hsome
      · rw [List.forall_mem_cons, List.forall_mem_singleton]
        exact ⟨⟨ha1.1, ha1.2, hfirst⟩, ha1⟩
      · exact List.mem_cons_of_mem _ (List.mem_singleton_self _)
  · rintro p _ ⟨rfl, hv⟩
    refine ⟨rfl, ?_⟩
    rw [Phys.mapped_eq] at hv ⊢
    exact fun hn => hv ((congrArg pageOf (hsame a ha')).trans hn)

/-- What comes after the turn goes on from the next page. -/
theorem Turned.grows {m₁ : Phys} {a last : ℕ} {l l' : List Note} (h : Turned L m m₁ e d a l)
    (ha : a < last) (hlast : last ≤ KERNPAGE) (hfree : m.free ≠ [])
    (hrest : Grown m₁ m' d (a + 1) last l') (hat : ∀ n ∈ l', n.Within L.first (a + 1) last) :
    Grown m m' d a last (l ++ l') := by
  have hout : a ∉ {w | a + 1 ≤ w ∧ w < last} := by
    rintro ⟨hlo, -⟩
    omega
  refine ⟨(h.touches.mono ?_).trans (hrest.touches.mono ?_), fun v hlo hhi => ?_, fun v hv => ?_,
    fun _ => hfree, fun v p hlo hhi hp => ?_⟩
  · rintro v rfl
    exact ⟨le_rfl, ha⟩
  · rintro v ⟨hlo, hhi⟩
    exact ⟨by omega, hhi⟩
  · by_cases hva : v = a
    · subst hva
      exact (GrownAt.append hat (by omega)).1 (h.grown.touches hrest.touches (by omega) hout)
    · exact (GrownAt.append h.within (by omega)).2 (hrest.pages v (by omega) hhi)
  · rcases List.mem_append.mp hv with hv | hv
    · have hin := h.within _ hv
      have hnil := h.starved v hv
      unfold Note.Within at hin
      by_contra hne
      exact hrest.free (by omega) hnil
    · exact hrest.starved v hv
  · by_cases hva : v = a
    · subst hva
      rw [hrest.touches.mapped (by omega) hout] at hp
      rw [hrest.touches.data v p (by omega) hout hp, h.zeroed p hp]
    · exact hrest.zeroed v p (by omega) hhi hp

theorem Turned.undoable {m₁ : Phys} {a old last : ℕ} {l : List Note} (h : Turned L m m₁ e d a l)
    (hold : old ≤ a) (ha : a < last) (hlast : last ≤ KERNPAGE) (hfree : m.free ≠ [])
    (hundo : m.Undoable d old last a) : m₁.Undoable d old last (a + 1) := by
  rcases hundo with ⟨hempty, hstart⟩ | hwalk
  · have hstart := hstart.resolve_right hfree
    rcases h.grown with ⟨g', -, -, hwalk⟩ | ⟨hs, hnone⟩
    · right
      rw [← hstart, hwalk]
      nofun
    · refine Or.inl ⟨fun v hlo hhi => ?_, Or.inr (h.starved _ hs)⟩
      by_cases hva : v = a
      · subst hva
        rw [Phys.mapped_eq]
        rcases hnone with hn | hn <;> rw [hn] <;> rfl
      · rw [h.touches.mapped (by omega) hva]
        exact hempty v hlo hhi
  · right
    by_cases hva : old = a
    · rw [hva] at hwalk ⊢
      exact h.stays hwalk
    · rcases h.touches.users _ (by omega) hva with hsame | ⟨-, hzero⟩
      · rwa [hsame]
      · rw [hzero]
        nofun

/-- The loop of `allocuvm`, by induction on the pages that are left. -/
theorem Owned.allocLoop {oldsz newsz : ℕ} (hmem : e.mem = none) (hd : e.dir = some d)
    (hlow : e.low = 0) (hnew : newsz < KERNBASE) (n : ℕ) : ∀ {m : Phys} {a : ℕ}, Owned L m e →
      a + n = pgroundup newsz → pgroundup oldsz ≤ a →
      Gives (allocLoop L d oldsz newsz a n) m
        (fun r m' => Works L m m' e e ∧ ∃ l, m'.notes = m.notes ++ l ∧
          (∀ n ∈ l, n.Within L.first a (pgroundup newsz)) ∧
          ((r = newsz ∧ Grown m m' d a (pgroundup newsz) l) ∨
            (r = 0 ∧ m.Touches m' d {v | pgroundup oldsz ≤ v ∧ v < pgroundup newsz} ∧
              (m.Undoable d (pgroundup oldsz) (pgroundup newsz) a →
                ∀ v, pgroundup oldsz ≤ v → v < pgroundup newsz → m'.mapped d v = none))))
        fun p _ => p = .remap ∧ ∃ v, a ≤ v ∧ v < pgroundup newsz ∧ m.mapped d v ≠ none := by
  have hlast := pgroundup_le hnew.le
  induction n with
  | zero =>
    intro m a h ha _
    rw [StrideXv6.allocLoop, gives_pure]
    exact ⟨Works.refl, [], (List.append_nil _).symm, nofun, Or.inl ⟨rfl, Phys.Touches.refl,
      fun v hlo hhi => by omega, nofun, fun h => by omega, fun v _ hlo hhi => by omega⟩⟩
  | succ n ih =>
    intro m a h ha hold
    rw [StrideXv6.allocLoop, gives_bind, gives_kalloc]
    refine ⟨fun _ => ?_, fun g free hfree => ?_⟩
    · -- no page: what was got so far is given back
      refine (h.deallocuvm hmem hd hlow hnew.le).bind ?_ nofun
      rintro _ m' ⟨-, hdone⟩
      rw [gives_pure]
      refine ⟨hdone.works, [], by rw [hdone.notes, List.append_nil], nofun,
        Or.inr ⟨rfl, hdone.touches hlast, fun hundo v hlo hhi => ?_⟩⟩
      rcases hundo with ⟨hempty, -⟩ | hwalk
      · rcases hdone.inside v hlo hhi with hsame | ⟨-, hzero⟩
        · rw [Phys.mapped_eq, hsame, ← Phys.mapped_eq]
          exact hempty v hlo hhi
        · rw [Phys.mapped_eq, hzero]
          rfl
      · exact hdone.none (Or.inr hwalk) hlo hhi
    · have hne : m.free ≠ [] := by
        rw [hfree]
        nofun
      dsimp only
      rw [gives_bind, gives_modify, gives_bind, gives_modify]
      refine (h.allocTurn hmem hd hlow (by omega) hfree).bind ?_ ?_
      · rintro ok m3 ⟨l1, hturn⟩
        refine (ih (h.works hturn.works) (by omega) (by omega)).mono ?_ ?_
        · rintro r m' ⟨hwork', l2, hl2, hat2, hend⟩
          refine ⟨hturn.works.trans hwork', l1 ++ l2, by rw [hl2, hturn.notes, List.append_assoc],
            fun n hn => ?_, ?_⟩
          · rcases List.mem_append.mp hn with hn | hn
            · exact (hturn.within n hn).mono le_rfl (by omega)
            · exact (hat2 n hn).mono (by omega) le_rfl
          rcases hend with ⟨rfl, hrest⟩ | ⟨rfl, hrest, hundone⟩
          · exact Or.inl ⟨rfl, hturn.grows (by omega) hlast hne hrest hat2⟩
          · refine Or.inr ⟨rfl, (hturn.touches.mono ?_).trans hrest, fun hundo =>
              hundone (hturn.undoable hold (by omega) hlast hne hundo)⟩
            rintro v rfl
            exact ⟨hold, by omega⟩
        · rintro p _ ⟨rfl, v, hlo, hhi, hv⟩
          refine ⟨rfl, v, by omega, hhi, ?_⟩
          rwa [hturn.touches.mapped (by omega) (by rintro rfl; omega)] at hv
      · rintro p _ ⟨rfl, hv⟩
        exact ⟨rfl, a, le_rfl, by omega, hv⟩

/-- What `allocuvm` answers, with `l` what was recorded. -/
inductive Allocated (m m' : Phys) (d oldsz newsz : ℕ) (l : List Note) : ℕ → Prop where
  /-- it failed -/
  | failed : m.Touches m' d {v | pgroundup oldsz ≤ v ∧ v < pgroundup newsz} →
      ((∀ v, pgroundup oldsz ≤ v → v < pgroundup newsz → m.mapped d v = none) →
        ∀ v, pgroundup oldsz ≤ v → v < pgroundup newsz → m'.mapped d v = none) →
      Allocated m m' d oldsz newsz l 0
  /-- there was nothing to do -/
  | nothing : newsz < oldsz → m' = m → Allocated m m' d oldsz newsz l oldsz
  /-- there is more memory now -/
  | grown : oldsz ≤ newsz → newsz < KERNBASE →
      Grown m m' d (pgroundup oldsz) (pgroundup newsz) l → Allocated m m' d oldsz newsz l newsz

theorem Owned.allocuvm (h : Owned L m e) (hmem : e.mem = none) (hd : e.dir = some d)
    (hlow : e.low = 0) {oldsz newsz : ℕ} :
    Gives (allocuvm L d oldsz newsz) m
      (fun r m' => Works L m m' e e ∧ ∃ l, m'.notes = m.notes ++ l ∧
        (∀ n ∈ l, n.Within L.first (pgroundup oldsz) (pgroundup newsz)) ∧
        Allocated m m' d oldsz newsz l r)
      fun p _ => p = .remap ∧ newsz < KERNBASE ∧
        ∃ v, pgroundup oldsz ≤ v ∧ v < pgroundup newsz ∧ m.mapped d v ≠ none := by
  unfold StrideXv6.allocuvm
  split
  · rw [gives_pure]
    exact ⟨Works.refl, [], (List.append_nil _).symm, nofun, .failed Phys.Touches.refl id⟩
  · next hnew =>
    split
    · next hlt =>
      rw [gives_pure]
      exact ⟨Works.refl, [], (List.append_nil _).symm, nofun, .nothing hlt rfl⟩
    · next hle =>
      have hpages : pgroundup oldsz ≤ pgroundup newsz := by
        unfold pgroundup
        omega
      refine (Owned.allocLoop hmem hd hlow (by omega) _ h (by omega) le_rfl).mono ?_
        fun _ _ h => ⟨h.1, by omega, h.2⟩
      rintro r m' ⟨hwork, l, hl, hat, ⟨rfl, hgrown⟩ | ⟨rfl, htouch, hundone⟩⟩
      · exact ⟨hwork, l, hl, hat, .grown (by omega) (by omega) hgrown⟩
      · exact ⟨hwork, l, hl, hat, .failed htouch fun hempty =>
          hundone (Or.inl ⟨hempty, Or.inl rfl⟩)⟩

/-- `clearpteu` changes a permission. -/
theorem Owned.clearpteu (h : Owned L m e) (hd : e.dir = some d) (hlow : e.low = 0)
    (hv : v < KERNPAGE) : Gives (clearpteu d v) m
      (fun _ m' => Works L m m' e e ∧ m'.notes = m.notes ∧ m'.mapped d v = m.mapped d v ∧
        ∀ v', v' < NPAGE → v' ≠ v → m'.walk d v' = m.walk d v')
      fun p m' => p = .clearpteu ∧ m' = m ∧ m.walk d v = none := by
  have hv' : v < NPAGE := by
    unfold KERNPAGE NPAGE at *
    omega
  have hj : v % NPTENTRIES < NPTENTRIES := Nat.mod_lt _ (by decide)
  have hi : v / NPTENTRIES < NPTENTRIES := by
    unfold NPTENTRIES NPAGE at *
    omega
  have hat : v / NPTENTRIES * NPTENTRIES + v % NPTENTRIES < KERNPAGE := by rwa [Nat.div_add_mod']
  unfold StrideXv6.clearpteu
  rw [gives_bind, gives_walkpgdir]
  cases hentry : m.entry d (v / NPTENTRIES) with
  | none =>
    change Gives (throw VmPanic.clearpteu) m _ _
    rw [gives_throw]
    exact ⟨rfl, rfl, walk_eq_none.mpr hentry⟩
  | some t =>
    change Gives (modify _) m _ _
    rw [gives_modify]
    have hplace := (Phys.place_table_of_dir hd (hlow ▸ Nat.zero_le _) hi).trans hentry
    set x := m.pte t (v % NPTENTRIES) with hx
    -- neither the page nor `PTE_P` changes
    have hkeep : isPresent (if isUser x then x - PTE_U else x) = isPresent x ∧
        pteAddr (if isUser x then x - PTE_U else x) = pteAddr x := by
      unfold isPresent pteAddr isUser PTE_U
      split
      · next hu =>
        rw [beq_iff_eq] at hu
        constructor
        · rw [Bool.eq_iff_iff, beq_iff_eq, beq_iff_eq]
          omega
        · omega
      · exact ⟨rfl, rfl⟩
    have hlt : (if isUser x then x - PTE_U else x) < 4294967296 := by
      have := Phys.pte_lt (m := m) (t := t) (j := v % NPTENTRIES)
      split <;> omega
    have hsame : (m.setPte t (v % NPTENTRIES) (if isUser x then x - PTE_U else x)).entry t
        (v % NPTENTRIES) = m.entry t (v % NPTENTRIES) := by
      rw [entry_setPte hlt, hkeep.1, hkeep.2]
      rfl
    have hset := h.walk_setPte hd hlow hentry hv' hlt
    refine ⟨Works.same (funext fun y => ?_) (fun p _ hn => frame_setPte hplace hn)
      (List.prefix_refl _) rfl, rfl, ?_, hset.2⟩
    · by_cases hy : y = .user (v / NPTENTRIES * NPTENTRIES + v % NPTENTRIES)
      · rw [hy, h.place_user_setPte hplace hj hat, hsame, place_user_at hplace hj hat]
      · exact Phys.place_setPte h.apart hplace hy
    · rw [Phys.mapped_eq, hset.1, Phys.mapped_of_entry hentry]
      unfold pageOf Phys.entry
      rw [Option.bind_some, hkeep.1, hkeep.2]

/-! ## Copying -/

/-- The page directory `p` and its page tables are none of the pages that are worked
on. -/
def Frozen (L : Layout) (m : Phys) (e : Env) (p : ℕ) : Prop :=
  ∀ g, (g = p ∨ ∃ i < NPTENTRIES, m.entry p i = some g) → L.first ≤ g ∧ ¬Holds (m.place e) g

theorem Works.frozen {m' : Phys} {e' : Env} {p : ℕ} (hw : Works L m m' e e') (h : Frozen L m e p) :
    (∀ v, v < NPAGE → m'.walk p v = m.walk p v) ∧ Frozen L m' e' p := by
  have hbyte : ∀ g, (g = p ∨ ∃ i < NPTENTRIES, m.entry p i = some g) → m'.byte g = m.byte g :=
    fun g hg => hw.frame g (h g hg).1 (h g hg).2
  have hentry : ∀ i, m'.entry p i = m.entry p i := fun i =>
    Phys.entry_congr (Phys.pte_congr (hbyte p (Or.inl rfl)))
  constructor
  · intro v hv
    have hi : v / NPTENTRIES < NPTENTRIES := by
      unfold NPTENTRIES NPAGE at *
      omega
    unfold Phys.walk
    rw [hentry]
    cases ht : m.entry p (v / NPTENTRIES) with
    | none => rfl
    | some t => simp only [Option.map_some, Phys.pte_congr (hbyte t (Or.inr ⟨_, hi, ht⟩))]
  · intro g hg
    simp only [hentry] at hg
    exact ⟨(h g hg).1, fun hh => (h g hg).2 (hw.shift.holds g hh)⟩

/-- The virtual page `v` of `d` is a copy of that of `p`. The bytes are those of the
parent's page if that is none of the pages that are worked on. -/
def CopiedAt (L : Layout) (m m' : Phys) (e : Env) (p d v : ℕ) : Prop :=
  ∃ x g, m.walk p v = some x ∧ isPresent x = true ∧
    m'.walk d v = some (mkPte g (pteFlags x ||| PTE_P)) ∧
    (L.first ≤ pteAddr x → ¬Holds (m.place e) (pteAddr x) →
      ∀ o, o < 4096 → m'.byte g o = m.byte (pteAddr x) o)

theorem pteFlags_lt {x : ℕ} : pteFlags x < 4096 := Nat.mod_lt _ (by decide)

theorem CopiedAt.mapped {m' : Phys} {p : ℕ} (h : CopiedAt L m m' e p d v) :
    m'.mapped d v ≠ none := by
  obtain ⟨x, g, -, -, hwalk, -⟩ := h
  rw [Phys.mapped_eq, hwalk, pageOf_mkPte pteFlags_lt]
  nofun

/-- What is copied later does not matter. -/
theorem CopiedAt.touches {m' m'' : Phys} {p : ℕ} {S : Set ℕ} (h : CopiedAt L m m' e p d v)
    (ht : m'.Touches m'' d S) (hv : v < KERNPAGE) (hS : v ∉ S) : CopiedAt L m m'' e p d v := by
  obtain ⟨x, g, hx, hp, hwalk, hbyte⟩ := h
  have hmapped : m'.mapped d v = some g := by
    rw [Phys.mapped_eq, hwalk, pageOf_mkPte pteFlags_lt]
  refine ⟨x, g, hx, hp, ?_, fun hlo hout o ho => ?_⟩
  · refine ((ht.users v hv hS).resolve_right fun hn => ?_).trans hwalk
    rw [hn.1] at hwalk
    cases hwalk
  · rw [ht.data v g hv hS hmapped]
    exact hbyte hlo hout o ho

/-- What was copied before does not matter. -/
theorem CopiedAt.after {m1 m' : Phys} {e' e'' : Env} {p : ℕ} (h : CopiedAt L m1 m' e' p d v)
    (hw : Works L m m1 e'' e') (hparent : m1.walk p v = m.walk p v) :
    CopiedAt L m m' e'' p d v := by
  obtain ⟨x, g, hx, hp, hwalk, hbyte⟩ := h
  refine ⟨x, g, hparent.symm.trans hx, hp, hwalk, fun hlo hout o ho => ?_⟩
  rw [hbyte hlo (fun hh => hout (hw.shift.holds _ hh)) o ho, hw.frame _ hlo hout]

/-- The loop of `copyuvm`, by induction on the pages that are left. -/
theorem Owned.copyPages {p : ℕ} (hmem : e.mem = none) (hd : e.dir = some d) (hlow : e.low = 0)
    (n : ℕ) : ∀ {m : Phys} {i : ℕ}, Owned L m e → Frozen L m e p → i + n ≤ KERNPAGE →
      (∀ v, i ≤ v → v < KERNPAGE → m.mapped d v = none) →
      Gives (copyPages p d i n) m
        (fun ok m' => Works L m m' e e ∧ (ok = true → m'.lost = m.lost ∧
          m.Touches m' d {v | i ≤ v ∧ v < i + n} ∧
          ∀ v, i ≤ v → v < i + n → CopiedAt L m m' e p d v))
        fun q _ => (q = .pteShouldExist ∨ q = .pageNotPresent) ∧
          ∃ v, i ≤ v ∧ v < i + n ∧ m.mapped p v = none := by
  have hnpage : KERNPAGE < NPAGE := by decide
  induction n with
  | zero =>
    intro m i h _ _ _
    rw [StrideXv6.copyPages, gives_pure]
    exact ⟨Works.refl, fun _ => ⟨rfl, Phys.Touches.refl, fun v hlo hhi => by omega⟩⟩
  | succ n ih =>
    intro m i h hfrozen hn hnone
    rw [StrideXv6.copyPages, gives_bind, gives_walkpgdir]
    cases hentry : m.entry p (i / NPTENTRIES) with
    | none =>
      change Gives (throw VmPanic.pteShouldExist) m _ _
      rw [gives_throw]
      refine ⟨Or.inl rfl, i, le_rfl, by omega, ?_⟩
      unfold Phys.mapped
      rw [hentry]
      rfl
    | some t =>
      simp only [Option.map_some]
      rw [gives_bind, gives_get]
      split
      · next hp =>
        rw [gives_bind, gives_kalloc]
        refine ⟨fun _ => ?_, fun g free hfree => ?_⟩
        · rw [gives_pure]
          exact ⟨Works.refl, nofun⟩
        · dsimp only
          rw [gives_bind, gives_modify]
          have htake := Owned.takeMem (L := L) hfree hmem
          have h1 := h.works htake
          obtain ⟨hfill, hwalk⟩ := h1.setMem (d := d) (b := splice ((m.setFree free).byte g) 0 4096
            ((m.setFree free).byte (pteAddr (m.pte t (i % NPTENTRIES))))) rfl hd hlow
          have hsame : ∀ v, v < NPAGE → ((m.setFree free).store g 0 4096
              ((m.setFree free).byte (pteAddr (m.pte t (i % NPTENTRIES))))).walk d v = m.walk d v :=
            hwalk
          have h2 := h1.works hfill
          have henv : ({ e with mem := none } : Env) = e := by
            rw [← hmem]
          refine (h2.mappages_user (d := d) hd hlow rfl (v := i) (by omega) pteFlags_lt).bind ?_ ?_
          · rintro ok m3 ⟨hmap, htouch, hdata, hres⟩
            dsimp only at hmap
            rw [henv] at hmap
            have hwork := htake.trans (hfill.trans hmap)
            have htouch' : m.Touches m3 d {i} := (Phys.Touches.of_walk hsame fun v q hv _ hq =>
              Phys.byte_setPage_ne (h.ne_fresh hd hlow hfree hv hq)).trans htouch
            obtain ⟨hparent, hfrozen'⟩ := hwork.frozen hfrozen
            rcases hres with ⟨rfl, hself, hnotes⟩ | ⟨rfl, -⟩
            · have hcopied : CopiedAt L m m3 e p d i := by
                refine ⟨_, g, Phys.walk_of_entry hentry, hp, hself, fun _ _ o ho => ?_⟩
                rw [hdata .mem g trivial rfl, Phys.byte_setPage_self]
                have hin := splice_inside (d := (m.setFree free).byte g) (o := 0)
                  (f := (m.setFree free).byte (pteAddr (m.pte t (i % NPTENTRIES)))) ho
                rwa [Nat.zero_add] at hin
              rw [if_pos rfl]
              refine (ih (h.works hwork) hfrozen' (by omega) fun v hlo hhi => ?_).mono ?_ ?_
              · rw [htouch'.mapped hhi (by rintro rfl; omega)]
                exact hnone v (by omega) hhi
              · rintro ok m' ⟨hwork', hok⟩
                refine ⟨hwork.trans hwork', fun hyes => ?_⟩
                obtain ⟨hlost, hrest, hmapped⟩ := hok hyes
                refine ⟨?_, (htouch'.mono ?_).trans (hrest.mono ?_), fun v hlo hhi => ?_⟩
                · rw [hlost]
                  unfold Phys.lost
                  rw [hnotes]
                  rfl
                · rintro v rfl
                  exact ⟨le_rfl, by omega⟩
                · rintro v ⟨hlo, hhi⟩
                  exact ⟨by omega, by omega⟩
                · by_cases hvi : v = i
                  · subst hvi
                    exact hcopied.touches hrest (by omega) (by rintro ⟨hlo, -⟩; omega)
                  · exact (hmapped v (by omega) (by omega)).after hwork (hparent v (by omega))
              · rintro q _ ⟨hq, v, hlo, hhi, hv⟩
                refine ⟨hq, v, by omega, by omega, ?_⟩
                rwa [Phys.mapped_eq, hparent v (by omega), ← Phys.mapped_eq] at hv
            · rw [if_neg Bool.false_ne_true, gives_pure]
              exact ⟨hwork, nofun⟩
          · rintro q _ ⟨-, hv⟩
            rw [Phys.mapped_eq] at hv
            refine absurd ((congrArg pageOf (hsame i (by omega))).trans ?_) hv
            rw [← Phys.mapped_eq]
            exact hnone i le_rfl (by omega)
      · next hp =>
        rw [gives_throw]
        refine ⟨Or.inr rfl, i, le_rfl, by omega, ?_⟩
        rw [Phys.mapped_of_entry hentry, Phys.entry_of_absent (Bool.eq_false_iff.mpr hp)]

/-- `copyuvm`: the copy has a page wherever the parent has to have one. -/
theorem Owned.copyuvm (h : Owned L m e) (hmem : e.mem = none) (hdir : e.dir = none)
    (hlow : e.low = 0) {p sz : ℕ} (hfrozen : Frozen L m e p) (hsz : sz ≤ KERNBASE) :
    Gives (copyuvm L p sz) m
      (fun r m' => (r = none ∧ Works L m m' e e) ∨
        ∃ d, r = some d ∧ Works L m m' e { e with dir := some d } ∧ m'.lost = m.lost ∧
          (∀ v, v < pgroundup sz → CopiedAt L m m' e p d v) ∧
          ∀ v, pgroundup sz ≤ v → v < KERNPAGE → m'.mapped d v = none)
      fun q _ => (q = .pteShouldExist ∨ q = .pageNotPresent) ∧
        ∃ v, v < pgroundup sz ∧ m.mapped p v = none := by
  have hpages := pgroundup_le hsz
  have hnpage : KERNPAGE < NPAGE := by decide
  unfold StrideXv6.copyuvm
  refine (h.setupkvm hdir hlow).bind ?_ nofun
  rintro r m1 (⟨rfl, hwork⟩ | ⟨d, rfl, hwork, hnotes, hempty, -⟩)
  · dsimp only
    rw [gives_pure]
    exact Or.inl ⟨rfl, hwork⟩
  · dsimp only
    have h1 := h.works hwork
    obtain ⟨hparent, hfrozen'⟩ := hwork.frozen hfrozen
    refine (Owned.copyPages (e := { e with dir := some d }) hmem rfl hlow _ h1 hfrozen'
      (by omega) fun v _ hv => ?_).bind ?_ ?_
    · rw [Phys.mapped_eq, hempty v hv]
      rfl
    · rintro ok m2 ⟨hwork', hok⟩
      cases ok with
      | true =>
        obtain ⟨hlost, htouch, hcopied⟩ := hok rfl
        rw [if_pos rfl, gives_pure]
        refine Or.inr ⟨d, rfl, hwork.trans hwork', hlost.trans ?_, fun v hv => ?_,
          fun v hlo hhi => ?_⟩
        · unfold Phys.lost
          rw [hnotes]
        · exact (hcopied v (Nat.zero_le _) (by omega)).after hwork (hparent v (by omega))
        · rw [htouch.mapped hhi (by rintro ⟨-, h⟩; omega), Phys.mapped_eq, hempty v hhi]
          rfl
      | false =>
        rw [if_neg Bool.false_ne_true]
        refine ((h1.works hwork').freevm hmem rfl hlow).bind ?_ nofun
        rintro _ m3 ⟨hfree, -⟩
        rw [gives_pure]
        have henv : ({ e with dir := none } : Env) = e := by
          rw [← hdir]
        exact Or.inl ⟨rfl, hwork.trans (hwork'.trans (henv ▸ hfree))⟩
    · rintro q _ ⟨hq, v, -, hhi, hv⟩
      refine ⟨hq, v, by omega, ?_⟩
      rwa [Phys.mapped_eq, hparent v (by omega), ← Phys.mapped_eq] at hv

end

end StrideXv6
