import StrideXv6.Upkeep

/-!
# What the callers of `vm.c` rely on

The promises of `deallocuvm`, `copyuvm` and `growproc`, for one address space.

* `deallocuvm` gives back a whole range of pages, unless the range starts in the
  middle of a page table that is missing: then the loop goes on in the middle of the
  next page table, too.
* `copyuvm` makes a copy that shares no page with the original.
* `growproc` does what it says or nothing, with two exceptions. An answer 0 of
  `deallocuvm` is taken for an error, although it is the new size, and a size below 0
  for one above the old size. And `allocuvm` does not look at what `mappages`
  answers, so the last page may be missing.
-/

namespace StrideXv6

open Bytes Effect Placement

section

variable {L : Layout} {m m' : Phys} {d p v g sz : ℕ} {stack : Option ℕ}

/-! ## `deallocuvm` -/

/-- Afterwards no page from `a` to `last` is there, each page that was there has been
given to `kfree` once, and the other entries are as before. -/
structure FreesRange (m m' : Phys) (d a last : ℕ) : Prop where
  gone : ∀ v, a ≤ v → v < last → m'.mapped d v = none
  freed : m'.free = ((List.range' a (last - a)).filterMap (m.mapped d)).reverse ++ m.free
  others : ∀ v, v < NPAGE → (v < a ∨ last ≤ v) → m'.walk d v = m.walk d v

/-- The loop of `deallocuvm` comes to every page that is there. -/
def Phys.NoneMissed (m : Phys) (d a last : ℕ) : Prop :=
  ∀ v, a ≤ v → v < last → m.mapped d v ≠ none → m.Visits d a v

theorem Phys.visited_of_noneMissed {a last : ℕ} (h : m.NoneMissed d a last) :
    m.visited d a last = (List.range' a (last - a)).filterMap (m.mapped d) := by
  refine List.filterMap_congr fun v hv => ?_
  rw [List.mem_range'_1] at hv
  split
  · rfl
  · next hvis =>
    by_contra hne
    exact hvis (h v hv.1 (by omega) fun hnone => hne hnone.symm)

/-- **`deallocuvm` frees the whole range** exactly if each of its pages is behind the
start in its page table, or there is a page table in between. -/
theorem deallocuvm_frees_range_iff (h : Owned L m { dir := some d, stack := stack })
    {oldsz newsz : ℕ} (hlt : newsz < oldsz) (hold : oldsz ≤ KERNBASE) :
    Gives (deallocuvm L d oldsz newsz) m
        (fun r m' => r = newsz ∧ FreesRange m m' d (pgroundup newsz) (pgroundup oldsz))
        (fun _ _ => False) ↔
      m.NoneMissed d (pgroundup newsz) (pgroundup oldsz) := by
  have hgives : Gives (deallocuvm L d oldsz newsz) m _ _ := h.deallocuvm rfl rfl rfl hold
  rw [if_neg (by omega)] at hgives
  constructor
  · intro hfrees v hlo hhi hmapped
    obtain ⟨-, m', -, ⟨-, hrange⟩, -, hdone⟩ := ((hfrees.and hgives).mono
      (fun _ _ hq => hq) fun _ _ he => he.1).returns
    by_contra hvis
    refine hmapped ?_
    rw [Phys.mapped_eq, ← hdone.missed v hlo hhi hvis, ← Phys.mapped_eq]
    exact hrange.gone v hlo hhi
  · intro hall
    refine hgives.mono ?_ fun _ _ he => he
    rintro _ m' ⟨rfl, hdone⟩
    refine ⟨rfl, fun v hlo hhi => ?_, ?_, hdone.outside⟩
    · by_cases hmapped : m.mapped d v = none
      · rcases hdone.inside v hlo hhi with hsame | ⟨-, hzero⟩
        · rw [Phys.mapped_eq, hsame, ← Phys.mapped_eq, hmapped]
        · rw [Phys.mapped_eq, hzero]
          rfl
      · exact hdone.gone v hlo hhi (hall v hlo hhi hmapped)
    · rw [hdone.free, Phys.visited_of_noneMissed hall]

end

/-- The memory of the first process is given back as a whole. -/
theorem deallocuvm_frees_init : ∃ s : Memory.Machine (Fin 2), Booted Layout.usual 0 s ∧
    Gives (deallocuvm Layout.usual (s.task 0).pgdir 4096 0) s.phys
      (fun r m' => r = 0 ∧ FreesRange s.phys m' (s.task 0).pgdir (pgroundup 0) (pgroundup 4096))
      fun _ _ => False := by
  obtain ⟨s, -, hb⟩ := booted_usual
  have howned := hb.kept.sound.owned (.task 0)
  rw [env_of_live hb.live] at howned
  exact ⟨s, hb, (deallocuvm_frees_range_iff howned (by decide) (by decide)).mpr
    fun v _ _ _ => Phys.visits_of_aligned rfl⟩

/-- Three free pages. -/
def threePages : Phys := { free := [300, 301, 302], byte := fun _ _ => 0#8 }

theorem owned_threePages : Owned Layout.usual threePages {} := by
  have hfree : ∀ x g, threePages.place {} x = some g →
      (x = .free 0 ∧ g = 302) ∨ (x = .free 1 ∧ g = 301) ∨ (x = .free 2 ∧ g = 300) := by
    intro x g hx
    cases x with
    | free n =>
      match n, hx with
      | 0, hx => exact Or.inl ⟨rfl, (Option.some.inj hx).symm⟩
      | 1, hx => exact Or.inr (Or.inl ⟨rfl, (Option.some.inj hx).symm⟩)
      | 2, hx => exact Or.inr (Or.inr ⟨rfl, (Option.some.inj hx).symm⟩)
      | _ + 3, hx => cases hx
    | table i => exact absurd (hx.symm.trans (ite_self _)) nofun
    | user v => exact absurd (hx.symm.trans (ite_self _)) nofun
    | _ => cases hx
  refine ⟨fun x y g hx hy => ?_, ?_⟩
  · rcases hfree x g hx with ⟨rfl, rfl⟩ | ⟨rfl, rfl⟩ | ⟨rfl, rfl⟩ <;>
    rcases hfree y _ hy with ⟨rfl, h⟩ | ⟨rfl, h⟩ | ⟨rfl, h⟩ <;> first | rfl | cases h
  · rintro g ⟨x, hx⟩
    have hin : Layout.usual.first ≤ 300 ∧ 302 < PHYSTOP := by decide
    rcases hfree x g hx with ⟨-, rfl⟩ | ⟨-, rfl⟩ | ⟨-, rfl⟩ <;> omega

/-- They become a page directory, its second page table, and the first page of that
one. -/
def secondTable : Phys :=
  let m := (threePages.setFree [301, 302]).fill 300 0#8
  let m := ((m.setFree [302]).fill 301 0#8).setPte 300 1 (mkPte 301 (PTE_P + PTE_W + PTE_U))
  (m.setFree []).setPte 301 0 (mkPte 302 (PTE_W + PTE_U ||| PTE_P))

theorem owned_secondTable : Owned Layout.usual secondTable { dir := some 300 } := by
  have hdir := owned_threePages.works (owned_threePages.takeDir rfl rfl)
  have htable := hdir.works (hdir.takeTable (i := 1) (t := 301) rfl rfl (by decide) (by decide)
    (Phys.entry_of_absent (by rw [Phys.pte_fill_zero]; rfl)) (by decide))
  have hentry := (hdir.walk_newTable rfl rfl (i := 1) (t := 301) rfl).1
  have hmem := htable.works (Owned.takeMem (g := 302) rfl rfl)
  have hplace := (Phys.place_table_of_dir (e := { dir := some 300, mem := some 302 }) rfl
    (Nat.zero_le _) (by decide)).trans hentry
  exact hmem.works (hmem.map (i := 1) (j := 0) rfl hplace (by decide) (by decide)
    (by decide +kernel) (by decide) (by decide))

/-- From the second page on, the loop jumps over the first page of the second page
table. -/
theorem deallocuvm_misses_page : secondTable.mapped 300 1024 = some 302 ∧
    ∃ m', (deallocuvm Layout.usual 300 (1025 * 4096) 4096).exec secondTable = (.ok 4096, m') ∧
      m'.mapped 300 1024 = some 302 ∧
      ¬FreesRange secondTable m' 300 (pgroundup 4096) (pgroundup (1025 * 4096)) := by
  have hmapped : secondTable.mapped 300 1024 = some 302 := by decide +kernel
  have hmissed : ¬secondTable.Visits 300 (pgroundup 4096) 1024 := by decide +kernel
  have hgives : Gives (deallocuvm Layout.usual 300 (1025 * 4096) 4096) secondTable _ _ :=
    owned_secondTable.deallocuvm rfl rfl rfl (by decide)
  obtain ⟨r, m', hexec, rfl, hdone⟩ := hgives.returns
  have hstill : m'.mapped 300 1024 = some 302 := by
    rw [Phys.mapped_eq, hdone.missed 1024 (by decide) (by decide) hmissed, ← Phys.mapped_eq, hmapped]
  refine ⟨hmapped, m', hexec, hstill, fun hrange => ?_⟩
  rw [hrange.gone 1024 (by decide) (by decide)] at hstill
  cases hstill

section

variable {L : Layout} {m m' : Phys} {d p v g sz : ℕ} {stack : Option ℕ}

/-! ## `copyuvm` -/

/-- The address space `d` in `m'` is a copy of the first `sz` bytes of `p` in `m`, on
pages of its own, and `p` is as before. -/
structure IsolatedCopy (m m' : Phys) (p d sz : ℕ) : Prop where
  /-- the same contents and the same flags -/
  copied : ∀ v, v < pgroundup sz → ∃ x g, m.walk p v = some x ∧
    m'.walk d v = some (mkPte g (pteFlags x)) ∧ m'.mapped d v = some g ∧
    ∀ o, o < 4096 → m'.byte g o = m.byte (pteAddr x) o
  /-- no page is mapped twice -/
  distinct : ∀ v v' g, v < KERNPAGE → v' < KERNPAGE → m'.mapped d v = some g →
    m'.mapped d v' = some g → v = v'
  /-- no page is one of the parent -/
  fresh : ∀ v g, v < KERNPAGE → m'.mapped d v = some g → g ≠ p ∧
    (∀ i, i < NPTENTRIES → m.entry p i ≠ some g) ∧ ∀ v', v' < KERNPAGE → m.mapped p v' ≠ some g
  /-- nothing else is mapped -/
  only : ∀ v, pgroundup sz ≤ v → v < KERNPAGE → m'.mapped d v = none
  /-- the parent's page directory, page tables and pages are untouched -/
  parent : m'.byte p = m.byte p ∧
    (∀ i t, i < NPTENTRIES → m.entry p i = some t → m'.byte t = m.byte t) ∧
    ∀ v g, v < KERNPAGE → m.mapped p v = some g → m'.byte g = m.byte g

/-- The free list alone. -/
theorem Owned.bare {e : Env} (h : Owned L m e) : Owned L m {} := by
  have hle : ∀ x, m.place {} x = none ∨ m.place {} x = m.place e x := by
    intro x
    cases x with
    | free n => exact Or.inr rfl
    | table i => exact Or.inl (ite_self _)
    | user v => exact Or.inl (ite_self _)
    | _ => exact Or.inl rfl
  have hshift := Shift.of_le hle
  exact ⟨hshift.apart h.apart, fun g hg => h.ranged g (hshift.holds g hg)⟩

/-- A page in use is not on the free list. -/
theorem Owned.not_holds_bare {e : Env} (h : Owned L m e) {x : Place} (hx : ∀ n, x ≠ .free n)
    (hg : m.place e x = some g) : L.first ≤ g ∧ ¬Holds (m.place {}) g := by
  refine ⟨(h.ranged g ⟨x, hg⟩).1, ?_⟩
  rintro ⟨y, hy⟩
  cases y with
  | free n => exact hx n (h.apart hg (y := .free n) hy)
  | table i => exact absurd (hy.symm.trans (ite_self _)) nofun
  | user v => exact absurd (hy.symm.trans (ite_self _)) nofun
  | _ => cases hy

theorem pteFlags_present {x : ℕ} (h : isPresent x = true) : pteFlags x ||| PTE_P = pteFlags x := by
  have hodd : pteFlags x % 2 = 1 := by
    unfold isPresent at h
    unfold pteFlags
    rw [beq_iff_eq] at h
    omega
  refine Nat.eq_of_testBit_eq fun i => ?_
  rw [Nat.testBit_or]
  cases i with
  | zero => simp [Nat.testBit_zero, hodd]
  | succ i => simp [PTE_P, Nat.testBit_succ]

/-- **`copyuvm` makes an isolated copy** of an address space whose pages are all
there, if there is enough memory; it does not panic. -/
theorem copyuvm_isolated (h : Owned L m { dir := some p, stack := stack }) (hsz : sz ≤ KERNBASE)
    (hpresent : ∀ v, v < pgroundup sz → m.mapped p v ≠ none) :
    Gives (copyuvm L p sz) m (fun r m' => ∀ d, r = some d → IsolatedCopy m m' p d sz)
      fun _ _ => False := by
  have hpages := pgroundup_le hsz
  have hdir := h.not_holds_bare (x := .dir) nofun rfl
  have htable : ∀ i t, i < NPTENTRIES → m.entry p i = some t →
      L.first ≤ t ∧ ¬Holds (m.place {}) t := fun i t hi ht =>
    h.not_holds_bare (x := .table i) nofun
      ((Phys.place_table_of_dir rfl (Nat.zero_le _) hi).trans ht)
  have huser : ∀ v g, v < KERNPAGE → m.mapped p v = some g →
      L.first ≤ g ∧ ¬Holds (m.place {}) g := fun v g hv hg =>
    h.not_holds_bare (x := .user v) nofun ((Phys.place_user_of_dir rfl rfl hv).trans hg)
  have hfrozen : Frozen L m {} p := by
    rintro g (rfl | ⟨i, hi, hg⟩)
    · exact hdir
    · exact htable i g hi hg
  refine (h.bare.copyuvm rfl rfl rfl hfrozen hsz).mono ?_ ?_
  · rintro r m' (⟨rfl, -⟩ | ⟨d, rfl, hwork, -, hcopied, hrest⟩) d' hd'
    · cases hd'
    obtain rfl := Option.some.inj hd'
    have h' := h.bare.works hwork
    have hat : ∀ v g, v < KERNPAGE → m'.mapped d v = some g →
        m'.place { dir := some d } (.user v) = some g :=
      fun v g hv hg => (Phys.place_user_of_dir rfl rfl hv).trans hg
    refine ⟨fun v hv => ?_, fun v v' g hv hv' hg hg' => ?_, fun v g hv hg => ?_, hrest,
      hwork.frame p hdir.1 hdir.2, fun i t hi ht => ?_, fun v g hv hg => ?_⟩
    · obtain ⟨x, g, hx, hp, hwalk, hbyte⟩ := hcopied v hv
      have hparent : m.mapped p v = some (pteAddr x) := by
        rw [Phys.mapped_eq, hx]
        exact if_pos hp
      obtain ⟨hlo, hout⟩ := huser v _ (by omega) hparent
      refine ⟨x, g, hx, by rw [hwalk, pteFlags_present hp], ?_, hbyte hlo hout⟩
      rw [Phys.mapped_eq, hwalk, pageOf_mkPte pteFlags_lt]
    · exact Place.user.inj (h'.apart (hat v g hv hg) (hat v' g hv' hg'))
    · -- the page was on the free list before
      have hfree := hwork.shift.holds g ⟨_, hat v g hv hg⟩
      refine ⟨?_, fun i hi ht => (htable i g hi ht).2 hfree,
        fun v' hv' hg' => (huser v' g hv' hg').2 hfree⟩
      rintro rfl
      exact hdir.2 hfree
    · exact hwork.frame t (htable i t hi ht).1 (htable i t hi ht).2
    · exact hwork.frame g (huser v g hv hg).1 (huser v g hv hg).2
  · rintro q _ ⟨-, v, hv, hnone⟩
    exact hpresent v hv hnone

/-- The child of the first process gets a copy of its memory. -/
theorem copyuvm_isolated_init : ∃ s : Memory.Machine (Fin 2), Booted Layout.usual 0 s ∧
    Gives (copyuvm Layout.usual (s.task 0).pgdir 4096) s.phys
      (fun r m' => ∀ d, r = some d → IsolatedCopy s.phys m' (s.task 0).pgdir d 4096)
      fun _ _ => False := by
  obtain ⟨s, -, hb⟩ := booted_usual
  have howned := hb.kept.sound.owned (.task 0)
  rw [env_of_live hb.live] at howned
  refine ⟨s, hb, copyuvm_isolated howned (by decide) fun v hv => hb.whole 0 hb.live v ?_⟩
  rwa [hb.size]

/-! ## `growproc` -/

/-- The pages below the size are there, and no others. -/
structure Sized (m : Phys) (d sz : ℕ) : Prop where
  below : ∀ v, v < pgroundup sz → m.mapped d v ≠ none
  above : ∀ v, pgroundup sz ≤ v → v < KERNPAGE → m.mapped d v = none

/-- The user page, its permissions and its contents are as before. -/
def PageKept (m m' : Phys) (d v : ℕ) : Prop :=
  ∀ g, m.mapped d v = some g → m'.walk d v = m.walk d v ∧ m'.byte g = m.byte g

/-- What `growproc` promises when it returns 0. -/
structure Grows (m m' : Phys) (d sz sz' : ℕ) (n : ℤ) : Prop where
  size : (sz' : ℤ) = sz + n
  mapped : ∀ v, v < pgroundup sz' → m'.mapped d v ≠ none
  above : ∀ v, pgroundup sz' ≤ v → v < KERNPAGE →
    m'.mapped d v = none ∧ ∀ g, m.mapped d v = some g → g ∈ m'.free
  kept : ∀ v, v < pgroundup (min sz sz') → PageKept m m' d v
  zeroed : ∀ v g, pgroundup sz ≤ v → v < pgroundup sz' → m'.mapped d v = some g →
    m'.byte g = fun _ => 0#8

/-- What `growproc` promises when it returns -1. -/
structure Unchanged (m m' : Phys) (d : ℕ) : Prop where
  kept : ∀ v, v < KERNPAGE → PageKept m m' d v
  absent : ∀ v, v < KERNPAGE → m.mapped d v = none → m'.mapped d v = none

theorem Phys.Touches.kept {S : Set ℕ} (h : m.Touches m' d S) (hv : v < KERNPAGE) (hS : v ∉ S) :
    PageKept m m' d v := by
  intro g hg
  refine ⟨(h.users v hv hS).resolve_right fun hn => ?_, h.data v g hv hS hg⟩
  rw [Phys.mapped_eq, hn.1] at hg
  cases hg

theorem Deallocated.kept {e : Env} {a last : ℕ} (h : Deallocated L m m' e d a last)
    (hv : v < KERNPAGE) (hout : v < a ∨ last ≤ v) : PageKept m m' d v := by
  have hnpage : KERNPAGE < NPAGE := by decide
  exact fun g hg => ⟨h.outside v (by omega) hout, h.data v g hv hout hg⟩

theorem pgroundup_mono {a b : ℕ} (h : a ≤ b) : pgroundup a ≤ pgroundup b := by
  unfold pgroundup
  omega

theorem Unchanged.refl : Unchanged m m d := ⟨fun _ _ _ _ => ⟨rfl, rfl⟩, fun _ _ h => h⟩

theorem Unchanged.of_touches {a last : ℕ} (h : m.Touches m' d {v | a ≤ v ∧ v < last})
    (hbefore : ∀ v, a ≤ v → v < last → m.mapped d v = none)
    (hafter : ∀ v, a ≤ v → v < last → m'.mapped d v = none) : Unchanged m m' d := by
  refine ⟨fun v hv g hg => ?_, fun v hv hn => ?_⟩
  · refine h.kept hv (fun hin => ?_) g hg
    rw [hbefore v hin.1 hin.2] at hg
    cases hg
  · by_cases hin : a ≤ v ∧ v < last
    · exact hafter v hin.1 hin.2
    · rw [h.mapped hv hin, hn]

theorem Grows.of_grown {k : ℕ} {l : List Note}
    (hgrown : Grown m m' d (pgroundup sz) (pgroundup (sz + k)) l) (hsized : Sized m d sz)
    (hlast : pgroundup (sz + k) ≤ KERNPAGE)
    (hend : pgroundup sz < pgroundup (sz + k) → m'.mapped d (pgroundup (sz + k) - 1) ≠ none) :
    Grows m m' d sz (sz + k) k := by
  have hmono := pgroundup_mono (Nat.le_add_right sz k)
  have hbelow : ∀ v, v < pgroundup sz → v ∉ {v | pgroundup sz ≤ v ∧ v < pgroundup (sz + k)} :=
    fun v hv hin => absurd hin.1 (by omega)
  refine ⟨by push_cast; rfl, fun v hv => ?_, fun v hlo hhi => ?_, fun v hv => ?_, hgrown.zeroed⟩
  · by_cases hlt : v < pgroundup sz
    · rw [hgrown.touches.mapped (by omega) (hbelow v hlt)]
      exact hsized.below v hlt
    · rcases hgrown.pages v (by omega) hv with ⟨g, -, -, hwalk⟩ | ⟨hstarved, -⟩
      · rw [Phys.mapped_eq, hwalk, pageOf_mkPte (by decide)]
        nofun
      · have hv' := hgrown.starved v hstarved
        rw [show v = pgroundup (sz + k) - 1 by omega]
        exact hend (by omega)
  · have hnone := hsized.above v (by omega) hhi
    refine ⟨?_, fun g hg => ?_⟩
    · rw [hgrown.touches.mapped hhi fun hin => absurd hin.2 (by omega), hnone]
    · rw [hnone] at hg
      cases hg
  · rw [Nat.min_eq_left (Nat.le_add_right sz k)] at hv
    exact hgrown.touches.kept (by omega) (hbelow v hv)

/-- `allocuvm` for a process that should grow. -/
theorem Owned.grow {e : Env} (h : Owned L m e) (hmem : e.mem = none) (hd : e.dir = some d)
    (hlow : e.low = 0) (hsized : Sized m d sz) {k : ℕ} :
    Gives (StrideXv6.allocuvm L d sz (sz + k)) m
      (fun r m' => (¬m.Starving d sz (sz + k) ∧
          (r = 0 ∧ Unchanged m m' d ∨ r = sz + k ∧ Grows m m' d sz (sz + k) k)) ∨
        (m.Starving d sz (sz + k) ∧ r = sz + k ∧ m'.mapped d (pgroundup (sz + k) - 1) = none))
      fun _ _ => False := by
  by_cases hnew : sz + k < KERNBASE
  · have hlast := pgroundup_le hnew.le
    have hmono := pgroundup_mono (Nat.le_add_right sz k)
    have hempty : ∀ v, pgroundup sz ≤ v → v < pgroundup (sz + k) → m.mapped d v = none :=
      fun v hlo hhi => hsized.above v hlo (by omega)
    have hgives : Gives (StrideXv6.allocuvm L d sz (sz + k)) m _ _ := h.allocuvm hmem hd hlow
    by_cases hlt : pgroundup sz < pgroundup (sz + k)
    · refine (hgives.and (h.allocuvm_starves hmem hd hlow (Nat.le_add_right _ _) hnew hlt)).mono ?_
        fun _ _ ⟨⟨_, _, v, hlo, hhi, hv⟩, _⟩ => hv (hempty v hlo hhi)
      rintro r m' ⟨⟨-, l, -, -, ha⟩, hstart, hend⟩
      by_cases hst : m.Starves d (pgroundup sz) (pgroundup (sz + k))
      · obtain rfl := hstart hst
        exact Or.inr ⟨⟨hnew, hlt, hst⟩, rfl, (hend rfl).mp hst⟩
      · refine Or.inl ⟨fun hs => hst hs.2.2, ?_⟩
        cases ha with
        | failed htouch hundone => exact Or.inl ⟨rfl, .of_touches htouch hempty (hundone hempty)⟩
        | nothing hless => omega
        | grown _ _ hgrown =>
          exact Or.inr ⟨rfl, .of_grown hgrown hsized hlast fun _ hn => hst ((hend rfl).mpr hn)⟩
    · refine hgives.mono ?_ ?_
      · rintro r m' ⟨-, l, -, -, ha⟩
        refine Or.inl ⟨fun hs => hlt hs.2.1, ?_⟩
        cases ha with
        | failed htouch hundone => exact Or.inl ⟨rfl, .of_touches htouch hempty (hundone hempty)⟩
        | nothing hless => omega
        | grown _ _ hgrown => exact Or.inr ⟨rfl, .of_grown hgrown hsized hlast fun h => absurd h hlt⟩
      · rintro q m' ⟨-, -, v, hlo, hhi, -⟩
        omega
  · unfold StrideXv6.allocuvm
    rw [if_pos (by omega), gives_pure]
    exact Or.inl ⟨fun hs => hnew hs.1, Or.inl ⟨rfl, Unchanged.refl⟩⟩

/-- `deallocuvm` for a process that should shrink and keep something. -/
theorem Deallocated.grows {e : Env} {sz' : ℕ} {n : ℤ}
    (h : Deallocated L m m' e d (pgroundup sz') (pgroundup sz)) (hsized : Sized m d sz)
    (hsize : (sz' : ℤ) = sz + n) (hle : sz' ≤ sz) (hsz : sz ≤ KERNBASE) :
    Grows m m' d sz sz' n := by
  have hnpage : KERNPAGE < NPAGE := by decide
  have hpages := pgroundup_le hsz
  have hmono := pgroundup_mono hle
  have hstart : pgroundup sz' < pgroundup sz → m.walk d (pgroundup sz') ≠ Option.none := by
    intro hlt hn
    refine hsized.below _ hlt ?_
    rw [Phys.mapped_eq, hn]
    rfl
  refine ⟨hsize, fun v hv => ?_, fun v hlo hhi => ?_, fun v hv => ?_, fun v g hlo hhi => by omega⟩
  · rw [Phys.mapped_eq, h.outside v (by omega) (Or.inl hv), ← Phys.mapped_eq]
    exact hsized.below v (by omega)
  · by_cases hv : v < pgroundup sz
    · refine ⟨h.none (Or.inr (hstart (by omega))) hlo hv, fun g hg => ?_⟩
      rw [h.free]
      refine List.mem_append_left _ (List.mem_reverse.mpr (List.mem_filterMap.mpr ⟨v, ?_, ?_⟩))
      · rw [List.mem_range'_1]
        omega
      · rw [if_pos, hg]
        exact Phys.visits_of_entry (fun hn => hstart (by omega) (walk_eq_none.mpr hn)) hlo
    · have hn := hsized.above v (by omega) hhi
      refine ⟨?_, fun g hg => ?_⟩
      · rw [Phys.mapped_eq, h.outside v (by omega) (Or.inr (by omega)), ← Phys.mapped_eq, hn]
      · rw [hn] at hg
        cases hg
  · rw [Nat.min_eq_right hle] at hv
    exact h.kept (by omega) (Or.inl hv)

end

section

open Memory

variable {ι : Type} [DecidableEq ι] {L : Layout} {s : Machine ι} {p : ι}

/-- The size does not become 0 or less, unless it is 0, and a process that grows is
not short of the last page table. -/
def Phys.GrowsCleanly (m : Phys) (d sz : ℕ) (n : ℤ) : Prop :=
  (n < 0 → sz = 0 ∨ 0 < (sz : ℤ) + n) ∧ (0 < n → ¬m.Starving d sz (sz + n).toNat)

/-- The contract of `growproc` on the pages. -/
structure PagesGrow (m m' : Phys) (d sz : ℕ) (n : ℤ) (r : Option ℕ) : Prop where
  success : ∀ sz', r = some sz' → Grows m m' d sz sz' n
  failure : r = none → Unchanged m m' d

theorem Grows.refl {m : Phys} {d sz : ℕ} (hsized : Sized m d sz) : Grows m m d sz sz 0 := by
  refine ⟨(add_zero _).symm, hsized.below, fun v hlo hhi => ⟨hsized.above v hlo hhi, fun g hg => ?_⟩,
    fun _ _ _ _ => ⟨rfl, rfl⟩, fun v g hlo hhi => by omega⟩
  rw [hsized.above v hlo hhi] at hg
  cases hg

/-- `growproc` on the pages, by the sign of its argument. -/
theorem Owned.growPages_iff {m : Phys} {e : Env} {d sz : ℕ} (h : Owned L m e) (hmem : e.mem = none)
    (hd : e.dir = some d) (hlow : e.low = 0) (hsz : sz < KERNBASE) (hsized : Sized m d sz) {n : ℤ}
    (hn : -2147483648 ≤ n ∧ n ≤ Word32.intMax) :
    Gives (Memory.growPages L d sz n) m
      (fun r m' => PagesGrow m m' d sz n r ↔ m.GrowsCleanly d sz n) fun _ _ => False := by
  have hnpage : KERNPAGE < NPAGE := by decide
  unfold Memory.growPages
  split
  · next hpos =>
    obtain ⟨k, rfl⟩ := Int.eq_ofNat_of_zero_le hpos.le
    have huint : uint (sz + k : ℤ) = sz + k := by
      unfold uint
      unfold KERNBASE at hsz
      unfold Word32.intMax at hn
      omega
    have hclean : m.GrowsCleanly d sz k ↔ ¬m.Starving d sz (sz + k) := by
      have hnat : ((sz : ℤ) + k).toNat = sz + k := by omega
      unfold Phys.GrowsCleanly
      rw [hnat]
      exact ⟨fun h => h.2 hpos, fun h => ⟨fun hneg => by omega, fun _ => h⟩⟩
    rw [huint, hclean]
    refine (h.grow hmem hd hlow hsized (k := k)).bind ?_ nofun
    rintro r m' (⟨hnot, ⟨rfl, hun⟩ | ⟨rfl, hgrows⟩⟩ | ⟨hst, rfl, hnone⟩)
    · rw [gives_pure, if_pos rfl]
      exact iff_of_true ⟨nofun, fun _ => hun⟩ hnot
    · rw [gives_pure, if_neg (by omega)]
      refine iff_of_true ⟨fun sz' hr => ?_, nofun⟩ hnot
      obtain rfl := Option.some.inj hr
      exact hgrows
    · rw [gives_pure, if_neg (by omega)]
      refine iff_of_false (fun hgrow => ?_) fun hno => hno hst
      have hlt := hst.2.1
      exact (hgrow.success _ rfl).mapped _ (by omega) hnone
  · split
    · next hneg =>
      refine (h.deallocuvm hmem hd hlow hsz.le).bind ?_ nofun
      rintro r m' ⟨rfl, hdone⟩
      have hclean : m.GrowsCleanly d sz n ↔ sz = 0 ∨ 0 < (sz : ℤ) + n :=
        ⟨fun h => h.1 hneg, fun h => ⟨fun _ => h, fun hpos => absurd hpos (by omega)⟩⟩
      rw [gives_pure, hclean]
      by_cases hzero : sz = 0
      · -- nothing to give back
        subst hzero
        rw [if_pos (Nat.zero_le _), if_pos rfl]
        have hempty : pgroundup 0 = 0 := rfl
        refine iff_of_true ⟨nofun, fun _ => ⟨fun v hv => hdone.kept hv (by omega), fun v hv hn => ?_⟩⟩
          (Or.inl rfl)
        rw [Phys.mapped_eq, hdone.outside v (by omega) (by omega), ← Phys.mapped_eq, hn]
      · rcases lt_trichotomy ((sz : ℤ) + n) 0 with hlt | heq | hgt
        · -- the new size looks larger than the old one
          have hge : uint (sz + n) ≥ sz := by
            unfold uint
            unfold KERNBASE at hsz
            omega
          rw [if_pos hge, if_neg hzero]
          refine iff_of_false (fun hgrow => ?_) (by omega)
          have := (hgrow.success _ rfl).size
          omega
        · -- everything is given back, but this looks like an error
          have hnew : uint (sz + n) = 0 := by
            rw [heq]
            rfl
          rw [hnew] at hdone ⊢
          rw [if_neg (show ¬0 ≥ sz by omega), if_pos rfl]
          refine iff_of_false (fun hgrow => ?_) (by omega)
          have hpages : 0 < pgroundup sz := by
            unfold pgroundup
            omega
          have hle := pgroundup_le hsz.le
          obtain ⟨g, hg⟩ := Option.ne_none_iff_exists'.mp (hsized.below 0 hpages)
          have hkept := (hgrow.failure rfl).kept 0 (by omega) g hg
          have hgone := hdone.none (v := 0) (Or.inl rfl) (Nat.zero_le _) hpages
          rw [Phys.mapped_eq, hkept.1, ← Phys.mapped_eq, hg] at hgone
          cases hgone
        · have hnew : (uint (sz + n) : ℤ) = sz + n := by
            unfold uint
            unfold KERNBASE at hsz
            omega
          rw [if_neg (show ¬uint (sz + n) ≥ sz by omega), if_neg (by omega)]
          refine iff_of_true ⟨fun sz' hr => ?_, nofun⟩ (Or.inr hgt)
          obtain rfl := Option.some.inj hr
          exact hdone.grows hsized hnew (by omega) hsz.le
    · obtain rfl : n = 0 := by omega
      rw [gives_pure]
      refine iff_of_true ⟨fun sz' hr => ?_, nofun⟩ ⟨fun h => absurd h (by omega),
        fun h => absurd h (by omega)⟩
      obtain rfl := Option.some.inj hr
      exact Grows.refl hsized

/-- The contract of `growproc`: it returns 0 and the size is the one that was asked
for, or it returns -1 and nothing has changed. -/
structure GrowContract (s s' : Machine ι) (p : ι) (n : ℤ) (ok : Bool) : Prop where
  pgdir : (s'.task p).pgdir = (s.task p).pgdir
  success : ok = true →
    Grows s.phys s'.phys (s.task p).pgdir (s.task p).sz (s'.task p).sz n
  failure : ok = false →
    (s'.task p).sz = (s.task p).sz ∧ Unchanged s.phys s'.phys (s.task p).pgdir

/-- What `growproc` does with the answer. -/
theorem gives_growproc_iff {n : ℤ} {P : Prop}
    (h : Gives (Memory.growPages L (s.task p).pgdir (s.task p).sz n) s.phys
      (fun r m' => PagesGrow s.phys m' (s.task p).pgdir (s.task p).sz n r ↔ P) fun _ _ => False) :
    Gives (Memory.growproc L p n) s (fun ok s' => GrowContract s s' p n ok ↔ P)
      fun _ _ => False := by
  rw [Memory.growproc, gives_bind, gives_get]
  dsimp only
  rw [gives_bind, gives_onPhys]
  refine h.mono ?_ fun _ _ he => he
  intro r m' hiff
  rw [← hiff]
  cases r with
  | none =>
    dsimp only
    rw [gives_pure]
    exact ⟨fun hc => ⟨(by rintro _ ⟨⟩), fun _ => (hc.failure rfl).2⟩,
      fun hg => ⟨rfl, (by rintro ⟨⟩), fun _ => ⟨rfl, hg.failure rfl⟩⟩⟩
  | some sz =>
    dsimp only
    rw [gives_bind, gives_modify, gives_pure]
    have htask : ∀ s' : Machine ι, s'.task p = s.task p →
        ((s'.setTask p { s'.task p with sz := sz }).task p).sz = sz ∧
        ((s'.setTask p { s'.task p with sz := sz }).task p).pgdir = (s.task p).pgdir := by
      intro s' hs'
      simp only [Machine.setTask, Function.update_self, hs', and_self]
    obtain ⟨hz, hd⟩ := htask { s with phys := m' } rfl
    constructor
    · refine fun hc => ⟨fun sz' hr => ?_, (by rintro ⟨⟩)⟩
      obtain rfl := Option.some.inj hr
      have hgrows := hc.success rfl
      rw [hz] at hgrows
      exact hgrows
    · refine fun hg => ⟨hd, fun _ => ?_, (by rintro ⟨⟩)⟩
      rw [hz]
      exact hg.success sz rfl

/-- **The contract of `growproc`** holds exactly if the new size is not 0 or less and
the last page is not starved. -/
theorem growproc_contract_iff (hs : Kept L s) (hp : (s.task p).life = .live)
    (hsz : (s.task p).sz < KERNBASE) (hsized : Sized s.phys (s.task p).pgdir (s.task p).sz) {n : ℤ}
    (hn : -2147483648 ≤ n ∧ n ≤ Word32.intMax) :
    Gives (Memory.growproc L p n) s (fun ok s' => GrowContract s s' p n ok) (fun _ _ => False) ↔
      s.phys.GrowsCleanly (s.task p).pgdir (s.task p).sz n := by
  have howned := hs.sound.owned (.task p)
  rw [env_of_live hp] at howned
  have hcases := gives_growproc_iff (howned.growPages_iff rfl rfl rfl hsz hsized hn)
  constructor
  · intro hgives
    obtain ⟨ok, s', -, hcontract, hiff⟩ := ((hgives.and hcases).mono (fun _ _ hq => hq)
      fun _ _ he => he.1).returns
    exact hiff.mp hcontract
  · intro hclean
    exact hcases.mono (fun _ _ hq => hq.mpr hclean) fun _ _ he => he

omit [DecidableEq ι] in
theorem Booted.sized {initproc : ι} (h : Booted L initproc s) :
    Sized s.phys (s.task initproc).pgdir (s.task initproc).sz := by
  refine ⟨h.whole initproc h.live, fun v hlo hhi => h.above v ?_ hhi⟩
  rw [h.size] at hlo
  exact hlo

/-- The first process shrinks to a size of `r`, as `deallocuvm` sees it. -/
theorem Booted.shrink {initproc : ι} (h : Booted L initproc s) {n : ℤ} (hn : n < 0) {r : ℕ}
    (hr : (if uint ((4096 : ℕ) + n) ≥ 4096 then 4096 else uint ((4096 : ℕ) + n)) = r) :
    ∃ s', (Memory.growproc L initproc n).exec s = (.ok (decide (r ≠ 0)), s') ∧
      (s'.task initproc).sz = (if r = 0 then 4096 else r) ∧
      (pgroundup (uint ((4096 : ℕ) + n)) = 0 →
        s'.phys.mapped (s.task initproc).pgdir 0 = none) := by
  have howned := h.kept.sound.owned (.task initproc)
  rw [env_of_live h.live] at howned
  have hgives : Gives (Memory.growproc L initproc n) s
      (fun ok s' => ok = decide (r ≠ 0) ∧ (s'.task initproc).sz = (if r = 0 then 4096 else r) ∧
        (pgroundup (uint ((4096 : ℕ) + n)) = 0 →
          s'.phys.mapped (s.task initproc).pgdir 0 = none)) fun _ _ => False := by
    rw [Memory.growproc, gives_bind, gives_get]
    dsimp only
    rw [gives_bind, gives_onPhys, Memory.growPages, if_neg (by omega), if_pos hn, gives_bind, h.size]
    refine (howned.deallocuvm rfl rfl rfl (by decide)).mono ?_ fun _ _ h => h.elim
    rintro r' m' ⟨rfl, hdone⟩
    rw [hr, gives_pure]
    have hgone : pgroundup (uint ((4096 : ℕ) + n)) = 0 →
        m'.mapped (s.task initproc).pgdir 0 = none := fun hz => by
      rw [hz] at hdone
      exact hdone.none (v := 0) (Or.inl rfl) le_rfl (by decide)
    by_cases hzero : r = 0
    · rw [if_pos hzero, if_pos hzero]
      dsimp only
      rw [gives_pure]
      exact ⟨(decide_eq_false fun hne => hne hzero).symm, h.size, hgone⟩
    · rw [if_neg hzero, if_neg hzero]
      dsimp only
      rw [gives_bind, gives_modify, gives_pure]
      refine ⟨(decide_eq_true hzero).symm, ?_, hgone⟩
      simp only [Machine.setTask, Function.update_self]
  obtain ⟨ok, s', hexec, rfl, hpost⟩ := hgives.returns
  exact ⟨s', hexec, hpost⟩

end

/-- The first process keeps half of its memory. -/
theorem growproc_halves : ∃ s : Memory.Machine (Fin 2), Booted Layout.usual 0 s ∧
    Gives (Memory.growproc Layout.usual 0 (-2048)) s
      (fun ok s' => GrowContract s s' 0 (-2048) ok) fun _ _ => False := by
  obtain ⟨s, -, hb⟩ := booted_usual
  have hsz := hb.size
  refine ⟨s, hb, (growproc_contract_iff hb.kept hb.live (by rw [hsz]; decide) hb.sized
    (by decide)).mpr ⟨fun _ => Or.inr ?_, fun h => absurd h (by decide)⟩⟩
  rw [hsz]
  decide

/-- The first process gives back all of its memory: `growproc` fails, but the memory
is gone. It gives back more than it has: `growproc` succeeds, and nothing happens. -/
theorem growproc_breaks_contract : ∃ s : Memory.Machine (Fin 2), Booted Layout.usual 0 s ∧
    (∃ s', (Memory.growproc Layout.usual 0 (-4096)).exec s = (.ok false, s') ∧
      s.phys.mapped (s.task 0).pgdir 0 ≠ none ∧ s'.phys.mapped (s.task 0).pgdir 0 = none ∧
      ¬GrowContract s s' 0 (-4096) false) ∧
    ∃ s', (Memory.growproc Layout.usual 0 (-8192)).exec s = (.ok true, s') ∧
      (s'.task 0).sz = 4096 ∧ ¬GrowContract s s' 0 (-8192) true := by
  obtain ⟨s, -, hb⟩ := booted_usual
  have hpage : s.phys.mapped (s.task 0).pgdir 0 ≠ none := hb.whole 0 hb.live 0 (by rw [hb.size]; decide)
  obtain ⟨s₁, hexec₁, -, hgone⟩ := hb.shrink (n := -4096) (r := 0) (by decide) (by decide)
  obtain ⟨s₂, hexec₂, hsize, -⟩ := hb.shrink (n := -8192) (r := 4096) (by decide) (by decide)
  refine ⟨s, hb, ⟨s₁, hexec₁, hpage, hgone (by decide), fun hc => ?_⟩,
    s₂, hexec₂, hsize, fun hc => ?_⟩
  · obtain ⟨g, hg⟩ := Option.ne_none_iff_exists'.mp hpage
    have hkept := ((hc.failure rfl).2.kept 0 (by decide) g hg).1
    have hnone := hgone (by decide)
    rw [Phys.mapped_eq, hkept, ← Phys.mapped_eq, hg] at hnone
    cases hnone
  · have hbad := (hc.success rfl).size
    rw [hsize, hb.size] at hbad
    cases hbad

end StrideXv6
