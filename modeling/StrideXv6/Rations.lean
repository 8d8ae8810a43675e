import Mathlib.Order.Interval.Finset.Nat
import StrideXv6.Exec

/-!
# Counting pages

Where `AddressSpace` says what the functions of `vm.c` do whether there is memory left
or not, this counts the pages they take. A page table is taken from the free list when
the first page in it is mapped, and `setupkvm` takes 65 pages. So in a new address space
(`Phys.Fed`) the number of free pages says which page finds none for its page table: the
page `1024 * k`, if there were `1025 * k + 1` free pages for the space.
-/

namespace StrideXv6

open Bytes Effect Placement

/-- There is a free page for each page table that is missing among those in `T`, and
`k` more. -/
def Phys.Room (m : Phys) (d : ℕ) (T : Finset ℕ) (k : ℕ) : Prop :=
  (T.filter fun i => m.entry d i = none).card + k ≤ m.free.length

/-- Page tables were made, in `T` only, and there is still room. -/
structure Supplied (m m' : Phys) (d : ℕ) (T : Finset ℕ) (k : ℕ) : Prop where
  room : m'.Room d T k
  outside : ∀ i, i ∉ T → m'.entry d i = m.entry d i
  stays : ∀ i, m.entry d i ≠ none → m'.entry d i ≠ none

section

variable {L : Layout} {m m' m'' : Phys} {e : Env} {d v g k k' : ℕ} {T : Finset ℕ}

/-- The pages that are kept back are among the free ones. -/
theorem Phys.Room.le (h : m.Room d T k) : k ≤ m.free.length := le_of_add_le_right h

/-- Only the page directory and the free list matter. -/
theorem Phys.Room.congr (h : m.Room d T k) (hentry : ∀ i, m'.entry d i = m.entry d i)
    (hfree : m.free.length + k' ≤ m'.free.length + k) : m'.Room d T k' := by
  unfold Room at *
  simp only [hentry]
  omega

theorem Supplied.refl (h : m.Room d T k) : Supplied m m d T k := ⟨h, fun _ _ => rfl, fun _ => id⟩

theorem Supplied.trans (h : Supplied m m' d T k) (h' : Supplied m' m'' d T k') :
    Supplied m m'' d T k' :=
  ⟨h'.room, fun i hi => (h'.outside i hi).trans (h.outside i hi),
    fun i hi => h'.stays i (h.stays i hi)⟩

/-- Work that leaves the page directory alone takes from the room what it takes from the
free list. -/
theorem Supplied.of_congr (h : m.Room d T k) (hentry : ∀ i, m'.entry d i = m.entry d i)
    (hfree : m.free.length + k' ≤ m'.free.length + k) : Supplied m m' d T k' :=
  ⟨h.congr hentry hfree, fun i _ => hentry i, fun i hi => hentry i ▸ hi⟩

/-- Page tables were made, in `T` only, each of a page that was free. -/
structure Tabled (m m' : Phys) (d : ℕ) (T : Finset ℕ) : Prop where
  outside : ∀ i, i ∉ T → m'.entry d i = m.entry d i
  stays : ∀ i, m.entry d i ≠ none → m'.entry d i ≠ none
  taken : m'.free.length + (T.filter fun i => m.entry d i = none).card =
    m.free.length + (T.filter fun i => m'.entry d i = none).card

theorem Tabled.refl : Tabled m m d T := ⟨fun _ _ => rfl, fun _ => id, rfl⟩

/-- The tables of the two parts are counted together: an entry that the first part filled
is not filled again. -/
theorem Tabled.trans (h : Tabled m m' d T) (h' : Tabled m' m'' d T) : Tabled m m'' d T := by
  refine ⟨fun i hi => (h'.outside i hi).trans (h.outside i hi),
    fun i hi => h'.stays i (h.stays i hi), ?_⟩
  have := h.taken
  have := h'.taken
  omega

theorem Tabled.of_congr (hentry : ∀ i, m'.entry d i = m.entry d i) (hfree : m'.free = m.free) :
    Tabled m m' d T := by
  refine ⟨fun i _ => hentry i, fun i hi => hentry i ▸ hi, ?_⟩
  simp only [hentry, hfree]

/-- If there is room for every table that is missing, then the tables that were taken leave
room for the others. -/
theorem Tabled.supplied (h : Tabled m m' d T) (hroom : m.Room d T k) : Supplied m m' d T k := by
  refine ⟨?_, h.outside, h.stays⟩
  have := h.taken
  unfold Phys.Room at *
  omega

/-- With a free page for each of them, none is missing for want of a page. -/
theorem Supplied.not_starved (h : Supplied m m' d T k) (hfree : m'.free = []) {i : ℕ} (hi : i ∈ T) :
    m'.entry d i ≠ none := by
  intro hnone
  have hmem : i ∈ T.filter fun i => m'.entry d i = none := Finset.mem_filter.mpr ⟨hi, hnone⟩
  have hpos := Finset.card_pos.mpr ⟨i, hmem⟩
  have hroom := h.room
  unfold Phys.Room at hroom
  rw [hfree, List.length_nil] at hroom
  omega

theorem Phys.lost_note {n : Note} (hn : ∀ v, n ≠ .starved v) : (m.note n).lost = m.lost := by
  unfold Phys.lost Phys.note
  rw [List.countP_append]
  cases n with
  | starved v => exact absurd rfl (hn v)
  | _ => rfl

/-- A record that no page was lost. -/
theorem Works.note {n : Note} (hn : ∀ v, n ≠ .starved v) : Works L m (m.note n) e e :=
  Works.same rfl (fun _ _ _ => rfl) (List.prefix_append _ _) (Phys.lost_note hn)

/-! ## How many pages `mappages` takes -/

/-- One page was mapped, and its page table is new if it was missing. -/
structure MapsOne (m m' : Phys) (d v : ℕ) : Prop where
  others : ∀ i, i ≠ v / NPTENTRIES → m'.entry d i = m.entry d i
  table : m'.entry d (v / NPTENTRIES) ≠ none
  taken : m'.free.length + (if m.entry d (v / NPTENTRIES) = none then 1 else 0) = m.free.length

/-- `walkpgdir` takes a page where it makes a page table. -/
theorem Owned.walkpgdir_count {e : Env} (h : Owned L m e) (hd : e.dir = some d) (hlow : e.low = 0) :
    Gives (StrideXv6.walkpgdir d v true) m (fun r m' => r ≠ none → MapsOne m m' d v)
      fun _ _ => False := by
  unfold StrideXv6.walkpgdir
  rw [gives_bind, gives_get]
  dsimp only
  split
  · next hpres =>
    have hentry := Phys.entry_of_present hpres
    rw [gives_pure]
    refine fun _ => ⟨fun _ _ => rfl, by rw [hentry]; rintro ⟨⟩, ?_⟩
    rw [if_neg (by rw [hentry]; rintro ⟨⟩)]
    rfl
  · next habs =>
    have hnone := Phys.entry_of_absent (Bool.eq_false_iff.mpr habs)
    rw [if_pos rfl, gives_bind, gives_kalloc]
    refine ⟨fun _ => gives_pure.mpr fun hr => absurd rfl hr, fun t free hfree => ?_⟩
    have hat : m.place e (.free free.length) = some t := by
      simp only [Phys.place, hfree, freeAt_cons, if_true]
    have hdt : d ≠ t := h.apart.ne (x := .dir) hd hat (by rintro ⟨⟩)
    rw [gives_bind, gives_modify, gives_bind, gives_modify, gives_pure]
    refine fun _ => ⟨fun i hi => ?_, ?_, ?_⟩
    · refine Phys.entry_congr ?_
      rw [Phys.pte_setPte_ne (Or.inr hi)]
      exact Phys.pte_congr (Phys.byte_setPage_ne hdt)
    · rw [(h.walk_newTable hd hlow hfree).1]
      rintro ⟨⟩
    · rw [if_pos hnone, hfree]
      rfl

/-- `mappages` of one page takes a page if the directory has no table for it, and none
otherwise. -/
theorem Owned.mappages_count {e : Env} (h : Owned L m e) (hd : e.dir = some d) (hlow : e.low = 0)
    (hv : v < NPAGE) {perm : ℕ} :
    Gives (mappages d v 1 g perm) m (fun ok m' => ok = true → MapsOne m m' d v)
      fun _ _ => True := by
  have hi : v / NPTENTRIES < NPTENTRIES := by
    unfold NPTENTRIES NPAGE at *
    omega
  rw [show (1 : ℕ) = 0 + 1 from rfl, mappages]
  refine ((h.walkpgdir hd hlow hv).and (h.walkpgdir_count hd hlow (v := v))).bind ?_
    fun _ _ _ => trivial
  rintro r m1 ⟨⟨rfl, -⟩ | ⟨t, rfl, hwork, hentry, -⟩, hcount⟩
  · dsimp only
    rw [gives_bind, gives_modify, gives_pure]
    rintro ⟨⟩
  · have hone := hcount (by rintro ⟨⟩)
    have hplace := (Phys.place_table_of_dir hd (hlow ▸ Nat.zero_le _) hi).trans hentry
    have hdt : d ≠ t := (h.works hwork).apart.ne (x := .dir) hd hplace (by rintro ⟨⟩)
    dsimp only
    rw [gives_bind, gives_get]
    split
    · exact gives_throw.mpr trivial
    · rw [gives_bind, gives_modify, mappages, gives_pure]
      have hsame : ∀ i, (m1.setPte t (v % NPTENTRIES) (mkPte g (perm ||| PTE_P))).entry d i =
          m1.entry d i := fun _ => Phys.entry_congr (Phys.pte_setPte_ne (Or.inl hdt))
      exact fun _ => ⟨fun i hi => (hsame i).trans (hone.others i hi), by rw [hsame]; exact hone.table,
        hone.taken⟩

/-- One page needs its own table and no other. -/
theorem MapsOne.tabled (h : MapsOne m m' d v) (hT : v / NPTENTRIES ∈ T) : Tabled m m' d T := by
  have habsent : (T.filter fun i => m'.entry d i = none) =
      (T.filter fun i => m.entry d i = none).erase (v / NPTENTRIES) := by
    ext i
    rw [Finset.mem_erase, Finset.mem_filter, Finset.mem_filter]
    by_cases hi : i = v / NPTENTRIES
    · rw [hi]
      simp only [h.table, and_false, ne_eq, not_true_eq_false, false_and]
    · rw [h.others i hi]
      exact ⟨fun h => ⟨hi, h⟩, fun h => h.2⟩
  refine ⟨fun i hi => h.others i fun heq => hi (heq ▸ hT), fun i hi => ?_, ?_⟩
  · by_cases hiv : i = v / NPTENTRIES
    · rw [hiv]
      exact h.table
    · rwa [h.others i hiv]
  · have htaken := h.taken
    rw [habsent]
    by_cases hnone : m.entry d (v / NPTENTRIES) = none
    · have hmem : v / NPTENTRIES ∈ T.filter fun i => m.entry d i = none :=
        Finset.mem_filter.mpr ⟨hT, hnone⟩
      have := Finset.card_pos.mpr ⟨_, hmem⟩
      rw [if_pos hnone] at htaken
      rw [Finset.card_erase_of_mem hmem]
      omega
    · have hmem : v / NPTENTRIES ∉ T.filter fun i => m.entry d i = none :=
        fun hmem => hnone (Finset.mem_filter.mp hmem).2
      rw [if_neg hnone] at htaken
      rw [Finset.erase_eq_of_notMem hmem]
      omega

/-- What `mappages` does to the page tables, by induction on the pages: it stops where
there is no page for one. -/
theorem Owned.mappages_tabled {perm : ℕ} (hd : e.dir = some d) (hlow : e.low = 0) (n : ℕ) :
    ∀ {m : Phys} {v g : ℕ}, Owned L m e → KERNPAGE ≤ v ∨ n ≤ 1 → v + n ≤ NPAGE →
      (∀ v', v ≤ v' → v' < v + n → v' / NPTENTRIES ∈ T) →
      Gives (mappages d v n g perm) m
        (fun ok m' => Tabled m m' d T ∧
          (ok = true → ∀ v', v ≤ v' → v' < v + n → m'.entry d (v' / NPTENTRIES) ≠ none) ∧
          (ok = false → m'.free = [] ∧ ∃ i ∈ T, m'.entry d i = none))
        fun _ _ => True := by
  induction n with
  | zero =>
    intro m v g _ _ _ _
    rw [mappages, gives_pure]
    exact ⟨Tabled.refl, fun _ v' hlo hhi => by omega, fun hno => by cases hno⟩
  | succ n ih =>
    intro m v g h hv hn hT
    have hi : v / NPTENTRIES < NPTENTRIES := by
      unfold NPTENTRIES NPAGE at *
      omega
    have hmem := hT v le_rfl (by omega)
    rw [mappages]
    refine ((h.walkpgdir hd hlow (by omega)).and (h.walkpgdir_count hd hlow)).bind ?_
      fun _ _ _ => trivial
    rintro r m1 ⟨⟨rfl, rfl, hnil, hnone⟩ | ⟨t, rfl, hwork, hentry, -, -⟩, hcount⟩
    · dsimp only
      rw [gives_bind, gives_modify, gives_pure]
      exact ⟨Tabled.of_congr (fun _ => rfl) rfl, fun hyes => (by cases hyes),
        fun _ => ⟨hnil, _, hmem, walk_eq_none.mp hnone⟩⟩
    · have hone := hcount (by rintro ⟨⟩)
      have h1 := h.works hwork
      have hplace := (Phys.place_table_of_dir hd (hlow ▸ Nat.zero_le _) hi).trans hentry
      have hdt : d ≠ t := h1.apart.ne (x := .dir) hd hplace (by rintro ⟨⟩)
      dsimp only
      rw [gives_bind, gives_get]
      split
      · exact gives_throw.mpr trivial
      · rw [gives_bind, gives_modify]
        set m2 := m1.setPte t (v % NPTENTRIES) (mkPte g (perm ||| PTE_P)) with hm2
        have hsame : ∀ i, m2.entry d i = m1.entry d i := fun i =>
          Phys.entry_congr (Phys.pte_setPte_ne (Or.inl hdt))
        have htab : Tabled m m2 d T := (hone.tabled hmem).trans (Tabled.of_congr hsame rfl)
        have hrest : Gives (mappages d (v + 1) n (g + 1) perm) m2
            (fun ok m' => Tabled m2 m' d T ∧
              (ok = true → ∀ v', v + 1 ≤ v' → v' < v + 1 + n → m'.entry d (v' / NPTENTRIES) ≠ none) ∧
              (ok = false → m'.free = [] ∧ ∃ i ∈ T, m'.entry d i = none))
            fun _ _ => True := by
          by_cases hn0 : n = 0
          · subst hn0
            rw [mappages, gives_pure]
            exact ⟨Tabled.refl, fun _ v' hlo hhi => by omega, fun hno => by cases hno⟩
          · have hkernel : Works L m1 m2 e e := h1.setKernelPte hplace (by
              have hv' := hv.resolve_right (by omega)
              unfold KERNPAGE NPTENTRIES at *
              omega)
            exact ih (h1.works hkernel) (Or.inl (by omega)) (by omega)
              fun v' hlo hhi => hT v' (by omega) (by omega)
        refine hrest.mono ?_ fun _ _ h => h
        rintro ok m' ⟨htab', hmade, hstarved⟩
        refine ⟨htab.trans htab', fun hok v' hlo hhi => ?_, hstarved⟩
        by_cases hvv : v' = v
        · rw [hvv]
          refine htab'.stays _ ?_
          rw [hsame]
          exact hone.table
        · exact hmade hok v' (by omega) (by omega)

/-- With enough pages, `mappages` succeeds. -/
theorem Owned.mappages_room {perm : ℕ} (h : Owned L m e) (hd : e.dir = some d) (hlow : e.low = 0)
    (n : ℕ) (hv : KERNPAGE ≤ v ∨ n ≤ 1) (hn : v + n ≤ NPAGE) (hroom : m.Room d T k)
    (hT : ∀ v', v ≤ v' → v' < v + n → v' / NPTENTRIES ∈ T) :
    Gives (mappages d v n g perm) m (fun ok m' => ok = true ∧ Supplied m m' d T k)
      fun _ _ => True := by
  refine (Owned.mappages_tabled hd hlow n h hv hn hT).mono ?_ fun _ _ h => h
  rintro ok m' ⟨htab, -, hstarved⟩
  have hsup := htab.supplied hroom
  refine ⟨Bool.not_eq_false _ ▸ fun hno => ?_, hsup⟩
  obtain ⟨hnil, i, hi, hnone⟩ := hstarved hno
  exact hsup.not_starved hnil hi hnone

end

/-! ## `setupkvm` -/

/-- The page tables for the kernel's mappings. -/
def kernelTables : Finset ℕ := Finset.Ico 512 568 ∪ Finset.Ico 1016 1024

/-- The kernel is at `KERNBASE` and above, the devices at the end. -/
theorem mem_kernelTables {i : ℕ} :
    i ∈ kernelTables ↔ (512 ≤ i ∧ i < 568) ∨ (1016 ≤ i ∧ i < 1024) := by
  rw [kernelTables, Finset.mem_union, Finset.mem_Ico, Finset.mem_Ico]

/-- With the directory itself these are the 65 pages of `setupkvm`. -/
theorem card_kernelTables : kernelTables.card = 64 := by
  have hdisj : Disjoint (Finset.Ico 512 568) (Finset.Ico 1016 1024) := by
    rw [Finset.disjoint_left]
    intro i hi hi'
    rw [Finset.mem_Ico] at hi hi'
    omega
  rw [kernelTables, Finset.card_union_of_disjoint hdisj, Nat.card_Ico, Nat.card_Ico]

section

variable {L : Layout} {m m' : Phys} {e : Env} {d v g k : ℕ} {T : Finset ℕ}

/-- The loop of `setupkvm`, by induction on the regions that are left: what it takes are page
tables, one for each entry that it fills. -/
theorem Owned.mapKernel_tabled (hd : e.dir = some d) (hlow : e.low = 0)
    (ks : List (ℕ × ℕ × ℕ × ℕ)) :
    ∀ {m : Phys} {lo : ℕ}, Owned L m e → (∀ v', lo ≤ v' → v' < NPAGE → m.mapped d v' = none) →
      m.NoUser d → ks.Pairwise (fun k k' => k.1 + k.2.1 ≤ k'.1) →
      (∀ k ∈ ks, lo ≤ k.1 ∧ KERNPAGE ≤ k.1 ∧ k.1 + k.2.1 ≤ NPAGE ∧ k.2.2.1 + k.2.1 ≤ NPAGE ∧
        (k.2.2.2 = 0 ∨ k.2.2.2 = PTE_W)) →
      (∀ k ∈ ks, ∀ v', k.1 ≤ v' → v' < k.1 + k.2.1 → v' / NPTENTRIES ∈ T) →
      Gives (StrideXv6.mapKernel d ks) m
        (fun ok m' => Tabled m m' d T ∧
          (ok = true → ∀ k ∈ ks, ∀ v', k.1 ≤ v' → v' < k.1 + k.2.1 →
            m'.entry d (v' / NPTENTRIES) ≠ none) ∧
          (ok = false → m'.lost ≠ m.lost ∧ m'.free = [] ∧ ∃ i ∈ T, m'.entry d i = none))
        fun _ _ => True := by
  induction ks with
  | nil =>
    intro m lo _ _ _ _ _ _
    rw [StrideXv6.mapKernel, gives_pure]
    exact ⟨Tabled.refl, fun _ _ hks => absurd hks List.not_mem_nil, fun hno => by cases hno⟩
  | cons k ks ih =>
    intro m lo h habove hno hpair hbounds hT
    obtain ⟨virt, n, phys, perm⟩ := k
    obtain ⟨hlo, hkern, hend, hphys, hperm⟩ := hbounds _ (List.mem_cons_self ..)
    rw [List.pairwise_cons] at hpair
    dsimp only at hlo hkern hend hphys hperm
    rw [StrideXv6.mapKernel]
    refine ((Owned.mappages_kernel hperm hd hlow n h hkern hend hphys
      (fun v' hv' => habove v' (by omega)) hno).and
      (Owned.mappages_tabled hd hlow n h (Or.inl hkern) hend
        (hT _ (List.mem_cons_self ..)))).bind ?_ fun _ _ _ => trivial
    rintro ok m1 ⟨⟨m2, hpart, ⟨rfl, rfl⟩ | ⟨rfl, w, rfl⟩⟩, htab, hmade, hstarved⟩
    · rw [if_pos rfl]
      refine (ih (h.works hpart.works) hpart.above hpart.noUser hpair.2 (fun k hk => ?_)
        fun k hk => hT k (List.mem_cons_of_mem _ hk)).mono ?_ fun _ _ h => h
      · exact ⟨hpair.1 k hk, (hbounds k (List.mem_cons_of_mem _ hk)).2⟩
      · rintro ok' m3 ⟨htab', hmade', hstarved'⟩
        have hlost : m1.lost = m.lost := by
          unfold Phys.lost
          rw [hpart.notes]
        refine ⟨htab.trans htab', fun hok k hk => ?_, fun hno => hlost ▸ hstarved' hno⟩
        rcases List.mem_cons.mp hk with rfl | hk
        · exact fun v' hlo hhi => htab'.stays _ (hmade rfl v' hlo hhi)
        · exact hmade' hok k hk
    · rw [if_neg Bool.false_ne_true, gives_pure]
      refine ⟨htab, fun hyes => (by cases hyes), fun _ => ⟨?_, hstarved rfl⟩⟩
      unfold Phys.lost Phys.note
      rw [List.countP_append, hpart.notes]
      exact Nat.succ_ne_self _

/-- Every region of `kmap` is in tables of the kernel. -/
theorem kmap_tables (L : Layout) : ∀ k ∈ kmap L, ∀ v', k.1 ≤ v' → v' < k.1 + k.2.1 →
    v' / NPTENTRIES ∈ kernelTables := by
  have := L.text
  have := L.le
  have := L.fits
  unfold kmap
  unfold KERNPAGE EXTMEM PHYSTOP DEVSPACE NPAGE NPTENTRIES at *
  simp only [List.mem_cons, List.not_mem_nil, or_false, forall_eq_or_imp, forall_eq,
    mem_kernelTables]
  refine ⟨?_, ?_, ?_, ?_⟩ <;>
  · intro v' hlo hhi
    omega

/-- All of them are needed. -/
theorem tables_kmap (L : Layout) {i : ℕ} (hi : i ∈ kernelTables) :
    ∃ k ∈ kmap L, ∃ v', k.1 ≤ v' ∧ v' < k.1 + k.2.1 ∧ v' / NPTENTRIES = i := by
  have htext := L.text
  have hle := L.le
  have hfits := L.fits
  rw [mem_kernelTables] at hi
  unfold kmap
  unfold KERNPAGE EXTMEM PHYSTOP DEVSPACE NPAGE NPTENTRIES at *
  simp only [List.mem_cons, List.not_mem_nil, or_false, exists_eq_or_imp, exists_eq_left]
  rcases hi with hi | hi
  · by_cases h0 : i = 512
    · exact Or.inl ⟨i * 1024, by omega, by omega, by omega⟩
    · exact Or.inr (Or.inr (Or.inl ⟨i * 1024, by omega, by omega, by omega⟩))
  · exact Or.inr (Or.inr (Or.inr ⟨i * 1024, by omega, by omega, by omega⟩))

/-- `setupkvm` takes 65 pages, and loses what it has taken if there are fewer. -/
theorem Owned.setupkvm_tabled (h : Owned L m e) (hdir : e.dir = none) (hlow : e.low = 0) :
    Gives (StrideXv6.setupkvm L) m
      (fun r m' => (r = none → m.free.length < 65 ∧ (m'.lost = m.lost ↔ m.free = [])) ∧
        ∀ d, r = some d → m'.free.length + 65 = m.free.length ∧
          ∀ i, m'.entry d i = none ↔ i ∉ kernelTables)
      fun _ _ => True := by
  unfold StrideXv6.setupkvm
  rw [gives_bind, gives_kalloc]
  refine ⟨fun hnil => ?_, fun d free hcons => ?_⟩
  · rw [gives_pure, hnil]
    exact ⟨fun _ => ⟨by decide, iff_of_true rfl rfl⟩, fun d hd => by cases hd⟩
  · dsimp only
    rw [gives_bind, gives_modify]
    have h1 := h.works (h.takeDir hcons hdir)
    set m1 := (m.setFree free).fill d 0#8
    have hentry : ∀ i, m1.entry d i = none := fun i =>
      Phys.entry_of_absent (by rw [Phys.pte_fill_zero]; rfl)
    have hwalk : ∀ v, m1.walk d v = none := fun v => walk_eq_none.mpr (hentry _)
    have hlen : m.free.length = m1.free.length + 1 := by
      rw [hcons]
      rfl
    refine (Owned.mapKernel_tabled (e := { e with dir := some d }) rfl hlow (kmap L) h1
      (fun v' (_ : KERNPAGE ≤ v') _ => ?_) (fun v _ _ x hx => ?_) (kmap_pairwise L) (kmap_bounds L)
      (kmap_tables L)).bind ?_ fun _ _ _ => trivial
    · rw [Phys.mapped_eq, hwalk]
      rfl
    · rw [hwalk] at hx
      cases hx
    · rintro ok m2 ⟨htab, hmade, hstarved⟩
      have htaken := htab.taken
      simp only [hentry, Finset.filter_true, card_kernelTables] at htaken
      cases ok with
      | true =>
        rw [if_pos rfl, gives_pure]
        have htables : ∀ i, m2.entry d i = none ↔ i ∉ kernelTables := by
          refine fun i => ⟨fun hnone hi => ?_, fun hi => ?_⟩
          · obtain ⟨r, hr, v', hlo, hhi, rfl⟩ := tables_kmap L hi
            exact hmade rfl r hr v' hlo hhi hnone
          · rw [htab.outside i hi, hentry]
        refine ⟨fun hno => (by cases hno), fun d' hd' => ?_⟩
        obtain rfl := Option.some.inj hd'
        refine ⟨?_, htables⟩
        have hzero : (kernelTables.filter fun i => m2.entry d i = none) = ∅ :=
          Finset.filter_eq_empty_iff.mpr fun i hi hnone => (htables i).mp hnone hi
        rw [hzero, Finset.card_empty] at htaken
        omega
      | false =>
        obtain ⟨hlost, hnil, i, hi, hnone⟩ := hstarved rfl
        have hmem : i ∈ kernelTables.filter fun i => m2.entry d i = none :=
          Finset.mem_filter.mpr ⟨hi, hnone⟩
        have hpos := Finset.card_pos.mpr ⟨i, hmem⟩
        rw [hnil, List.length_nil] at htaken
        rw [if_neg Bool.false_ne_true, gives_pure]
        refine ⟨fun _ => ⟨by omega, iff_of_false hlost ?_⟩, fun d hd => by cases hd⟩
        rw [hcons]
        exact List.cons_ne_nil _ _

/-- `setupkvm` with 65 free pages. -/
theorem Owned.setupkvm_room (h : Owned L m e) (hdir : e.dir = none) (hlow : e.low = 0)
    (hfree : 65 + k ≤ m.free.length) : Gives (StrideXv6.setupkvm L) m
      (fun r m' => ∃ d, r = some d ∧ k ≤ m'.free.length ∧
        ∀ i, m'.entry d i = none ↔ i ∉ kernelTables)
      fun _ _ => True := by
  refine (h.setupkvm_tabled hdir hlow).mono ?_ fun _ _ h => h
  rintro r m' ⟨hnone, hsome⟩
  cases r with
  | none =>
    have := (hnone rfl).1
    omega
  | some d =>
    obtain ⟨hlen, htables⟩ := hsome d rfl
    exact ⟨d, rfl, by omega, htables⟩

end

/-! ## A new address space -/

/-- There are free pages for an address space of `n` pages, or there are none, or they run
out where a page is asked for, not a page table. -/
def Ample (free n : ℕ) : Prop :=
  free = 0 ∨ (65 ≤ free ∧ ∀ k, NPTENTRIES * k < n → free ≠ 65 + (1025 * k + 1))

/-- The page `1024 * k` gets no page table if `free` pages are free for the pages of an address
space. -/
def Dry (free k : ℕ) : Prop := free = 1025 * k + 1

/-- The new address space `d` has `n` pages and the page tables for them, and `free` pages were
free at its start. -/
structure Phys.Fed (m : Phys) (d n free : ℕ) : Prop where
  tables : ∀ i, i < KERNPAGE / NPTENTRIES → (m.entry d i = none ↔ n ≤ NPTENTRIES * i)
  count : m.free.length + (n + (n + 1023) / NPTENTRIES) = free

section

variable {L : Layout} {m m₁ m' : Phys} {e : Env} {d n free : ℕ}

/-- Being fed is a matter of the user part of the directory and of the free list. -/
theorem Phys.Fed.congr (h : m.Fed d n free) (hentry : ∀ i, i < KERNPAGE / NPTENTRIES →
    (m'.entry d i = none ↔ m.entry d i = none)) (hfree : m'.free = m.free) : m'.Fed d n free :=
  ⟨fun i hi => (hentry i hi).trans (h.tables i hi), by rw [hfree]; exact h.count⟩

/-- The next page was allocated and mapped. -/
theorem Phys.Fed.next (h : m.Fed d n free) (hn : n < KERNPAGE)
    (hentry : ∀ i, m₁.entry d i = m.entry d i) (hlen : m.free.length = m₁.free.length + 1)
    (hone : MapsOne m₁ m' d n) : m'.Fed d (n + 1) free := by
  have htable := h.tables (n / NPTENTRIES) (by unfold KERNPAGE NPTENTRIES at *; omega)
  have hcount := h.count
  have htaken := hone.taken
  rw [hentry] at htaken
  refine ⟨fun i hi => ?_, ?_⟩
  · by_cases hin : i = n / NPTENTRIES
    · subst hin
      refine iff_of_false hone.table ?_
      unfold NPTENTRIES
      omega
    · rw [hone.others i hin, hentry, h.tables i hi]
      unfold NPTENTRIES at *
      omega
  · by_cases hnone : m.entry d (n / NPTENTRIES) = none
    · have hle := htable.mp hnone
      rw [if_pos hnone] at htaken
      unfold NPTENTRIES at *
      omega
    · have hlt : ¬n ≤ NPTENTRIES * (n / NPTENTRIES) := fun hle => hnone (htable.mpr hle)
      rw [if_neg hnone] at htaken
      unfold NPTENTRIES at *
      omega

/-- The next page was allocated, and there was none for its page table. -/
theorem Phys.Fed.dry (h : m.Fed d n free) (hn : n < KERNPAGE) (hlen : m.free.length = 1)
    (hnone : m.entry d (n / NPTENTRIES) = none) :
    ∃ k, Dry free k ∧ n = NPTENTRIES * k := by
  have hle := (h.tables (n / NPTENTRIES) (by unfold KERNPAGE NPTENTRIES at *; omega)).mp hnone
  have hcount := h.count
  refine ⟨n / NPTENTRIES, ?_, ?_⟩
  · unfold Dry NPTENTRIES at *
    omega
  · unfold NPTENTRIES at *
    omega

/-- As many pages as there are leave no page table out. -/
theorem Phys.Fed.not_dry (h : m.Fed d n free) (hnil : m.free = []) {k : ℕ} :
    ¬Dry free k := by
  have hcount := h.count
  rw [hnil, List.length_nil] at hcount
  unfold Dry NPTENTRIES at *
  omega

/-- A page with its page table is not left out. -/
theorem Phys.Fed.not_dry_last {k : ℕ} (h : m.Fed d (NPTENTRIES * k + 1) free) :
    ¬Dry free k := by
  have hcount := h.count
  unfold Dry NPTENTRIES at *
  omega

/-- A page was taken for `mem`, and its bytes were set. -/
theorem Owned.entry_taken (h : Owned L m e) (hd : e.dir = some d) (hmem : e.mem = none) {g : ℕ}
    {free : List ℕ} (hfree : m.free = g :: free) {m₁ : Phys} {b : ℕ → Byte}
    (hbyte : ∀ g', m₁.byte g' = m.byte g') (i : ℕ) :
    (m₁.setPage g b).entry d i = m.entry d i := by
  have hdm : d ≠ g := (h.works (Owned.takeMem (L := L) hfree hmem)).apart.ne (x := .dir) (y := .mem)
    hd rfl (by rintro ⟨⟩)
  exact Phys.entry_congr (Phys.pte_congr ((Phys.byte_setPage_ne hdm).trans (hbyte d)))

/-- Without a page, the loop of `allocuvm` gives back what it got so far. -/
theorem Owned.allocLoop_nil {oldsz newsz : ℕ} (h : Owned L m e) (hmem : e.mem = none)
    (hd : e.dir = some d) (hlow : e.low = 0) (hnew : newsz < KERNBASE) (hnil : m.free = [])
    {a n : ℕ} : Gives (StrideXv6.allocLoop L d oldsz newsz a (n + 1)) m
      (fun r m' => r = 0 ∧ m'.lost = m.lost) fun _ _ => False := by
  rw [StrideXv6.allocLoop, gives_bind, gives_kalloc]
  refine ⟨fun _ => ?_, fun g rest hcons => ?_⟩
  · refine (h.deallocuvm hmem hd hlow hnew.le).bind ?_ fun _ _ h => h
    rintro _ m' ⟨-, hdone⟩
    rw [gives_pure]
    exact ⟨rfl, congrArg (List.countP _) hdone.notes⟩
  · rw [hnil] at hcons
    cases hcons

/-- Without a page, `allocuvm` fails, or there is nothing to do. -/
theorem Owned.allocuvm_nil {oldsz newsz : ℕ} (h : Owned L m e) (hmem : e.mem = none)
    (hd : e.dir = some d) (hlow : e.low = 0) (hnil : m.free = []) :
    Gives (StrideXv6.allocuvm L d oldsz newsz) m
      (fun r m' => (r = 0 ∧ m'.lost = m.lost) ∨
        (m' = m ∧ pgroundup r = pgroundup oldsz ∧ pgroundup newsz ≤ pgroundup oldsz))
      fun _ _ => False := by
  unfold StrideXv6.allocuvm
  split
  · exact gives_pure.mpr (Or.inl ⟨rfl, rfl⟩)
  · split
    · refine gives_pure.mpr (Or.inr ⟨rfl, rfl, ?_⟩)
      unfold pgroundup
      omega
    · cases hn : pgroundup newsz - pgroundup oldsz with
      | zero =>
        rw [StrideXv6.allocLoop, gives_pure]
        refine Or.inr ⟨rfl, ?_⟩
        unfold pgroundup at *
        omega
      | succ n =>
        exact (h.allocLoop_nil hmem hd hlow (by omega) hnil).mono (fun _ _ h => Or.inl h)
          fun _ _ h => h

/-- What the loop of `allocuvm` does to a new address space, by induction on the pages that
are left. -/
theorem Owned.allocLoop_fed {oldsz newsz : ℕ} (hmem : e.mem = none) (hd : e.dir = some d)
    (hlow : e.low = 0) (hnew : newsz < KERNBASE) (n : ℕ) : ∀ {m : Phys} {a : ℕ}, Owned L m e →
      a + n = pgroundup newsz → m.Fed d a free →
      Gives (StrideXv6.allocLoop L d oldsz newsz a n) m
        (fun r m' => (m'.lost = m.lost ∧ (r ≠ 0 → m'.Fed d (pgroundup r) free)) ∨
          ∃ k, Dry free k ∧ NPTENTRIES * k < pgroundup newsz ∧
            (r ≠ 0 → m'.free = [] ∧ pgroundup newsz = NPTENTRIES * k + 1))
        fun _ _ => True := by
  have hlast := pgroundup_le hnew.le
  have hnpage : KERNPAGE < NPAGE := by decide
  induction n with
  | zero =>
    intro m a _ ha hfed
    rw [StrideXv6.allocLoop, gives_pure]
    exact Or.inl ⟨rfl, fun _ => ha ▸ hfed⟩
  | succ n ih =>
    intro m a h ha hfed
    by_cases hnil : m.free = []
    · refine (h.allocLoop_nil hmem hd hlow hnew hnil).mono ?_ fun _ _ h => h.elim
      rintro r m' ⟨rfl, hlost⟩
      exact Or.inl ⟨hlost, fun hr => absurd rfl hr⟩
    · rw [StrideXv6.allocLoop, gives_bind, gives_kalloc]
      refine ⟨fun hnil' => absurd hnil' hnil, fun g rest hfree => ?_⟩
      dsimp only
      rw [gives_bind, gives_modify, gives_bind, gives_modify]
      set m2 := ((m.setFree rest).note (.grown a g)).fill g 0#8
      have h1 := (h.works (Owned.takeMem (L := L) hfree hmem)).works
        (Works.note (n := .grown a g) (by rintro _ ⟨⟩))
      obtain ⟨hfill, -⟩ := h1.setMem rfl hd hlow (b := fun _ => 0#8)
      have h2 : Owned L m2 { e with mem := some g } := h1.works hfill
      have hentry : ∀ i, m2.entry d i = m.entry d i := h.entry_taken hd hmem hfree fun _ => rfl
      have hlen : m.free.length = m2.free.length + 1 := by
        rw [hfree]
        rfl
      have hlost : m2.lost = m.lost := Phys.lost_note (by rintro _ ⟨⟩)
      have henv : ({ e with mem := none } : Env) = e := by
        rw [← hmem]
      refine ((h2.mappages_user (d := d) hd hlow rfl (v := a) (by omega)
        (by decide : PTE_W + PTE_U < 4096)).and
        (h2.mappages_count hd hlow (v := a) (by omega))).bind ?_ fun _ _ _ => trivial
      rintro ok m3 ⟨⟨hmap, -, -, hres⟩, hcount⟩
      have h3 : Owned L m3 e := henv ▸ h2.works hmap
      rcases hres with ⟨rfl, -, hnotes⟩ | ⟨rfl, rfl, hnil2, hnone⟩
      · have hlost3 : m3.lost = m.lost := (congrArg _ hnotes).trans hlost
        have hfed3 := hfed.next (by omega) hentry hlen (hcount rfl)
        rw [← hlost3]
        exact ih h3 (by omega) hfed3
      · -- this page has no page table, and there is no page for the next one
        have hone : m.free.length = 1 := by
          rw [hlen, hnil2]
          rfl
        have htable : m.entry d (a / NPTENTRIES) = none := by
          rw [← hentry]
          exact walk_eq_none.mp hnone
        obtain ⟨k, hk, rfl⟩ := hfed.dry (by omega) hone htable
        cases n with
        | zero =>
          rw [StrideXv6.allocLoop, gives_pure]
          exact Or.inr ⟨k, hk, by omega, fun _ => ⟨hnil2, by omega⟩⟩
        | succ n =>
          refine (h3.allocLoop_nil hmem hd hlow hnew hnil2).mono ?_ fun _ _ h => h.elim
          rintro r m' ⟨rfl, -⟩
          exact Or.inr ⟨k, hk, by omega, fun hr => absurd rfl hr⟩

/-- What `allocuvm` does to a new address space. -/
theorem Owned.allocuvm_fed (h : Owned L m e) (hmem : e.mem = none) (hd : e.dir = some d)
    (hlow : e.low = 0) {oldsz newsz : ℕ} (hfed : m.Fed d (pgroundup oldsz) free) :
    Gives (StrideXv6.allocuvm L d oldsz newsz) m
      (fun r m' => (m'.lost = m.lost ∧ (r ≠ 0 → m'.Fed d (pgroundup r) free)) ∨
        ∃ k, Dry free k ∧ NPTENTRIES * k < pgroundup newsz ∧
          (r ≠ 0 → m'.free = [] ∧ pgroundup newsz = NPTENTRIES * k + 1))
      fun _ _ => True := by
  unfold StrideXv6.allocuvm
  split
  · exact gives_pure.mpr (Or.inl ⟨rfl, fun hr => absurd rfl hr⟩)
  · split
    · exact gives_pure.mpr (Or.inl ⟨rfl, fun _ => hfed⟩)
    · have hpages : pgroundup oldsz ≤ pgroundup newsz := by
        unfold pgroundup
        omega
      exact Owned.allocLoop_fed hmem hd hlow (by omega) _ h (by omega) hfed

/-- The loop of `copyuvm` loses a page exactly if one of its pages gets no page table; by
induction on the pages that are left. -/
theorem Owned.copyPages_fed {p : ℕ} (hmem : e.mem = none) (hd : e.dir = some d) (hlow : e.low = 0)
    (n : ℕ) : ∀ {m : Phys} {i : ℕ}, Owned L m e → i + n ≤ KERNPAGE → m.Fed d i free →
      Gives (StrideXv6.copyPages p d i n) m
        (fun _ m' => m'.lost = m.lost ↔
          ∀ k, i ≤ NPTENTRIES * k → NPTENTRIES * k < i + n → ¬Dry free k)
        fun _ _ => True := by
  have hnpage : KERNPAGE < NPAGE := by decide
  induction n with
  | zero =>
    intro m i _ _ _
    rw [StrideXv6.copyPages, gives_pure]
    exact iff_of_true rfl fun k hlo hhi => by omega
  | succ n ih =>
    intro m i h hn hfed
    rw [StrideXv6.copyPages, gives_bind, gives_walkpgdir]
    cases m.entry p (i / NPTENTRIES) with
    | none => exact gives_throw.mpr trivial
    | some t =>
      simp only [Option.map_some]
      rw [gives_bind, gives_get]
      split
      · rw [gives_bind, gives_kalloc]
        refine ⟨fun hnil => ?_, fun g rest hfree => ?_⟩
        · rw [gives_pure]
          exact iff_of_true rfl fun _ _ _ => hfed.not_dry hnil
        · dsimp only
          rw [gives_bind, gives_modify]
          set m2 := (m.setFree rest).store g 0 4096
            ((m.setFree rest).byte (pteAddr (m.pte t (i % NPTENTRIES))))
          have h1 := h.works (Owned.takeMem (L := L) hfree hmem)
          obtain ⟨hfill, -⟩ := h1.setMem (d := d) (b := splice ((m.setFree rest).byte g) 0 4096
            ((m.setFree rest).byte (pteAddr (m.pte t (i % NPTENTRIES))))) rfl hd hlow
          have h2 : Owned L m2 { e with mem := some g } := h1.works hfill
          have hentry : ∀ i, m2.entry d i = m.entry d i := h.entry_taken hd hmem hfree fun _ => rfl
          have hlen : m.free.length = m2.free.length + 1 := by
            rw [hfree]
            rfl
          have henv : ({ e with mem := none } : Env) = e := by
            rw [← hmem]
          refine ((h2.mappages_user (d := d) hd hlow rfl (v := i) (by omega) pteFlags_lt).and
            (h2.mappages_count hd hlow (v := i) (by omega))).bind ?_ fun _ _ _ => trivial
          rintro ok m3 ⟨⟨hmap, -, -, hres⟩, hcount⟩
          have h3 : Owned L m3 e := henv ▸ h2.works hmap
          rcases hres with ⟨rfl, -, hnotes⟩ | ⟨rfl, rfl, hnil2, hnone⟩
          · have hlost3 : m3.lost = m.lost := congrArg (List.countP _) hnotes
            have hfed3 := hfed.next (by omega) hentry hlen (hcount rfl)
            rw [if_pos rfl]
            refine (ih h3 (by omega) hfed3).mono ?_ fun _ _ h => h
            intro _ m' hiff
            rw [hlost3] at hiff
            rw [hiff]
            refine ⟨fun hall k hlo hhi => ?_, fun hall k hlo hhi => hall k (by omega) (by omega)⟩
            by_cases hki : i = NPTENTRIES * k
            · exact (hki ▸ hfed3).not_dry_last
            · exact hall k (by omega) (by omega)
          · have hone : m.free.length = 1 := by
              rw [hlen, hnil2]
              rfl
            have htable : m.entry d (i / NPTENTRIES) = none := by
              rw [← hentry]
              exact walk_eq_none.mp hnone
            obtain ⟨k, hk, rfl⟩ := hfed.dry (by omega) hone htable
            rw [if_neg Bool.false_ne_true, gives_pure]
            refine iff_of_false ?_ fun hall => hall k le_rfl (by omega) hk
            unfold Phys.lost Phys.note
            rw [List.countP_append]
            exact Nat.succ_ne_self _
      · exact gives_throw.mpr trivial

/-- A new address space has no pages yet. -/
theorem Phys.Fed.start (hlen : m'.free.length + 65 = m.free.length)
    (htables : ∀ i, m'.entry d i = none ↔ i ∉ kernelTables) : m'.Fed d 0 (m.free.length - 65) := by
  refine ⟨fun i hi => ?_, ?_⟩
  · rw [htables, mem_kernelTables]
    unfold KERNPAGE NPTENTRIES at *
    omega
  · unfold NPTENTRIES
    omega

/-- Which pages `copyuvm` loses is known from the number of free pages and of those to copy. -/
theorem Owned.copyuvm_ample (h : Owned L m e) (hmem : e.mem = none) (hdir : e.dir = none)
    (hlow : e.low = 0) {p sz : ℕ} (hsz : sz ≤ KERNBASE) :
    Gives (StrideXv6.copyuvm L p sz) m
      (fun _ m' => m'.lost = m.lost ↔ Ample m.free.length (pgroundup sz)) fun _ _ => True := by
  have hpages := pgroundup_le hsz
  unfold StrideXv6.copyuvm
  refine ((h.setupkvm hdir hlow).and (h.setupkvm_tabled hdir hlow)).bind ?_ fun _ _ _ => trivial
  rintro r m1 ⟨⟨rfl, -⟩ | ⟨d, rfl, hwork, hnotes, -⟩, hnone, hsome⟩
  · obtain ⟨hfew, hiff⟩ := hnone rfl
    dsimp only
    rw [gives_pure, hiff, ← List.length_eq_zero_iff]
    unfold Ample
    omega
  · obtain ⟨hlen, htables⟩ := hsome d rfl
    dsimp only
    refine (Owned.copyPages_fed (e := { e with dir := some d }) hmem rfl hlow _ (h.works hwork)
      (by omega) (Phys.Fed.start hlen htables)).bind ?_ fun _ _ _ => trivial
    intro ok m2 hiff
    have hlost : m1.lost = m.lost := congrArg (List.countP _) hnotes
    have hample : m2.lost = m.lost ↔ Ample m.free.length (pgroundup sz) := by
      rw [← hlost, hiff]
      unfold Ample Dry
      refine ⟨fun hall => Or.inr ⟨by omega, fun k hk heq => hall k (by omega) (by omega) (by omega)⟩, ?_⟩
      rintro (hzero | ⟨-, hall⟩) k hlo hhi heq
      · omega
      · exact hall k (by omega) (by omega)
    cases ok with
    | true => exact gives_pure.mpr hample
    | false =>
      rw [if_neg Bool.false_ne_true]
      -- nothing is recorded by `freevm`
      refine ((Memory.adds_freevm (S := fun _ => False)).gives m2).bind ?_ fun _ _ _ => trivial
      rintro _ m3 ⟨l, hl, hnone⟩
      obtain rfl : l = [] := List.eq_nil_iff_forall_not_mem.mpr hnone
      rw [List.append_nil] at hl
      rw [gives_pure, ← hample]
      unfold Phys.lost
      rw [hl]

/-! ## An address space that is filled -/

/-- Some page below `n` finds no page for its page table. -/
def Scarce (free n : ℕ) : Prop := ∃ k, Dry (free - 65) k ∧ NPTENTRIES * k < n

/-- The last of `n` pages finds no page for its page table. -/
def Short (free n : ℕ) : Prop := ∃ k, Dry (free - 65) k ∧ n = NPTENTRIES * k + 1

theorem Scarce.mono {n' : ℕ} (h : Scarce free n) (hn : n ≤ n') : Scarce free n' := by
  obtain ⟨k, hk, hlt⟩ := h
  exact ⟨k, hk, by omega⟩

/-- What is ample for a size is enough for all the sizes before it. -/
theorem Ample.not_scarce (h : Ample free n) (hfree : 65 ≤ free) : ¬Scarce free n := by
  rintro ⟨k, hk, hlt⟩
  rcases h with hzero | ⟨-, hall⟩
  · omega
  · unfold Dry at hk
    exact hall k hlt (by omega)

/-- From `m₀` on a new address space `d` of size `sz` was made: it has its page tables and no
page was lost, or there are no more pages. -/
def Rationed (m₀ m : Phys) (d sz : ℕ) : Prop :=
  (m.lost = m₀.lost ∧ m.Fed d (pgroundup sz) (m₀.free.length - 65)) ∨
    (m.free = [] ∧ Scarce m₀.free.length (pgroundup sz))

section

variable {m₀ : Phys} {sz : ℕ}

/-- A page was lost only where the pages did not do for this size. -/
theorem Rationed.lost (h : Rationed m₀ m d sz) :
    m.lost = m₀.lost ∨ Scarce m₀.free.length (pgroundup sz) := h.imp And.left And.right

/-- Stores into the pages of the process change nothing about that. -/
theorem Rationed.congr (h : Rationed m₀ m d sz)
    (hwalk : ∀ v, v < NPAGE → m'.walk d v = m.walk d v) (hfree : m'.free = m.free)
    (hlost : m'.lost = m.lost) : Rationed m₀ m' d sz := by
  refine h.imp (fun ⟨hl, hfed⟩ => ⟨hlost.trans hl, hfed.congr (fun i hi => ?_) hfree⟩)
    fun ⟨hnil, hs⟩ => ⟨hfree.trans hnil, hs⟩
  have hi' : NPTENTRIES * i / NPTENTRIES = i := Nat.mul_div_cancel_left i (by decide)
  have hsame := hwalk (NPTENTRIES * i) (by unfold KERNPAGE NPTENTRIES NPAGE at *; omega)
  rw [← hi', ← walk_eq_none, ← walk_eq_none, hsame]

/-- Only the number of pages matters. -/
theorem Rationed.resize (h : Rationed m₀ m d sz) {sz' : ℕ} (hsz : pgroundup sz' = pgroundup sz) :
    Rationed m₀ m d sz' := by
  unfold Rationed
  rw [hsz]
  exact h

/-- `allocuvm` for an address space that is filled. -/
theorem Owned.allocuvm_rationed (h : Owned L m e) (hmem : e.mem = none) (hd : e.dir = some d)
    (hlow : e.low = 0) {newsz : ℕ} (hr : Rationed m₀ m d sz) :
    Gives (StrideXv6.allocuvm L d sz newsz) m
      (fun r m' => (r ≠ 0 → pgroundup sz ≤ pgroundup r → pgroundup newsz ≤ pgroundup r →
          Rationed m₀ m' d r) ∧
        (m'.lost = m₀.lost ∨
          Scarce m₀.free.length (max (pgroundup sz) (pgroundup newsz))) ∧
        (r ≠ 0 → pgroundup sz < pgroundup newsz →
          m'.lost = m₀.lost ∨ Short m₀.free.length (pgroundup newsz)))
      fun _ _ => True := by
  rcases hr with ⟨hlost, hfed⟩ | ⟨hnil, hscarce⟩
  · refine (h.allocuvm_fed hmem hd hlow hfed).mono ?_ fun _ _ h => h
    rintro r m' (⟨hsame, hfed'⟩ | ⟨k, hk, hlt, hend⟩)
    · have hlost' := hsame.trans hlost
      exact ⟨fun hr _ _ => Or.inl ⟨hlost', hfed' hr⟩, Or.inl hlost', fun _ _ => Or.inl hlost'⟩
    · exact ⟨fun hr _ hle => Or.inr ⟨(hend hr).1, k, hk, by omega⟩, Or.inr ⟨k, hk, by omega⟩,
        fun hr _ => Or.inr ⟨k, hk, (hend hr).2⟩⟩
  · refine (h.allocuvm_nil hmem hd hlow hnil).mono ?_ fun _ _ h => h.elim
    rintro r m' (⟨rfl, -⟩ | ⟨rfl, hsz, hle⟩)
    · exact ⟨fun hr => absurd rfl hr, Or.inr (hscarce.mono (le_max_left _ _)),
        fun hr => absurd rfl hr⟩
    · refine ⟨fun _ _ _ => Or.inr ⟨hnil, hsz ▸ hscarce⟩,
        Or.inr (hscarce.mono (le_max_left _ _)), fun _ hlt => ?_⟩
      omega

end

end

section

variable {L : Layout} {m m' : Phys} {e : Env} {d v g : ℕ}

/-! ## A process that grows -/

/-- The page tables that are missing from `i` to before `j`. -/
def Phys.missing (m : Phys) (d i j : ℕ) : ℕ :=
  (List.range' i (j - i)).countP fun k => (m.entry d k).isNone

/-- The tables that are missing from an entry on, with this entry first. -/
theorem Phys.missing_succ {i j : ℕ} (h : i < j) :
    m.missing d i j = m.missing d (i + 1) j + if m.entry d i = none then 1 else 0 := by
  unfold missing
  rw [show j - i = j - (i + 1) + 1 by omega, List.range'_succ, List.countP_cons]
  simp only [Option.isNone_iff_eq_none]

theorem Phys.missing_congr {i j : ℕ} (h : ∀ k, i ≤ k → k < j → m'.entry d k = m.entry d k) :
    m'.missing d i j = m.missing d i j := by
  refine List.countP_congr fun k hk => ?_
  rw [List.mem_range'_1] at hk
  rw [h k hk.1 (by omega)]

/-- For the pages from `a` to `last` there is one free page too few, and it is the one
for the page table of the last page, which no page before it is in. -/
def Phys.Starves (m : Phys) (d a last : ℕ) : Prop :=
  m.entry d ((last - 1) / NPTENTRIES) = none ∧
    (last - 1 = a ∨ (last - 1) % NPTENTRIES = 0) ∧
    m.free.length + 1 =
      (last - a) + m.missing d (a / NPTENTRIES) ((last - 1) / NPTENTRIES + 1)

/-- Whether the last page is starved does not change with the pages before it. -/
theorem MapsOne.starves_iff {m₀ : Phys} {a last : ℕ} (hone : MapsOne m m' d a)
    (hentry : ∀ i, m.entry d i = m₀.entry d i) (hfree : m₀.free.length = m.free.length + 1)
    (ha : a + 1 < last) : m'.Starves d (a + 1) last ↔ m₀.Starves d a last := by
  unfold Phys.Starves
  by_cases hreg : (last - 1) / NPTENTRIES = a / NPTENTRIES
  · -- the last page is in the page table of this one
    refine iff_of_false (fun h => hone.table (hreg ▸ h.1)) fun h => ?_
    unfold NPTENTRIES at *
    omega
  · have hlt : a / NPTENTRIES < (last - 1) / NPTENTRIES + 1 := by
      unfold NPTENTRIES at *
      omega
    have hmod : (last - 1 = a + 1 ∨ (last - 1) % NPTENTRIES = 0) ↔
        (last - 1 = a ∨ (last - 1) % NPTENTRIES = 0) := by
      unfold NPTENTRIES at *
      omega
    have hrest : m'.missing d (a / NPTENTRIES + 1) ((last - 1) / NPTENTRIES + 1) =
        m₀.missing d (a / NPTENTRIES + 1) ((last - 1) / NPTENTRIES + 1) :=
      Phys.missing_congr fun k hk _ => (hone.others k (by omega)).trans (hentry k)
    have hmissing : m'.missing d ((a + 1) / NPTENTRIES) ((last - 1) / NPTENTRIES + 1) =
        m₀.missing d (a / NPTENTRIES + 1) ((last - 1) / NPTENTRIES + 1) := by
      by_cases hnext : (a + 1) / NPTENTRIES = a / NPTENTRIES
      · rw [hnext, Phys.missing_succ hlt, if_neg hone.table, hrest, Nat.add_zero]
      · rw [show (a + 1) / NPTENTRIES = a / NPTENTRIES + 1 by unfold NPTENTRIES at *; omega, hrest]
    have htaken := hone.taken
    rw [hentry] at htaken
    rw [hone.others _ hreg, hentry, hmod, hmissing, Phys.missing_succ hlt]
    refine and_congr_right fun _ => and_congr_right fun _ => ?_
    omega

/-- The page for each address is there, one by one; what is missing is a table for the last. -/
theorem Phys.Starves.le {a last : ℕ} (h : m.Starves d a last) (ha : a < last) :
    last - a ≤ m.free.length := by
  obtain ⟨hnone, -, hfree⟩ := h
  have hpos : 0 < m.missing d (a / NPTENTRIES) ((last - 1) / NPTENTRIES + 1) := by
    refine List.countP_pos_iff.mpr ⟨(last - 1) / NPTENTRIES, ?_, ?_⟩
    · rw [List.mem_range'_1]
      unfold NPTENTRIES
      omega
    · rw [hnone]
      rfl
  omega

/-- When the loop of `allocuvm` gets to its end, its last page is starved or mapped;
by induction on the pages that are left. -/
theorem Owned.allocLoop_starves {oldsz newsz : ℕ} (hmem : e.mem = none)
    (hd : e.dir = some d) (hlow : e.low = 0) (hnew : newsz < KERNBASE) (hne : newsz ≠ 0) (n : ℕ) :
    ∀ {m : Phys} {a : ℕ}, Owned L m e → a + n = pgroundup newsz → a < pgroundup newsz →
      Gives (StrideXv6.allocLoop L d oldsz newsz a n) m
        (fun r m' => (m.Starves d a (pgroundup newsz) → r = newsz) ∧
          (r = newsz → (m.Starves d a (pgroundup newsz) ↔
            m'.mapped d (pgroundup newsz - 1) = none)))
        fun _ _ => True := by
  have hlast := pgroundup_le hnew.le
  have hnpage : KERNPAGE < NPAGE := by decide
  induction n with
  | zero =>
    intro m a _ ha hlt
    omega
  | succ n ih =>
    intro m a h ha hlt
    rw [StrideXv6.allocLoop, gives_bind, gives_kalloc]
    refine ⟨fun hnil => ?_, fun g free hfree => ?_⟩
    · refine (h.deallocuvm hmem hd hlow hnew.le).bind (fun _ m' _ => ?_) fun _ _ _ => trivial
      rw [gives_pure]
      refine ⟨fun hstarves => ?_, fun hr => absurd hr.symm hne⟩
      have := hstarves.le hlt
      rw [hnil, List.length_nil] at this
      omega
    · dsimp only
      rw [gives_bind, gives_modify, gives_bind, gives_modify]
      have htake := Owned.takeMem (L := L) hfree hmem
      have h1 := (h.works htake).works (Works.note (n := .grown a g) (by rintro _ ⟨⟩))
      obtain ⟨hfill, -⟩ := h1.setMem rfl hd hlow (b := fun _ => 0#8)
      set m2 := ((m.setFree free).note (.grown a g)).fill g 0#8
      have h2 : Owned L m2 { e with mem := some g } := h1.works hfill
      have hentry : ∀ i, m2.entry d i = m.entry d i := h.entry_taken hd hmem hfree fun _ => rfl
      have hlen : m.free.length = m2.free.length + 1 := by
        rw [hfree]
        rfl
      have henv : ({ e with mem := none } : Env) = e := by
        rw [← hmem]
      refine ((h2.mappages_user (d := d) hd hlow rfl (v := a) (by omega)
        (by decide : PTE_W + PTE_U < 4096)).and
        (h2.mappages_count hd hlow (v := a) (by omega))).bind ?_ fun _ _ _ => trivial
      · rintro ok m3 ⟨⟨hmap, -, -, hres⟩, hcount⟩
        have h3 : Owned L m3 e := henv ▸ h2.works hmap
        by_cases hn : n = 0
        · -- this is the last page
          subst hn
          have hend : pgroundup newsz = a + 1 := by omega
          rw [StrideXv6.allocLoop, gives_pure, hend, Nat.add_sub_cancel]
          refine ⟨fun _ => rfl, fun _ => ?_⟩
          have hone : m.Starves d a (a + 1) ↔
              m.entry d (a / NPTENTRIES) = none ∧ m.free.length = 1 := by
            unfold Phys.Starves
            rw [Nat.add_sub_cancel, Phys.missing_succ (Nat.lt_succ_self _)]
            refine and_congr_right fun hn => ?_
            have hzero : m.missing d (a / NPTENTRIES + 1) (a / NPTENTRIES + 1) = 0 := by
              unfold Phys.missing
              rw [Nat.sub_self]
              rfl
            rw [if_pos hn, hzero]
            omega
          rw [hone]
          rcases hres with ⟨rfl, hself, -⟩ | ⟨rfl, rfl, hnil, hgone⟩
          · refine iff_of_false (fun hst => ?_) ?_
            · have := (hcount rfl).taken
              rw [hentry, if_pos hst.1] at this
              omega
            · rw [Phys.mapped_eq, hself, pageOf_mkPte (by decide)]
              rintro ⟨⟩
          · refine iff_of_true ⟨?_, ?_⟩ ?_
            · rw [← hentry]
              exact walk_eq_none.mp hgone
            · rw [hlen, hnil]
              rfl
            · rw [Phys.mapped_eq]
              exact congrArg pageOf hgone
        · refine (ih h3 (by omega) (by omega)).mono ?_ fun _ _ he => he
          have hiff : m3.Starves d (a + 1) (pgroundup newsz) ↔ m.Starves d a (pgroundup newsz) := by
            rcases hres with ⟨rfl, -, -⟩ | ⟨rfl, rfl, hnil, -⟩
            · exact (hcount rfl).starves_iff hentry hlen (by omega)
            · -- there is no page left for the next one
              refine iff_of_false (fun hst => ?_) fun hst => ?_
              · have hle : _ ≤ m2.free.length := hst.le (by omega)
                rw [hnil, List.length_nil] at hle
                omega
              · have hle := hst.le hlt
                rw [hlen, hnil, List.length_nil] at hle
                omega
          intro r m' hpost
          rwa [hiff] at hpost

/-- Where the last page finds no table, `allocuvm` returns the new size all the same, and this
is the one way in which the last page is not there after it. -/
theorem Owned.allocuvm_starves (h : Owned L m e) {oldsz newsz : ℕ} (hmem : e.mem = none)
    (hd : e.dir = some d) (hlow : e.low = 0) (hle : oldsz ≤ newsz) (hnew : newsz < KERNBASE)
    (hlt : pgroundup oldsz < pgroundup newsz) :
    Gives (StrideXv6.allocuvm L d oldsz newsz) m
      (fun r m' => (m.Starves d (pgroundup oldsz) (pgroundup newsz) → r = newsz) ∧
        (r = newsz → (m.Starves d (pgroundup oldsz) (pgroundup newsz) ↔
          m'.mapped d (pgroundup newsz - 1) = none)))
      fun _ _ => True := by
  unfold StrideXv6.allocuvm
  rw [if_neg (by omega), if_neg (by omega)]
  refine Owned.allocLoop_starves hmem hd hlow hnew ?_ _ h (by omega) hlt
  rintro rfl
  unfold pgroundup at hlt
  omega

/-- A process that should grow is short of exactly the page table of its last page. -/
def Phys.Starving (m : Phys) (d sz newsz : ℕ) : Prop :=
  newsz < KERNBASE ∧ pgroundup sz < pgroundup newsz ∧
    m.Starves d (pgroundup sz) (pgroundup newsz)

/-- Otherwise its last page is mapped when it has grown. -/
theorem Owned.allocuvm_last (h : Owned L m e) {oldsz newsz : ℕ} (hmem : e.mem = none)
    (hd : e.dir = some d) (hlow : e.low = 0) :
    Gives (StrideXv6.allocuvm L d oldsz newsz) m
      (fun r m' => r = newsz → oldsz ≤ newsz → newsz < KERNBASE →
        pgroundup oldsz < pgroundup newsz → ¬m.Starving d oldsz newsz →
        m'.mapped d (pgroundup newsz - 1) ≠ none)
      fun _ _ => True := by
  by_cases hgrows : oldsz ≤ newsz ∧ newsz < KERNBASE ∧ pgroundup oldsz < pgroundup newsz
  · obtain ⟨hle, hnew, hlt⟩ := hgrows
    refine (h.allocuvm_starves hmem hd hlow hle hnew hlt).mono ?_ fun _ _ h => h
    rintro r m' ⟨-, hiff⟩ hr - - - hfed hnone
    exact hfed ⟨hnew, hlt, (hiff hr).mpr hnone⟩
  · refine (h.allocuvm hmem hd hlow).mono ?_ fun _ _ _ => trivial
    intro r m' _ _ hle hnew hlt
    exact absurd ⟨hle, hnew, hlt⟩ hgrows

end

end StrideXv6
