import StrideXv6.Calls
import StrideXv6.Supply

/-!
# Booting

`kinit1` and `kinit2` put the pages on the free list; in between the kernel makes
its page table, and after that the first process. The machine starts with nothing
allocated, so everything is where it should be (`Booted`).
-/

namespace StrideXv6

open Bytes Effect Placement Memory

section

variable {ι : Type} [DecidableEq ι] {L : Layout} {m : Phys} {pipes : ℕ → Bool}
  {env : Owner ι → Env} {g : ℕ}

/-- A page that is nowhere is put on the free list. -/
theorem Sound.spot_freed (hn : ¬Holds (m.spot pipes env) g) (y : Spot ι) :
    (Owned.freed m g).spot pipes env y =
      if y = .free m.free.length then some g else m.spot pipes env y := by
  cases y with
  | free n =>
    simp only [Spot.free.injEq]
    exact freeAt_cons
  | pipe g' => rfl
  | of k x =>
    rw [if_neg nofun]
    have hbyte : ∀ t, m.TablePage (env k) t → (Owned.freed m g).byte t = m.byte t := by
      rintro t ht
      refine Phys.byte_setPage_ne ?_
      rintro rfl
      refine hn ?_
      rcases ht with hd | ⟨i, hi⟩
      · exact ⟨.of k .dir, hd⟩
      · exact ⟨.of k (.table i), hi⟩
    obtain ⟨htable, huser⟩ := Phys.space_congr rfl rfl hbyte
    cases x with
    | table i => exact htable i
    | user v => exact huser v
    | _ => rfl

theorem Sound.freed (h : Sound L m pipes env) (hlo : L.first ≤ g) (hhi : g < PHYSTOP)
    (hn : ¬Holds (m.spot pipes env) g) : Sound L (Owned.freed m g) pipes env ∧
      ∀ g', Holds ((Owned.freed m g).spot pipes env) g' → g' = g ∨ Holds (m.spot pipes env) g' := by
  have hspot := Sound.spot_freed hn
  have hholds : ∀ g', Holds ((Owned.freed m g).spot pipes env) g' →
      g' = g ∨ Holds (m.spot pipes env) g' := by
    rintro g' ⟨y, hy⟩
    rw [hspot] at hy
    split at hy
    · exact Or.inl (Option.some.inj hy).symm
    · exact Or.inr ⟨y, hy⟩
  refine ⟨⟨fun x y r hx hy => ?_, fun g' hg' => ?_⟩, hholds⟩
  · rw [hspot] at hx hy
    split at hx <;> split at hy
    · next hx' hy' => rw [hx', hy']
    · obtain rfl := Option.some.inj hx
      exact absurd ⟨y, hy⟩ hn
    · obtain rfl := Option.some.inj hy
      exact absurd ⟨x, hx⟩ hn
    · exact h.apart hx hy
  · rcases hholds g' hg' with rfl | hg'
    · exact ⟨hlo, hhi⟩
    · exact h.ranged g' hg'

/-- `freerange`, by induction on the pages. -/
theorem Sound.freerange (n : ℕ) : ∀ {m : Phys} {g : ℕ}, Sound L m pipes env → L.first ≤ g →
    g + n ≤ PHYSTOP → (∀ g', Holds (m.spot pipes env) g' → g' < g ∨ g + n ≤ g') →
    Gives (freerange L g n) m (fun _ m' => Sound L m' pipes env ∧
      m'.free.length = m.free.length + n ∧ m'.notes = m.notes ∧
      ∀ g', Holds (m'.spot pipes env) g' → Holds (m.spot pipes env) g' ∨ (g ≤ g' ∧ g' < g + n))
      fun _ _ => False := by
  induction n with
  | zero =>
    intro m g h _ _ _
    rw [StrideXv6.freerange, gives_pure]
    exact ⟨h, rfl, rfl, fun _ => Or.inl⟩
  | succ n ih =>
    intro m g h hlo hhi hout
    have hn : ¬Holds (m.spot pipes env) g := fun hg => by
      have := hout g hg
      omega
    obtain ⟨h1, hholds⟩ := h.freed hlo (by omega) hn
    rw [StrideXv6.freerange, gives_bind, gives_kfree hlo (by omega)]
    refine (ih h1 (by omega) (by omega) fun g' hg' => ?_).mono ?_ nofun
    · rcases hholds g' hg' with rfl | hg'
      · omega
      · have := hout g' hg'
        omega
    · rintro _ m' ⟨h2, hlen, hnotes, hheld⟩
      refine ⟨h2, ?_, hnotes, fun g' hg' => ?_⟩
      · rw [hlen]
        change m.free.length + 1 + n = _
        omega
      · rcases hheld g' hg' with hg' | hg'
        · rcases hholds g' hg' with rfl | hg'
          · exact Or.inr (by omega)
          · exact Or.inl hg'
        · exact Or.inr (by omega)

end

/-! ## The first process -/

section

variable {L : Layout} {m : Phys} {e : Env} {d k : ℕ}

/-- `inituvm` with two free pages: one for the program, and one for its page table. -/
theorem Owned.inituvm (h : Owned L m e) (hmem : e.mem = none) (hd : e.dir = some d)
    (hlow : e.low = 0) (hnone : m.entry d 0 = none) (hfree : 2 + k ≤ m.free.length)
    {init : ℕ → Byte} {sz : ℕ} :
    Gives (StrideXv6.inituvm d init sz) m
      (fun _ m' => Works L m m' e e ∧ k ≤ m'.free.length ∧ m.Touches m' d {0} ∧
        ∃ g, m'.walk d 0 = some (mkPte g (PTE_W + PTE_U ||| PTE_P)))
      fun _ _ => 4096 ≤ sz := by
  have hkern : 0 < KERNPAGE := by decide
  unfold StrideXv6.inituvm
  split
  · next hsz => exact gives_throw.mpr hsz
  rw [gives_bind, gives_kalloc]
  refine ⟨fun hnil => ?_, fun mem free hcons => ?_⟩
  · rw [hnil, List.length_nil] at hfree
    omega
  · dsimp only
    rw [gives_bind, gives_modify]
    have htake := Owned.takeMem (L := L) hcons hmem
    have h1 := h.works htake
    obtain ⟨hfill, hsame⟩ := h1.setMem (d := d) (b := fun _ => 0#8) rfl hd hlow
    have h2 := h1.works hfill
    have hroom : ((m.setFree free).fill mem 0#8).Room d {0} k := by
      have hcard := Finset.card_filter_le {0}
        fun i => ((m.setFree free).fill mem 0#8).entry d i = none
      have hlen : ((m.setFree free).fill mem 0#8).free.length = free.length := rfl
      rw [Finset.card_singleton] at hcard
      rw [hcons, List.length_cons] at hfree
      unfold Phys.Room
      omega
    have henv : ({ e with mem := none } : Env) = e := by
      rw [← hmem]
    refine ((h2.mappages_user (d := d) hd hlow rfl hkern (by decide : PTE_W + PTE_U < 4096)).and
      (h2.mappages_room hd hlow 1 (Or.inr le_rfl) (by decide) hroom fun v' _ hv' => ?_)).bind ?_ ?_
    · obtain rfl : v' = 0 := by omega
      exact Finset.mem_singleton_self _
    · rintro ok m3 ⟨⟨hmap, htouch, -, hres⟩, rfl, hsup⟩
      rcases hres with ⟨-, hwalk, -⟩ | ⟨hf, -⟩
      · rw [gives_modify]
        dsimp only at hmap
        rw [henv] at hmap
        have h3 : Owned L m3 e := h2.works hmap
        have hmapped : m3.mapped d 0 = some mem := by
          rw [Phys.mapped_eq, hwalk, Building.pageOf_mkPte]
        have hstored := h3.stored hd hlow hkern hmapped (b := splice (m3.byte mem) 0 sz init)
        refine ⟨htake.trans (hfill.trans (hmap.trans hstored.works)), hsup.room.le, ?_, mem, ?_⟩
        · refine (Phys.Touches.of_walk (m := m) hsame fun v p hv _ hp => ?_).trans
            (htouch.trans (Phys.Touches.of_walk hstored.walk fun v p hv hne hp => ?_))
          · exact Phys.byte_setPage_ne (h.ne_fresh hd hlow hcons hv hp)
          · refine Phys.byte_setPage_ne (h3.apart.ne
              ((Phys.place_user_of_dir hd hlow hv).trans hp)
              ((Phys.place_user_of_dir hd hlow hkern).trans hmapped) fun heq => hne ?_)
            exact Place.user.inj heq
        · exact (hstored.walk 0 (by decide)).trans hwalk
      · cases hf
    · rintro p _ ⟨⟨-, hmapped⟩, -⟩
      refine absurd ?_ hmapped
      have hdm : d ≠ mem := h1.apart.ne (x := .dir) (y := .mem) hd rfl nofun
      rw [Phys.mapped_eq, hsame 0 (by decide), walk_eq_none.mpr]
      · rfl
      · exact hnone

end

/-- What boot leaves. -/
structure Booted {ι : Type} (L : Layout) (initproc : ι) (s : Machine ι) : Prop where
  kept : Kept L s
  whole : Whole s
  live : (s.task initproc).life = .live
  size : (s.task initproc).sz = 4096
  /-- the program can be written to -/
  program : ∃ g, s.phys.walk (s.task initproc).pgdir 0 = some (mkPte g (PTE_W + PTE_U ||| PTE_P))
  above : ∀ v, 0 < v → v < KERNPAGE → s.phys.mapped (s.task initproc).pgdir v = none
  /-- the other slots are free -/
  other : ∀ p, p ≠ initproc → (s.task p).life = .unused
  pages : 56000 ≤ s.phys.free.length

section

variable {ι : Type} [DecidableEq ι] {L : Layout} {initproc : ι} {byte : ℕ → ℕ → Byte}
  {input : List (List Byte × Bool)} {init : ℕ → Byte} {sz : ℕ}

variable (L initproc byte input init sz) in
theorem gives_bootMemory :
    Gives (bootMemory L init sz) { free := [], byte := byte, input := input }
      (fun (r : ℕ × ℕ × ℕ) m => ∃ env : Owner ι → Env, Sound L m (fun _ => false) env ∧
        env .kernel = { dir := some r.1 } ∧ env .building = {} ∧
        (∀ p, env (.task p) =
          if p = initproc then { dir := some r.2.2, stack := some r.2.1 } else {}) ∧
        56000 ≤ m.free.length ∧ (∀ v, 0 < v → v < KERNPAGE → m.mapped r.2.2 v = none) ∧
        ∃ g, m.walk r.2.2 0 = some (mkPte g (PTE_W + PTE_U ||| PTE_P)))
      fun _ _ => 4096 ≤ sz := by
  have hfits := L.fits
  have hne : Owner.task initproc ≠ .kernel := nofun
  unfold bootMemory
  -- nothing is allocated
  have hnone0 : ∀ g, ¬Holds (Phys.spot { free := [], byte := byte, input := input }
      (fun _ => false) fun _ : Owner ι => {}) g := by
    rintro g ⟨y, hy⟩
    cases y with
    | free n => cases hy
    | pipe g => cases hy
    | of k x =>
      rw [Sound.spot_empty rfl x] at hy
      cases hy
  have h0 : Sound L { free := [], byte := byte, input := input } (fun _ => false)
      fun _ : Owner ι => {} := ⟨fun x _ r hx _ => absurd ⟨x, hx⟩ (hnone0 r), fun g hg => absurd hg (hnone0 g)⟩
  have hphys : PHYSTOP = 57344 := rfl
  refine (h0.freerange (1024 - L.first) le_rfl (by omega) fun g hg => absurd hg (hnone0 g)).bind
    ?_ nofun
  rintro _ m1 ⟨h1, hlen1, -, hheld1⟩
  have hsize1 : 65 + 0 ≤ m1.free.length := by
    rw [hlen1]
    change 65 + 0 ≤ 0 + (1024 - L.first)
    omega
  -- the kernel's page table
  have howned1 : Owned L m1 {} := h1.owned .kernel
  refine ((howned1.setupkvm rfl rfl).and (howned1.setupkvm_room rfl rfl hsize1)).bind ?_
    fun _ _ h => h.1.elim
  rintro _ m2 ⟨hr, kpgdir, rfl, -, -⟩
  obtain ⟨hf, -⟩ | ⟨d, hd, hwork2, -, -, -⟩ := hr
  · cases hf
  obtain rfl := Option.some.inj hd
  have h2 := h1.works (k := .kernel) hwork2
  dsimp only
  refine (h2.freerange (PHYSTOP - 1024) (by omega) (by omega) fun g hg => ?_).bind ?_ nofun
  · rcases hheld1 g ((h1.shift_works (k := .kernel) hwork2).holds g hg) with hg | hg
    · exact absurd hg (hnone0 g)
    · omega
  rintro _ m3 ⟨h3, hlen3, -, -⟩
  rw [gives_bind, gives_kalloc]
  refine ⟨fun hnil => ?_, fun st free hcons => ?_⟩
  · rw [hnil, List.length_nil] at hlen3
    omega
  rw [hcons, List.length_cons] at hlen3
  -- the first process
  set env3 := Function.update (fun _ : Owner ι => ({} : Env)) .kernel { dir := some kpgdir } with henv3
  have hinit3 : env3 (.task initproc) = {} := by
    rw [henv3, Function.update_of_ne hne]
  have htake : Works L m3 (m3.setFree free) (env3 (.task initproc)) { stack := some st } := by
    rw [hinit3]
    exact Owned.takeStack hcons rfl
  have h4 := h3.works htake
  have howned4 := h4.owned (.task initproc)
  rw [Function.update_self] at howned4
  have hsize4 : 65 + 56254 ≤ (m3.setFree free).free.length := by
    change 65 + 56254 ≤ free.length
    omega
  dsimp only
  refine ((howned4.setupkvm rfl rfl).and (howned4.setupkvm_room rfl rfl hsize4)).bind ?_
    fun _ _ h => h.1.elim
  rintro _ m5 ⟨hr, pgdir, rfl, hsize5, htables⟩
  obtain ⟨hf, -⟩ | ⟨d, hd, hwork5, -, hempty, -⟩ := hr
  · cases hf
  obtain rfl := Option.some.inj hd
  have hnone : m5.entry pgdir 0 = none := by
    rw [htables, mem_kernelTables]
    omega
  refine ((howned4.works hwork5).inituvm rfl rfl rfl hnone (k := 56252) hsize5).bind ?_
    fun _ _ h => h
  rintro _ m6 ⟨hwork6, hsize6, htouch, hprogram⟩
  rw [gives_pure]
  have hwork : Works L (m3.setFree free) m6
      (Function.update env3 (.task initproc) { stack := some st } (.task initproc))
      { dir := some pgdir, stack := some st } := by
    rw [Function.update_self]
    exact hwork5.trans hwork6
  refine ⟨_, h4.works hwork, ?_, ?_, fun p => ?_, by omega, fun v hpos hlt => ?_, hprogram⟩
  · rw [Function.update_of_ne hne.symm, Function.update_of_ne hne.symm, henv3, Function.update_self]
  · have hne' : Owner.building ≠ .task initproc := nofun
    have hne'' : (Owner.building : Owner ι) ≠ .kernel := nofun
    rw [Function.update_of_ne hne', Function.update_of_ne hne', henv3, Function.update_of_ne hne'']
  · by_cases hp : p = initproc
    · rw [hp, if_pos rfl, Function.update_self]
    · have hne' : Owner.task p ≠ .task initproc := fun h => hp (Owner.task.inj h)
      have hne'' : Owner.task p ≠ .kernel := nofun
      rw [if_neg hp, Function.update_of_ne hne', Function.update_of_ne hne', henv3,
        Function.update_of_ne hne'']
  · rw [htouch.mapped hlt (by rintro rfl; omega), Phys.mapped_eq, hempty v hlt]
    rfl

variable (L initproc byte input init) in
/-- The machine boots, with a program that is shorter than a page. -/
theorem boot_isSome (hsz : sz < 4096) : ∃ s, Memory.boot L initproc byte input init sz = some s := by
  have hboot := gives_bootMemory L initproc byte input init sz
  unfold Memory.boot
  rcases hexec : (bootMemory L init sz).exec { free := [], byte := byte, input := input } with
    ⟨_ | ⟨kpgdir, kstack, pgdir⟩, m⟩
  · have := hboot.error hexec
    omega
  · exact ⟨_, rfl⟩

theorem booted {s : Machine ι} (h : Memory.boot L initproc byte input init sz = some s) :
    Booted L initproc s := by
  have hboot := gives_bootMemory L initproc byte input init sz
  unfold Memory.boot at h
  rcases hexec : (bootMemory L init sz).exec { free := [], byte := byte, input := input } with
    ⟨_ | ⟨kpgdir, kstack, pgdir⟩, m⟩
  · rw [hexec] at h
    cases h
  · rw [hexec] at h
    obtain rfl := Option.some.inj h
    obtain ⟨env, hsound, hkernel, hbuilding, htask, hpages, habove, g, hg⟩ := hboot.ok hexec
    have hself : ∀ t : Memory.Task ι,
        Function.update (fun _ : ι => ({} : Memory.Task ι)) initproc t initproc = t :=
      fun t => Function.update_self _ _ _
    have hother : ∀ {p}, p ≠ initproc → ∀ t : Memory.Task ι,
        Function.update (fun _ : ι => ({} : Memory.Task ι)) initproc t p = {} :=
      fun hp t => Function.update_of_ne hp _ _
    refine ⟨⟨?_, fun p => ?_⟩, fun p hp v hv => ?_, ?_, ?_, ⟨g, ?_⟩, fun v => ?_, fun p hp => ?_,
      hpages⟩
    · refine (congrArg (Sound L m fun _ => false) (funext fun k => ?_)).mp hsound
      cases k with
      | kernel => exact hkernel
      | building => exact hbuilding
      | task p =>
        rw [htask p]
        simp only [Machine.env]
        by_cases hp : p = initproc
        · rw [hp, hself, if_pos rfl]
          rfl
        · rw [hother hp, if_neg hp]
          rfl
    · by_cases hp : p = initproc
      · rw [hp]
        simp only [hself]
        exact ⟨fun _ => (by rintro ⟨⟩), (by rintro ⟨⟩), (by decide : 4096 ≤ KERNBASE)⟩
      · simp only [hother hp]
        exact ⟨(by rintro (h | h) <;> cases h), fun _ => rfl, Nat.zero_le _⟩
    · by_cases hpi : p = initproc
      · rw [hpi] at hv ⊢
        simp only [hself] at hv ⊢
        obtain rfl : v = 0 := by
          unfold pgroundup at hv
          omega
        rw [Phys.mapped_eq, hg, Building.pageOf_mkPte]
        rintro ⟨⟩
      · simp only [hother hpi] at hp
        cases hp
    · simp only [hself]
    · simp only [hself]
    · simp only [hself]
      exact hg
    · simp only [hself]
      exact habove v
    · simp only [hother hp]

end

end StrideXv6
