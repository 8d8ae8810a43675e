import StrideXv6.Upkeep

/-!
# Every page at one place

No page is at two places, as long as the arguments of `exec` fit into the image and its
last page gets a page table. Where `copyout` finds no page table, `uva2ka` takes what the process has at
address 0 for a page table entry. A process that knows a little about the machine can
have a page of its choice overwritten in this way: with one long argument, it maps a
page twice.
-/

namespace StrideXv6

open Bytes Effect Placement Memory Machine

variable {ι : Type} [DecidableEq ι] {L : Layout} {initproc : ι} {s s' : Memory.Machine ι} {p : ι}

/-- Every page that can be allocated is at one place at most: on the free list, a kernel
stack, a page directory, a page table, mapped at one user page, or a pipe. The free list
has no page twice, and none that a process has. -/
structure Memory.OnePlace (L : Layout) (s : Memory.Machine ι) : Prop where
  sound : Sound L s.phys s.isPipe s.env
  nodup : s.phys.free.Nodup
  taken : ∀ p, (s.task p).life = .live → ∀ x g, s.phys.place (s.env (.task p)) x = some g →
    (∀ n, x ≠ .free n) → g ∉ s.phys.free

omit [DecidableEq ι] in
theorem Kept.onePlace (hs : Kept L s) : OnePlace L s := by
  refine ⟨hs.sound, hs.sound.free_nodup, fun p _ x g hx hfree hmem => ?_⟩
  obtain ⟨n, hn⟩ := freeAt_holds.mpr hmem
  have hat : s.phys.spot s.isPipe s.env (.free n) = some g := hn
  have hat' : s.phys.spot s.isPipe s.env (.at (.task p) x) = some g := spot_at.trans hx
  rw [Spot.at_of hfree] at hat'
  cases hs.sound.apart hat hat'

/-- In every run, every page is at one place at most: if `exec` gets files whose segments are
page-aligned and do not wrap, the last page of the image gets a page table and the arguments fit
into the image. All this is asked of the state before the call. -/
theorem pages_stay_apart {byte : ℕ → ℕ → Byte} {input : List (List Byte × Bool)}
    {init : ℕ → Byte} {sz : ℕ} (hboot : Memory.boot L initproc byte input init sz = some s)
    {cs : List (MemCall ι)}
    (hc : AllSteps (Memory.step L initproc) (fun s c => TameCall c ∧ SuitedCall s c) s cs) :
    AllStates (Memory.step L initproc) (OnePlace L) s cs := by
  have hrun : AllStates (Memory.step L initproc) (Kept L) s cs := by
    refine allStates_of_allSteps (fun s c s' hs hcond hstep => ?_) (booted hboot).kept hc
    rcases hs.step hstep with ⟨-, huntame⟩ | ⟨-, hunsuited⟩ | ⟨hkept, -⟩
    · exact absurd hcond.1 huntame
    · exact absurd hcond.2 hunsuited
    · exact hkept
  exact hrun.mono fun s hs => hs.onePlace

theorem pages_stay_apart_exec_fork : ∃ s s' : Memory.Machine (Fin 2),
    Memory.boot Layout.usual 0 (fun _ _ => 0#8) [] (fun _ => 0#8) 0 = some s ∧
    Machine.exec (Memory.step Layout.usual 0) s (busyRun 0 1) = some s' ∧
    AllSteps (Memory.step Layout.usual 0) (fun s c => TameCall c ∧ SuitedCall s c) s (busyRun 0 1) ∧
    AllStates (Memory.step Layout.usual 0) (OnePlace Layout.usual) s (busyRun 0 1) := by
  obtain ⟨s, s', hboot, hrun, hsteps⟩ := busyRun_runs
  have hcond : AllSteps (Memory.step Layout.usual 0) (fun s c => TameCall c ∧ SuitedCall s c) s
      (busyRun 0 1) :=
    allSteps_of_invariant (P := fun _ => True) (fun _ _ _ _ _ _ => trivial)
      (fun _ _ _ h => ⟨h.1, h.2.1⟩) trivial hsteps
  exact ⟨s, s', hboot, hrun, hcond, pages_stay_apart hboot hcond⟩

/-! ## A long argument -/

section

variable {m m' : Phys} {e : Env} {cur d g t : ℕ}

/-- `copyout` to the last page before the devices, which has no page table, and beyond it:
the page that address 0 names is overwritten, and `copyout` fails. -/
theorem gives_copyout_null {b : Byte} {len x : ℕ} (hlen : 4096 < len)
    (hnone : m.walk d 0xFDFFF = none) (hdev : ((m.note (.null 0xFDFFF)).store t 0 4096
      fun _ => b).walk d 0xFE000 = some x) (huser : isUser x = false)
    (hcur : m.mapped cur 0 = some g) (hword : word (m.byte g) 0 = mkPte t 7)
    (ht : L.first ≤ t ∧ t < PHYSTOP) :
    Gives (copyout L cur d 0xFDFFF000 (fun _ => b) len) m
      (fun ok m' => ok = false ∧ m' = (m.note (.null 0xFDFFF)).store t 0 4096 fun _ => b)
      fun _ _ => False := by
  have hbits : isPresent (mkPte t 7) = true ∧ isUser (mkPte t 7) = true := by
    unfold isPresent isUser mkPte
    rw [beq_iff_eq, beq_iff_eq]
    omega
  obtain ⟨n, rfl⟩ : ∃ n, len = n + 2 := ⟨len - 2, by omega⟩
  unfold copyout
  rw [copyoutLoop, if_pos (by omega), gives_bind, gives_uva2ka_none hnone hcur, hword,
    if_pos hbits, pteAddr_mkPte (by decide)]
  dsimp only
  rw [gives_bind, gives_storeAt (Or.inl ht), show min (4096 - 0xFDFFF000 % 4096) (n + 2) = 4096 by omega,
    copyoutLoop, if_pos (by omega), gives_bind]
  rw [gives_uva2ka_some hdev, if_neg (by rw [huser]; rintro ⟨-, ⟨⟩⟩)]
  exact gives_pure.mpr ⟨rfl, rfl⟩

/-- A program without segments. -/
def Memory.noSegments : Image where
  type := .file
  size := 52
  data := wordBytes [ELF_MAGIC]

/-- An argument that ends at the top of the stack and starts two pages before address 0 and the
devices. -/
def Memory.longArg : Arg where
  len := 0x2002FFF
  byte := fun _ => 7#8

theorem tame_noSegments : Tame noSegments := ⟨nofun, fun i hi => absurd hi (Nat.not_lt_zero i)⟩

/-- What happens to memory when a process calls `exec` with the long argument. -/
structure Intruded (L : Layout) (m m' : Phys) (t : ℕ) : Prop where
  page : ∀ k, k < 4096 → m'.byte t k = 7#8
  other : ∀ g, L.first ≤ g → g ∉ m.free → g ≠ t → m'.byte g = m.byte g

theorem gives_finishImage_intruded (h : Owned L m e) (hmem : e.mem = none) (hd : e.dir = some d)
    (hlow : e.low = 0) (hno : m.NoUser d) (hfree : 3 ≤ m.free.length)
    (hentry : ∀ i, m.entry d i = none ↔ i ∉ kernelTables)
    (hcur : Frozen L m e cur) (hg : m.mapped cur 0 = some g) (hfirst : L.first ≤ g)
    (hgout : ¬Holds (m.place e) g) (hword : word (m.byte g) 0 = mkPte t 7)
    (ht : L.first ≤ t ∧ t < PHYSTOP) (htout : ¬Holds (m.place e) t) :
    Gives (finishImage L cur d [longArg] 0) m
      (fun r m' => r = none ∧ Owned L m' e ∧ ¬Holds (m'.place e) t ∧ (∀ k, k < 4096 → m'.byte t k = 7#8) ∧
        ∀ g, L.first ≤ g → ¬Holds (m.place e) g → g ≠ t → m'.byte g = m.byte g ∧ ¬Holds (m'.place e) g)
      fun _ _ => False := by
  have hnpage : KERNPAGE < NPAGE := by decide
  have hpages : pgroundup (2 * 4096) - pgroundup 0 = 2 := rfl
  have hwalk : ∀ v, v < KERNPAGE → m.walk d v = none := by
    intro v hv
    refine Option.map_eq_none_iff.mpr ((hentry _).mpr ?_)
    rw [mem_kernelTables]
    unfold KERNPAGE NPTENTRIES at *
    omega
  have hroom : m.Room d {0} (0 + (pgroundup (2 * 4096) - pgroundup 0)) := by
    have hcard := Finset.card_filter_le {0} fun i => m.entry d i = none
    rw [Finset.card_singleton] at hcard
    rw [Phys.Room, hpages]
    omega
  rw [finishImage, gives_bind, show pgroundup 0 * 4096 = 0 from rfl, Nat.zero_add]
  have hT : ∀ v, pgroundup 0 ≤ v → v < pgroundup (2 * 4096) → v / NPTENTRIES ∈ ({0} : Finset ℕ) := by
    intro v _ hv
    have hv : v < 2 := hv
    rw [Finset.mem_singleton]
    unfold NPTENTRIES
    omega
  refine ((h.allocuvm hmem hd hlow).and (h.allocuvm_room hmem hd hlow (Nat.zero_le _) (by decide)
    hroom hT)).mono ?_ ?_
  · rintro r m1 ⟨⟨hwork, l, -, -, ha⟩, rfl, hsup, -⟩
    have hgrown := ha.grows (by decide) (Nat.zero_le _)
    have hguard := ha.guard (by decide) rfl rfl
    rw [if_neg (by decide), gives_bind, setupStack, gives_bind]
    refine ((h.works hwork).clearpteu hd hlow (by decide)).mono ?_
      fun _ _ hp => absurd hp.2.2 hguard
    rintro _ m2 ⟨hwork', -, -, hwalk'⟩
    have hboth := hwork.trans hwork'
    have h2 := h.works hboth
    have htout2 : ¬Holds (m2.place e) t := fun hh => htout (hboth.shift.holds t hh)
    -- the kernel's part of the new page table is as it was made
    have hkernel : ∀ v, KERNPAGE ≤ v → v < NPAGE → m2.walk d v = m.walk d v := fun v hlo hhi =>
      (hwalk' v hhi (by unfold KERNPAGE at hlo; omega)).trans (hgrown.touches.kernel v hlo hhi)
    have hnone : m2.walk d 0xFDFFF = none := by
      rw [hkernel _ (by decide) (by decide)]
      exact Option.map_eq_none_iff.mpr ((hentry _).mpr (by rw [mem_kernelTables]; decide))
    obtain ⟨x, hx⟩ : ∃ x, m.walk d 0xFE000 = some x := by
      refine Option.ne_none_iff_exists'.mp fun hn => ?_
      exact (hentry _).mp (Option.map_eq_none_iff.mp hn) (by rw [mem_kernelTables]; decide)
    have hdev : ((m2.note (.null 0xFDFFF)).store t 0 4096 fun _ => 7#8).walk d 0xFE000 =
        some x := by
      refine (Owned.walk_setPage hd hlow (fun htable => htout2 (Phys.tablePage_holds htable))
        (by decide)).trans ?_
      rw [← hx]
      exact hkernel _ (by decide) (by decide)
    have hg2 : m2.mapped cur 0 = some g := by
      rw [Phys.mapped_eq, (hboth.frozen hcur).1 0 (by decide), ← Phys.mapped_eq, hg]
    have hword2 : word (m2.byte g) 0 = mkPte t 7 := by rw [hboth.frame g hfirst hgout, hword]
    rw [gives_bind, pushArgs, if_neg (by decide), gives_bind,
      show uint ((2 * 4096 : ℕ) - (longArg.len + 1) : ℤ) / 4 * 4 = 0xFDFFF000 from rfl]
    have hlen : 4096 < longArg.len + 1 := by decide
    refine (gives_copyout_null (b := 7#8) hlen hnone hdev
      (hno _ (by decide) (by decide) x hx) hg2 hword2 ht).mono ?_ fun _ _ h => h.elim
    rintro _ m3 ⟨rfl, rfl⟩
    rw [if_neg (by rintro ⟨⟩), gives_pure]
    dsimp only
    rw [gives_pure, if_neg (by rintro ⟨⟩), gives_pure]
    have hplace : ((m2.note (.null 0xFDFFF)).store t 0 4096 fun _ => 7#8).place e = m2.place e :=
      Phys.place_setPage (m := m2.note (.null 0xFDFFF)) fun htable => htout2
        (Phys.tablePage_holds htable)
    refine ⟨rfl, ⟨hplace ▸ h2.apart, hplace ▸ h2.ranged⟩, hplace ▸ htout2, fun k hk => ?_,
      fun g hfirst hout hne => ⟨?_, ?_⟩⟩
    · change Function.update m2.byte t _ t k = 7#8
      rw [Function.update_self, ← Nat.zero_add k]
      exact splice_inside hk
    · rw [← hboth.frame g hfirst hout]
      exact Phys.byte_setPage_ne hne
    · rw [hplace]
      exact fun hh => hout (hboth.shift.holds g hh)
  · rintro q m1 ⟨⟨-, -, v, -, hv, hmapped⟩, -⟩
    have hv : v < 2 := hv
    rw [Phys.mapped_eq, hwalk v (hv.trans (by decide))] at hmapped
    exact absurd rfl hmapped

theorem gives_exec_intruded {junk : ℕ → Byte} (h : Owned L m {}) (hfree : 68 ≤ m.free.length)
    (hcur : Frozen L m {} cur) (hg : m.mapped cur 0 = some g) (hfirst : L.first ≤ g)
    (hgout : g ∉ m.free) (hword : word (m.byte g) 0 = mkPte t 7)
    (ht : L.first ≤ t ∧ t < PHYSTOP) (htout : t ∉ m.free) :
    Gives (exec L cur (some noSegments) junk [longArg]) m
      (fun r m' => r = none ∧ Intruded L m m' t) fun _ _ => False := by
  rw [← holds_empty] at hgout htout
  obtain ⟨-, hphnum, hmagic⟩ := elf_of_read junk
    (show (noSegments.fileRead 0 sizeofElfhdr).ret = some 52 from rfl) (by decide)
  rw [Memory.exec, gives_bind, buildImage, gives_bind, Image.readi, if_neg (by decide), gives_pure,
    if_neg (by decide), gives_bind, if_neg (by decide), gives_pure, buildFrom, if_neg (by rw [hmagic]; decide),
    gives_bind]
  refine ((h.setupkvm rfl rfl).and (h.setupkvm_room (k := 3) rfl rfl (by omega))).mono ?_
    fun _ _ h => h.1.elim
  rintro _ m1 ⟨hr, d, rfl, hlen, hentry⟩
  obtain ⟨hnone, -⟩ | ⟨d', hd', hwork, -, -, hno⟩ := hr
  · cases hnone
  · obtain rfl := Option.some.inj hd'
    obtain ⟨hwalk, hcur'⟩ := hwork.frozen hcur
    have hg' : m1.mapped cur 0 = some g := by
      rw [Phys.mapped_eq, hwalk 0 (by decide), ← Phys.mapped_eq, hg]
    have hout : ∀ {g}, ¬Holds (m.place {}) g → ¬Holds (m1.place { dir := some d }) g :=
      fun hn hh => hn (hwork.shift.holds _ hh)
    dsimp only
    rw [gives_bind, loadImage, gives_bind, hphnum,
      show elfPhnum noSegments.data = 0 from rfl, loadSegments, gives_pure]
    refine (gives_finishImage_intruded (h.works hwork) rfl rfl rfl hno hlen hentry hcur' hg' hfirst
      (hout hgout) (by rw [hwork.frame g hfirst hgout, hword]) ht (hout htout)).mono ?_ fun _ _ h => h.elim
    rintro _ m2 ⟨rfl, howned, htout2, hpage, hother⟩
    rw [gives_bind]
    refine (howned.freevm rfl rfl rfl).mono ?_ fun _ _ h => h.elim
    rintro _ m3 ⟨hfreed, -⟩
    rw [gives_pure]
    refine gives_pure.mpr ⟨rfl, fun k hk => ?_, fun g hfirst hn hne => ?_⟩
    · rw [hfreed.frame t ht.1 htout2, hpage k hk]
    · rw [← holds_empty] at hn
      obtain ⟨hbyte, hout2⟩ := hother g hfirst (hout hn) hne
      rw [hfreed.frame g hfirst hout2, hbyte, hwork.frame g hfirst hn]

end

variable (initproc) in
/-- A process whose memory starts with an entry for one of its page tables calls `exec` with the
long argument. -/
theorem Kept.exec_intrudes (hs : Kept L s) (hp : (s.task p).life = .live) (junk : ℕ → Byte) {g t : ℕ}
    (hsz : longArg.len < (s.task p).sz) (hfree : 68 ≤ s.phys.free.length)
    (ht : s.phys.entry (s.task p).pgdir 0 = some t) (hg : s.phys.mapped (s.task p).pgdir 0 = some g)
    (hword : word (s.phys.byte g) 0 = mkPte t 7) :
    ∃ s', Memory.step L initproc s (.exec p (some noSegments) junk [longArg]) = some s' ∧
      ¬OnePlace L s' := by
  have henv := env_of_live hp
  have hspot : ∀ {x : Place} {g}, s.phys.place { dir := some (s.task p).pgdir, stack := (s.task p).kstack } x
      = some g → (∀ n, x ≠ .free n) → L.first ≤ g ∧ g < PHYSTOP ∧ g ∉ s.phys.free := by
    intro x g hx hfree
    rw [← henv] at hx
    obtain ⟨hlo, hhi⟩ := (hs.sound.owned _).ranged g ⟨x, hx⟩
    exact ⟨hlo, hhi, hs.onePlace.taken p hp x g hx hfree⟩
  have hdirAt := hspot (x := .dir) (g := (s.task p).pgdir) rfl (by rintro _ ⟨⟩)
  have htAt := hspot (x := .table 0) (g := t) ht (by rintro _ ⟨⟩)
  have hgAt := hspot (x := .user 0) (g := g) hg (by rintro _ ⟨⟩)
  have hne : (s.task p).pgdir ≠ t := by
    rintro heq
    have hdir : s.phys.place (s.env (.task p)) .dir = some t := by rw [henv, ← heq]; rfl
    have htable : s.phys.place (s.env (.task p)) (.table 0) = some t := by rw [henv]; exact ht
    cases (hs.sound.owned _).apart hdir htable
  have hcall : Gives (Memory.call L initproc (.exec p (some noSegments) junk [longArg])) s
      (fun _ s' => s'.task = s.task ∧ Intruded L s.phys s'.phys t) fun _ _ => False := by
    rw [Memory.call, gives_bind, Memory.execCall, gives_bind, gives_get, gives_bind, gives_onPhys]
    refine (gives_exec_intruded (hs.sound.owned .building)
      hfree (hs.frozen hp (k := .building) (by rintro ⟨⟩)) hg hgAt.1 hgAt.2.2 hword
      ⟨htAt.1, htAt.2.1⟩ htAt.2.2).mono ?_ fun _ _ h => h.elim
    rintro _ m' ⟨rfl, hin⟩
    exact gives_pure.mpr (gives_pure.mpr ⟨rfl, hin⟩)
  have hen : enabled s (.exec p (some noSegments) junk [longArg]) = true := by
    simp only [enabled, MemCall.caller, hp, hsz, decide_true, List.all_cons, List.all_nil,
      Bool.and_self]
  obtain ⟨s', hstep, htask, hin⟩ := step_of_gives hen hcall
  refine ⟨s', hstep, fun hone => ?_⟩
  -- the page table has the same entry everywhere
  have henv' : s'.env (.task p) = { dir := some (s.task p).pgdir, stack := (s.task p).kstack } := by
    rw [← htask]
    exact env_of_live (by rw [htask, hp])
  have hentry : s'.phys.entry (s.task p).pgdir 0 = some t := by
    rw [← ht]
    exact Phys.entry_congr (Phys.pte_congr (hin.other _ hdirAt.1 hdirAt.2.2 hne))
  have hmapped : ∀ v, v < NPTENTRIES → s'.phys.place (s'.env (.task p)) (.user v) = some 0x7070 := by
    intro v hv
    have hpte : s'.phys.pte t v = 0x07070707 := by
      unfold NPTENTRIES at hv
      unfold Phys.pte word half
      rw [hin.page _ (by omega), hin.page _ (by omega), hin.page _ (by omega), hin.page _ (by omega)]
      rfl
    have hv' : v < KERNPAGE := hv.trans (by decide)
    have hzero : v / NPTENTRIES = 0 := Nat.div_eq_of_lt hv
    rw [henv', Phys.place_user_of_dir rfl rfl hv',
      Phys.mapped_of_entry (t := t) (by rw [hzero, hentry]), Nat.mod_eq_of_lt hv,
      Phys.entry_of_present (by rw [hpte]; rfl), hpte]
    rfl
  cases (hone.sound.owned _).apart (hmapped 0 (by decide)) (hmapped 1 (by decide))

/-- A process with enough memory for the long argument; `t` is its first page table, and `g`
its first page, which it may write to. -/
structure Armed (L : Layout) (p : ι) (g t : ℕ) (s : Memory.Machine ι) : Prop where
  kept : Kept L s
  live : (s.task p).life = .live
  size : longArg.len < (s.task p).sz
  free : 68 ≤ s.phys.free.length
  table : s.phys.entry (s.task p).pgdir 0 = some t
  page : s.phys.walk (s.task p).pgdir 0 = some (mkPte g (PTE_W + PTE_U ||| PTE_P))

omit [DecidableEq ι] in
theorem Armed.mapped {g t : ℕ} (h : Armed L p g t s) :
    s.phys.mapped (s.task p).pgdir 0 = some g := by
  rw [Phys.mapped_eq, h.page, Building.pageOf_mkPte]

variable (initproc) in
/-- It stores a byte in its first page. -/
theorem Armed.store {g t va : ℕ} (h : Armed L p g t s) (b : Byte) (hva : va < 4096) :
    ∃ s', Memory.step L initproc s (.store p va b) = some s' ∧ Armed L p g t s' ∧
      s'.phys.byte g = splice (s.phys.byte g) va 1 fun _ => b := by
  have henv := env_of_live h.live
  have hdir : (s.env (.task p)).dir = some (s.task p).pgdir := by rw [henv]
  have hlow : (s.env (.task p)).low = 0 := by rw [henv]
  have hlt : va < KERNBASE := hva.trans (by decide)
  refine step_of_gives (Q := fun _ s' => Armed L p g t s' ∧
    s'.phys.byte g = splice (s.phys.byte g) va 1 fun _ => b) ?_ ?_
  · simp only [enabled, MemCall.caller, h.live, hlt, decide_true, Bool.and_self]
  · have hbits : isPresent (mkPte g (PTE_W + PTE_U ||| PTE_P)) = true ∧
        isUser (mkPte g (PTE_W + PTE_U ||| PTE_P)) = true ∧
        isWriteable (mkPte g (PTE_W + PTE_U ||| PTE_P)) = true := by
      change (g * 4096 + 7) % 2 == 1 ∧ (g * 4096 + 7) / 4 % 2 == 1 ∧ (g * 4096 + 7) / 2 % 2 == 1
      rw [beq_iff_eq, beq_iff_eq, beq_iff_eq]
      omega
    have hstored := (h.kept.sound.owned (.task p)).stored hdir hlow (v := 0) (by decide) h.mapped
      (b := splice (s.phys.byte g) va 1 fun _ => b)
    have hne : (s.task p).pgdir ≠ g := by
      have hat : s.phys.place (s.env (.task p)) (.user 0) = some g :=
        (Phys.place_user_of_dir hdir hlow (by decide)).trans h.mapped
      exact (h.kept.sound.owned (.task p)).apart.ne (x := .dir) hdir hat (by rintro ⟨⟩)
    rw [Memory.call, userStore, gives_modify, Nat.div_eq_of_lt hva, Nat.mod_eq_of_lt hva, h.page]
    dsimp only
    rw [if_pos hbits, pteAddr_mkPte (by decide)]
    refine ⟨⟨h.kept.phys hstored.works, h.live, h.size, h.free, ?_, ?_⟩, Phys.byte_setPage_self⟩
    · rw [← h.table]
      exact Phys.entry_congr (Phys.pte_congr (Phys.byte_setPage_ne hne))
    · exact (hstored.walk 0 (by decide)).trans h.page

variable (initproc) in
/-- It stores a word at address 0. -/
theorem Armed.store_word {g t x : ℕ} (h : Armed L p g t s) (hx : x < 4294967296) :
    ∃ s', Machine.exec (Memory.step L initproc) s
        ((List.range 4).map fun k => .store p k (Bytes.byte x k)) = some s' ∧
      Armed L p g t s' ∧ word (s'.phys.byte g) 0 = x := by
  obtain ⟨s1, hstep1, h1, hbyte1⟩ := h.store initproc (Bytes.byte x 0)
    (show 0 < 4096 by decide)
  obtain ⟨s2, hstep2, h2, hbyte2⟩ := h1.store initproc (Bytes.byte x 1)
    (show 1 < 4096 by decide)
  obtain ⟨s3, hstep3, h3, hbyte3⟩ := h2.store initproc (Bytes.byte x 2)
    (show 2 < 4096 by decide)
  obtain ⟨s4, hstep4, h4, hbyte4⟩ := h3.store initproc (Bytes.byte x 3)
    (show 3 < 4096 by decide)
  refine ⟨s4, ?_, h4, ?_⟩
  · change Machine.exec (Memory.step L initproc) s [.store p 0 (Bytes.byte x 0),
      .store p 1 (Bytes.byte x 1), .store p 2 (Bytes.byte x 2), .store p 3 (Bytes.byte x 3)] = _
    rw [exec_cons, hstep1, Option.bind_some, exec_cons, hstep2, Option.bind_some, exec_cons, hstep3,
      Option.bind_some, exec_cons, hstep4]
    rfl
  · refine (word_eq (x := x) fun k hk => ?_).trans (Nat.mod_eq_of_lt hx)
    rw [hbyte4, hbyte3, hbyte2, hbyte1]
    interval_cases k <;> rfl

/-- The first process gets more memory, stores at address 0 what looks like an entry for its
first page table, and calls `exec` with the long argument. `exec` fails, and two addresses
of the process are mapped to one page then. -/
theorem long_argument_maps_page_twice :
    ∃ (s s' : Memory.Machine (Fin 2)) (cs : List (MemCall (Fin 2))),
      Memory.boot Layout.usual 0 (fun _ _ => 0#8) [] (fun _ => 0#8) 0 = some s ∧
      (∀ c ∈ cs, TameCall c) ∧ Machine.exec (Memory.step Layout.usual 0) s cs = some s' ∧
      ¬OnePlace Layout.usual s' := by
  obtain ⟨s, hboot, hb⟩ := booted_usual
  have hsize : pgroundup (s.task 0).sz = 1 := by
    rw [hb.size]
    rfl
  have hroom : s.phys.Room (s.task 0).pgdir (Finset.range 9) (40000 + 0x2004) := by
    have hcard := Finset.card_filter_le (Finset.range 9) fun i => s.phys.entry (s.task 0).pgdir i = none
    have := hb.pages
    rw [Finset.card_range] at hcard
    unfold Phys.Room
    omega
  obtain ⟨s1, hstep, hgrew⟩ := hb.kept.sbrk_grow 0 hb.live (k := 0x2004) (by decide)
    (by rw [hb.size]; decide) (fun v hv => hb.above v (by omega)) hroom fun v hlo hhi => by
      rw [Finset.mem_range]
      unfold NPTENTRIES
      omega
  obtain ⟨g, hg⟩ := hb.program
  have hwalk : s1.phys.walk (s.task 0).pgdir 0 = some (mkPte g (PTE_W + PTE_U ||| PTE_P)) :=
    hgrew.below 0 (by omega) _ hg
  obtain ⟨t, ht, -⟩ := Option.map_eq_some_iff.mp hwalk
  have htask : s1.task 0 = { s.task 0 with sz := (s.task 0).sz + 4096 * 0x2004 } := by
    rw [hgrew.task, Function.update_self]
  have harmed : Armed Layout.usual 0 g t s1 := by
    refine ⟨hgrew.kept, ?_, ?_, ?_, ?_, ?_⟩
    · rw [htask, ← hb.live]
    · rw [htask, hb.size]
      change longArg.len < 4096 + 4096 * 0x2004
      decide
    · have := hgrew.supplied.room.le
      omega
    · rw [htask]
      exact ht
    · rw [htask]
      exact hwalk
  have htable : t < PHYSTOP := by
    refine ((harmed.kept.sound.owned (.task 0)).ranged t ⟨.table 0, ?_⟩).2
    rw [env_of_live harmed.live]
    exact harmed.table
  obtain ⟨s2, hstores, h2, hword⟩ := harmed.store_word 0 (x := mkPte t 7)
    (mkPte_lt (htable.trans (by decide)) (by decide))
  obtain ⟨s3, hexec, hbad⟩ := h2.kept.exec_intrudes 0 h2.live (fun _ => 0#8) h2.size h2.free h2.table
    h2.mapped hword
  refine ⟨s, s3, .sbrk 0 (4096 * 0x2004) :: ((List.range 4).map (fun k =>
    .store 0 k (Bytes.byte (mkPte t 7) k)) ++ [.exec 0 (some noSegments) (fun _ => 0#8) [longArg]]),
    hboot, fun c hc => ?_, ?_, hbad⟩
  · rw [List.mem_cons, List.mem_append, List.mem_map, List.mem_singleton] at hc
    rcases hc with rfl | ⟨k, -, rfl⟩ | rfl
    · trivial
    · trivial
    · exact fun i hi => Option.some.inj hi ▸ tame_noSegments
  · rw [exec_cons, show (4096 * 0x2004 : ℤ) = 4096 * (0x2004 : ℕ) from rfl, hstep]
    refine exec_append hstores ?_
    rw [exec_cons, hexec]
    rfl

end StrideXv6
