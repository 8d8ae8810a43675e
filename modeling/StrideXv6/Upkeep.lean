import StrideXv6.Boot
import StrideXv6.Run

/-!
# What the calls keep

`Kept` is kept by every call, except where `exec` stores through something that is
no page of its own: `Wild` for a file that it should not load, `Nulled` for
arguments it should not copy. What is asked of a call is about the state before it:
that the file is tame (`TameCall`), that the last page of the image gets a page table
and the arguments fit into it (`SuitedCall`), and that a process that grows or shrinks
can (`SizedCall`). From this follow, for every run of the machine, that the memory of
processes is mapped, and for every call that fails, that all memory is given back, if
memory does not run out where a page table is needed (`Ample`).
-/

namespace StrideXv6

open Bytes Effect Placement Memory Machine

variable {ι : Type} [DecidableEq ι] {L : Layout} {initproc : ι} {s s' : Memory.Machine ι}
  {c : MemCall ι} {p : ι}

namespace Memory

/-- The file that `exec` is given has segments that are page-aligned and do not wrap. -/
def TameCall : MemCall ι → Prop
  | .exec _ img _ _ => ∀ i, img = some i → Tame i
  | _ => True

/-- The last page of the image that `exec` makes gets a page table, and the arguments fit into
the image. -/
def SuitedCall (s : Machine ι) : MemCall ι → Prop
  | .exec _ img _ argv => Suited img s.phys.free.length argv
  | _ => True

/-- A process that grows is not short of exactly the page table of its last page, and no process
shrinks to nothing. -/
def SizedCall (s : Machine ι) : MemCall ι → Prop
  | .sbrk p n =>
    (0 < n → ¬s.phys.Starving (s.task p).pgdir (s.task p).sz ((s.task p).sz + n).toNat) ∧
      (((s.task p).sz : ℤ) + n ≠ 0 ∨ n = 0)
  | _ => True

end Memory

theorem step_eq_some (h : Memory.step L initproc s c = some s') :
    enabled s c = true ∧ ∃ a, (call L initproc c).exec s = (.ok a, s') := by
  unfold Memory.step at h
  split at h
  · next hen =>
    refine ⟨hen, ?_⟩
    rcases hexec : (call L initproc c).exec s with ⟨_ | a, t⟩
    · rw [hexec] at h
      cases h
    · rw [hexec] at h
      obtain rfl := Option.some.inj h
      exact ⟨a, rfl⟩
  · cases h

theorem step_of_gives {Q : Unit → Memory.Machine ι → Prop} (hen : enabled s c = true)
    (h : Gives (call L initproc c) s Q fun _ _ => False) :
    ∃ s', Memory.step L initproc s c = some s' ∧ Q () s' := by
  obtain ⟨a, s', hexec, hQ⟩ := h.returns
  refine ⟨s', ?_, hQ⟩
  unfold Memory.step
  rw [if_pos hen, hexec]

/-- One call. -/
theorem Kept.call (hs : Kept L s) (hen : enabled s c = true) :
    Gives (call L initproc c) s
      (fun _ s' => (Wild s.phys s'.phys ∧ ¬TameCall c) ∨
        (Nulled s.phys s'.phys ∧ ¬SuitedCall s c) ∨
        (Kept L s' ∧ (SuitedCall s c → SizedCall s c → Whole s → Whole s')))
      fun _ _ => True := by
  unfold enabled at hen
  rw [Bool.and_eq_true, decide_eq_true_eq] at hen
  obtain ⟨hlive, hen⟩ := hen
  cases c with
  | fork p np =>
    refine (hs.forks hlive fun q hq => ?_).bind (fun _ s' h => gives_pure.mpr (Or.inr (Or.inr
      ⟨h.1, fun _ _ => h.2.1⟩))) fun _ _ _ => trivial
    subst hq
    simpa using hen
  | exec p img junk argv =>
    refine (hs.execCall hlive).bind (fun _ s' h => gives_pure.mpr ?_) fun _ _ _ => trivial
    rcases h with ⟨hwild, i, hi, huntame⟩ | ⟨-, -, hnull | hkept⟩
    · exact Or.inl ⟨hwild, fun htame => huntame (htame i hi)⟩
    · exact Or.inr (Or.inl hnull)
    · exact Or.inr (Or.inr ⟨hkept.1, fun hsuited _ => hkept.2.1 hsuited⟩)
  | sbrk p n =>
    have hn : -2147483648 ≤ n ∧ n ≤ Word32.intMax := by simpa using hen
    refine (hs.growproc hlive hn.1 hn.2).bind (fun _ s' h => gives_pure.mpr (Or.inr (Or.inr
      ⟨h.1, fun _ hsized => h.2 hsized.1 hsized.2⟩))) fun _ _ _ => trivial
  | pipe p files fds =>
    exact hs.sysPipe.bind (fun _ s' h => gives_pure.mpr (Or.inr (Or.inr ⟨h.1, fun _ _ => h.2⟩)))
      fun _ _ _ => trivial
  | close p g writable =>
    exact hs.pipeclose.mono (fun _ s' h => Or.inr (Or.inr ⟨h.1, fun _ _ => h.2⟩)) fun _ _ _ => trivial
  | exit p =>
    exact (hs.exit hlive).mono (fun _ s' h => Or.inr (Or.inr ⟨h.1, fun _ _ => h.2⟩))
      fun _ _ _ => trivial
  | wait p q =>
    have hq : (s.task q).life = .zombie ∧ (s.task q).parent = some p := by simpa using hen
    exact (hs.wait hq.1).mono (fun _ s' h => Or.inr (Or.inr ⟨h.1, fun _ _ => h.2⟩))
      fun _ _ _ => trivial
  | store p va b =>
    have hva : va < KERNBASE := by simpa using hen
    exact (hs.userStore hlive hva).mono (fun _ s' h => Or.inr (Or.inr ⟨h.1, fun _ _ => h.2⟩))
      fun _ _ _ => trivial

theorem Kept.step (hs : Kept L s) (h : Memory.step L initproc s c = some s') :
    (Wild s.phys s'.phys ∧ ¬TameCall c) ∨ (Nulled s.phys s'.phys ∧ ¬SuitedCall s c) ∨
      (Kept L s' ∧ (SuitedCall s c → SizedCall s c → Whole s → Whole s')) := by
  obtain ⟨hen, a, hexec⟩ := step_eq_some h
  exact (hs.call hen).ok hexec

/-! ## Memory is mapped -/

/-- `copyuvm` does not panic, whoever calls `fork`. -/
def Memory.CopiesMemory (L : Layout) (initproc : ι) (s : Memory.Machine ι) : Prop :=
  ∀ p np, enabled s (.fork p np) = true → ∀ q s', (call L initproc (.fork p np)).exec s =
    (.error q, s') → q ≠ .pteShouldExist ∧ q ≠ .pageNotPresent

theorem Kept.copiesMemory (hs : Kept L s) (hwhole : Whole s) : CopiesMemory L initproc s := by
  intro p np hen q s' hexec
  unfold enabled at hen
  rw [Bool.and_eq_true, decide_eq_true_eq] at hen
  have hgives : Gives (Memory.call L initproc (.fork p np)) s (fun _ _ => True) fun _ _ => False := by
    refine (hs.forks hen.1 fun np' hnp => ?_).bind (fun _ _ _ => gives_pure.mpr trivial) ?_
    · subst hnp
      simpa using hen.2
    · rintro q s' ⟨-, v, hv, hnone⟩
      exact hwhole p hen.1 v hv hnone
  exact (hgives.error hexec).elim

/-- Every page below the size of a live process is mapped, and `copyuvm` finds what it copies: if
`exec` gets tame files whose last page gets a page table and arguments that fit, no process
shrinks to size 0, and none that grows is short of the page table of its last page. All this is
asked of the state before the call. -/
theorem process_memory_mapped {byte : ℕ → ℕ → Byte} {input : List (List Byte × Bool)}
    {init : ℕ → Byte} {sz : ℕ} (hboot : Memory.boot L initproc byte input init sz = some s)
    {cs : List (MemCall ι)} (hc : AllSteps (Memory.step L initproc)
      (fun s c => TameCall c ∧ SuitedCall s c ∧ SizedCall s c) s cs) :
    AllStates (Memory.step L initproc) (fun s => Whole s ∧ CopiesMemory L initproc s) s cs := by
  have hbooted := booted hboot
  have hrun : AllStates (Memory.step L initproc) (fun s => Kept L s ∧ Whole s) s cs := by
    refine allStates_of_allSteps (fun s c s' hs hcond hstep => ?_) ⟨hbooted.kept, hbooted.whole⟩ hc
    rcases hs.1.step hstep with ⟨-, huntame⟩ | ⟨-, hunsuited⟩ | ⟨hkept, hwhole⟩
    · exact absurd hcond.1 huntame
    · exact absurd hcond.2.1 hunsuited
    · exact ⟨hkept, hwhole hcond.2.1 hcond.2.2 hs.2⟩
  exact hrun.mono fun s hs => ⟨hs.2, hs.1.copiesMemory hs.2⟩

/-- A kernel of the usual size. -/
def Layout.usual : Layout where
  data := 0x109
  first := 0x118
  text := by decide
  le := by decide
  fits := by decide

/-- The machine boots with it; there are two slots for processes. -/
theorem booted_usual : ∃ s : Memory.Machine (Fin 2),
    Memory.boot Layout.usual 0 (fun _ _ => 0#8) [] (fun _ => 0#8) 0 = some s ∧ Booted Layout.usual 0 s := by
  obtain ⟨s, hboot⟩ := boot_isSome Layout.usual (0 : Fin 2) (fun _ _ => 0#8) [] (fun _ => 0#8)
    (Nat.zero_lt_succ 4095)
  exact ⟨s, hboot, booted hboot⟩

/-- A process grows by `k` pages, with enough free pages. -/
structure Grew (L : Layout) (p : ι) (k : ℕ) (T : Finset ℕ) (j : ℕ) (s s' : Memory.Machine ι) :
    Prop where
  kept : Kept L s'
  task : s'.task = Function.update s.task p { s.task p with sz := (s.task p).sz + 4096 * k }
  supplied : Supplied s.phys s'.phys (s.task p).pgdir T j
  free : s'.phys.free.length + k ≤ s.phys.free.length
  notes : ∃ l, s'.phys.notes = s.phys.notes ++ l ∧ ∀ n ∈ l, ∃ v g, n = .grown v g
  below : ∀ v, v < pgroundup (s.task p).sz → ∀ x, s.phys.walk (s.task p).pgdir v = some x →
    s'.phys.walk (s.task p).pgdir v = some x
  above : ∀ v, pgroundup (s.task p).sz + k ≤ v → v < KERNPAGE →
    s'.phys.mapped (s.task p).pgdir v = none
  grown : ∀ v, pgroundup (s.task p).sz ≤ v → v < pgroundup (s.task p).sz + k →
    s'.phys.mapped (s.task p).pgdir v ≠ none

variable (initproc) in
theorem Kept.sbrk_grow (hs : Kept L s) (hp : (s.task p).life = .live) {k j : ℕ} {T : Finset ℕ}
    (hk : 0 < k) (hsz : (s.task p).sz + 4096 * k < KERNBASE)
    (habove : ∀ v, pgroundup (s.task p).sz ≤ v → v < KERNPAGE →
      s.phys.mapped (s.task p).pgdir v = none)
    (hroom : s.phys.Room (s.task p).pgdir T (j + k))
    (hT : ∀ v, pgroundup (s.task p).sz ≤ v → v < pgroundup (s.task p).sz + k →
      v / NPTENTRIES ∈ T) :
    ∃ s', Memory.step L initproc s (.sbrk p (4096 * k)) = some s' ∧ Grew L p k T j s s' := by
  have henv := env_of_live hp
  have hdir : (s.env (.task p)).dir = some (s.task p).pgdir := by rw [henv]
  have hmem : (s.env (.task p)).mem = none := by rw [henv]
  have hlow : (s.env (.task p)).low = 0 := by rw [henv]
  have hen : enabled s (.sbrk p (4096 * k)) = true := by
    have hint : (-2147483648 : ℤ) ≤ 4096 * k ∧ (4096 * k : ℤ) ≤ Word32.intMax := by
      unfold KERNBASE at hsz
      unfold Word32.intMax
      omega
    simp only [enabled, MemCall.caller, hp, decide_true, hint, and_self, Bool.and_self]
  have huint : uint ((s.task p).sz + 4096 * k : ℤ) = (s.task p).sz + 4096 * k := by
    unfold KERNBASE at hsz
    unfold uint
    omega
  have hpage : pgroundup ((s.task p).sz + 4096 * k) = pgroundup (s.task p).sz + k := by
    unfold pgroundup
    omega
  have hnpage : KERNPAGE < NPAGE := by decide
  have hpages := pgroundup_le hsz.le
  refine step_of_gives (Q := fun _ s' => Grew L p k T j s s') hen ?_
  rw [Memory.call, gives_bind, Memory.growproc, gives_bind, gives_get]
  dsimp only
  rw [gives_bind, gives_onPhys, growPages, if_pos (by omega), gives_bind, huint]
  have howned := hs.sound.owned (.task p)
  refine (((howned.allocuvm hmem hdir hlow).and (howned.allocuvm_room hmem hdir hlow
    (Nat.le_add_right _ _) hsz (by rwa [hpage, Nat.add_sub_cancel_left]) (by rwa [hpage]))).and
    (gives_allocuvm_free (Nat.le_add_right _ _) hsz)).mono ?_ ?_
  · rintro r m' ⟨⟨⟨hwork, l, hl, -, ha⟩, rfl, hsup, hnotes⟩, hfree⟩
    have hne : (s.task p).sz + 4096 * k ≠ 0 := by omega
    have hgrown := ha.grows hne (Nat.le_add_right _ _)
    rw [hpage] at hgrown hfree
    obtain ⟨l', hl', honly⟩ := hnotes
    obtain rfl : l = l' := List.append_cancel_left (hl.symm.trans hl')
    rw [if_neg hne, gives_pure]
    dsimp only
    rw [gives_bind, gives_modify, gives_pure, gives_pure]
    have hfit := hs.fit p
    refine ⟨hs.setTask hwork ⟨hfit.stack, hfit.unused, hsz.le⟩, rfl, hsup, ?_, ⟨l, hl, honly⟩,
      fun v hv x hx => ?_, fun v hlo hhi => ?_, fun v hlo hhi => ?_⟩
    · have := hfree.resolve_left hne
      rwa [Nat.add_sub_cancel_left] at this
    · change m'.walk (s.task p).pgdir v = some x
      refine ((hgrown.touches.users v (by omega) fun hin => ?_).resolve_right fun hn => ?_).trans hx
      · exact absurd hin.1 (by omega)
      · rw [hn.1] at hx
        cases hx
    · change m'.mapped (s.task p).pgdir v = none
      rw [hgrown.touches.mapped hhi fun hin => absurd hin.2 (by omega)]
      exact habove v (by omega) hhi
    · change m'.mapped (s.task p).pgdir v ≠ none
      rcases hgrown.pages v hlo hhi with ⟨g, -, -, hwalk⟩ | ⟨hs, -⟩
      · rw [Phys.mapped_eq, hwalk, Building.pageOf_mkPte]
        rintro ⟨⟩
      · obtain ⟨v', g, heq⟩ := honly _ hs
        cases heq
  · rintro q m' ⟨⟨⟨-, -, v, hlo, hhi, hv⟩, -⟩, -⟩
    exact hv (habove v hlo (by omega))

/-- The first process grows by a page. -/
theorem Booted.sbrk_page (hb : Booted L initproc s) :
    ∃ s', Memory.step L initproc s (.sbrk initproc 4096) = some s' ∧
      Grew L initproc 1 {0} 55000 s s' := by
  have hsize : pgroundup (s.task initproc).sz = 1 := by
    rw [hb.size]
    rfl
  have hroom : s.phys.Room (s.task initproc).pgdir {0} (55000 + 1) := by
    have hcard := Finset.card_filter_le {0} fun i => s.phys.entry (s.task initproc).pgdir i = none
    have := hb.pages
    rw [Finset.card_singleton] at hcard
    unfold Phys.Room
    omega
  refine hb.kept.sbrk_grow initproc hb.live (k := 1) one_pos ?_ (fun v hv => ?_) hroom fun v hlo hhi => ?_
  · rw [hb.size]
    decide
  · exact hb.above v (by omega)
  · rw [Finset.mem_singleton]
    unfold NPTENTRIES
    omega

/-- `exec` of a tame file returns, if the arguments fit and memory does not run out where a page
table is needed. -/
theorem Kept.exec_returns (hs : Kept L s) (hp : (s.task p).life = .live) {img : Image}
    {junk : ℕ → Byte} {argv : List Arg} (htame : Tame img)
    (hsuits : img.Suits s.phys.free.length img.pages argv)
    (hample : Ample s.phys.free.length img.pages) :
    Gives (Memory.execCall L p (some img) junk argv) s
      (fun _ s' => Kept L s' ∧ (Whole s → Whole s')) fun _ _ => False := by
  have hsuited : Suited (some img) s.phys.free.length argv := by
    rintro i ⟨⟩
    exact hsuits
  refine (hs.execCall hp).mono ?_ ?_
  · rintro ok s' (⟨-, i, hi, huntame⟩ | ⟨-, -, ⟨-, hunsuited⟩ | ⟨hkept, hwhole, -⟩⟩)
    · obtain rfl := Option.some.inj hi
      exact absurd htame huntame
    · exact absurd hsuited hunsuited
    · exact ⟨hkept, hwhole hsuited⟩
  · rintro q s' (⟨-, hscarce⟩ | ⟨-, -, -, -, hunsuited⟩)
    · exact hscarce img rfl htame hample
    · exact hunsuited hsuited

/-- Something that holds whatever the code does. -/
theorem gives_any {α : Type} {c : Vm α} {m : Phys} {Q : α → Phys → Prop} (h : ∀ a m', Q a m') :
    Gives c m Q fun _ _ => True := by
  unfold Gives
  split
  · exact h _ _
  · trivial

/-- `exec` changes the page directory and the size of the process that calls it, and no more of
the table. -/
theorem gives_execCall_life {img : Option Image} {junk : ℕ → Byte} {argv : List Arg} :
    Gives (execCall L p img junk argv) s (fun _ s' => ∀ q, (s'.task q).life = (s.task q).life)
      fun _ _ => True := by
  rw [Memory.execCall, gives_bind, gives_get, gives_bind, gives_onPhys]
  refine gives_any fun r m' => ?_
  cases r with
  | none => exact gives_pure.mpr fun _ => rfl
  | some r =>
    dsimp only
    rw [gives_bind, gives_modify, gives_pure]
    intro q
    by_cases hqp : q = p
    · subst hqp
      simp only [Machine.setTask, Function.update_self]
    · simp only [Machine.setTask, Function.update_of_ne hqp]

/-- A program with one segment, of one byte for address 0. -/
def Memory.oneByte : Image where
  type := .file
  size := 84
  data := wordBytes ([ELF_MAGIC, 0, 0, 0, 0, 0, 0, 52, 0, 0, 0, 1, 0] ++
    [ELF_PROG_LOAD, 0, 0, 0, 1, 1, 0, 0])

/-- An argument of two characters. -/
def Memory.shortArg : Arg := ⟨2, fun _ => 97#8⟩

theorem oneByte_tame : Tame oneByte := by
  refine ⟨by decide, fun i hi => ?_⟩
  obtain rfl : i = 0 := by
    have : elfPhnum oneByte.data = 1 := by decide
    omega
  exact fun _ _ => by decide

theorem oneByte_pages : oneByte.pages = 3 := by decide

/-- Three pages are not the first of a page table. -/
theorem oneByte_suits (free : ℕ) : oneByte.Suits free oneByte.pages [shortArg] := by
  rw [oneByte_pages]
  refine ⟨by decide, ?_, by decide⟩
  rintro ⟨k, -, hk⟩
  unfold NPTENTRIES at hk
  omega

theorem oneByte_ample {free : ℕ} (hfree : 67 ≤ free) : Ample free oneByte.pages := by
  rw [oneByte_pages]
  refine Or.inr ⟨by omega, fun k hk => ?_⟩
  unfold NPTENTRIES at hk
  omega

/-- A process grows, executes a program and forks. -/
def Memory.busyRun {ι : Type} (p q : ι) : List (MemCall ι) :=
  [.sbrk p 4096, .exec p (some oneByte) (fun _ => 0#8) [shortArg], .fork p (some q)]

theorem busyRun_runs : ∃ s s' : Memory.Machine (Fin 2),
    Memory.boot Layout.usual 0 (fun _ _ => 0#8) [] (fun _ => 0#8) 0 = some s ∧
    Machine.exec (Memory.step Layout.usual 0) s (busyRun 0 1) = some s' ∧
    AllSteps (Memory.step Layout.usual 0)
      (fun s c => TameCall c ∧ SuitedCall s c ∧ SizedCall s c) s (busyRun 0 1) := by
  obtain ⟨s, hboot, hb⟩ := booted_usual
  obtain ⟨s1, hstep1, hgrew⟩ := hb.sbrk_page
  -- the page table of the first page is that of the second one
  have hsized : SizedCall s (.sbrk 0 4096) := by
    refine ⟨fun _ hstarving => ?_, Or.inl (by omega)⟩
    obtain ⟨g, hg⟩ := hb.program
    have hnone := hstarving.2.2.1
    rw [hb.size] at hnone
    have hwalk := walk_eq_none (v := 0) |>.mpr hnone
    rw [hg] at hwalk
    cases hwalk
  have hsteps : AllSteps (Memory.step Layout.usual 0)
      (fun s c => TameCall c ∧ SuitedCall s c ∧ SizedCall s c) s (busyRun 0 1) :=
    ⟨⟨trivial, trivial, hsized⟩, fun _ _ => ⟨⟨fun i hi => Option.some.inj hi ▸ oneByte_tame,
      fun i hi => Option.some.inj hi ▸ oneByte_suits _, trivial⟩, fun _ _ =>
      ⟨⟨trivial, trivial, trivial⟩, fun _ _ => trivial⟩⟩⟩
  have hwhole1 : Whole s1 := by
    rcases hb.kept.step hstep1 with ⟨-, huntame⟩ | ⟨-, hunsuited⟩ | ⟨-, hwhole⟩
    · exact absurd trivial huntame
    · exact absurd trivial hunsuited
    · exact hwhole trivial hsized hb.whole
  have hlive1 : (s1.task 0).life = .live := by
    rw [hgrew.task, Function.update_self]
    exact hb.live
  have hunused1 : (s1.task 1).life = .unused := by
    rw [hgrew.task, Function.update_of_ne (by decide), hb.other 1 (by decide)]
  have hfree1 : 55000 ≤ s1.phys.free.length := hgrew.supplied.room.le
  -- `exec` returns
  have hen2 : enabled s1 (.exec 0 (some oneByte) (fun _ => 0#8) [shortArg]) = true := by
    have hsz : (s1.task 0).sz = 8192 := by
      rw [hgrew.task, Function.update_self, hb.size]
    simp only [enabled, MemCall.caller, hlive1, decide_true, hsz]
    decide
  have hexec : Gives (Memory.call Layout.usual (0 : Fin 2)
      (.exec 0 (some oneByte) (fun _ => 0#8) [shortArg])) s1
      (fun _ s' => (Kept Layout.usual s' ∧ (Whole s1 → Whole s')) ∧
        ∀ q, (s'.task q).life = (s1.task q).life) fun _ _ => False := by
    rw [Memory.call, gives_bind]
    exact ((hgrew.kept.exec_returns hlive1 oneByte_tame (oneByte_suits _)
      (oneByte_ample (by omega))).and gives_execCall_life).mono
      (fun _ _ h => gives_pure.mpr h) fun _ _ h => h.1.elim
  obtain ⟨s2, hstep2, ⟨hkept2, hwhole2⟩, hlife2⟩ := step_of_gives hen2 hexec
  -- so does `fork`
  have hlive2 : (s2.task 0).life = .live := (hlife2 0).trans hlive1
  have hunused2 : (s2.task 1).life = .unused := (hlife2 1).trans hunused1
  have hen3 : enabled s2 (.fork 0 (some 1)) = true := by
    simp only [enabled, MemCall.caller, hlive2, hunused2, decide_true, Bool.and_self]
  have hforks : Gives (Memory.call Layout.usual (0 : Fin 2) (.fork 0 (some 1))) s2
      (fun _ _ => True) fun _ _ => False := by
    rw [Memory.call, gives_bind]
    refine (hkept2.forks hlive2 fun q hq => ?_).mono (fun _ _ _ => gives_pure.mpr trivial) ?_
    · obtain rfl := Option.some.inj hq
      exact hunused2
    · rintro q _ ⟨-, v, hv, hnone⟩
      exact hwhole2 hwhole1 0 hlive2 v hv hnone
  obtain ⟨s3, hstep3, -⟩ := step_of_gives hen3 hforks
  refine ⟨s, s3, hboot, ?_, hsteps⟩
  unfold busyRun
  rw [exec_cons, hstep1, Option.bind_some, exec_cons, hstep2, Option.bind_some, exec_cons, hstep3]
  rfl

theorem process_memory_mapped_exec_fork : ∃ s s' : Memory.Machine (Fin 2),
    Memory.boot Layout.usual 0 (fun _ _ => 0#8) [] (fun _ => 0#8) 0 = some s ∧
    Machine.exec (Memory.step Layout.usual 0) s (busyRun 0 1) = some s' ∧
    AllSteps (Memory.step Layout.usual 0)
      (fun s c => TameCall c ∧ SuitedCall s c ∧ SizedCall s c) s (busyRun 0 1) ∧
    AllStates (Memory.step Layout.usual 0) (fun s => Whole s ∧ CopiesMemory Layout.usual 0 s) s
      (busyRun 0 1) := by
  obtain ⟨s, s', hboot, hrun, hsteps⟩ := busyRun_runs
  exact ⟨s, s', hboot, hrun, hsteps, process_memory_mapped hboot hsteps⟩

/-- The whole memory of a process goes, and it is told that this failed. -/
theorem Booted.sbrk_all (hb : Booted L initproc s) :
    ∃ s', Memory.step L initproc s (.sbrk initproc (-4096)) = some s' ∧ Kept L s' ∧
      s'.task = s.task ∧ s.phys.free.length ≤ s'.phys.free.length ∧
      s'.phys.walk (s.task initproc).pgdir 0 = some 0 := by
  have henv := env_of_live hb.live
  have hdir : (s.env (.task initproc)).dir = some (s.task initproc).pgdir := by rw [henv]
  have hmem : (s.env (.task initproc)).mem = none := by rw [henv]
  have hlow : (s.env (.task initproc)).low = 0 := by rw [henv]
  have hzero : uint ((4096 : ℕ) + -4096 : ℤ) = 0 := rfl
  have hen : enabled s (.sbrk initproc (-4096)) = true := by
    unfold enabled
    rw [MemCall.caller, hb.live]
    rfl
  refine step_of_gives (Q := fun _ s' => Kept L s' ∧ s'.task = s.task ∧
    s.phys.free.length ≤ s'.phys.free.length ∧ s'.phys.walk (s.task initproc).pgdir 0 = some 0)
    hen ?_
  rw [call, gives_bind, growproc, gives_bind, gives_get]
  dsimp only
  rw [gives_bind, gives_onPhys, growPages, if_neg (by decide), if_pos (by decide), gives_bind,
    hb.size, hzero]
  refine (((hb.kept.sound.owned (.task initproc)).deallocuvm hmem hdir hlow (by decide)).and
    (gains_deallocuvm.gives _)).mono ?_ fun _ _ h => h.1.elim
  rintro r m' ⟨⟨rfl, hdone⟩, hgains⟩
  rw [if_pos (by decide), gives_pure]
  dsimp only
  rw [gives_pure, gives_pure]
  refine ⟨hb.kept.phys hdone.works, rfl, hgains, ?_⟩
  obtain ⟨g, hg⟩ := hb.program
  have hnone := hdone.none (v := 0) (Or.inl rfl) (Nat.zero_le _) (by decide)
  rcases hdone.inside 0 (Nat.zero_le _) (by decide) with hsame | ⟨-, hw⟩
  · rw [Phys.mapped_eq, hsame, hg, Building.pageOf_mkPte] at hnone
    cases hnone
  · exact hw

variable (initproc) in
/-- `fork` of a process whose first page is not mapped. -/
theorem Kept.fork_panics (hs : Kept L s) (hp : (s.task p).life = .live) (np : ι) (hsz : 0 < (s.task p).sz)
    (hfree : 66 ≤ s.phys.free.length) (hwalk : s.phys.walk (s.task p).pgdir 0 = some 0) :
    ∃ s', (Memory.call L initproc (.fork p (some np))).exec s = (.error .pageNotPresent, s') := by
  have hgives : Gives (Memory.call L initproc (.fork p (some np))) s (fun _ _ => False)
      fun q _ => q = .pageNotPresent := by
    have hne : Owner.task p ≠ .building := nofun
    have howned : Owned L s.phys {} := hs.sound.owned .building
    have hfrozen : Frozen L s.phys {} (s.task p).pgdir := hs.frozen hp hne
    rw [Memory.call, gives_bind, Memory.forks, gives_bind, gives_get]
    dsimp only
    rw [gives_bind, gives_onPhys, forkPages, gives_bind, gives_kalloc]
    refine ⟨fun hnil => ?_, fun st free hcons => ?_⟩
    · rw [hnil, List.length_nil] at hfree
      omega
    · have htake := Owned.takeStack (L := L) (e := {}) hcons rfl
      have h1 := howned.works htake
      have hlen : 65 + 0 ≤ (s.phys.setFree free).free.length := by
        rw [hcons, List.length_cons] at hfree
        change 65 + 0 ≤ free.length
        omega
      dsimp only
      rw [copyuvm, gives_bind, gives_bind]
      refine ((h1.setupkvm rfl rfl).and (h1.setupkvm_room rfl rfl hlen)).mono ?_
        fun _ _ h => h.1.elim
      rintro _ m2 ⟨hr, d, rfl, -, -⟩
      obtain ⟨hf, -⟩ | ⟨d', -, hwork, -, -, -⟩ := hr
      · cases hf
      · -- the parent's page table is as before
        have hwalk2 : m2.walk (s.task p).pgdir 0 = some 0 := by
          rw [((htake.trans hwork).frozen hfrozen).1 0 (by decide), hwalk]
        obtain ⟨n, hn⟩ : ∃ n, pgroundup (s.task p).sz = n + 1 := by
          refine Nat.exists_eq_succ_of_ne_zero ?_
          unfold pgroundup
          omega
        obtain ⟨t, ht, hpte⟩ := Option.map_eq_some_iff.mp hwalk2
        dsimp only
        rw [hn, copyPages, gives_bind, gives_bind, gives_walkpgdir, ht]
        dsimp only [Option.map_some]
        rw [gives_bind, gives_get, hpte]
        exact gives_throw.mpr rfl
  obtain ⟨q, s', hexec, rfl⟩ := hgives.stops
  exact ⟨s', hexec⟩

/-- `sbrk` of minus the size frees all pages of the first process and leaves its size as it
was; the next `fork` makes the kernel panic. -/
theorem sbrk_to_nothing : ∃ s s' s'' : Memory.Machine (Fin 2),
    Memory.boot Layout.usual 0 (fun _ _ => 0#8) [] (fun _ => 0#8) 0 = some s ∧
    Machine.exec (Memory.step Layout.usual 0) s [.sbrk 0 (-4096)] = some s' ∧ ¬Whole s' ∧
    enabled s' (.fork 0 (some 1)) = true ∧
    (call Layout.usual 0 (.fork 0 (some 1))).exec s' = (.error .pageNotPresent, s'') := by
  obtain ⟨s, hboot, hb⟩ := booted_usual
  obtain ⟨s', hstep, hkept, htask, hgains, hwalk⟩ := hb.sbrk_all
  have hlive : (s'.task 0).life = .live := by rw [htask, hb.live]
  have hsz : (s'.task 0).sz = 4096 := by rw [htask, hb.size]
  have hother : (s'.task 1).life = .unused := by rw [htask, hb.other 1 (by decide)]
  rw [← htask] at hwalk
  have hpages := hb.pages
  obtain ⟨s'', hpanic⟩ := hkept.fork_panics 0 hlive 1 (by omega) (by omega)
    hwalk
  refine ⟨s, s', s'', hboot, ?_, fun hwhole => ?_, ?_, hpanic⟩
  · rw [exec_cons, hstep]
    rfl
  · refine hwhole 0 hlive 0 (by rw [hsz]; decide) ?_
    rw [Phys.mapped_eq, hwalk]
    rfl
  · simp only [enabled, MemCall.caller, hlive, hother, decide_true, Bool.and_self]

/-! ## Calls that fail -/

/-- Without any places of its own the code has to do with the free list only. -/
theorem holds_empty {m : Phys} {g : ℕ} : Holds (m.place {}) g ↔ g ∈ m.free := by
  rw [← freeAt_holds]
  refine ⟨fun ⟨x, hx⟩ => ?_, fun ⟨n, hn⟩ => ⟨.free n, hn⟩⟩
  cases x with
  | free n => exact ⟨n, hx⟩
  | table i => simp only [Phys.place, Option.bind_none, ite_self, reduceCtorEq] at hx
  | user v => simp only [Phys.place, Option.bind_none, ite_self, reduceCtorEq] at hx
  | _ => cases hx

theorem Works.same_free_iff {m m' : Phys} (h : Works L m m' {} {}) :
    (∀ g, g ∈ m'.free ↔ g ∈ m.free) ↔ m'.lost = m.lost := by
  rw [h.keeps]
  refine ⟨fun hsame g hg => ?_, fun hkeeps g => ⟨fun hg => ?_, fun hg => ?_⟩⟩
  · rw [holds_empty] at hg ⊢
    exact (hsame g).mpr hg
  · exact holds_empty.mp (h.shift.holds g (holds_empty.mpr hg))
  · exact holds_empty.mp (hkeeps g (holds_empty.mpr hg))

/-- Whether `fork` loses a page. -/
theorem Kept.forks_ample (hs : Kept L s) {np : ι} (hnp : (s.task np).life = .unused) :
    Gives (Memory.forks L p (some np)) s
      (fun _ s' => s'.phys.lost = s.phys.lost ↔
        Ample (s.phys.free.length - 1) (pgroundup (s.task p).sz)) fun _ _ => True := by
  have howned := hs.sound.owned (.task np)
  rw [hs.env_of_unused hnp] at howned
  rw [Memory.forks, gives_bind, gives_get]
  dsimp only
  rw [gives_bind, gives_onPhys]
  refine (howned.forkPages_ample (hs.fit p).size).mono (fun r m' hiff => ?_) fun _ _ h => h
  cases r with
  | none => exact gives_pure.mpr hiff
  | some r =>
    dsimp only
    rw [gives_bind, gives_modify, gives_pure]
    exact hiff

omit [DecidableEq ι] in
theorem Sound.free_nodup {m : Phys} {pipes : ℕ → Bool} {env : Owner ι → Env}
    (h : Sound L m pipes env) : m.free.Nodup := by
  rw [← List.nodup_reverse, List.nodup_iff_getElem?_ne_getElem?]
  intro i j hij hj heq
  have hg : m.free.reverse[j]? = some (m.free.reverse[j]) := List.getElem?_eq_getElem hj
  cases h.apart (x := .free i) (y := .free j) (heq.trans hg) hg
  omega

omit [DecidableEq ι] in
theorem Sound.free_length_le {m : Phys} {pipes : ℕ → Bool} {env : Owner ι → Env}
    (h : Sound L m pipes env) : m.free.length ≤ PHYSTOP := by
  rw [← List.toFinset_card_of_nodup h.free_nodup, ← Finset.card_range PHYSTOP]
  refine Finset.card_le_card fun g hg => ?_
  rw [List.mem_toFinset, ← freeAt_holds] at hg
  obtain ⟨n, hn⟩ := hg
  exact Finset.mem_range.mpr (h.ranged g ⟨.free n, hn⟩).2

/-- A process that can grow as long as there are free pages. -/
structure Growing (L : Layout) (p : ι) (s : Memory.Machine ι) : Prop where
  kept : Kept L s
  live : (s.task p).life = .live
  above : ∀ v, pgroundup (s.task p).sz ≤ v → v < KERNPAGE →
    s.phys.mapped (s.task p).pgdir v = none
  size : (s.task p).sz + 4096 * s.phys.free.length < KERNBASE

variable (initproc) in
/-- It grows by a page. -/
theorem Growing.sbrk_page (h : Growing L p s) (hfree : 2 ≤ s.phys.free.length) :
    ∃ s', Memory.step L initproc s (.sbrk p 4096) = some s' ∧ Growing L p s' ∧
      (∀ q, q ≠ p → s'.task q = s.task q) ∧ s'.phys.free.length < s.phys.free.length ∧
      s.phys.free.length ≤ s'.phys.free.length + 2 := by
  have hsize := h.size
  have hroom : s.phys.Room (s.task p).pgdir {pgroundup (s.task p).sz / NPTENTRIES}
      (s.phys.free.length - 2 + 1) := by
    have hcard := Finset.card_filter_le {pgroundup (s.task p).sz / NPTENTRIES}
      fun i => s.phys.entry (s.task p).pgdir i = none
    rw [Finset.card_singleton] at hcard
    unfold Phys.Room
    omega
  obtain ⟨s', hstep, hgrew⟩ := h.kept.sbrk_grow initproc h.live (k := 1) one_pos
    (by omega) h.above hroom fun v hlo hhi => by
      rw [Finset.mem_singleton, show v = pgroundup (s.task p).sz by omega]
  have hself : s'.task p = { s.task p with sz := (s.task p).sz + 4096 * 1 } := by
    rw [hgrew.task, Function.update_self]
  have hless := hgrew.free
  have hmore := hgrew.supplied.room.le
  refine ⟨s', hstep, ⟨hgrew.kept, by rw [hself]; exact h.live, fun v hlo hhi => ?_, ?_⟩,
    fun q hq => by rw [hgrew.task, Function.update_of_ne hq], by omega, by omega⟩
  · rw [hself] at hlo ⊢
    refine hgrew.above v ?_ hhi
    unfold pgroundup at hlo ⊢
    dsimp only at hlo
    omega
  · rw [hself]
    dsimp only
    omega

variable (initproc) in
/-- It grows until memory is almost used up, by induction on the free pages. -/
theorem Growing.drain (n : ℕ) : ∀ {s : Memory.Machine ι}, Growing L p s →
    s.phys.free.length = n → 2 ≤ n →
    ∃ cs s', Machine.exec (Memory.step L initproc) s cs = some s' ∧ Growing L p s' ∧
      (∀ q, q ≠ p → s'.task q = s.task q) ∧
      (s'.phys.free.length = 2 ∨ s'.phys.free.length = 3) := by
  induction n using Nat.strong_induction_on with
  | _ n ih =>
    intro s h hlen hn
    by_cases hlast : n ≤ 3
    · exact ⟨[], s, rfl, h, fun _ _ => rfl, by omega⟩
    · obtain ⟨s1, hstep, h1, hother, hless, hmore⟩ := h.sbrk_page initproc (by omega)
      obtain ⟨cs, s', hrun, h', hother', hend⟩ := ih s1.phys.free.length (by omega) h1 rfl (by omega)
      refine ⟨.sbrk p 4096 :: cs, s', ?_, h', fun q hq => ?_, hend⟩
      · rw [exec_cons, hstep]
        exact hrun
      · rw [hother' q hq, hother q hq]

variable (initproc) in
/-- One page goes to a pipe. -/
theorem Kept.pipe_page (hs : Kept L s) (hp : (s.task p).life = .live) {g : ℕ} {free : List ℕ}
    (hfree : s.phys.free = g :: free) :
    ∃ s', Memory.step L initproc s (.pipe p true true) = some s' ∧ Kept L s' ∧ s'.task = s.task ∧
      s'.phys.free = free := by
  refine step_of_gives (Q := fun _ s' => Kept L s' ∧ s'.task = s.task ∧ s'.phys.free = free) ?_ ?_
  · simp only [enabled, MemCall.caller, hp, decide_true, Bool.and_self]
  · rw [Memory.call, gives_bind, Memory.sysPipe, if_pos rfl, gives_bind, gives_onPhys, gives_kalloc,
      hfree]
    refine ⟨nofun, fun g' free' hcons => ?_⟩
    obtain ⟨rfl, rfl⟩ := List.cons.inj hcons
    dsimp only
    rw [gives_bind, gives_modify, if_pos rfl, gives_pure, gives_pure]
    exact ⟨(hs.newPipe hfree {}).1, rfl, rfl⟩

/-- `setupkvm` with one free page, which it loses. -/
theorem gives_setupkvm_one {m : Phys} {d : ℕ} (hfree : m.free = [d]) :
    Gives (setupkvm L) m (fun r m' => r = none ∧ m'.free = []) fun _ _ => False := by
  rw [setupkvm, gives_bind, gives_kalloc, hfree]
  refine ⟨nofun, fun d' free hcons => ?_⟩
  obtain ⟨rfl, rfl⟩ := List.cons.inj hcons
  dsimp only
  rw [gives_bind, gives_modify, gives_bind, kmap, mapKernel, gives_bind,
    show EXTMEM = 255 + 1 from rfl, mappages, gives_bind, walkpgdir, gives_bind, gives_get]
  dsimp only
  rw [Phys.pte_fill_zero, if_neg (by decide), if_pos rfl, gives_bind, gives_kalloc]
  refine ⟨fun _ => ?_, fun t free hcons => ?_⟩
  · rw [gives_pure]
    dsimp only
    rw [gives_bind, gives_modify, gives_pure, if_neg (by decide), gives_pure, if_neg (by decide),
      gives_pure]
    exact ⟨rfl, rfl⟩
  · cases hcons

/-- `fork` with two free pages: one becomes the kernel stack and is given back, the other
one becomes the page directory and is lost. -/
theorem Kept.fork_loses (hs : Kept L s) (np : ι) {g d : ℕ} (hfree : s.phys.free = [g, d]) :
    ∃ s', (Memory.forks L p (some np)).exec s = (.ok false, s') ∧ s'.phys.free = [g] := by
  have hat : freeAt s.phys.free 1 = some g := by
    rw [hfree]
    rfl
  obtain ⟨hlo, hhi⟩ := hs.sound.ranged g ⟨.free 1, hat⟩
  have hgives : Gives (Memory.forks L p (some np)) s
      (fun ok s' => ok = false ∧ s'.phys.free = [g]) fun _ _ => False := by
    rw [Memory.forks, gives_bind, gives_get]
    dsimp only
    rw [gives_bind, gives_onPhys, forkPages, gives_bind, gives_kalloc, hfree]
    refine ⟨(by rintro ⟨⟩), fun st free hcons => ?_⟩
    obtain ⟨rfl, rfl⟩ := List.cons.inj hcons
    dsimp only
    rw [copyuvm, gives_bind, gives_bind]
    refine (gives_setupkvm_one rfl).mono ?_ fun _ _ h => h.elim
    rintro _ m' ⟨rfl, hnil⟩
    rw [gives_pure]
    dsimp only
    rw [gives_bind, gives_kfree hlo hhi, gives_pure]
    dsimp only
    rw [gives_pure]
    exact ⟨rfl, by rw [← hnil]; rfl⟩
  obtain ⟨ok, s', hexec, rfl, hlast⟩ := hgives.returns
  exact ⟨s', hexec, hlast⟩

/-- The first process uses up memory until two pages are free. -/
theorem two_pages_left : ∃ (s s' : Memory.Machine (Fin 2)) (cs : List (MemCall (Fin 2))) (g d : ℕ),
    Memory.boot Layout.usual 0 (fun _ _ => 0#8) [] (fun _ => 0#8) 0 = some s ∧
    Machine.exec (Memory.step Layout.usual 0) s cs = some s' ∧ Kept Layout.usual s' ∧
    (s'.task 0).life = .live ∧ (s'.task 1).life = .unused ∧ s'.phys.free = [g, d] := by
  obtain ⟨s, hboot, hb⟩ := booted_usual
  have hpages := hb.pages
  have hgrowing : Growing Layout.usual 0 s := by
    refine ⟨hb.kept, hb.live, fun v hv => hb.above v ?_, ?_⟩
    · rw [hb.size] at hv
      exact hv
    · have := hb.kept.sound.free_length_le
      rw [hb.size]
      unfold PHYSTOP KERNBASE at *
      omega
  obtain ⟨cs, s1, hrun, h1, hother, hend⟩ := hgrowing.drain 0 _ rfl (by omega)
  have hunused : (s1.task 1).life = .unused := by
    rw [hother 1 (by decide), hb.other 1 (by decide)]
  rcases hend with hend | hend
  · obtain ⟨g, d, hfree⟩ := List.length_eq_two.mp hend
    exact ⟨s, s1, cs, g, d, hboot, hrun, h1.kept, h1.live, hunused, hfree⟩
  · -- a pipe takes the third page
    obtain ⟨g, g', d, hfree⟩ := List.length_eq_three.mp hend
    obtain ⟨s', hstep, hkept, htask, hfree'⟩ := h1.kept.pipe_page 0 h1.live hfree
    refine ⟨s, s', cs ++ [.pipe 0 true true], g', d, hboot, exec_append hrun ?_, hkept, ?_, ?_, hfree'⟩
    · rw [exec_cons, hstep]
      rfl
    · rw [htask, h1.live]
    · rw [htask, hunused]

/-- A file with nothing in it. -/
def Memory.emptyFile : Image where
  type := .file
  size := 0
  data := fun _ => 0#8

end StrideXv6
