import StrideXv6.Upkeep

/-!
# `exec` of any file

What a file says about itself is not checked well. A segment that does not start at
a page makes the kernel panic. If the sum of address and size of a segment wraps
around, `allocuvm` has nothing to do and `loaduvm` reads into what it finds in the
kernel's part of the page table. For a device `readi` may answer `-1`, which is not
less than the size of a header. Where none of this is the case, and memory does not
run out when a page table is needed, `exec` loads into its own pages and returns. What
happened can be read off the history of the call; that nothing of this is the case is
known before the call, from the headers of the file and the number of free pages.
-/

namespace StrideXv6

open Bytes Effect Placement Memory

section

variable {L : Layout} {m m' : Phys} {cur : ℕ} {img : Image}

/-- What a call recorded. -/
def Memory.history (m m' : Phys) : List Note := m'.notes.drop m.notes.length

theorem history_eq {l : List Note} (h : m'.notes = m.notes ++ l) : history m m' = l := by
  rw [history, h, List.drop_left]

/-- `unread` is recorded if `readi` answers `-1` for the header. -/
def Memory.Marked (img : Image) (m m' : Phys) : Prop :=
  ∃ l, m'.notes = m.notes ++ l ∧ (.unread ∈ l ↔ ¬img.Answers m.input)

/-- `exec`, once it has the header, does not record that it could not read it. -/
theorem adds_afterHeader {elf : ℕ → Byte} {argv : List Arg} :
    Always (Adds fun n => n ≠ .unread) (fun _ => True)
      (buildFrom L cur img elf argv >>= fun r => match r with
        | none => (pure none : Vm (Option (ℕ × ℕ)))
        | some (pgdir, sz) => do
          freevm L cur
          pure (some (pgdir, sz))) := by
  refine (adds_buildFrom fun _ h => h).bind fun r => ?_
  split
  · exact Always.pure _
  · exact adds_freevm.any.bind fun _ => Always.pure _

/-- `exec` records whether it could read the header. -/
theorem gives_exec_marked {junk : ℕ → Byte} {argv : List Arg} :
    Gives (exec L cur (some img) junk argv) m (fun _ m' => Marked img m m')
      fun _ m' => Marked img m m' := by
  unfold Memory.exec Memory.buildImage
  rw [gives_bind, gives_bind]
  refine gives_readi fun r input hfile hdev => ?_
  have hret : r.ret = none ↔ ¬img.Answers m.input := by
    by_cases htype : img.type = .dev
    · exact hdev htype
    · rw [hfile htype]
      refine iff_of_false ?_ (not_not.mpr (Or.inl htype))
      unfold Image.fileRead sizeofElfhdr
      rw [if_neg (by omega)]
      rintro ⟨⟩
  split
  · next hread =>
    rw [gives_pure]
    dsimp only
    rw [gives_pure]
    refine ⟨[], (List.append_nil _).symm, iff_of_false List.not_mem_nil ?_⟩
    rw [← hret]
    intro hnone
    rw [hnone] at hread
    cases hread
  · -- nothing else is recorded like this
    have hrest : ∀ (l : List Note) (m1 : Phys), m1.notes = m.notes ++ l →
        (.unread ∈ l ↔ ¬img.Answers m.input) →
        ∀ m', Adds (fun n => n ≠ .unread) m1 m' → Marked img m m' := by
      rintro l m1 hl hmark m' ⟨l', hl', hne⟩
      refine ⟨l ++ l', by rw [hl', hl, List.append_assoc], ?_⟩
      rw [List.mem_append, ← hmark]
      exact or_iff_left fun hmem => hne _ hmem rfl
    rw [gives_bind]
    split
    · next hnone =>
      rw [gives_modify, ← gives_bind]
      have hmark := hrest [.unread] ((m.setInput input).note .unread) rfl
        (iff_of_true (List.mem_singleton_self _) (hret.mp hnone))
      exact (adds_afterHeader.gives _).mono (fun _ m' h => hmark m' h) fun _ m' h => hmark m' h.1
    · next hsome =>
      rw [gives_pure, ← gives_bind]
      have hmark := hrest [] (m.setInput input) (List.append_nil _).symm
        (iff_of_false List.not_mem_nil fun h => hsome (hret.mpr h))
      exact (adds_afterHeader.gives _).mono (fun _ m' h => hmark m' h) fun _ m' h => hmark m' h.1

end

variable {ι : Type} [DecidableEq ι] {L : Layout} {s : Memory.Machine ι} {p : ι}

theorem gives_execCall_marked {img : Image} {junk : ℕ → Byte} {argv : List Arg} :
    Gives (execCall L p (some img) junk argv) s (fun _ s' => Marked img s.phys s'.phys)
      fun _ s' => Marked img s.phys s'.phys := by
  rw [execCall, gives_bind, gives_get, gives_bind, gives_onPhys]
  refine gives_exec_marked.mono (fun r m' h => ?_) fun _ _ h => h
  cases r with
  | none => exact gives_pure.mpr h
  | some r =>
    dsimp only
    rw [gives_bind, gives_modify, gives_pure]
    exact h

/-- A program with one segment, of one byte for address 1. -/
def Memory.unaligned : Image where
  type := .file
  size := 84
  data := wordBytes ([ELF_MAGIC, 0, 0, 0, 0, 0, 0, 52, 0, 0, 0, 1, 0] ++
    [ELF_PROG_LOAD, 0, 1, 0, 1, 1, 0, 0])

theorem gives_execCall_unaligned (hs : Kept L s) (hfree : 66 + 1 ≤ s.phys.free.length) :
    Gives (execCall L p (some unaligned) (fun _ => 0#8) []) s (fun _ _ => False)
      fun q _ => q = .notAligned := by
  have howned : Owned L s.phys {} := hs.sound.owned .building
  rw [execCall, gives_bind, gives_get, gives_bind, gives_onPhys, Memory.exec, gives_bind,
    buildImage, gives_bind, Image.readi, if_neg (by decide), gives_pure, if_neg (by decide),
    gives_bind, if_neg (by decide), gives_pure, buildFrom, if_neg (by decide), gives_bind]
  refine ((howned.setupkvm rfl rfl).and (howned.setupkvm_room (k := 2) rfl rfl (by omega))).mono ?_
    fun _ _ h => h.1.elim
  rintro _ m1 ⟨hr, d, rfl, hlen, hentry⟩
  obtain ⟨hnone, -⟩ | ⟨d', hd', hwork, -, hwalk, -⟩ := hr
  · cases hnone
  · obtain rfl := Option.some.inj hd'
    have hroom : m1.Room d {0} (0 + (pgroundup 2 - pgroundup 0)) := by
      have hcard := Finset.card_filter_le {0} fun i => m1.entry d i = none
      rw [Finset.card_singleton] at hcard
      rw [Phys.Room, show pgroundup 2 - pgroundup 0 = 1 from rfl]
      omega
    have hsegments : ∀ m, elfPhnum (splice (fun _ => 0#8) 0 (unaligned.fileRead 0 sizeofElfhdr).len
        (unaligned.fileRead 0 sizeofElfhdr).byte) = m → m = 1 := by
      rintro _ rfl
      decide
    dsimp only
    rw [gives_bind, loadImage, gives_bind, hsegments _ rfl, loadSegments, gives_bind, Image.readi,
      if_neg (by decide), gives_pure, if_pos (by decide)]
    dsimp only
    rw [if_pos (by decide), if_neg (by decide), gives_bind]
    have hT : ∀ v, pgroundup 0 ≤ v → v < pgroundup 2 → v / NPTENTRIES ∈ ({0} : Finset ℕ) := by
      intro v _ hv
      have hv : v < 1 := hv
      rw [Finset.mem_singleton]
      unfold NPTENTRIES
      omega
    refine (((howned.works hwork).allocuvm rfl rfl rfl).and ((howned.works hwork).allocuvm_room
      rfl rfl rfl (Nat.zero_le _) (by decide) hroom hT)).mono ?_ ?_
    · rintro r m2 ⟨-, rfl, -, -⟩
      rw [if_neg (by decide), gives_bind, gives_modify, gives_bind]
      unfold Memory.loaduvm
      rw [if_pos (by decide), gives_throw]
    · rintro q m2 ⟨⟨-, -, v, -, hv, hmapped⟩, -⟩
      have hv : v < 1 := hv
      rw [Phys.mapped_eq, hwalk v (hv.trans (by decide))] at hmapped
      exact absurd rfl hmapped

end StrideXv6
