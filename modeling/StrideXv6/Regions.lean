import StrideXv6.Alone
import StrideXv6.Inode
import StrideXv6.Mkfs
import StrideXv6.Run

/-!
# The regions of the disk

`mkfs` lays out the disk as boot block, superblock, inodes, bitmap, data and log.
Its bitmap has only the blocks in use marked, and `balloc` takes the first block
that is not: as long as there is one between the bitmap and the log, it is
from the data region. When there is none left, the blocks of the log are next.
-/

namespace StrideXv6

open Bracket Machine Bytes

/-! ## Allocation and release -/

/-- What the operations of process `p` do. -/
def fsRun {ι : Type} [DecidableEq ι] (p : ι) : Semantics (fsSig ι) (Files ι) Halt :=
  fun choice s o => o.run p choice s

/-- A disk whose blocks are allocated and freed. -/
structure Usage (ι : Type) : Type where
  files : Files ι
  /-- the blocks that somebody has -/
  owned : List ℕ

/-- What the kernel does with blocks. -/
inductive UsageAction : Type where
  | balloc
  /-- only blocks that somebody has are freed -/
  | bfree : ℕ → UsageAction
  deriving DecidableEq, Repr

namespace Usage

variable {ι : Type} [DecidableEq ι]

/-- An image: the files on it have the blocks that `mkfs` allocated. -/
def boot (m : Mkfs) (initproc : ι) : Usage ι where
  files := Files.boot m.disk initproc
  owned := List.range' Mkfs.nmeta (m.freeblock - Mkfs.nmeta)

/-- The next state. -/
def step (p : ι) (s : Usage ι) : UsageAction → Option (Usage ι)
  | .balloc =>
    match balloc.exec (fsRun p) [] s.files with
    | .ok (b, _, files) => some ⟨files, b :: s.owned⟩
    | .error _ => none
  | .bfree b =>
    if b ∈ s.owned then
      match (bfree b).exec (fsRun p) [] s.files with
      | .ok (_, _, files) => some ⟨files, s.owned.erase b⟩
      | .error _ => none
    else none

end Usage

/-- The first block behind the bitmap. -/
def Superblock.dataStart (sb : Superblock) : ℕ := sb.ninodes / IPB + 3 + (sb.size / BPB + 1)

/-- The first block of the log, as `initlog` has it. -/
def Superblock.logStart (sb : Superblock) : ℕ := sb.size - sb.nlog

namespace Usage

variable {ι : Type} [DecidableEq ι]

/-- If `balloc` returns a block, it is between the bitmap and the log. -/
def TakesData (p : ι) (s : Usage ι) (a : UsageAction) : Prop :=
  ∀ t, a = .balloc → s.step p a = some t →
    ∃ b, t.owned = b :: s.owned ∧ s.files.disk.superblock.dataStart ≤ b ∧
      b < s.files.disk.superblock.logStart

/-- If there is a free block, there is one below the log. -/
def HasRoom (s : Usage ι) (a : UsageAction) : Prop :=
  ∀ b, a = .balloc → b < s.files.disk.size → s.files.disk.used s.files.disk.ninodes b = false →
    ∃ c, c < s.files.disk.superblock.logStart ∧ s.files.disk.used s.files.disk.ninodes c = false

/-- The layout is that of `mkfs`, with all blocks up to the data in use, and the
blocks that somebody has are behind. -/
structure Inv (s : Usage ι) : Prop where
  sb : s.files.disk.superblock = Mkfs.sb
  low : ∀ b, b < Mkfs.nmeta → s.files.disk.used NINODES b = true
  owned : ∀ b ∈ s.owned, Mkfs.nmeta ≤ b

end Usage

/-! ## `balloc` and `bfree` -/

section Specs

variable {ι : Type} [DecidableEq ι] {p : ι} {s s' : Files ι} {b n : ℕ}

/-- `balloc` marks the first free block and zeroes it. -/
theorem balloc_exec (s : Files ι) :
    balloc.exec (fsRun p) [] s =
      match s.disk.firstFree s.disk.size s.disk.ninodes with
      | some b => .ok (b, [], { s with
          disk := (s.disk.mark s.disk.ninodes b).put b fun _ => 0#8 })
      | none => .error (.panic "balloc: out of blocks") := by
  cases hfree : s.disk.firstFree s.disk.size s.disk.ninodes with
  | none => simp [balloc, ask, Code.exec, Code.bind, fsRun, FsOp.run, hfree, panic, Bind.bind]
  | some b =>
    simp only [balloc, ask, Code.exec, Code.bind, fsRun, FsOp.run, hfree, bzero, Bind.bind]
    rfl

/-- `bfree` clears the bit of the block. -/
theorem bfree_exec (s : Files ι) (b : ℕ) :
    (bfree b).exec (fsRun p) [] s =
      if s.disk.used s.disk.ninodes b then
        .ok ((), [], { s with disk := s.disk.unmark s.disk.ninodes b })
      else .error (.panic "freeing free block") := by
  cases hused : s.disk.used s.disk.ninodes b with
  | false => simp [bfree, ask, Code.exec, Code.bind, fsRun, FsOp.run, hused, panic, Bind.bind]
  | true =>
    simp only [bfree, ask, Code.exec, Code.bind, fsRun, FsOp.run, hused, Bind.bind]
    rfl

end Specs

namespace Usage

variable {ι : Type} [DecidableEq ι] {p : ι} {s t : Usage ι} {b n : ℕ}

theorem step_balloc (s : Usage ι) : s.step p .balloc =
    (s.files.disk.firstFree s.files.disk.size s.files.disk.ninodes).map fun b =>
      ⟨{ s.files with disk := (s.files.disk.mark s.files.disk.ninodes b).put b fun _ => 0#8 },
        b :: s.owned⟩ := by
  rw [step, balloc_exec]
  cases s.files.disk.firstFree s.files.disk.size s.files.disk.ninodes <;> rfl

theorem step_bfree (h : s.step p (.bfree b) = some t) :
    b ∈ s.owned ∧ t = ⟨{ s.files with disk := s.files.disk.unmark s.files.disk.ninodes b },
      s.owned.erase b⟩ := by
  simp only [step, bfree_exec] at h
  split at h
  · next hb =>
    split at h
    · next hx =>
      split at hx
      · cases hx
        cases h
        exact ⟨hb, rfl⟩
      · cases hx
    · cases h
  · cases h

/-- A block that is taken from the data region was free. -/
theorem hasRoom {a : UsageAction} (htakes : s.TakesData p a) : s.HasRoom a := by
  rintro b rfl hb hfree
  cases hfirst : s.files.disk.firstFree s.files.disk.size s.files.disk.ninodes with
  | none =>
    rw [Disk.firstFree_eq_none hfirst b hb] at hfree
    cases hfree
  | some c =>
    obtain ⟨b', hb', -, hlt⟩ := htakes _ rfl (by rw [step_balloc, hfirst]; rfl)
    cases hb'
    exact ⟨c, hlt, (Disk.firstFree_eq_some hfirst).2.1⟩

namespace Inv

omit [DecidableEq ι] in
theorem ninodes (h : s.Inv) : s.files.disk.ninodes = NINODES := by
  rw [Disk.ninodes, h.sb]
  rfl

omit [DecidableEq ι] in
theorem size (h : s.Inv) : s.files.disk.size = FSSIZE := by
  rw [Disk.size, h.sb]
  rfl

theorem bblock (hb : b < FSSIZE) : BBLOCK b NINODES = 28 := by
  have : b / BPB = 0 := Nat.div_eq_of_lt (hb.trans (by decide))
  rw [BBLOCK, this]
  rfl

omit [DecidableEq ι] in
/-- The first free block is behind the bitmap. -/
theorem le_firstFree (h : s.Inv)
    (hb : s.files.disk.firstFree s.files.disk.size s.files.disk.ninodes = some b) :
    Mkfs.nmeta ≤ b ∧ b < FSSIZE ∧ s.files.disk.used NINODES b = false := by
  obtain ⟨hlt, hfree, -⟩ := Disk.firstFree_eq_some hb
  rw [h.size] at hlt
  rw [h.ninodes] at hfree
  refine ⟨Nat.not_lt.mp fun hlow => ?_, hlt, hfree⟩
  rw [h.low b hlow] at hfree
  cases hfree

omit [DecidableEq ι] in
/-- The bitmap after `balloc`. -/
theorem used_balloc (h : s.Inv)
    (hb : s.files.disk.firstFree s.files.disk.size s.files.disk.ninodes = some b) {c : ℕ}
    (hc : c < FSSIZE) :
    ((s.files.disk.mark s.files.disk.ninodes b).put b fun _ => 0#8).used NINODES c =
      (decide (c = b) || s.files.disk.used NINODES c) := by
  have hne : b ≠ BBLOCK c NINODES := by
    have hlow := (h.le_firstFree hb).1
    have hn : Mkfs.nmeta = 29 := by decide
    rw [bblock hc]
    omega
  rw [Disk.used_put hne, h.ninodes, Disk.used_mark]

theorem next {a : UsageAction} (h : s.Inv) (hs : s.step p a = some t) : t.Inv := by
  have hmeta : ∀ {c : ℕ}, c < Mkfs.nmeta → c < FSSIZE := fun hc => hc.trans (by decide)
  cases a with
  | balloc =>
    rw [step_balloc] at hs
    obtain ⟨b, hb, rfl⟩ := Option.map_eq_some_iff.mp hs
    obtain ⟨hlow, hlt, -⟩ := h.le_firstFree hb
    have hb1 : b ≠ 1 := by
      rintro rfl
      exact absurd hlow (by decide)
    refine ⟨?_, fun c hc => ?_, fun c hc => ?_⟩
    · change ((s.files.disk.mark _ b).put b _).superblock = _
      rw [Disk.superblock_put hb1, Disk.mark, h.ninodes, bblock hlt, Disk.superblock_put (by decide)]
      exact h.sb
    · change ((s.files.disk.mark _ b).put b _).used NINODES c = true
      rw [h.used_balloc hb (hmeta hc), h.low c hc, Bool.or_true]
    · rcases List.mem_cons.mp hc with rfl | hc
      · exact hlow
      · exact h.owned c hc
  | bfree b =>
    obtain ⟨hmem, rfl⟩ := step_bfree hs
    have hlow := h.owned b hmem
    refine ⟨?_, fun c hc => ?_, fun c hc => h.owned c (List.mem_of_mem_erase hc)⟩
    · change (s.files.disk.unmark _ b).superblock = _
      have hne : BBLOCK b s.files.disk.ninodes ≠ 1 := by
        unfold BBLOCK BPB IPB BSIZE DINODE
        omega
      rw [Disk.unmark, Disk.superblock_put hne]
      exact h.sb
    · change (s.files.disk.unmark _ b).used NINODES c = true
      have hne : c ≠ b := by omega
      rw [h.ninodes, Disk.used_unmark, h.low c hc, decide_eq_true hne]
      rfl

omit [DecidableEq ι] in
theorem dataStart (h : s.Inv) : s.files.disk.superblock.dataStart = Mkfs.nmeta := by
  rw [h.sb]
  decide

omit [DecidableEq ι] in
theorem logStart (h : s.Inv) : s.files.disk.superblock.logStart = FSSIZE - LOGSIZE := by
  rw [h.sb]
  rfl

/-- What `balloc` takes is from the data region if there is room in it. -/
theorem takesData (h : s.Inv) {a : UsageAction} (hroom : s.HasRoom a) : s.TakesData p a := by
  rintro t rfl hs
  rw [step_balloc] at hs
  obtain ⟨b, hb, rfl⟩ := Option.map_eq_some_iff.mp hs
  obtain ⟨hlow, hlt, hfree⟩ := h.le_firstFree hb
  refine ⟨b, rfl, h.dataStart ▸ hlow, Nat.not_le.mp fun hle => ?_⟩
  obtain ⟨c, hc, hcfree⟩ := hroom b rfl (h.size ▸ hlt) (h.ninodes ▸ hfree)
  have hused := (Disk.firstFree_eq_some hb).2.2 c (by omega)
  rw [hused] at hcfree
  cases hcfree

theorem boot {files : List (List Byte × List Byte)} {m : Mkfs} (hfit : files.length + 2 ≤ NINODES)
    (hm : mkfs files = some m) (initproc : ι) : (Usage.boot m initproc).Inv := by
  have h := Mkfs.made_of_mkfs hfit hm
  refine ⟨h.sound.sb, fun b hb => ?_, fun b hb => (List.mem_range'_1.mp hb).1⟩
  change m.disk.used NINODES b = true
  rw [h.used b (hb.trans (by decide))]
  exact decide_eq_true (hb.trans_le h.sound.low)

end Inv

end Usage

/-- **The regions stay apart**, from an image with files that fit: `balloc` takes
blocks of the data region only, as long as there are any. -/
theorem allocates_data_iff {ι : Type} [DecidableEq ι] {files : List (List Byte × List Byte)}
    {m : Mkfs} (hfit : files.length + 2 ≤ NINODES) (hm : mkfs files = some m) (p initproc : ι)
    (as : List UsageAction) :
    AllSteps (Usage.step p) (Usage.TakesData p) (Usage.boot m initproc) as ↔
      AllSteps (Usage.step p) Usage.HasRoom (Usage.boot m initproc) as := by
  have hboot := Usage.Inv.boot hfit hm initproc
  constructor
  · exact allSteps_of_invariant (fun s a t h _ hs => h.next hs) (fun s a _ hC => Usage.hasRoom hC)
      hboot
  · exact allSteps_of_invariant (fun s a t h _ hs => h.next hs) (fun s a h hC => h.takesData hC)
      hboot

/-- The image without files. -/
theorem allocates_data_iff_empty : ∃ m, mkfs [] = some m ∧
    (AllSteps (Usage.step ()) (Usage.TakesData ()) (Usage.boot m ()) [.balloc, .bfree 30] ↔
      AllSteps (Usage.step ()) Usage.HasRoom (Usage.boot m ()) [.balloc, .bfree 30]) := by
  obtain ⟨m, hm⟩ : ∃ m, mkfs [] = some m := Option.isSome_iff_exists.mp (by decide +kernel)
  exact ⟨m, hm, allocates_data_iff (by decide) hm () () _⟩

/-! ## A full disk -/

namespace Usage

variable {ι : Type} [DecidableEq ι] {p : ι} {s : Usage ι} {n : ℕ}

/-- Exactly the blocks below `n` are in use. -/
def Filled (n : ℕ) (s : Usage ι) : Prop :=
  s.Inv ∧ ∀ b, b < FSSIZE → s.files.disk.used NINODES b = decide (b < n)

theorem Filled.balloc (h : s.Filled n) (hn : n < FSSIZE) :
    ∃ t, s.step p .balloc = some t ∧ t.owned = n :: s.owned ∧ t.Filled (n + 1) := by
  obtain ⟨hinv, hused⟩ := h
  have hfree : s.files.disk.used NINODES n = false := by
    rw [hused n hn, decide_eq_false (lt_irrefl n)]
  have hfirst : s.files.disk.firstFree s.files.disk.size s.files.disk.ninodes = some n := by
    cases hb : s.files.disk.firstFree s.files.disk.size s.files.disk.ninodes with
    | none =>
      have := Disk.firstFree_eq_none hb n (hinv.size ▸ hn)
      rw [hinv.ninodes, hfree] at this
      cases this
    | some b =>
      obtain ⟨-, hlt, hbfree⟩ := hinv.le_firstFree hb
      rw [hused b hlt, decide_eq_false_iff_not] at hbfree
      have hle : b ≤ n := Nat.not_lt.mp fun hnb => by
        have := (Disk.firstFree_eq_some hb).2.2 n hnb
        rw [hinv.ninodes, hfree] at this
        cases this
      rw [show b = n by omega]
  have hstep := step_balloc (p := p) s
  rw [hfirst] at hstep
  refine ⟨_, hstep, rfl, hinv.next hstep, fun b hb => ?_⟩
  change ((s.files.disk.mark _ n).put n _).used NINODES b = _
  rw [hinv.used_balloc hfirst hb, hused b hb, ← Bool.decide_or, decide_eq_decide]
  omega

theorem Filled.ballocs {k : ℕ} (h : s.Filled n) (hn : n + k ≤ FSSIZE) :
    ∃ t, exec (step p) s (List.replicate k .balloc) = some t ∧ t.Filled (n + k) := by
  induction k generalizing s n with
  | zero => exact ⟨s, rfl, h⟩
  | succ k ih =>
    obtain ⟨u, hu, -, hfilled⟩ := h.balloc (p := p) (by omega)
    obtain ⟨t, ht, hfilled'⟩ := ih hfilled (by omega)
    refine ⟨t, ?_, ?_⟩
    · rw [List.replicate_succ, exec_cons, hu]
      exact ht
    · rwa [Nat.add_right_comm] at hfilled'

end Usage

/-- On the image without files, the 941st block that is allocated is in the log. -/
theorem balloc_takes_log : ∃ m, mkfs [] = some m ∧
    ¬ AllSteps (Usage.step ()) (Usage.TakesData ()) (Usage.boot m ())
      (List.replicate 941 .balloc) := by
  obtain ⟨m, hm, hblock⟩ := Option.map_eq_some_iff.mp
    (show (mkfs []).map (·.freeblock) = some 30 by decide +kernel)
  have hfilled : (Usage.boot m ()).Filled 30 := by
    refine ⟨Usage.Inv.boot (by decide) hm (), fun b hb => ?_⟩
    change m.disk.used NINODES b = _
    rw [(Mkfs.made_of_mkfs (by decide) hm).used b (hb.trans (by decide)), hblock]
  obtain ⟨s, hs, hfull⟩ := hfilled.ballocs (p := ()) (k := 940) (by decide)
  obtain ⟨t, ht, howned, -⟩ := hfull.balloc (p := ()) (by decide)
  refine ⟨m, hm, fun h => ?_⟩
  have hlast : s.TakesData () .balloc := by
    rw [List.replicate_succ'] at h
    exact h.after hs
  obtain ⟨b, hb, -, hlt⟩ := hlast t rfl ht
  rw [howned] at hb
  cases hb
  rw [hfull.1.logStart] at hlt
  exact absurd hlt (by decide)

end StrideXv6
