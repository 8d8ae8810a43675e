import StrideXv6.References
import Mathlib.Algebra.BigOperators.Ring.Finset
import StrideXv6.Run

/-!
# Reference counts between system calls

Any number of processes make system calls, and these are interleaved at every
operation. A process never waits in `begin_op` here: that only takes runs away.
Allocation may fail at any point, and so may path lookup, since the contents of
the disk may turn into anything at any time.

In every state that is reached the references are accounted for (`Accounts`), with
those in the hands of the processes; so when no call is in progress, the counts in
the tables are what they should be (`RefCounts`).
-/

namespace StrideXv6

open Bracket Machine

/-! ## The machine -/

/-- Processes that use files. -/
structure Pool (ι : Type) : Type where
  files : Files ι
  /-- what each process has left to do in the kernel; `pure` in user space -/
  code : ι → KCode ι ℤ
  initproc : ι
  isRoundRobin : Bool

/-- What can happen next. -/
inductive PoolAction (ι : Type) : Type where
  /-- a process makes a system call -/
  | call : ι → Syscall ι → PoolAction ι
  /-- a process goes on in the kernel -/
  | step : ι → (choice : ℕ) → PoolAction ι
  /-- it goes on, but what it wants to allocate is not to be had -/
  | deny : ι → PoolAction ι
  /-- the contents of the disk are something else -/
  | scribble : Disk → PoolAction ι
  /-- a zombie is waited for -/
  | reap : ι → PoolAction ι

/-- How an allocation fails. -/
def FsOp.refusal {ι : Type} : (o : FsOp ι) → Option o.Ret
  | filealloc => some none
  | fdalloc _ => some none
  | kalloc => some none
  | _ => none

namespace Pool

variable {ι : Type} [DecidableEq ι]

/-- After `userinit`. -/
def boot (disk : Disk) (initproc : ι) (isRoundRobin : Bool) : Pool ι where
  files := Files.boot disk initproc
  code := fun _ => .pure 0
  initproc := initproc
  isRoundRobin := isRoundRobin

/-- A process goes on with `c`. -/
def goOn (s : Pool ι) (p : ι) (c : KCode ι ℤ) : Pool ι :=
  { s with code := Function.update s.code p c }

/-- The next state. -/
def step (s : Pool ι) (a : PoolAction ι) : Option (Pool ι) :=
  match a with
  | .call p c =>
    match s.code p with
    | .pure _ =>
      if (s.files.procs p).life = .live then
        some (s.goOn p (c.code s.isRoundRobin (p = s.initproc)))
      else none
    | .op _ _ => none
  | .step p choice =>
    match s.code p with
    | .pure _ => none
    | .op .enter k => some (s.goOn p (k ()))
    | .op .leave k => some (s.goOn p (k ()))
    | .op (.op o) k =>
      match o.run p choice s.files with
      | .ok (r, files) => some ({ s with files := files }.goOn p (k r))
      | .error _ => none
  | .deny p =>
    match s.code p with
    | .op (.op o) k => o.refusal.map fun r => s.goOn p (k r)
    | _ => none
  | .scribble disk => some { s with files := { s.files with disk := disk } }
  | .reap p =>
    match s.code p with
    | .pure _ =>
      if (s.files.procs p).life = .zombie then
        some { s with files := s.files.setProc p { s.files.procs p with life := .unused } }
      else none
    | .op _ _ => none

/-- No call is in progress. -/
def AtRest (s : Pool ι) : Prop := ∀ p, ∃ r, s.code p = .pure r

end Pool

/-! ## The counts -/

/-- The file is open, and a pipe file for the page `n`. -/
def File.IsPipe (x : File) (n : ℕ) : Prop := 0 < x.ref ∧ x.type = .pipe ∧ x.pipe = n

/-- The counts agree with the references. -/
structure Files.RefCounts {ι : Type} [Fintype ι] (s : Files ι) : Prop where
  /-- descriptors of processes -/
  files : ∀ f, (s.ftable f).ref =
    Fintype.card { x : ι × Fin NOFILE // (s.procs x.1).ofile x.2 = some f }
  /-- open files and current directories -/
  inodes : ∀ ip, (s.icache ip).ref =
    Fintype.card { f // 0 < (s.ftable f).ref ∧ (s.ftable f).type = .inode ∧ (s.ftable f).ip = ip } +
      Fintype.card { p // (s.procs p).life = .live ∧ (s.procs p).cwd = some ip }
  /-- no inode is cached twice -/
  unique : s.Unique
  /-- the page of a pipe is there as long as a file is open -/
  page : ∀ n, s.pages n ≠ none ↔ ∃ f, (s.ftable f).IsPipe n
  /-- which ends are open -/
  ends : ∀ n x, s.pages n = some x →
    (x.readopen = true ↔ ∃ f, (s.ftable f).IsPipe n ∧ (s.ftable f).writable = false) ∧
      (x.writeopen = true ↔ ∃ f, (s.ftable f).IsPipe n ∧ (s.ftable f).writable = true)

namespace Accounts

variable {ι : Type} [Fintype ι] {s : Files ι} {g : ι → Hands ι} {g' : Hands ι} {p : ι}

/-- A file with a type is open. -/
theorem ref_pos_of_type (h : Accounts s g) {f : Fin NFILE} (hf : (s.ftable f).type ≠ .none) :
    0 < (s.ftable f).ref := by
  have hnonneg : 0 ≤ (s.ftable f).ref := by
    rw [h.files.refs]
    exact Finset.sum_nonneg fun q _ => h.fileShare_nonneg q f
  have hzero : (s.ftable f).ref ≠ 0 := fun h0 => hf (h.files.closed f h0)
  omega

/-- Without embryos, only living processes have a current directory. -/
theorem live_of_cwd (h : Accounts s fun _ => {}) {ip : Fin NINODE} (hp : (s.procs p).cwd = some ip) :
    (s.procs p).life = .live := by
  have hgone := h.roles.gone p
  have hembryo := h.roles.embryo p
  cases hl : (s.procs p).life with
  | live => rfl
  | embryo =>
    obtain ⟨q, x, hx⟩ := hembryo hl
    cases hx
  | unused =>
    rw [(hgone (Or.inl hl)).1] at hp
    cases hp
  | zombie =>
    rw [(hgone (Or.inr hl)).1] at hp
    cases hp

/-- An end of a pipe is open as long as its file is. -/
theorem isOpen_iff (h : Accounts s fun _ => {}) (n : ℕ) (w : Bool) :
    (∃ x, s.pages n = some x ∧ x.isOpen w = true) ↔
      ∃ f, (s.ftable f).IsPipe n ∧ (s.ftable f).writable = w := by
  have hends := h.pipes.ends n w
  simp only [Finset.sum_const_zero, add_zero] at hends
  constructor
  · rintro ⟨x, hx, hopen⟩
    rw [Files.openEnd, hx, Option.any_some, if_pos hopen] at hends
    obtain ⟨f, -, hf⟩ := Finset.exists_ne_zero_of_sum_ne_zero (hends.trans_ne one_ne_zero)
    unfold File.onEnd at hf
    split at hf
    · next hpipe =>
      obtain ⟨htype, hn, hw⟩ := hpipe
      exact ⟨f, ⟨h.ref_pos_of_type (by rw [htype]; exact FileType.noConfusion), htype, hn⟩, hw⟩
    · exact absurd rfl hf
  · rintro ⟨f, ⟨-, htype, hn⟩, hw⟩
    have hone : 1 ≤ s.pipeFiles n w := by
      have hf : (s.ftable f).onEnd n w = 1 := if_pos ⟨htype, hn, hw⟩
      rw [← hf]
      refine Finset.single_le_sum (f := fun f => (s.ftable f).onEnd n w) (fun f _ => ?_)
        (Finset.mem_univ f)
      unfold File.onEnd
      split <;> omega
    rw [hends, Files.openEnd] at hone
    split at hone
    · next hany =>
      obtain ⟨x, hx, hopen⟩ := (Option.any_eq_true _ _).mp hany
      exact ⟨x, hx, hopen⟩
    · omega

/-- Accounts without anything in hand are the counts. -/
theorem refCounts (h : Accounts s fun _ => {}) : s.RefCounts where
  files f := by
    have hrefs := h.files.refs f
    simp only [fileShare, if_true, Holding.slots] at hrefs
    rw [hrefs, ← Fintype.sum_prod_type', Finset.sum_boole, Fintype.card_subtype]
  inodes ip := by
    have hrefs := h.inodes.refs ip
    simp only [inodeShare, if_true, Holding.inCwd, Files.opens, File.onInode] at hrefs
    rw [hrefs, Finset.sum_boole, Finset.sum_boole, Fintype.card_subtype, Fintype.card_subtype]
    congr 3
    · ext f
      simp only [Finset.mem_filter, Finset.mem_univ, true_and]
      refine ⟨fun hf => ⟨h.ref_pos_of_type ?_, hf⟩, fun hf => hf.2⟩
      rw [hf.1]
      exact FileType.noConfusion
    · ext p
      simp only [Finset.mem_filter, Finset.mem_univ, true_and]
      exact ⟨fun hp => ⟨h.live_of_cwd hp, hp⟩, fun hp => hp.2⟩
  unique := h.inodes.unique
  page n := by
    constructor
    · intro hn
      obtain ⟨x, hx⟩ := Option.ne_none_iff_exists'.mp hn
      rcases h.pipes.pages n x hx with hopen | hopen
      · obtain ⟨f, hf, -⟩ := (h.isOpen_iff n false).mp ⟨x, hx, hopen⟩
        exact ⟨f, hf⟩
      · obtain ⟨f, hf, -⟩ := (h.isOpen_iff n true).mp ⟨x, hx, hopen⟩
        exact ⟨f, hf⟩
    · rintro ⟨f, hf⟩
      obtain ⟨x, hx, -⟩ := (h.isOpen_iff n _).mpr ⟨f, hf, rfl⟩
      rw [hx]
      exact Option.some_ne_none x
  ends n x hx := by
    have hiff : ∀ w, x.isOpen w = true ↔ ∃ f, (s.ftable f).IsPipe n ∧ (s.ftable f).writable = w := by
      intro w
      rw [← h.isOpen_iff]
      constructor
      · exact fun hopen => ⟨x, hx, hopen⟩
      · rintro ⟨y, hy, hopen⟩
        rw [hx] at hy
        cases hy
        exact hopen
    exact ⟨hiff false, hiff true⟩

variable [DecidableEq ι]

/-- What a process answers for in its table is put into its hands, or back. -/
theorem exchange (h : Accounts s g) (hsane : g'.Sane) (hidle : g'.self = none → g' = {})
    (hself : ∀ x, g'.self = some x → s.procs p = x ∧ (x.life = .live ∨ x.life = .zombie))
    (hinodes : ∀ ip, inodeShare (s.procs p) g' ip = inodeShare (s.procs p) (g p) ip)
    (hfiles : ∀ f, fileShare (s.procs p) g' f = fileShare (s.procs p) (g p) f)
    (hfresh : ∀ f, g'.fresh f = false) (hends : g'.ends = (g p).ends)
    (hchild : g'.child = (g p).child) : Accounts s (Function.update g p g') := by
  -- whatever agrees at `p` is the same everywhere
  have hsame : ∀ {α : Type} (F : ι → Hands ι → α), F p g' = F p (g p) →
      ∀ q, F q (Function.update g p g' q) = F q (g q) := by
    intro α F hF q
    rw [Function.update_apply]
    split
    · next hq => rw [hq, hF]
    · rfl
  have hchilds := hsame (fun _ x => x.child) hchild
  refine ⟨⟨fun ip => ?_, h.inodes.unique⟩, ⟨fun f => ?_, h.files.closed, fun q f hf => ?_⟩,
    ⟨fun n w => ?_, h.pipes.pages⟩,
    ⟨fun q => ?_, fun q hq => ?_, fun q x hq => ?_, ?_, ?_, ?_, h.roles.gone⟩⟩
  · rw [h.inodes.refs]
    simp only [hsame (fun q x => inodeShare (s.procs q) x ip) (hinodes ip)]
  · rw [h.files.refs]
    simp only [hsame (fun q x => fileShare (s.procs q) x f) (hfiles f)]
  · by_cases hq : q = p
    · subst hq
      rw [Function.update_self, hfresh] at hf
      cases hf
    · rw [Function.update_of_ne hq] at hf ⊢
      exact h.files.fresh q f hf
  · simp only [hsame (fun _ x => x.ends n w) (by rw [hends])]
    exact h.pipes.ends n w
  · rw [Function.update_apply]
    split
    · exact hsane
    · exact h.roles.sane q
  · by_cases hqp : q = p
    · subst hqp
      rw [Function.update_self] at hq ⊢
      exact hidle hq
    · rw [Function.update_of_ne hqp] at hq ⊢
      exact h.roles.idle q hq
  · by_cases hqp : q = p
    · subst hqp
      rw [Function.update_self] at hq
      exact hself x hq
    · rw [Function.update_of_ne hqp] at hq
      exact h.roles.self q x hq
  · simp only [hchilds]
    exact h.roles.child
  · simp only [hchilds]
    exact h.roles.oneParent
  · simp only [hchilds]
    exact h.roles.embryo

/-- A process enters the kernel. -/
theorem enter (h : Accounts s g) (hp : g p = {}) (hlive : (s.procs p).life = .live) :
    Accounts s (Function.update g p (.start (s.procs p))) := by
  refine h.exchange (Hands.start_sane _) (fun hn => nomatch hn) (fun x hx => ?_) (fun ip => ?_)
    (fun f => ?_) (fun f => rfl) ?_ ?_
  · cases hx
    exact ⟨rfl, Or.inl hlive⟩
  all_goals rw [hp]
  all_goals rfl

/-- A process leaves the kernel. -/
theorem leave (h : Accounts s g) (hp : (g p).Settled) : Accounts s (Function.update g p {}) := by
  obtain ⟨x, hx⟩ := hp
  have hself := (h.roles.self p x (by rw [hx]; rfl)).1
  refine h.exchange ⟨fun _ => le_rfl, fun _ => le_rfl, fun _ _ => le_rfl⟩ (fun _ => rfl)
    (fun x hx => nomatch hx) (fun ip => ?_) (fun f => ?_) (fun f => rfl) ?_ ?_
  all_goals rw [hx]
  all_goals first | rfl | (rw [hself]; rfl)

/-- A zombie is waited for. -/
theorem reap (h : Accounts s g) (hp : g p = {}) (hzombie : (s.procs p).life = .zombie) :
    Accounts (s.setProc p { s.procs p with life := .unused }) g := by
  have hcwd : ∀ q, ((s.setProc p { s.procs p with life := .unused }).procs q).cwd =
      (s.procs q).cwd := by
    intro q
    simp only [Files.setProc, Function.update_apply]
    split
    · next hq => rw [hq]
    · rfl
  have hofile : ∀ q, ((s.setProc p { s.procs p with life := .unused }).procs q).ofile =
      (s.procs q).ofile := by
    intro q
    simp only [Files.setProc, Function.update_apply]
    split
    · next hq => rw [hq]
    · rfl
  have hother : ∀ q, q ≠ p →
      (s.setProc p { s.procs p with life := .unused }).procs q = s.procs q := fun q hq =>
    Function.update_of_ne hq ..
  have hself : (s.setProc p { s.procs p with life := .unused }).procs p =
      { s.procs p with life := .unused } := Function.update_self ..
  have hempty := h.roles.gone p (Or.inr hzombie)
  refine ⟨⟨fun ip => ?_, h.inodes.unique⟩, ⟨fun f => ?_, h.files.closed, fun q f hf => ?_⟩,
    ⟨h.pipes.ends, h.pipes.pages⟩,
    ⟨h.roles.sane, h.roles.idle, fun q x hq => ?_, fun q r x hq => ?_, h.roles.oneParent,
      fun q hq => ?_, fun q hq => ?_⟩⟩
  · simp only [inodeShare, Holding.inCwd, hcwd]
    exact h.inodes.refs ip
  · simp only [fileShare, Holding.slots, hofile]
    exact h.files.refs f
  · simp only [fileShare, Holding.slots, hofile]
    exact h.files.fresh q f hf
  · have hne : q ≠ p := by
      rintro rfl
      rw [hp] at hq
      cases hq
    rw [hother q hne]
    exact h.roles.self q x hq
  · obtain ⟨hr, hx⟩ := h.roles.child q r x hq
    have hne : r ≠ p := by
      rintro rfl
      rw [hr, hx] at hzombie
      cases hzombie
    rw [hother r hne]
    exact ⟨hr, hx⟩
  · have hne : q ≠ p := by
      rintro rfl
      rw [hself] at hq
      cases hq
    rw [hother q hne] at hq
    exact h.roles.embryo q hq
  · by_cases hqp : q = p
    · subst hqp
      rw [hself]
      exact hempty
    · rw [hother q hqp] at hq ⊢
      exact h.roles.gone q hq

theorem boot (disk : Disk) (initproc : ι) : Accounts (Files.boot disk initproc) fun _ => {} := by
  have hother : ∀ q, q ≠ initproc → (Files.boot disk initproc).procs q = {} := by
    intro q hq
    simp [Files.boot, hq]
  have hinit : (Files.boot disk initproc).procs initproc =
      { life := .live, cwd := some ⟨0, by decide⟩ } := by
    simp [Files.boot]
  have hgone : ∀ q, ((Files.boot disk initproc).procs q).life = .unused ∨
      ((Files.boot disk initproc).procs q).life = .live := by
    intro q
    by_cases hq : q = initproc
    · rw [hq, hinit]
      exact Or.inr rfl
    · rw [hother q hq]
      exact Or.inl rfl
  refine ⟨⟨fun ip => ?_, fun ip jp hip hjp _ _ => ?_⟩,
    ⟨fun f => ?_, fun f _ => rfl, fun q f hf => (nomatch hf)⟩,
    ⟨fun n w => ?_, fun n x hx => (nomatch hx)⟩,
    ⟨fun q => ⟨fun _ => le_rfl, fun _ => le_rfl, fun _ _ => le_rfl⟩, fun q _ => rfl,
      fun q x hx => (nomatch hx), fun q r x hx => (nomatch hx), fun q r k x x' hx => (nomatch hx),
      fun q hq => ?_, fun q hq => ?_⟩⟩
  · rw [Finset.sum_eq_single initproc (fun q _ hq => ?_) fun hq => absurd (Finset.mem_univ _) hq]
    · rw [hinit]
      simp only [Files.boot, Files.opens, File.onInode, Function.update_apply, inodeShare,
        Holding.inCwd, if_true]
      by_cases hip : ip = ⟨0, by decide⟩
      · simp [hip]
      · simp [hip, Ne.symm hip]
    · rw [hother q hq]
      rfl
  · have hzero : ∀ kp, 0 < ((Files.boot disk initproc).icache kp).ref → kp = ⟨0, by decide⟩ := by
      intro kp hkp
      by_contra hne
      simp [Files.boot, hne] at hkp
    rw [hzero ip hip, hzero jp hjp]
  · refine (Finset.sum_eq_zero fun q _ => ?_).symm
    simp only [fileShare, if_true]
    refine Holding.slots_eq_zero fun fd => ?_
    by_cases hq : q = initproc
    · rw [hq, hinit]
    · rw [hother q hq]
  · simp [Files.pipeFiles, Files.boot, File.onEnd, Files.openEnd]
  · rcases hgone q with hl | hl <;> rw [hl] at hq <;> cases hq
  · have hne : q ≠ initproc := by
      rintro rfl
      rw [hinit] at hq
      rcases hq with hq | hq <;> cases hq
    rw [hother q hne]
    exact ⟨rfl, fun _ => rfl⟩

end Accounts

namespace Pool

variable {ι : Type} [Fintype ι] [DecidableEq ι] {s s' : Pool ι} {p : ι}

/-- Every process in the kernel gives back what it takes, and the references are
accounted for. -/
def Inv (s : Pool ι) : Prop :=
  Kept (custody ι).bracket (fun _ g => g.Settled) {} (fun g => g.self ≠ none) Accounts s.files s.code

theorem Inv.step {a : PoolAction ι} (h : s.Inv) (hs : s.step a = some s') : s'.Inv := by
  have hrest : ∀ {files : Files ι} {q : ι} (g : ι → Hands ι) (_ : ℤ), Accounts files g →
      (g q).Settled → Accounts files (Function.update g q {}) :=
    fun g _ hg hq => hg.leave hq
  cases a with
  | call p c =>
    simp only [Pool.step] at hs
    split at hs
    · next r hcode =>
      split at hs
      · next hlive =>
        cases hs
        refine Kept.start h hcode (fun g hg hp => ?_) hrest
        have hne : (s.files.procs p).life ≠ .zombie := by
          rw [hlive]
          exact Life.noConfusion
        exact ⟨.start (s.files.procs p), Option.some_ne_none _, hg.enter hp hlive,
          settles_syscall hne _ _ c⟩
      · cases hs
    · cases hs
  | step p choice =>
    simp only [Pool.step] at hs
    split at hs
    · cases hs
    · next k hcode =>
      cases hs
      refine Kept.answer h hcode (fun g hg hp _ => ⟨g p, rfl, hp, ?_⟩) hrest
      rwa [Function.update_eq_self]
    · next k hcode =>
      cases hs
      refine Kept.answer h hcode (fun g hg hp _ => ⟨g p, rfl, hp, ?_⟩) hrest
      rwa [Function.update_eq_self]
    · next o k hcode =>
      split at hs
      · next r files hrun =>
        cases hs
        exact Kept.answer h hcode (fun g hg hp hmay => hg.run hp hmay hrun) hrest
      · cases hs
  | deny p =>
    simp only [Pool.step] at hs
    split at hs
    · next o k hcode =>
      obtain ⟨r, hr, rfl⟩ := Option.map_eq_some_iff.mp hs
      refine Kept.answer h hcode (fun g hg hp _ => ⟨g p, ?_, hp, ?_⟩) hrest
      · cases o <;> cases hr <;> rfl
      · rwa [Function.update_eq_self]
    · cases hs
  | scribble disk =>
    cases hs
    obtain ⟨g, hg, hres⟩ := h
    exact ⟨g, hg.setDisk, hres⟩
  | reap p =>
    simp only [Pool.step] at hs
    split at hs
    · next r hcode =>
      split at hs
      · next hzombie =>
        cases hs
        exact Kept.outside h hcode fun g hg hp => hg.reap hp hzombie
      · cases hs
    · cases hs

theorem Inv.boot (disk : Disk) (initproc : ι) (isRoundRobin : Bool) :
    (boot disk initproc isRoundRobin).Inv :=
  ⟨fun _ => {}, Accounts.boot disk initproc, fun _ => rfl⟩

end Pool

section Main

variable {ι : Type} [Fintype ι] [DecidableEq ι]

/-- **Reference counts.** Whatever the processes do, in every state with no call in
progress the counts of open files and cached inodes are the numbers of references
to them, no inode is cached twice, and a pipe is there as long as it is used. -/
theorem reference_counts (disk : Disk) (initproc : ι) (isRoundRobin : Bool)
    (as : List (PoolAction ι)) :
    AllStates Pool.step (fun s => s.AtRest → s.files.RefCounts)
      (Pool.boot disk initproc isRoundRobin) as := by
  have hinv : AllStates Pool.step Pool.Inv (Pool.boot disk initproc isRoundRobin) as :=
    allStates_of_step (fun s a s' h hs => h.step hs) (Pool.Inv.boot disk initproc isRoundRobin)
  exact hinv.mono fun s h hrest => (Kept.atRest h hrest).refCounts

end Main

end StrideXv6
