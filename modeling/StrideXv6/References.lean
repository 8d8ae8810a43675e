import StrideXv6.Returns
import StrideXv6.Run

/-!
# Reference counts (`file.c`, `fs.c`, `pipe.c`)

The counts in the tables of open files and cached inodes, and the flags of pipes,
agree with what the processes and the open files refer to. While system calls are
in progress, the references in the hands of the processes count as well
(`Accounts`); between them there are none left.

The calls of any number of processes are interleaved at every operation. Two
operations never need to wait for each other here: what `begin_op` does is keep a
process waiting, and this machine has all the runs in which it does and more.
-/

namespace StrideXv6

open Bracket Machine

section Accounts

variable {ι : Type} [Fintype ι]

/-! ## The accounts -/

/-- The references to an inode that a process answers for. -/
def inodeShare (h : Holding) (g : Hands ι) (ip : Fin NINODE) : ℤ :=
  if g.self = none then h.inCwd ip else g.inodes ip

/-- The references to an open file that a process answers for. -/
def fileShare (h : Holding) (g : Hands ι) (f : Fin NFILE) : ℤ :=
  if g.self = none then h.slots f else g.files f

namespace Files

/-- How many open files are on the inode. -/
def opens (s : Files ι) (ip : Fin NINODE) : ℤ := ∑ f, (s.ftable f).onInode ip

/-- How many open files are for this end of a pipe. -/
def pipeFiles (s : Files ι) (n : ℕ) (writable : Bool) : ℤ := ∑ f, (s.ftable f).onEnd n writable

end Files

/-- Is this end open? -/
def Pipe.isOpen (x : Pipe) (writable : Bool) : Bool := if writable then x.writeopen else x.readopen

/-- Whether this end of the pipe in page `n` is open, as a number. -/
def Files.openEnd (s : Files ι) (n : ℕ) (writable : Bool) : ℤ :=
  if (s.pages n).any (·.isOpen writable) then 1 else 0

/-- No inode is cached twice. -/
def Files.Unique (s : Files ι) : Prop :=
  ∀ ip jp, 0 < (s.icache ip).ref → 0 < (s.icache jp).ref →
    (s.icache ip).dev = (s.icache jp).dev → (s.icache ip).inum = (s.icache jp).inum → ip = jp

/-- Cached inodes. -/
structure InodeAccounts (s : Files ι) (g : ι → Hands ι) : Prop where
  refs : ∀ ip, (s.icache ip).ref = s.opens ip + ∑ p, inodeShare (s.procs p) (g p) ip
  unique : s.Unique

/-- Open files. -/
structure FileAccounts (s : Files ι) (g : ι → Hands ι) : Prop where
  refs : ∀ f, (s.ftable f).ref = ∑ p, fileShare (s.procs p) (g p) f
  closed : ∀ f, (s.ftable f).ref = 0 → (s.ftable f).type = .none
  /-- a file without a type belongs to one process -/
  fresh : ∀ p f, (g p).fresh f = true → (s.ftable f).type = .none ∧ (s.ftable f).ref = 1 ∧
    fileShare (s.procs p) (g p) f = 1

/-- Pipes. -/
structure PipeAccounts (s : Files ι) (g : ι → Hands ι) : Prop where
  ends : ∀ n w, s.pipeFiles n w + ∑ p, (g p).ends n w = s.openEnd n w
  pages : ∀ n x, s.pages n = some x → x.readopen = true ∨ x.writeopen = true

/-- Processes. -/
structure Roles (s : Files ι) (g : ι → Hands ι) : Prop where
  sane : ∀ p, (g p).Sane
  idle : ∀ p, (g p).self = none → g p = {}
  self : ∀ p h, (g p).self = some h → s.procs p = h ∧ (h.life = .live ∨ h.life = .zombie)
  child : ∀ p q x, (g p).child = some (q, x) → s.procs q = x ∧ x.life = .embryo
  oneParent : ∀ p p' q x x', (g p).child = some (q, x) → (g p').child = some (q, x') → p = p'
  embryo : ∀ q, (s.procs q).life = .embryo → ∃ p x, (g p).child = some (q, x)
  gone : ∀ q, (s.procs q).life = .unused ∨ (s.procs q).life = .zombie → (s.procs q).Empty

/-- All references are accounted for. -/
structure Accounts (s : Files ι) (g : ι → Hands ι) : Prop where
  inodes : InodeAccounts s g
  files : FileAccounts s g
  pipes : PipeAccounts s g
  roles : Roles s g

end Accounts

/-! ## What one operation does to them -/

theorem File.onInode_none {x : File} (hx : x.type = .none) (ip : Fin NINODE) : x.onInode ip = 0 := by
  simp [onInode, hx]

theorem File.onEnd_none {x : File} (hx : x.type = .none) (n : ℕ) (w : Bool) : x.onEnd n w = 0 := by
  simp [onEnd, hx]

/-- What is open after one end is closed; a pipe that is gone has no open end. -/
theorem Pipe.isOpen_close (x : Pipe) (w v : Bool) :
    (x.close w).any (·.isOpen v) = (x.isOpen v && decide (v ≠ w)) := by
  obtain ⟨r, wr⟩ := x
  cases r <;> cases wr <;> cases w <;> cases v <;> rfl

theorem Pipe.close_eq_some {x y : Pipe} {w : Bool} (h : x.close w = some y) :
    y.readopen = true ∨ y.writeopen = true := by
  obtain ⟨r, wr⟩ := x
  cases r <;> cases wr <;> cases w <;> cases h <;> simp

theorem Hands.setFresh_fresh {ι : Type} (g : Hands ι) (f j : Fin NFILE) (b : Bool) :
    (g.setFresh f b).fresh j = if j = f then b else g.fresh j :=
  Function.update_apply ..

section Sums

variable {ι : Type} [Fintype ι] [DecidableEq ι] {s : Files ι} {g : ι → Hands ι} {g' : Hands ι}
  {p : ι} {P P' : ι → Holding}

theorem sum_inodeShare (hP : ∀ q, q ≠ p → P' q = P q) (hbusy : (g p).self ≠ none)
    (hbusy' : g'.self ≠ none) (ip : Fin NINODE) :
    ∑ q, inodeShare (P' q) (Function.update g p g' q) ip =
      ∑ q, inodeShare (P q) (g q) ip + (g'.inodes ip - (g p).inodes ip) := by
  rw [sum_eq_of_ne p (F := fun q => inodeShare (P q) (g q) ip)]
  · simp only [Function.update_self, inodeShare, if_neg hbusy, if_neg hbusy']
  · intro q hq
    rw [Function.update_of_ne hq, hP q hq]

theorem sum_fileShare (hP : ∀ q, q ≠ p → P' q = P q) (hbusy : (g p).self ≠ none)
    (hbusy' : g'.self ≠ none) (f : Fin NFILE) :
    ∑ q, fileShare (P' q) (Function.update g p g' q) f =
      ∑ q, fileShare (P q) (g q) f + (g'.files f - (g p).files f) := by
  rw [sum_eq_of_ne p (F := fun q => fileShare (P q) (g q) f)]
  · simp only [Function.update_self, fileShare, if_neg hbusy, if_neg hbusy']
  · intro q hq
    rw [Function.update_of_ne hq, hP q hq]

theorem sum_ends (n : ℕ) (w : Bool) :
    ∑ q, (Function.update g p g' q).ends n w =
      ∑ q, (g q).ends n w + (g'.ends n w - (g p).ends n w) := by
  rw [sum_eq_of_ne p (F := fun q => (g q).ends n w)]
  · rw [Function.update_self]
  · intro q hq
    rw [Function.update_of_ne hq]

omit [Fintype ι] [DecidableEq ι] in
theorem opens_setFile (s : Files ι) (f : Fin NFILE) (x : File) (ip : Fin NINODE) :
    (s.setFile f x).opens ip = s.opens ip + (x.onInode ip - (s.ftable f).onInode ip) := by
  unfold Files.opens
  rw [sum_eq_of_ne f (F := fun f => (s.ftable f).onInode ip)]
  · simp only [Files.setFile, Function.update_self]
  · intro j hj
    simp only [Files.setFile, Function.update_of_ne hj]

omit [Fintype ι] [DecidableEq ι] in
theorem pipeFiles_setFile (s : Files ι) (f : Fin NFILE) (x : File) (n : ℕ) (w : Bool) :
    (s.setFile f x).pipeFiles n w =
      s.pipeFiles n w + (x.onEnd n w - (s.ftable f).onEnd n w) := by
  unfold Files.pipeFiles
  rw [sum_eq_of_ne f (F := fun f => (s.ftable f).onEnd n w)]
  · simp only [Files.setFile, Function.update_self]
  · intro j hj
    simp only [Files.setFile, Function.update_of_ne hj]

omit [Fintype ι] [DecidableEq ι] in
theorem Files.opens_nonneg (s : Files ι) (ip : Fin NINODE) : 0 ≤ s.opens ip :=
  Finset.sum_nonneg fun f _ => by
    unfold File.onInode
    split <;> omega

omit [Fintype ι] [DecidableEq ι] in
theorem Files.pipeFiles_nonneg (s : Files ι) (n : ℕ) (w : Bool) : 0 ≤ s.pipeFiles n w :=
  Finset.sum_nonneg fun f _ => by
    unfold File.onEnd
    split <;> omega

end Sums

section Roles

variable {ι : Type} [DecidableEq ι] {s s' : Files ι} {g : ι → Hands ι} {g' : Hands ι} {p : ι}

/-- The process answers for other things, but is the same. -/
theorem Roles.update (h : Roles s g) (hprocs : s'.procs = s.procs)
    (hbusy : (g p).self ≠ none) (hself : g'.self = (g p).self) (hchild : g'.child = (g p).child)
    (hsane : g'.Sane) : Roles s' (Function.update g p g') := by
  have hsame : ∀ q, (Function.update g p g' q).self = (g q).self ∧
      (Function.update g p g' q).child = (g q).child := by
    intro q
    by_cases hq : q = p
    · subst hq
      rw [Function.update_self]
      exact ⟨hself, hchild⟩
    · rw [Function.update_of_ne hq]
      exact ⟨rfl, rfl⟩
  refine ⟨fun q => ?_, fun q hq => ?_, ?_, ?_, ?_, ?_, ?_⟩
  · by_cases hq : q = p
    · subst hq
      rwa [Function.update_self]
    · rw [Function.update_of_ne hq]
      exact h.sane q
  · rw [(hsame q).1] at hq
    have hne : q ≠ p := fun he => hbusy (he ▸ hq)
    rw [Function.update_of_ne hne]
    exact h.idle q hq
  all_goals simp only [hprocs, hsame]
  · exact h.self
  · exact h.child
  · exact h.oneParent
  · exact h.embryo
  · exact h.gone

omit [DecidableEq ι] in
/-- Somebody in the kernel is not an embryo. -/
theorem Roles.ne_of_self {q : ι} (h : Roles s g) (hbusy : (g p).self ≠ none)
    (hq : (s.procs q).life = .unused ∨ (s.procs q).life = .embryo) : q ≠ p := by
  rintro rfl
  obtain ⟨x, hx⟩ := Option.ne_none_iff_exists'.mp hbusy
  obtain ⟨rfl, hl⟩ := h.self q x hx
  rcases hl with hl | hl <;> rw [hl] at hq <;> rcases hq with hq | hq <;> cases hq

/-- The process gives the table `y` to an embryo. -/
theorem Roles.setChild {q : ι} {y : Holding} (h : Roles s g) (hbusy : (g p).self ≠ none)
    (hself : g'.self = (g p).self) (hsane : g'.Sane)
    (hq : (s.procs q).life = .unused ∨ (s.procs q).life = .embryo)
    (hother : ∀ r x, r ≠ p → (g r).child ≠ some (q, x))
    (hown : ∀ r x, (g p).child = some (r, x) → r = q)
    (hchild : g'.child = if y.life = .embryo then some (q, y) else none)
    (hlife : y.life ≠ .zombie) (hgone : y.life = .unused → y.Empty) :
    Roles (s.setProc q y) (Function.update g p g') := by
  have hqy : (s.setProc q y).procs q = y := Function.update_self ..
  have hprocs : ∀ r, r ≠ q → (s.setProc q y).procs r = s.procs r := fun r hr =>
    Function.update_of_ne hr ..
  have hsame : ∀ r, (Function.update g p g' r).self = (g r).self := by
    intro r
    rw [Function.update_apply]
    split
    · next hr => rw [hr, hself]
    · rfl
  -- whose child is `r` now
  have hkid : ∀ r r' x, (Function.update g p g' r).child = some (r', x) →
      (r = p ∧ r' = q ∧ x = y ∧ y.life = .embryo) ∨
        (r ≠ p ∧ r' ≠ q ∧ (g r).child = some (r', x)) := by
    intro r r' x hr
    by_cases hrp : r = p
    · subst hrp
      rw [Function.update_self, hchild] at hr
      split at hr
      · next hy =>
        cases hr
        exact Or.inl ⟨rfl, rfl, rfl, hy⟩
      · cases hr
    · rw [Function.update_of_ne hrp] at hr
      exact Or.inr ⟨hrp, fun he => hother r x hrp (he ▸ hr), hr⟩
  refine ⟨fun r => ?_, fun r hr => ?_, fun r x hr => ?_, fun r r' x hr => ?_,
    fun r r' k x x' hr hr' => ?_, fun r hr => ?_, fun r hr => ?_⟩
  · rw [Function.update_apply]
    split
    · exact hsane
    · exact h.sane r
  · rw [hsame] at hr
    have hne : r ≠ p := fun he => hbusy (he ▸ hr)
    rw [Function.update_of_ne hne]
    exact h.idle r hr
  · rw [hsame] at hr
    have hbusy' : (g r).self ≠ none := by
      rw [hr]
      exact Option.some_ne_none x
    rw [hprocs r (h.ne_of_self hbusy' hq).symm]
    exact h.self r x hr
  · rcases hkid r r' x hr with ⟨rfl, rfl, rfl, hy⟩ | ⟨-, hne, hr⟩
    · exact ⟨hqy, hy⟩
    · rw [hprocs r' hne]
      exact h.child r r' x hr
  · rcases hkid r k x hr with ⟨rfl, rfl, -, -⟩ | ⟨-, hne, hr⟩
    · rcases hkid r' k x' hr' with ⟨rfl, -, -, -⟩ | ⟨-, hne, -⟩
      · rfl
      · exact absurd rfl hne
    · rcases hkid r' k x' hr' with ⟨-, he, -, -⟩ | ⟨-, -, hr'⟩
      · exact absurd he hne
      · exact h.oneParent r r' k x x' hr hr'
  · by_cases hrq : r = q
    · subst hrq
      rw [hqy] at hr
      refine ⟨p, y, ?_⟩
      rw [Function.update_self, hchild, if_pos hr]
    · rw [hprocs r hrq] at hr
      obtain ⟨p', x, hx⟩ := h.embryo r hr
      have hne : p' ≠ p := fun he => hrq (hown r x (he ▸ hx))
      refine ⟨p', x, ?_⟩
      rwa [Function.update_of_ne hne]
  · by_cases hrq : r = q
    · subst hrq
      rw [hqy] at hr ⊢
      exact hgone (hr.resolve_right hlife)
    · rw [hprocs r hrq] at hr ⊢
      exact h.gone r hr

end Roles

namespace Accounts

variable {ι : Type} [Fintype ι] {s s' : Files ι} {g : ι → Hands ι} {g' : Hands ι} {p : ι}
  {ip : Fin NINODE} {f : Fin NFILE}

theorem inodeShare_nonneg (h : Accounts s g) (q : ι) (ip : Fin NINODE) :
    0 ≤ inodeShare (s.procs q) (g q) ip := by
  unfold inodeShare
  split
  · exact Holding.inCwd_nonneg _ ip
  · exact (h.roles.sane q).inodes ip

theorem fileShare_nonneg (h : Accounts s g) (q : ι) (f : Fin NFILE) :
    0 ≤ fileShare (s.procs q) (g q) f := by
  unfold fileShare
  split
  · exact Holding.slots_nonneg _ f
  · exact (h.roles.sane q).files f

theorem inodeShare_le (h : Accounts s g) (q : ι) (ip : Fin NINODE) :
    inodeShare (s.procs q) (g q) ip ≤ (s.icache ip).ref := by
  have hsum := Finset.single_le_sum (f := fun q => inodeShare (s.procs q) (g q) ip)
    (fun q _ => h.inodeShare_nonneg q ip) (Finset.mem_univ q)
  have hopens := s.opens_nonneg ip
  rw [h.inodes.refs]
  omega

theorem fileShare_le (h : Accounts s g) (q : ι) (f : Fin NFILE) :
    fileShare (s.procs q) (g q) f ≤ (s.ftable f).ref := by
  rw [h.files.refs]
  exact Finset.single_le_sum (f := fun q => fileShare (s.procs q) (g q) f)
    (fun q _ => h.fileShare_nonneg q f) (Finset.mem_univ q)

/-- An inode in hand is cached. -/
theorem ref_pos (h : Accounts s g) (hbusy : (g p).self ≠ none) (hip : 1 ≤ (g p).inodes ip) :
    0 < (s.icache ip).ref := by
  have := h.inodeShare_le p ip
  rw [inodeShare, if_neg hbusy] at this
  omega

theorem file_ref_pos (h : Accounts s g) (hbusy : (g p).self ≠ none) (hf : 1 ≤ (g p).files f) :
    0 < (s.ftable f).ref := by
  have := h.fileShare_le p f
  rw [fileShare, if_neg hbusy] at this
  omega

/-- Tables that are the same as far as references are concerned. -/
theorem congr (h : Accounts s g)
    (hicache : ∀ ip, (s'.icache ip).ref = (s.icache ip).ref ∧ (s'.icache ip).dev = (s.icache ip).dev ∧
      (s'.icache ip).inum = (s.icache ip).inum)
    (hftable : s'.ftable = s.ftable) (hpages : s'.pages = s.pages) (hprocs : s'.procs = s.procs) :
    Accounts s' g := by
  refine ⟨⟨fun ip => ?_, fun ip jp => ?_⟩, ⟨?_, ?_, ?_⟩, ⟨fun n w => ?_, ?_⟩, ⟨h.roles.sane, h.roles.idle, ?_,
    ?_, h.roles.oneParent, ?_, ?_⟩⟩
  · rw [(hicache ip).1, hprocs, h.inodes.refs]
    unfold Files.opens
    rw [hftable]
  · simp only [hicache]
    exact h.inodes.unique ip jp
  · rw [hftable, hprocs]
    exact h.files.refs
  · rw [hftable]
    exact h.files.closed
  · rw [hftable, hprocs]
    exact h.files.fresh
  · unfold Files.pipeFiles Files.openEnd
    rw [hftable, hpages]
    exact h.pipes.ends n w
  · rw [hpages]
    exact h.pipes.pages
  · rw [hprocs]
    exact h.roles.self
  · rw [hprocs]
    exact h.roles.child
  · rw [hprocs]
    exact h.roles.embryo
  · rw [hprocs]
    exact h.roles.gone

variable [DecidableEq ι]

/-- A reference to an inode is taken or put. -/
theorem setInode {i : Inode} {k : ℤ} (h : Accounts s g) (hbusy : (g p).self ≠ none)
    (hi : i.ref = (s.icache ip).ref + k) (hsane : ((g p).addInode ip k).Sane)
    (hunique : (s.setInode ip i).Unique) :
    Accounts (s.setInode ip i) (Function.update g p ((g p).addInode ip k)) := by
  have hbusy' : ((g p).addInode ip k).self ≠ none := hbusy
  refine ⟨⟨fun jp => ?_, hunique⟩, ⟨fun j => ?_, h.files.closed, fun q j hj => ?_⟩,
    ⟨fun n w => ?_, h.pipes.pages⟩, h.roles.update rfl hbusy rfl rfl hsane⟩
  · rw [sum_inodeShare (fun _ _ => rfl) hbusy hbusy']
    have := h.inodes.refs jp
    simp only [Files.setInode, Hands.addInode, Function.update_apply]
    split
    · next hj =>
      subst hj
      rw [hi]
      change _ = s.opens jp + _
      omega
    · change _ = s.opens jp + _
      omega
  · rw [sum_fileShare (fun _ _ => rfl) hbusy hbusy']
    simp only [Hands.addInode, sub_self, add_zero]
    exact h.files.refs j
  · by_cases hq : q = p
    · subst hq
      rw [Function.update_self] at hj ⊢
      exact h.files.fresh q j hj
    · rw [Function.update_of_ne hq] at hj ⊢
      exact h.files.fresh q j hj
  · rw [sum_ends]
    simp only [Hands.addInode, sub_self, add_zero]
    exact h.pipes.ends n w

/-- An open file changes, and what the process answers for with it. -/
theorem setFile {x : File} (h : Accounts s g) (hbusy : (g p).self ≠ none)
    (hself : g'.self = (g p).self) (hchild : g'.child = (g p).child) (hsane : g'.Sane)
    (hinodes : ∀ ip, g'.inodes ip = (g p).inodes ip + ((s.ftable f).onInode ip - x.onInode ip))
    (hfiles : ∀ j, g'.files j = (g p).files j + if j = f then x.ref - (s.ftable f).ref else 0)
    (hends : ∀ n w, g'.ends n w = (g p).ends n w + ((s.ftable f).onEnd n w - x.onEnd n w))
    (hclosed : x.ref = 0 → x.type = .none)
    (hfresh : ∀ j, g'.fresh j = true →
      if j = f then x.type = .none ∧ x.ref = 1 ∧ g'.files f = 1 else (g p).fresh j = true)
    (hother : ∀ q, q ≠ p → (g q).fresh f = true → x.type = .none ∧ x.ref = 1) :
    Accounts (s.setFile f x) (Function.update g p g') := by
  have hbusy' : g'.self ≠ none := hself ▸ hbusy
  refine ⟨⟨fun ip => ?_, h.inodes.unique⟩, ⟨fun j => ?_, fun j => ?_, fun q j hj => ?_⟩,
    ⟨fun n w => ?_, h.pipes.pages⟩, h.roles.update rfl hbusy hself hchild hsane⟩
  · rw [opens_setFile]
    change (s.icache ip).ref = _ + ∑ q, inodeShare (s.procs q) _ ip
    rw [sum_inodeShare (fun _ _ => rfl) hbusy hbusy', hinodes, h.inodes.refs]
    omega
  · change _ = ∑ q, fileShare (s.procs q) _ j
    rw [sum_fileShare (fun _ _ => rfl) hbusy hbusy', hfiles]
    have := h.files.refs j
    simp only [Files.setFile, Function.update_apply]
    split
    · next hj =>
      subst hj
      omega
    · omega
  · simp only [Files.setFile, Function.update_apply]
    split
    · exact hclosed
    · exact h.files.closed j
  · simp only [Files.setFile, Function.update_apply]
    by_cases hq : q = p
    · subst hq
      rw [Function.update_self] at hj
      have hcase := hfresh j hj
      have hshare : fileShare (s.procs q) g' j = g'.files j := by rw [fileShare, if_neg hbusy']
      rw [if_pos rfl, hshare]
      split
      · next hjf =>
        subst hjf
        rwa [if_pos rfl] at hcase
      · next hjf =>
        rw [if_neg hjf] at hcase
        obtain ⟨htype, href, hone⟩ := h.files.fresh q j hcase
        rw [fileShare, if_neg hbusy] at hone
        rw [hfiles, if_neg hjf, add_zero]
        exact ⟨htype, href, hone⟩
    · rw [Function.update_of_ne hq] at hj
      obtain ⟨htype, href, hone⟩ := h.files.fresh q j hj
      rw [if_neg hq]
      split
      · next hjf =>
        subst hjf
        obtain ⟨htype', href'⟩ := hother q hq hj
        exact ⟨htype', href', hone⟩
      · exact ⟨htype, href, hone⟩
  · rw [pipeFiles_setFile, sum_ends, hends]
    have := h.pipes.ends n w
    change _ = s.openEnd n w
    omega

/-- Nobody else has a file that is new in hand. -/
theorem not_fresh {q : ι} (h : Accounts s g) (hbusy : (g p).self ≠ none) (hf : 1 ≤ (g p).files f)
    (hq : q ≠ p) : (g q).fresh f = false := by
  rw [← Bool.not_eq_true]
  intro hfresh
  obtain ⟨-, href, hone⟩ := h.files.fresh q f hfresh
  have hp : 1 ≤ fileShare (s.procs p) (g p) f := by rwa [fileShare, if_neg hbusy]
  have hpair := Finset.sum_le_univ_sum_of_nonneg (s := {p, q})
    (f := fun r => fileShare (s.procs r) (g r) f) fun r => h.fileShare_nonneg r f
  rw [Finset.sum_pair (Ne.symm hq), ← h.files.refs f] at hpair
  omega

/-- The page of a pipe changes, and the ends the process answers for with it. -/
theorem setPages {pages : ℕ → Option Pipe} (h : Accounts s g) (hbusy : (g p).self ≠ none)
    (hself : g'.self = (g p).self) (hchild : g'.child = (g p).child)
    (hinodes : g'.inodes = (g p).inodes) (hfiles : g'.files = (g p).files)
    (hfresh : g'.fresh = (g p).fresh) (hsane : g'.Sane)
    (hends : ∀ n w, ({ s with pages := pages } : Files ι).openEnd n w =
      s.openEnd n w + (g'.ends n w - (g p).ends n w))
    (hpages : ∀ n x, pages n = some x → x.readopen = true ∨ x.writeopen = true) :
    Accounts { s with pages := pages } (Function.update g p g') := by
  have hbusy' : g'.self ≠ none := hself ▸ hbusy
  refine ⟨⟨fun ip => ?_, h.inodes.unique⟩, ⟨fun j => ?_, h.files.closed, fun q j hj => ?_⟩,
    ⟨fun n w => ?_, hpages⟩, h.roles.update rfl hbusy hself hchild hsane⟩
  · rw [sum_inodeShare (fun _ _ => rfl) hbusy hbusy', hinodes, sub_self, add_zero]
    exact h.inodes.refs ip
  · rw [sum_fileShare (fun _ _ => rfl) hbusy hbusy', hfiles, sub_self, add_zero]
    exact h.files.refs j
  · by_cases hq : q = p
    · subst hq
      rw [Function.update_self] at hj ⊢
      rw [hfresh] at hj
      rw [fileShare, if_neg hbusy', hfiles]
      have := h.files.fresh q j hj
      rwa [fileShare, if_neg hbusy] at this
    · rw [Function.update_of_ne hq] at hj ⊢
      exact h.files.fresh q j hj
  · rw [sum_ends, hends, ← h.pipes.ends n w]
    change s.pipeFiles n w + _ = _
    omega

/-- The process changes its own table. -/
theorem setSelf {x : Holding} {F : Holding → Holding} (h : Accounts s g)
    (hx : (g p).self = some x) (hlife : (F x).life = .live ∨ (F x).life = .zombie)
    (hgone : (F x).life = .zombie → (F x).Empty) :
    Accounts (s.setProc p (F x)) (Function.update g p ((g p).withSelf F)) := by
  have hbusy : (g p).self ≠ none := by rw [hx]; exact Option.some_ne_none x
  have hself : ((g p).withSelf F).self = some (F x) := by rw [Hands.withSelf, hx]; rfl
  have hbusy' : ((g p).withSelf F).self ≠ none := by rw [hself]; exact Option.some_ne_none _
  have hprocs : ∀ q, q ≠ p → (s.setProc p (F x)).procs q = s.procs q := fun q hq =>
    Function.update_of_ne hq ..
  have hp : (s.setProc p (F x)).procs p = F x := Function.update_self ..
  have hchild : ∀ q, (Function.update g p ((g p).withSelf F) q).child = (g q).child := by
    intro q
    rw [Function.update_apply]
    split
    · next hq => rw [hq]; rfl
    · rfl
  have hlife' := (h.roles.self p x hx).2
  refine ⟨⟨fun ip => ?_, h.inodes.unique⟩, ⟨fun j => ?_, h.files.closed, fun q j hj => ?_⟩,
    ⟨fun n w => ?_, h.pipes.pages⟩,
    ⟨fun q => ?_, fun q hq => ?_, fun q y hq => ?_, fun q r y hq => ?_, ?_, fun q hq => ?_,
      fun q hq => ?_⟩⟩
  · rw [sum_inodeShare hprocs hbusy hbusy']
    simp only [Hands.withSelf, sub_self, add_zero]
    exact h.inodes.refs ip
  · rw [sum_fileShare hprocs hbusy hbusy']
    simp only [Hands.withSelf, sub_self, add_zero]
    exact h.files.refs j
  · by_cases hq : q = p
    · subst hq
      rw [Function.update_self] at hj ⊢
      have := h.files.fresh q j hj
      rw [fileShare, if_neg hbusy] at this
      rwa [fileShare, if_neg hbusy']
    · rw [Function.update_of_ne hq] at hj ⊢
      rw [hprocs q hq]
      exact h.files.fresh q j hj
  · rw [sum_ends]
    simp only [Hands.withSelf, sub_self, add_zero]
    exact h.pipes.ends n w
  · by_cases hq : q = p
    · subst hq
      rw [Function.update_self]
      exact (h.roles.sane q).withSelf F
    · rw [Function.update_of_ne hq]
      exact h.roles.sane q
  · have hne : q ≠ p := by
      rintro rfl
      rw [Function.update_self] at hq
      exact hbusy' hq
    rw [Function.update_of_ne hne] at hq ⊢
    exact h.roles.idle q hq
  · by_cases hqp : q = p
    · subst hqp
      rw [Function.update_self, hself] at hq
      cases hq
      exact ⟨hp, hlife⟩
    · rw [Function.update_of_ne hqp] at hq
      rw [hprocs q hqp]
      exact h.roles.self q y hq
  · rw [hchild] at hq
    obtain ⟨hr, hy⟩ := h.roles.child q r y hq
    -- an embryo is not in the kernel
    have hne : r ≠ p := by
      rintro rfl
      rw [← (h.roles.self r x hx).1, hr, hy] at hlife'
      rcases hlife' with hl | hl <;> cases hl
    rw [hprocs r hne]
    exact ⟨hr, hy⟩
  · simp only [hchild]
    exact h.roles.oneParent
  · simp only [hchild]
    have hne : q ≠ p := by
      rintro rfl
      rw [hp] at hq
      rcases hlife with hl | hl <;> rw [hl] at hq <;> cases hq
    rw [hprocs q hne] at hq
    exact h.roles.embryo q hq
  · by_cases hqp : q = p
    · subst hqp
      rw [hp] at hq ⊢
      rcases hlife with hl | hl
      · rcases hq with hq | hq <;> rw [hl] at hq <;> cases hq
      · exact hgone hl
    · rw [hprocs q hqp] at hq ⊢
      exact h.roles.gone q hq

theorem sum_inodeShare_idle {q : ι} (hq : (g q).self = none) (y : Holding) (ip : Fin NINODE) :
    ∑ r, inodeShare ((s.setProc q y).procs r) (g r) ip =
      ∑ r, inodeShare (s.procs r) (g r) ip + (y.inCwd ip - (s.procs q).inCwd ip) := by
  rw [sum_eq_of_ne q (F := fun r => inodeShare (s.procs r) (g r) ip)]
  · simp only [Files.setProc, Function.update_self, inodeShare, hq, if_true]
  · intro r hr
    simp only [Files.setProc, Function.update_of_ne hr]

theorem sum_fileShare_idle {q : ι} (hq : (g q).self = none) (y : Holding) (f : Fin NFILE) :
    ∑ r, fileShare ((s.setProc q y).procs r) (g r) f =
      ∑ r, fileShare (s.procs r) (g r) f + (y.slots f - (s.procs q).slots f) := by
  rw [sum_eq_of_ne q (F := fun r => fileShare (s.procs r) (g r) f)]
  · simp only [Files.setProc, Function.update_self, fileShare, hq, if_true]
  · intro r hr
    simp only [Files.setProc, Function.update_of_ne hr]

/-- The process changes the table of an embryo. -/
theorem setChild {q : ι} {y : Holding} (h : Accounts s g) (hbusy : (g p).self ≠ none)
    (hq : (g q).self = none) (hself : g'.self = (g p).self) (hends : g'.ends = (g p).ends)
    (hinodes : ∀ ip, g'.inodes ip = (g p).inodes ip + (s.procs q).inCwd ip - y.inCwd ip)
    (hfiles : ∀ f, g'.files f = (g p).files f + (s.procs q).slots f - y.slots f)
    (hfresh : ∀ f, g'.fresh f = true → (g p).fresh f = true ∧ y.slots f = (s.procs q).slots f)
    (hroles : Roles (s.setProc q y) (Function.update g p g')) :
    Accounts (s.setProc q y) (Function.update g p g') := by
  have hbusy' : g'.self ≠ none := hself ▸ hbusy
  refine ⟨⟨fun ip => ?_, h.inodes.unique⟩, ⟨fun j => ?_, h.files.closed, fun r j hj => ?_⟩,
    ⟨fun n w => ?_, h.pipes.pages⟩, hroles⟩
  · rw [sum_inodeShare (fun _ _ => rfl) hbusy hbusy', sum_inodeShare_idle hq, hinodes]
    have := h.inodes.refs ip
    change _ = s.opens ip + _
    change (s.icache ip).ref = _
    omega
  · rw [sum_fileShare (fun _ _ => rfl) hbusy hbusy', sum_fileShare_idle hq, hfiles]
    have := h.files.refs j
    change (s.ftable j).ref = _
    omega
  · by_cases hr : r = p
    · subst hr
      rw [Function.update_self] at hj ⊢
      obtain ⟨hj', hslots⟩ := hfresh j hj
      obtain ⟨htype, href, hone⟩ := h.files.fresh r j hj'
      rw [fileShare, if_neg hbusy] at hone
      rw [fileShare, if_neg hbusy', hfiles, hslots]
      exact ⟨htype, href, by omega⟩
    · rw [Function.update_of_ne hr] at hj ⊢
      have hrq : r ≠ q := by
        rintro rfl
        rw [h.roles.idle r hq] at hj
        cases hj
      simp only [Files.setProc, Function.update_of_ne hrq]
      exact h.files.fresh r j hj
  · rw [sum_ends, hends, sub_self, add_zero]
    exact h.pipes.ends n w

/-! ### The operations -/

omit [DecidableEq ι] in
/-- Only the copy or the lock of an inode changes. -/
theorem setCopy {i : Inode} (h : Accounts s g) (href : i.ref = (s.icache ip).ref)
    (hdev : i.dev = (s.icache ip).dev) (hinum : i.inum = (s.icache ip).inum) :
    Accounts (s.setInode ip i) g := by
  refine h.congr (fun jp => ?_) rfl rfl rfl
  simp only [Files.setInode, Function.update_apply]
  split
  · next hj =>
    subst hj
    exact ⟨href, hdev, hinum⟩
  · exact ⟨rfl, rfl, rfl⟩

omit [DecidableEq ι] in
theorem setDisk {d : Disk} (h : Accounts s g) : Accounts { s with disk := d } g :=
  h.congr (fun _ => ⟨rfl, rfl, rfl⟩) rfl rfl rfl

theorem run_plain {o : FsOp ι} {choice : ℕ} {r : o.Ret} (h : Accounts s g)
    (ho : o.plain = true) (hrun : o.run p choice s = .ok (r, s')) : Accounts s' g := by
  cases o
  case lock ip =>
    simp only [FsOp.run] at hrun
    split at hrun
    · cases hrun
    · split at hrun
      · cases hrun
      · cases hrun
        exact h.setCopy rfl rfl rfl
  case load ip =>
    simp only [FsOp.run] at hrun
    split at hrun
    · cases hrun
      exact h
    · split at hrun
      · cases hrun
      · cases hrun
        exact h.setCopy rfl rfl rfl
  case unlock ip =>
    simp only [FsOp.run] at hrun
    split at hrun
    · cases hrun
    · cases hrun
      exact h.setCopy rfl rfl rfl
  case setInode ip f =>
    cases hrun
    exact h.setCopy rfl rfl rfl
  case mark size ninodes =>
    simp only [FsOp.run] at hrun
    split at hrun
    · cases hrun
      exact h
    · cases hrun
      exact h.setDisk
  case claim inum type =>
    simp only [FsOp.run] at hrun
    split at hrun
    · cases hrun
      exact h.setDisk
    · cases hrun
      exact h
  case panic msg => cases hrun
  all_goals first | cases ho; done | (cases hrun; first | exact h | exact h.setDisk)

/-- An operation of `p` with the answer `r`, which leads to `s'`, keeps the accounts. -/
def Keeps (p : ι) (g : ι → Hands ι) (o : FsOp ι) (r : o.Ret) (s' : Files ι) : Prop :=
  ∃ g', (custody ι).after (g p) o r g' ∧ g'.self ≠ none ∧ Accounts s' (Function.update g p g')

theorem keeps_same {o : FsOp ι} {r : o.Ret} (h : Accounts s' g) (hbusy : (g p).self ≠ none)
    (hafter : (custody ι).after (g p) o r (g p)) : Keeps p g o r s' :=
  ⟨g p, hafter, hbusy, by rwa [Function.update_eq_self]⟩

omit [Fintype ι] [DecidableEq ι] in
/-- No inode is cached twice if the changed one was cached before. -/
theorem unique_setInode {i : Inode} (h : s.Unique) (hpos : 0 < (s.icache ip).ref)
    (hdev : i.dev = (s.icache ip).dev) (hinum : i.inum = (s.icache ip).inum) :
    (s.setInode ip i).Unique := by
  have hid : ∀ jp, ((s.setInode ip i).icache jp).dev = (s.icache jp).dev ∧
      ((s.setInode ip i).icache jp).inum = (s.icache jp).inum ∧
      (0 < ((s.setInode ip i).icache jp).ref → 0 < (s.icache jp).ref) := by
    intro jp
    simp only [Files.setInode, Function.update_apply]
    split
    · next hj =>
      subst hj
      exact ⟨hdev, hinum, fun _ => hpos⟩
    · exact ⟨rfl, rfl, id⟩
  intro jp kp hjp hkp hd hi
  rw [(hid jp).1, (hid kp).1] at hd
  rw [(hid jp).2.1, (hid kp).2.1] at hi
  exact h jp kp ((hid jp).2.2 hjp) ((hid kp).2.2 hkp) hd hi

omit [Fintype ι] [DecidableEq ι] in
/-- Or if its identity is new. -/
theorem unique_setInode_new {i : Inode} (h : s.Unique)
    (hnew : ∀ jp, 0 < (s.icache jp).ref → ¬ ((s.icache jp).dev = i.dev ∧ (s.icache jp).inum = i.inum)) :
    (s.setInode ip i).Unique := by
  intro jp kp hjp hkp hd hi
  simp only [Files.setInode, Function.update_apply] at hjp hkp hd hi
  split at hjp
  · next hj =>
    rw [if_pos hj] at hd hi
    split at hkp
    · next hk => rw [hj, hk]
    · next hk =>
      rw [if_neg hk] at hd hi
      exact absurd ⟨hd.symm, hi.symm⟩ (hnew kp hkp)
  · next hj =>
    rw [if_neg hj] at hd hi
    split at hkp
    · next hk =>
      rw [if_pos hk] at hd hi
      exact absurd ⟨hd, hi⟩ (hnew jp hjp)
    · next hk =>
      rw [if_neg hk] at hd hi
      exact h jp kp hjp hkp hd hi

omit [Fintype ι] [DecidableEq ι] in
theorem igetSlot_eq_some {dev inum : ℕ} (h : s.igetSlot dev inum = some ip) :
    (0 < (s.icache ip).ref ∧ (s.icache ip).dev = dev ∧ (s.icache ip).inum = inum) ∨
      ((s.icache ip).ref = 0 ∧ ∀ jp, 0 < (s.icache jp).ref →
        ¬ ((s.icache jp).dev = dev ∧ (s.icache jp).inum = inum)) := by
  unfold Files.igetSlot at h
  split at h
  · next jp hjp =>
    cases h
    have hfound := List.find?_some hjp
    exact Or.inl (of_decide_eq_true hfound)
  · next hnone =>
    have hfound := List.find?_some h
    refine Or.inr ⟨of_decide_eq_true hfound, fun jp hjp hid => ?_⟩
    have := List.find?_eq_none.mp hnone jp (List.mem_finRange jp)
    exact this (decide_eq_true ⟨hjp, hid⟩)

theorem keeps_iget {dev inum choice : ℕ} (h : Accounts s g) (hbusy : (g p).self ≠ none)
    (hrun : (FsOp.iget dev inum : FsOp ι).run p choice s = .ok (ip, s')) :
    Keeps p g (.iget dev inum) ip s' := by
  simp only [FsOp.run] at hrun
  split at hrun
  · cases hrun
  · next jp hjp =>
    have hsane := (h.roles.sane p).addInode jp
    rcases igetSlot_eq_some hjp with ⟨hpos, hdev, hinum⟩ | ⟨hzero, hnew⟩
    · rw [if_pos hpos] at hrun
      cases hrun
      exact ⟨_, rfl, hbusy, h.setInode hbusy rfl hsane (unique_setInode h.inodes.unique hpos rfl rfl)⟩
    · rw [if_neg (by omega)] at hrun
      cases hrun
      refine ⟨_, rfl, hbusy, h.setInode hbusy ?_ hsane (unique_setInode_new h.inodes.unique hnew)⟩
      simp [hzero]

theorem keeps_idup {choice : ℕ} (h : Accounts s g) (hbusy : (g p).self ≠ none)
    (hmay : 1 ≤ (g p).inodes ip)
    (hrun : (FsOp.idup ip : FsOp ι).run p choice s = .ok ((), s')) : Keeps p g (.idup ip) () s' := by
  cases hrun
  exact ⟨_, rfl, hbusy, h.setInode hbusy rfl ((h.roles.sane p).addInode ip)
    (unique_setInode h.inodes.unique (h.ref_pos hbusy hmay) rfl rfl)⟩

theorem keeps_putTest {choice : ℕ} {r : Bool} (h : Accounts s g) (hbusy : (g p).self ≠ none)
    (hmay : 1 ≤ (g p).inodes ip)
    (hrun : (FsOp.putTest ip : FsOp ι).run p choice s = .ok (r, s')) :
    Keeps p g (.putTest ip) r s' := by
  simp only [FsOp.run] at hrun
  split at hrun
  · split at hrun
    · cases hrun
    · cases hrun
      exact keeps_same (h.setCopy rfl rfl rfl) hbusy rfl
  · cases hrun
    exact ⟨_, rfl, hbusy, h.setInode hbusy rfl ((h.roles.sane p).dropInode hmay)
      (unique_setInode h.inodes.unique (h.ref_pos hbusy hmay) rfl rfl)⟩

theorem keeps_putFreed {choice : ℕ} (h : Accounts s g) (hbusy : (g p).self ≠ none)
    (hmay : 1 ≤ (g p).inodes ip)
    (hrun : (FsOp.putFreed ip : FsOp ι).run p choice s = .ok ((), s')) :
    Keeps p g (.putFreed ip) () s' := by
  cases hrun
  exact ⟨_, rfl, hbusy, h.setInode hbusy rfl ((h.roles.sane p).dropInode hmay)
    (unique_setInode h.inodes.unique (h.ref_pos hbusy hmay) rfl rfl)⟩

omit [DecidableEq ι] in
/-- Nobody answers for a file that is not open. -/
theorem of_closed (h : Accounts s g) (hf : (s.ftable f).ref = 0) (q : ι) :
    (g q).fresh f = false ∧ fileShare (s.procs q) (g q) f = 0 := by
  constructor
  · rw [← Bool.not_eq_true]
    intro hfresh
    have := (h.files.fresh q f hfresh).2.1
    omega
  · have hle := h.fileShare_le q f
    have hnonneg := h.fileShare_nonneg q f
    omega

theorem keeps_filealloc {choice : ℕ} {r : Option (Fin NFILE)} (h : Accounts s g)
    (hbusy : (g p).self ≠ none) (hrun : (FsOp.filealloc : FsOp ι).run p choice s = .ok (r, s')) :
    Keeps p g .filealloc r s' := by
  simp only [FsOp.run] at hrun
  split at hrun
  · cases hrun
    exact keeps_same h hbusy rfl
  · next f hf =>
    cases hrun
    have hfound := List.find?_some hf
    have hzero : (s.ftable f).ref = 0 := of_decide_eq_true hfound
    obtain ⟨hfresh, hshare⟩ := h.of_closed hzero p
    rw [fileShare, if_neg hbusy] at hshare
    refine ⟨_, ⟨hshare, hfresh, rfl⟩, hbusy, ?_⟩
    refine h.setFile hbusy rfl rfl ((h.roles.sane p).alloc f) (fun ip => ?_) (fun j => ?_)
      (fun n w => ?_) (fun hx => ?_) (fun j hj => ?_) fun q hq hq' => ?_
    · simp [Hands.setFresh, Hands.addFile, File.onInode]
    · simp [Hands.setFresh, Hands.addFile, hzero]
    · simp [Hands.setFresh, Hands.addFile, File.onEnd]
    · cases hx
    · split
      · refine ⟨h.files.closed f hzero, rfl, ?_⟩
        simp [Hands.setFresh, Hands.addFile, hshare]
      · next hjf => rwa [Hands.setFresh_fresh, if_neg hjf] at hj
    · rw [(h.of_closed hzero q).1] at hq'
      cases hq'

theorem keeps_filedup {choice : ℕ} (h : Accounts s g) (hbusy : (g p).self ≠ none)
    (hheld : 1 ≤ (g p).files f) (hfresh : (g p).fresh f = false)
    (hrun : (FsOp.filedup f : FsOp ι).run p choice s = .ok ((), s')) :
    Keeps p g (.filedup f) () s' := by
  simp only [FsOp.run] at hrun
  split at hrun
  · cases hrun
  · cases hrun
    refine ⟨_, rfl, hbusy, ?_⟩
    refine h.setFile hbusy rfl rfl ((h.roles.sane p).addFile f) (fun ip => ?_) (fun j => ?_)
      (fun n w => ?_) (fun hx => ?_) (fun j hj => ?_) fun q hq hq' => ?_
    · simp [Hands.addFile, File.onInode]
    · simp [Hands.addFile]
    · simp [Hands.addFile, File.onEnd]
    · have := h.file_ref_pos hbusy hheld
      change (s.ftable f).ref + 1 = 0 at hx
      omega
    · split
      · next hjf =>
        rw [hjf] at hj
        exact absurd hj (by rw [Hands.addFile, hfresh]; exact Bool.false_ne_true)
      · exact hj
    · rw [h.not_fresh hbusy hheld hq] at hq'
      cases hq'

theorem keeps_filedrop {choice : ℕ} {r : Option File} (h : Accounts s g) (hbusy : (g p).self ≠ none)
    (hheld : 1 ≤ (g p).files f) (hrun : (FsOp.filedrop f : FsOp ι).run p choice s = .ok (r, s')) :
    Keeps p g (.filedrop f) r s' := by
  have hother : ∀ q, q ≠ p → (g q).fresh f = true → False := by
    intro q hq hq'
    rw [h.not_fresh hbusy hheld hq] at hq'
    cases hq'
  simp only [FsOp.run] at hrun
  split at hrun
  · cases hrun
  split at hrun
  · next hmore =>
    -- somebody else has the file as well
    cases hrun
    have hfresh : (g p).fresh f = false := by
      rw [← Bool.not_eq_true]
      intro hfresh
      have := (h.files.fresh p f hfresh).2.1
      omega
    have hsane : ((g p).addFile f (-1)).Sane := (h.roles.sane p).dropFile hheld
    refine ⟨_, ⟨hfresh, rfl⟩, hbusy, h.setFile hbusy rfl rfl hsane (fun ip => ?_) (fun j => ?_)
      (fun n w => ?_) (fun hx => ?_) (fun j hj => ?_) fun q hq hq' => (hother q hq hq').elim⟩
    · simp [Hands.addFile, File.onInode]
    · simp [Hands.addFile]
    · simp [Hands.addFile, File.onEnd]
    · change (s.ftable f).ref - 1 = 0 at hx
      omega
    · split
      · next hjf =>
        rw [hjf] at hj
        exact absurd hj (by rw [Hands.addFile, hfresh]; exact Bool.false_ne_true)
      · exact hj
  · next hlast =>
    cases hrun
    have hone : (s.ftable f).ref = 1 := by
      have := h.file_ref_pos hbusy hheld
      omega
    have hsane := ((h.roles.sane p).close hheld).absorb (s.ftable f)
    refine ⟨_, rfl, hbusy, h.setFile hbusy rfl rfl hsane (fun ip => ?_) (fun j => ?_)
      (fun n w => ?_) (fun _ => rfl) (fun j hj => ?_) fun q hq hq' => (hother q hq hq').elim⟩
    · simp [Hands.absorb, Hands.setFresh, Hands.addFile, File.onInode]
    · simp [Hands.absorb, Hands.setFresh, Hands.addFile, hone]
    · simp [Hands.absorb, Hands.setFresh, Hands.addFile, File.onEnd]
    · change ((g p).setFresh f false).fresh j = true at hj
      rw [Hands.setFresh_fresh] at hj
      split
      · next hjf => rw [if_pos hjf] at hj; cases hj
      · next hjf => rwa [if_neg hjf] at hj

theorem keeps_setFile {F : File → File} {choice : ℕ} (h : Accounts s g)
    (hbusy : (g p).self ≠ none) (hmay : (custody ι).may (g p) (.setFile f F))
    (hrun : (FsOp.setFile f F : FsOp ι).run p choice s = .ok ((), s')) :
    Keeps p g (.setFile f F) () s' := by
  cases hrun
  change if (g p).fresh f = true then _ else _ at hmay
  by_cases hfresh : (g p).fresh f = true
  · rw [if_pos hfresh] at hmay
    obtain ⟨htype, hone, hshare⟩ := h.files.fresh p f hfresh
    rw [fileShare, if_neg hbusy] at hshare
    obtain ⟨href, -, hsane⟩ := hmay (s.ftable f) htype
    refine ⟨((g p).setFresh f false).absorb (F (s.ftable f)) (-1), ?_, hbusy, ?_⟩
    · change if (g p).fresh f = true then _ else _
      rw [if_pos hfresh]
      exact ⟨s.ftable f, htype, rfl⟩
    refine h.setFile hbusy rfl rfl ⟨hsane.inodes, hsane.files, hsane.ends⟩ (fun ip => ?_)
      (fun j => ?_) (fun n w => ?_) (fun hx => ?_) (fun j hj => ?_) fun q hq hq' => ?_
    · simp [Hands.absorb, Hands.setFresh, File.onInode_none htype]
    · simp [Hands.absorb, Hands.setFresh, href]
    · simp [Hands.absorb, Hands.setFresh, File.onEnd_none htype]
    · omega
    · change ((g p).setFresh f false).fresh j = true at hj
      rw [Hands.setFresh_fresh] at hj
      split
      · next hjf => rw [if_pos hjf] at hj; cases hj
      · next hjf => rwa [if_neg hjf] at hj
    · rw [h.not_fresh hbusy (by omega) hq] at hq'
      cases hq'
  · rw [if_neg hfresh] at hmay
    obtain ⟨htype, href, hip, hpipe, hwritable⟩ := hmay (s.ftable f)
    refine ⟨g p, ?_, hbusy, ?_⟩
    · change if (g p).fresh f = true then _ else _
      rw [if_neg hfresh]
    refine h.setFile hbusy rfl rfl (h.roles.sane p) (fun ip => ?_) (fun j => ?_)
      (fun n w => ?_) (fun hx => ?_) (fun j hj => ?_) fun q hq hq' => ?_
    · simp [File.onInode, htype, hip]
    · simp [href]
    · simp [File.onEnd, htype, hpipe, hwritable]
    · rw [htype]
      exact h.files.closed f (href ▸ hx)
    · split
      · next hjf => exact absurd (hjf ▸ hj) hfresh
      · exact hj
    · obtain ⟨htype', href', -⟩ := h.files.fresh q f hq'
      exact ⟨htype.trans htype', href.trans href'⟩

theorem keeps_kalloc {choice : ℕ} {r : Option ℕ} (h : Accounts s g) (hbusy : (g p).self ≠ none)
    (hrun : (FsOp.kalloc : FsOp ι).run p choice s = .ok (r, s')) : Keeps p g .kalloc r s' := by
  simp only [FsOp.run] at hrun
  split at hrun
  · cases hrun
    exact keeps_same h hbusy rfl
  · next n =>
    split at hrun
    · next hfree =>
      cases hrun
      refine ⟨_, rfl, hbusy, h.setPages hbusy rfl rfl rfl rfl rfl
        (((h.roles.sane p).addEnd n false).addEnd n true) (fun m w => ?_) fun m x hx => ?_⟩
      · simp only [Hands.addEnd, Files.openEnd, Function.update_apply]
        by_cases hm : m = n
        · subst hm
          cases w <;> simp [hfree, Pipe.isOpen]
        · simp [hm]
      · rw [Function.update_apply] at hx
        split at hx
        · cases hx
          exact Or.inl rfl
        · exact h.pipes.pages m x hx
    · cases hrun

omit [DecidableEq ι] in
/-- An end of a pipe in hand is open. -/
theorem open_of_held {n : ℕ} {w : Bool} (h : Accounts s g) (hheld : 1 ≤ (g p).ends n w) :
    ∃ x, s.pages n = some x ∧ x.isOpen w = true := by
  have hsum := Finset.single_le_sum (f := fun q => (g q).ends n w)
    (fun q _ => (h.roles.sane q).ends n w) (Finset.mem_univ p)
  have hfiles := s.pipeFiles_nonneg n w
  have hopen := h.pipes.ends n w
  rw [Files.openEnd] at hopen
  split at hopen
  · next hany =>
    obtain ⟨x, hx, hany⟩ := (Option.any_eq_true _ _).mp hany
    exact ⟨x, hx, hany⟩
  · omega

theorem keeps_pipeclose {n choice : ℕ} {w : Bool} (h : Accounts s g) (hbusy : (g p).self ≠ none)
    (hheld : 1 ≤ (g p).ends n w)
    (hrun : (FsOp.pipeclose n w : FsOp ι).run p choice s = .ok ((), s')) :
    Keeps p g (.pipeclose n w) () s' := by
  cases hrun
  obtain ⟨x, hx, hopen⟩ := h.open_of_held hheld
  refine ⟨_, rfl, hbusy, h.setPages hbusy rfl rfl rfl rfl rfl ((h.roles.sane p).dropEnd hheld)
    (fun m v => ?_) fun m y hy => ?_⟩
  · simp only [Hands.addEnd, Files.openEnd, Function.update_apply]
    by_cases hm : m = n
    · subst hm
      have := x.isOpen_close w v
      simp only [hx, if_true, Option.bind_some, true_and, this, Option.any_some]
      by_cases hv : v = w
      · subst hv
        simp [hopen]
      · simp [hv]
    · simp [hm]
  · rw [Function.update_apply] at hy
    split at hy
    · rw [hx] at hy
      exact x.close_eq_some hy
    · exact h.pipes.pages m y hy

/-- The process changes its own table and lives on. -/
theorem keeps_setSelf {o : FsOp ι} {r : o.Ret} {x : Holding} {F : Holding → Holding}
    (h : Accounts s g) (hx : (g p).self = some x) (hlive : x.life ≠ .zombie)
    (hF : (F x).life = x.life) (hafter : (custody ι).after (g p) o r ((g p).withSelf F)) :
    Keeps p g o r (s.setProc p (F (s.procs p))) := by
  obtain ⟨hp, hlife⟩ := h.roles.self p x hx
  have hlive' : (F x).life = .live := hF.trans (hlife.resolve_right hlive)
  have hself : ((g p).withSelf F).self ≠ none := by
    rw [Hands.withSelf, hx]
    exact Option.some_ne_none _
  rw [hp]
  exact ⟨_, hafter, hself, h.setSelf hx (Or.inl hlive') fun hz => absurd (hF ▸ hz) hlive⟩

theorem keeps_fdalloc {choice : ℕ} {r : Option (Fin NOFILE)} (h : Accounts s g)
    (hbusy : (g p).self ≠ none) (hmay : (g p).Alive)
    (hrun : (FsOp.fdalloc f : FsOp ι).run p choice s = .ok (r, s')) :
    Keeps p g (.fdalloc f) r s' := by
  simp only [FsOp.run] at hrun
  split at hrun
  · cases hrun
    exact keeps_same h hbusy rfl
  · next fd hfd =>
    cases hrun
    obtain ⟨x, hx, hlive⟩ := hmay
    refine h.keeps_setSelf (F := (·.setFd fd (some f))) hx hlive rfl ⟨fun y hy => ?_, rfl⟩
    have hfound := List.find?_some hfd
    rw [← (h.roles.self p y hy).1]
    exact Option.isNone_iff_eq_none.mp hfound

theorem keeps_allocproc {q : ι} {choice : ℕ} {r : Bool} (h : Accounts s g)
    (hbusy : (g p).self ≠ none) (hmay : (g p).child = none)
    (hrun : (FsOp.allocproc q : FsOp ι).run p choice s = .ok (r, s')) :
    Keeps p g (.allocproc q) r s' := by
  simp only [FsOp.run] at hrun
  split at hrun
  · next hunused =>
    cases hrun
    have hidle : (g q).self = none := by
      by_contra hq
      exact h.roles.ne_of_self hq (Or.inl hunused) rfl
    have hempty := h.roles.gone q (Or.inl hunused)
    refine ⟨{ g p with child := some (q, { s.procs q with life := .embryo }) },
      ⟨{ s.procs q with life := .embryo }, hempty, rfl, rfl⟩, hbusy, ?_⟩
    refine h.setChild hbusy hidle rfl rfl (fun ip => ?_) (fun f => ?_) (fun f hf => ⟨hf, rfl⟩) ?_
    · exact (add_sub_cancel_right _ _).symm
    · exact (add_sub_cancel_right _ _).symm
    have hsane := h.roles.sane p
    refine h.roles.setChild hbusy rfl ⟨hsane.inodes, hsane.files, hsane.ends⟩ (Or.inl hunused)
      (fun r x _ hr => ?_) (fun r x hr => ?_) rfl (fun hl => by cases hl) fun hl => by cases hl
    · obtain ⟨rfl, hx⟩ := h.roles.child r q x hr
      rw [hunused] at hx
      cases hx
    · rw [hmay] at hr
      cases hr
  · cases hrun
    exact keeps_same h hbusy rfl

theorem keeps_setProc {q : ι} {F : Holding → Holding} {choice : ℕ} (h : Accounts s g)
    (hbusy : (g p).self ≠ none) (hmay : (custody ι).may (g p) (.setProc q F))
    (hrun : (FsOp.setProc q F : FsOp ι).run p choice s = .ok ((), s')) :
    Keeps p g (.setProc q F) () s' := by
  cases hrun
  obtain ⟨x, hchild, hfresh, hlife, hgone, hsane⟩ := hmay
  obtain ⟨rfl, hembryo⟩ := h.roles.child p q x hchild
  have hidle : (g q).self = none := by
    by_contra hq
    exact h.roles.ne_of_self hq (Or.inr hembryo) rfl
  refine ⟨(g p).endow q (s.procs q) (F (s.procs q)), ⟨_, hchild, rfl⟩, hbusy, ?_⟩
  refine h.setChild hbusy hidle rfl rfl (fun ip => rfl) (fun f => rfl) (fun f hf => ?_) ?_
  · have := hfresh f
    rw [Hands.endow, this] at hf
    cases hf
  · refine h.roles.setChild hbusy rfl hsane (Or.inr hembryo) (fun r x hr hr' => ?_)
      (fun r x hr => ?_) rfl hlife hgone
    · exact hr (h.roles.oneParent r p q x _ hr' hchild)
    · rw [hchild] at hr
      cases hr
      rfl

theorem keeps_die {choice : ℕ} (h : Accounts s g) (hmay : ∃ x, g p = .start x ∧ x.Empty)
    (hrun : (FsOp.die : FsOp ι).run p choice s = .ok ((), s')) : Keeps p g .die () s' := by
  cases hrun
  obtain ⟨x, hx, hempty⟩ := hmay
  have hself : (g p).self = some x := by rw [hx]; rfl
  have hself' : ((g p).withSelf fun h => { h with life := .zombie }).self ≠ none := by
    rw [Hands.withSelf, hself]
    exact Option.some_ne_none _
  rw [(h.roles.self p x hself).1]
  exact ⟨_, rfl, hself', h.setSelf (F := fun h => { h with life := .zombie }) hself (Or.inr rfl)
    fun _ => hempty⟩

/-- **Every operation keeps the accounts.** -/
theorem run {o : FsOp ι} {choice : ℕ} {r : o.Ret} (h : Accounts s g) (hbusy : (g p).self ≠ none)
    (hmay : (custody ι).may (g p) o) (hrun : o.run p choice s = .ok (r, s')) :
    Keeps p g o r s' := by
  cases o
  case iget dev inum => exact h.keeps_iget hbusy hrun
  case idup ip => exact h.keeps_idup hbusy hmay hrun
  case putTest ip => exact h.keeps_putTest hbusy hmay hrun
  case putFreed ip => exact h.keeps_putFreed hbusy hmay hrun
  case filealloc => exact h.keeps_filealloc hbusy hrun
  case filedup f => exact h.keeps_filedup hbusy hmay.1 hmay.2 hrun
  case filedrop f => exact h.keeps_filedrop hbusy hmay hrun
  case setFile f F => exact h.keeps_setFile hbusy hmay hrun
  case kalloc => exact h.keeps_kalloc hbusy hrun
  case pipeclose n w => exact h.keeps_pipeclose hbusy hmay hrun
  case cwd =>
    cases hrun
    exact keeps_same h hbusy ⟨rfl, fun x hx => by rw [(h.roles.self p x hx).1]⟩
  case ofile fd =>
    cases hrun
    exact keeps_same h hbusy ⟨rfl, fun x hx => by rw [(h.roles.self p x hx).1]⟩
  case setCwd ip =>
    cases hrun
    obtain ⟨x, hx, hlive⟩ := hmay
    exact h.keeps_setSelf (F := fun h => { h with cwd := ip }) hx hlive rfl rfl
  case setOfile fd f =>
    cases hrun
    obtain ⟨x, hx, hlive⟩ := hmay
    exact h.keeps_setSelf (F := (·.setFd fd f)) hx hlive rfl rfl
  case fdalloc f => exact h.keeps_fdalloc hbusy hmay hrun
  case allocproc q => exact h.keeps_allocproc hbusy hmay hrun
  case setProc q F => exact h.keeps_setProc hbusy hmay hrun
  case die => exact h.keeps_die hmay hrun
  -- the rest leaves references alone
  all_goals exact keeps_same (h.run_plain rfl hrun) hbusy rfl

end Accounts

end StrideXv6
