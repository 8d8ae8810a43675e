import StrideXv6.Setting
import StrideXv6.Syscall
import Mathlib.Algebra.BigOperators.Group.Finset.Basic
import Mathlib.Data.Fintype.BigOperators
import Mathlib.Algebra.Order.BigOperators.Group.Finset

/-!
# Who answers for which reference

While a process is in the kernel, it answers for references to inodes and open
files: those in its own table, and those in local variables. `Hands` is a record
of them, and `custody` says how the operations of the file system change the
record. It follows only what is answered, not what is in the tables. Here the
functions of `fs.c` are shown to keep to it, whatever they are answered.
-/

namespace StrideXv6

open Bracket

/-! ## References -/

/-- The reference to an inode that is the current directory. -/
def Holding.inCwd (h : Holding) (ip : Fin NINODE) : ℤ := if h.cwd = some ip then 1 else 0

/-- How many descriptors are for the file `f`. -/
def Holding.slots (h : Holding) (f : Fin NFILE) : ℤ := ∑ fd, if h.ofile fd = some f then 1 else 0

/-- Change a descriptor. -/
def Holding.setFd (h : Holding) (fd : Fin NOFILE) (r : Option (Fin NFILE)) : Holding :=
  { h with ofile := Function.update h.ofile fd r }

/-- No references. -/
def Holding.Empty (h : Holding) : Prop := h.cwd = none ∧ ∀ fd, h.ofile fd = none

/-- The reference of an open file to an inode. -/
def File.onInode (x : File) (ip : Fin NINODE) : ℤ := if x.type = .inode ∧ x.ip = ip then 1 else 0

/-- The reference of an open file to an end of a pipe. -/
def File.onEnd (x : File) (n : ℕ) (writable : Bool) : ℤ :=
  if x.type = .pipe ∧ x.pipe = n ∧ x.writable = writable then 1 else 0

/-- A change of an open file that leaves its references alone. -/
def File.Inert (f : File → File) : Prop :=
  ∀ x, (f x).type = x.type ∧ (f x).ref = x.ref ∧ (f x).ip = x.ip ∧ (f x).pipe = x.pipe ∧
    (f x).writable = x.writable

/-- What a process answers for. -/
@[ext] structure Hands (ι : Type) : Type where
  /-- its table, if it is in the kernel -/
  self : Option Holding := none
  /-- references to inodes -/
  inodes : Fin NINODE → ℤ := fun _ => 0
  /-- references to open files -/
  files : Fin NFILE → ℤ := fun _ => 0
  /-- files just allocated, which have no type yet -/
  fresh : Fin NFILE → Bool := fun _ => false
  /-- open ends of pipes that belong to no file -/
  ends : ℕ → Bool → ℤ := fun _ _ => 0
  /-- an embryo and its table -/
  child : Option (ι × Holding) := none

namespace Hands

variable {ι : Type}

/-- At the beginning and at the end of a system call. -/
def start (h : Holding) : Hands ι := { self := some h, inodes := h.inCwd, files := h.slots }

def addInode (g : Hands ι) (ip : Fin NINODE) (k : ℤ) : Hands ι :=
  { g with inodes := fun j => g.inodes j + if j = ip then k else 0 }

def addFile (g : Hands ι) (f : Fin NFILE) (k : ℤ) : Hands ι :=
  { g with files := fun j => g.files j + if j = f then k else 0 }

def addEnd (g : Hands ι) (n : ℕ) (w : Bool) (k : ℤ) : Hands ι :=
  { g with ends := fun m v => g.ends m v + if m = n ∧ v = w then k else 0 }

def setFresh (g : Hands ι) (f : Fin NFILE) (b : Bool) : Hands ι :=
  { g with fresh := Function.update g.fresh f b }

/-- Take over the references of a file (`k = 1`), or give them to one (`k = -1`). -/
def absorb (g : Hands ι) (x : File) (k : ℤ) : Hands ι :=
  { g with
    inodes := fun ip => g.inodes ip + k * x.onInode ip
    ends := fun n w => g.ends n w + k * x.onEnd n w }

/-- Change the own table. -/
def withSelf (g : Hands ι) (f : Holding → Holding) : Hands ι := { g with self := g.self.map f }

/-- The embryo `q` gets the table `y` in place of `x`. -/
def endow (g : Hands ι) (q : ι) (x y : Holding) : Hands ι :=
  { g with
    child := if y.life = .embryo then some (q, y) else none
    inodes := fun ip => g.inodes ip + x.inCwd ip - y.inCwd ip
    files := fun f => g.files f + x.slots f - y.slots f }

/-- Nobody answers for less than nothing. -/
structure Sane (g : Hands ι) : Prop where
  inodes : ∀ ip, 0 ≤ g.inodes ip
  files : ∀ f, 0 ≤ g.files f
  ends : ∀ n w, 0 ≤ g.ends n w

/-- The process is in the kernel, and not after the end of `exit`. -/
def Alive (g : Hands ι) : Prop := ∃ h, g.self = some h ∧ h.life ≠ .zombie

/-- At the end of a system call: only the own table. -/
def Settled (g : Hands ι) : Prop := ∃ h, g = start h

end Hands

/-- What an operation needs, and what the process then answers for. -/
def custody (ι : Type) : Setting (fsSig ι) (Hands ι) where
  may g
    | .idup ip => 1 ≤ g.inodes ip
    | .putTest ip => 1 ≤ g.inodes ip
    | .putFreed ip => 1 ≤ g.inodes ip
    | .filedup f => 1 ≤ g.files f ∧ g.fresh f = false
    | .filedrop f => 1 ≤ g.files f
    | .setFile f h =>
      if g.fresh f then
        ∀ x : File, x.type = .none →
          (h x).ref = x.ref ∧ (h x).type ≠ .none ∧ (g.absorb (h x) (-1)).Sane
      else File.Inert h
    | .pipeclose n w => 1 ≤ g.ends n w
    | .cwd => g.self ≠ none
    | .setCwd _ => g.Alive
    | .ofile _ => g.self ≠ none
    | .setOfile _ _ => g.Alive
    | .fdalloc _ => g.Alive
    | .allocproc _ => g.child = none
    | .setProc q h => ∃ x, g.child = some (q, x) ∧ (∀ f, g.fresh f = false) ∧
        (h x).life ≠ .zombie ∧ ((h x).life = .unused → (h x).Empty) ∧ (g.endow q x (h x)).Sane
    | .die => ∃ h, g = .start h ∧ h.Empty
    | _ => True
  after g
    | .iget _ _, ip, g' => g' = g.addInode ip 1
    | .idup ip, _, g' => g' = g.addInode ip 1
    | .putTest ip, r, g' => g' = if r then g else g.addInode ip (-1)
    | .putFreed ip, _, g' => g' = g.addInode ip (-1)
    | .filealloc, none, g' => g' = g
    | .filealloc, some f, g' => g.files f = 0 ∧ g.fresh f = false ∧
        g' = (g.addFile f 1).setFresh f true
    | .filedup f, _, g' => g' = g.addFile f 1
    | .filedrop f, none, g' => g.fresh f = false ∧ g' = g.addFile f (-1)
    | .filedrop f, some x, g' => g' = ((g.addFile f (-1)).setFresh f false).absorb x 1
    | .setFile f h, _, g' =>
      if g.fresh f then
        ∃ x : File, x.type = .none ∧ g' = (g.setFresh f false).absorb (h x) (-1)
      else g' = g
    | .kalloc, none, g' => g' = g
    | .kalloc, some n, g' => g' = (g.addEnd n false 1).addEnd n true 1
    | .pipeclose n w, _, g' => g' = g.addEnd n w (-1)
    | .cwd, r, g' => g' = g ∧ ∀ h, g.self = some h → r = h.cwd
    | .setCwd ip, _, g' => g' = g.withSelf fun h => { h with cwd := ip }
    | .ofile fd, r, g' => g' = g ∧ ∀ h, g.self = some h → r = h.ofile fd
    | .setOfile fd f, _, g' => g' = g.withSelf (·.setFd fd f)
    | .fdalloc _, none, g' => g' = g
    | .fdalloc f, some fd, g' => (∀ h, g.self = some h → h.ofile fd = none) ∧
        g' = g.withSelf (·.setFd fd (some f))
    | .allocproc q, r, g' =>
      if r then ∃ x : Holding, x.Empty ∧ x.life = .embryo ∧ g' = { g with child := some (q, x) }
      else g' = g
    | .setProc q h, _, g' => ∃ x, g.child = some (q, x) ∧ g' = g.endow q x (h x)
    | .die, _, g' => g' = g.withSelf fun h => { h with life := .zombie }
    | _, _, g' => g' = g

/-! ## Code that leaves references alone -/

section Idle

variable {ι : Type}

/-- Operations that have nothing to do with references. -/
def FsOp.plain : FsOp ι → Bool
  | .iget _ _ | .idup _ | .putTest _ | .putFreed _ => false
  | .filealloc | .filedup _ | .filedrop _ | .setFile _ _ | .fdalloc _ => false
  | .kalloc | .pipeclose _ _ => false
  | .cwd | .setCwd _ | .ofile _ | .setOfile _ _ => false
  | .allocproc _ | .setProc _ _ | .die => false
  | _ => true

theorem custody_plain {o : FsOp ι} (ho : o.plain = true) (g : Hands ι) :
    (custody ι).may g o ∧ ∀ r g', (custody ι).after g o r g' → g' = g := by
  cases o <;> first | exact ⟨trivial, fun _ _ h => h⟩ | cases ho

theorem idle_ask {o : FsOp ι} (ho : o.plain = true) : Idle (custody ι) (ask o) :=
  ⟨custody_plain ho, fun _ => trivial⟩

theorem idle_ask_bind {β : Type} {o : FsOp ι} {f : o.Ret → FsCode ι β} (ho : o.plain = true)
    (hf : ∀ r, Idle (custody ι) (f r)) : Idle (custody ι) (ask o >>= f) :=
  (idle_ask ho).bind hf

theorem idle_panic {α : Type} (msg : String) : Idle (custody ι) (panic msg : FsCode ι α) :=
  ⟨custody_plain rfl, fun r => r.elim⟩

theorem idle_bzero (bno : ℕ) : Idle (custody ι) (bzero bno) :=
  idle_ask_bind rfl fun _ =>
    idle_ask rfl

theorem idle_balloc : Idle (custody ι) (balloc : FsCode ι ℕ) := by
  refine idle_ask_bind rfl fun sb => ?_
  refine idle_ask_bind rfl fun r => ?_
  cases r with
  | none => exact idle_panic _
  | some b =>
    refine idle_ask_bind rfl fun _ => ?_
    exact (idle_bzero b).bind fun _ => trivial

theorem idle_bfree (b : ℕ) : Idle (custody ι) (bfree b) := by
  refine idle_ask_bind rfl fun sb => ?_
  refine idle_ask_bind rfl fun r => ?_
  change Idle _ (if _ then _ else _)
  split
  · exact (idle_panic _).bind fun _ => idle_ask rfl
  · exact idle_ask rfl

theorem idle_iupdate (ip : Fin NINODE) : Idle (custody ι) (iupdate ip) :=
  idle_ask_bind rfl fun _ =>
    idle_ask_bind rfl fun _ =>
      idle_ask rfl

theorem idle_ilock (ip : Fin NINODE) : Idle (custody ι) (ilock ip) :=
  idle_ask_bind rfl fun _ =>
    idle_ask rfl

theorem idle_iunlock (ip : Fin NINODE) : Idle (custody ι) (iunlock ip) :=
  idle_ask rfl

theorem idle_setAddr (ip : Fin NINODE) (n a : ℕ) : Idle (custody ι) (setAddr ip n a) :=
  idle_ask rfl

theorem idle_itrunc (ip : Fin NINODE) : Idle (custody ι) (itrunc ip) := by
  have hend : Idle (custody ι) (do
      ask (.setInode ip fun d => { d with size := 0 })
      iupdate ip) :=
    idle_ask_bind rfl fun _ => idle_iupdate ip
  refine (Idle.forEach fun i => ?_).bind fun _ => ?_
  · refine idle_ask_bind rfl fun (a : ℕ) => ?_
    change Idle _ (if a ≠ 0 then _ else _)
    split
    · exact (idle_bfree a).bind fun _ => idle_setAddr ip i 0
    · trivial
  · refine idle_ask_bind rfl fun (a : ℕ) => ?_
    change Idle _ (if a ≠ 0 then _ else _)
    split
    · refine (Idle.forEach fun j => ?_).bind fun _ => ?_
      · refine idle_ask_bind rfl fun (b : ℕ) => ?_
        change Idle _ (if b ≠ 0 then _ else _)
        split
        · exact idle_bfree b
        · trivial
      · exact (idle_bfree a).bind fun _ => (idle_setAddr ip _ 0).bind fun _ => hend
    · exact hend

theorem idle_bmap (ip : Fin NINODE) (bn : ℕ) : Idle (custody ι) (bmap ip bn) := by
  unfold bmap
  split
  · refine idle_ask_bind rfl fun (a : ℕ) => ?_
    change Idle _ (if a ≠ 0 then _ else _)
    split
    · trivial
    · exact idle_balloc.bind fun b => (idle_setAddr ip bn b).bind fun _ => trivial
  · split
    · -- once the indirect block is there
      have hrest : ∀ ind : ℕ, Idle (custody ι) (do
          let a ← ask (.readAddr ind (bn - NDIRECT))
          if a ≠ 0 then return a
          let a ← balloc
          ask (.writeAddr ind (bn - NDIRECT) a)
          ask (.logWrite ind)
          return a : FsCode ι ℕ) := by
        intro ind
        refine idle_ask_bind rfl fun (a : ℕ) => ?_
        change Idle _ (if a ≠ 0 then _ else _)
        split
        · trivial
        · refine idle_balloc.bind fun b => ?_
          refine idle_ask_bind rfl fun _ => ?_
          exact idle_ask_bind rfl fun _ => trivial
      refine idle_ask_bind rfl fun (a : ℕ) => ?_
      change Idle _ (if a ≠ 0 then _ else _)
      split
      · exact hrest a
      · exact idle_balloc.bind fun b => (idle_setAddr ip NDIRECT b).bind fun _ => hrest b
    · exact idle_panic _

theorem idle_consoleread (ip : Fin NINODE) (n : ℕ) : Idle (custody ι) (consoleread ip n) :=
  (idle_iunlock ip).bind fun _ =>
    idle_ask_bind rfl fun _ => (idle_ilock ip).bind fun _ => trivial

theorem idle_consolewrite (ip : Fin NINODE) (n : ℕ) : Idle (custody ι) (consolewrite ip n) :=
  (idle_iunlock ip).bind fun _ => (idle_ilock ip).bind fun _ => trivial

theorem idle_readi (ip : Fin NINODE) (off n : ℕ) : Idle (custody ι) (readi ip off n) := by
  refine idle_ask_bind rfl fun i => ?_
  change Idle _ (if _ then _ else if _ then _ else _)
  split
  · split
    · exact (idle_consoleread ip n).bind fun _ => trivial
    · trivial
  · split
    · trivial
    · exact (Idle.mapEach (idle_bmap ip)).bind fun _ => trivial

theorem idle_writei (ip : Fin NINODE) (off n : ℕ) {fill : ℕ → ℕ → FsCode ι Unit}
    (hfill : ∀ bn b, Idle (custody ι) (fill bn b)) : Idle (custody ι) (writei ip off n fill) := by
  refine idle_ask_bind rfl fun i => ?_
  change Idle _ (if _ then _ else if _ then _ else if _ then _ else _)
  split
  · split
    · exact idle_consolewrite ip n
    · trivial
  · split
    · trivial
    · split
      · trivial
      · refine (Idle.forEach fun bn => ?_).bind fun _ => ?_
        · refine (idle_bmap ip bn).bind fun b => (hfill bn b).bind fun _ => ?_
          exact idle_ask rfl
        · change Idle _ (if _ then _ else _)
          split
          · refine idle_ask_bind rfl fun _ => ?_
            exact (idle_iupdate ip).bind fun _ => trivial
          · trivial

theorem idle_readEntry (dp : Fin NINODE) (off : ℕ) (msg : String) :
    Idle (custody ι) (readEntry dp off msg) := by
  refine (idle_readi dp off DIRENT).bind fun r => ?_
  rcases r with _ | ⟨n, _ | ⟨b, bs⟩⟩
  · exact idle_panic _
  · exact idle_panic _
  · change Idle _ (if _ then _ else _)
    split
    · exact (idle_panic _).bind fun _ => idle_ask rfl
    · exact idle_ask rfl

theorem idle_writeEntry (dp : Fin NINODE) (off : ℕ) (de : Dirent) (msg : String) :
    Idle (custody ι) (writeEntry dp off de msg) := by
  refine (idle_writei dp off DIRENT fun _ _ => idle_ask rfl).bind
    fun r => ?_
  change Idle _ (if _ then _ else _)
  split
  · exact idle_panic _
  · trivial

theorem idle_addLinks (ip : Fin NINODE) (k : ℤ) : Idle (custody ι) (addLinks ip k) :=
  idle_ask_bind rfl fun _ => idle_iupdate ip

theorem idle_isdirempty (dp : Fin NINODE) : Idle (custody ι) (isdirempty dp) := by
  refine idle_ask_bind rfl fun d => ?_
  refine (Idle.firstSome fun off => ?_).bind fun _ => trivial
  exact (idle_readEntry dp off _).bind fun _ => trivial

theorem idle_loaduvm (ip : Fin NINODE) (off sz : ℕ) : Idle (custody ι) (loaduvm ip off sz) := by
  refine (Idle.firstSome fun k => ?_).bind fun _ => trivial
  exact (idle_readi ip _ _).bind fun _ => trivial

/-- `exec`, behind the magic number. -/
theorem idle_execSegments (ip : Fin NINODE) : Idle (custody ι) (do
    if (← ask .choose) = 0 then return false
    let phoff ← ask .choose
    let phnum ← ask .choose
    let failed ← Code.firstSome (List.range phnum) fun k => do
      let r ← readi ip ((phoff + k * 32) % 4294967296) 32
      if r.map Prod.fst ≠ some 32 then return some ()
      match ← ask .choose with
      | 0 => return none
      | 1 => return some ()
      | _ =>
        let off ← ask .choose
        let filesz ← ask .choose
        if ← loaduvm ip off filesz then return none else return some ()
    return failed = none : FsCode ι Bool) := by
  refine idle_ask_bind rfl fun r => ?_
  change Idle _ (if _ then _ else _)
  split
  · trivial
  · refine idle_ask_bind rfl fun phoff => ?_
    refine idle_ask_bind rfl fun phnum => ?_
    refine (Idle.firstSome fun k => ?_).bind fun _ => trivial
    refine (idle_readi ip _ _).bind fun r => ?_
    change Idle _ (if _ then _ else _)
    split
    · trivial
    · refine idle_ask_bind rfl fun (r : ℕ) => ?_
      rcases r with _ | _ | r
      · trivial
      · trivial
      · refine idle_ask_bind rfl fun off => ?_
        refine idle_ask_bind rfl fun filesz => ?_
        refine (idle_loaduvm ip off filesz).bind fun b => ?_
        cases b <;> trivial

theorem idle_execLoad (ip : Fin NINODE) : Idle (custody ι) (execLoad ip) := by
  refine (idle_readi ip 0 52).bind fun r => ?_
  rcases r with _ | ⟨n, bs⟩
  · exact idle_execSegments ip
  · change Idle _ (if _ then _ else _)
    split
    · trivial
    · exact idle_execSegments ip

end Idle

/-! ## Code that takes and gives back references to inodes -/

namespace Hands

variable {ι : Type} {g : Hands ι} {ip jp : Fin NINODE} {f : Fin NFILE}

/-- Take a reference to an inode, if there is one. -/
def hold (g : Hands ι) (r : Option (Fin NINODE)) : Hands ι := r.elim g fun ip => g.addInode ip 1

theorem addInode_cancel (g : Hands ι) (ip : Fin NINODE) (k : ℤ) :
    (g.addInode ip k).addInode ip (-k) = g := by
  ext1 <;> try rfl
  funext j
  simp only [addInode]
  split <;> omega

theorem addInode_comm (g : Hands ι) (ip jp : Fin NINODE) (k l : ℤ) :
    (g.addInode ip k).addInode jp l = (g.addInode jp l).addInode ip k := by
  ext1 <;> try rfl
  funext j
  simp only [addInode]
  omega

theorem Sane.addInode (hg : g.Sane) (ip : Fin NINODE) : (g.addInode ip 1).Sane where
  inodes j := by
    have := hg.inodes j
    simp only [Hands.addInode]
    split <;> omega
  files := hg.files
  ends := hg.ends

theorem Sane.dropInode (hg : g.Sane) (hip : 1 ≤ g.inodes ip) : (g.addInode ip (-1)).Sane where
  inodes j := by
    have := hg.inodes j
    simp only [Hands.addInode]
    split
    · next hj =>
      subst hj
      omega
    · omega
  files := hg.files
  ends := hg.ends

/-- A reference that was just taken is there, -/
theorem Sane.held (hg : g.Sane) (ip : Fin NINODE) : 1 ≤ (g.addInode ip 1).inodes ip := by
  have := hg.inodes ip
  simp only [Hands.addInode, if_true]
  omega

/-- and does not go away when others are taken. -/
theorem held_addInode (hip : 1 ≤ g.inodes ip) (jp : Fin NINODE) :
    1 ≤ (g.addInode jp 1).inodes ip := by
  simp only [addInode]
  split <;> omega

/-- In a system call, and answering for the own current directory. -/
structure Ready (g : Hands ι) : Prop where
  sane : g.Sane
  active : g.self ≠ none
  cwd : ∀ h ip, g.self = some h → h.cwd = some ip → 1 ≤ g.inodes ip

theorem Ready.addInode (hg : g.Ready) (ip : Fin NINODE) : (g.addInode ip 1).Ready where
  sane := hg.sane.addInode ip
  active := hg.active
  cwd h jp hh hcwd := held_addInode (hg.cwd h jp hh hcwd) ip

end Hands

section Ends

open Hands

variable {ι : Type} {g : Hands ι} {ip dp : Fin NINODE} {α β : Type} {Q : β → Hands ι → Prop}

theorem ends_ask {o : FsOp ι} {f : o.Ret → FsCode ι β} (hmay : (custody ι).may g o)
    (hf : ∀ r g', (custody ι).after g o r g' → Ends (custody ι) Q g' (f r)) :
    Ends (custody ι) Q g (ask o >>= f) :=
  ⟨hmay, hf⟩

/-- Nothing comes after a panic. -/
theorem ends_panic (msg : String) : Ends (custody ι) Q g (panic msg) :=
  ⟨trivial, fun r => r.elim⟩

theorem ends_iput (hip : 1 ≤ g.inodes ip) :
    Ends (custody ι) (fun _ g' => g' = g.addInode ip (-1)) g (iput ip) := by
  refine ends_ask hip fun r g' hg' => ?_
  cases r with
  | false => exact hg'
  | true =>
    obtain rfl : g' = g := hg'
    refine (idle_itrunc ip).seq fun _ => (idle_ask rfl).seq fun _ => ?_
    exact (idle_iupdate ip).seq fun _ => ⟨hip, fun _ _ hg' => hg'⟩

theorem ends_iunlockput (hip : 1 ≤ g.inodes ip) :
    Ends (custody ι) (fun _ g' => g' = g.addInode ip (-1)) g (iunlockput ip) :=
  (idle_iunlock ip).seq fun _ => ends_iput hip

/-- A reference that was taken is put. -/
theorem ends_put (hg : g.Sane) :
    Ends (custody ι) (fun _ g' => g' = g) (g.addInode ip 1) (iput ip) :=
  (ends_iput (hg.held ip)).mono fun _ _ hg' => hg'.trans (addInode_cancel g ip 1)

theorem ends_unlockput (hg : g.Sane) :
    Ends (custody ι) (fun _ g' => g' = g) (g.addInode ip 1) (iunlockput ip) :=
  (idle_iunlock ip).seq fun _ => ends_put hg

theorem ends_ialloc (dev : ℕ) (type : IType) :
    Ends (custody ι) (fun r g' => g' = g.addInode r 1) g (ialloc dev type) := by
  refine (idle_ask rfl).seq fun sb => ?_
  refine (Idle.firstSome fun inum => ?_).seq fun r => ?_
  · refine idle_ask_bind rfl fun r => ?_
    cases r with
    | false => trivial
    | true => exact idle_ask_bind rfl fun _ => trivial
  · cases r with
    | none => exact ends_panic _
    | some inum => exact ⟨trivial, fun _ _ hg' => hg'⟩

theorem ends_dirlookup (dp : Fin NINODE) (name : Name) :
    Ends (custody ι) (fun r g' => g' = g.hold (r.map Prod.fst)) g (dirlookup dp name) := by
  refine (idle_ask rfl).seq fun d => ?_
  have hloop : Ends (custody ι) (fun r g' => g' = g.hold (r.map Prod.fst)) g
      (Code.firstSome (entriesOf d.copy.size) fun off => do
        let de ← readEntry dp off "dirlink read"
        if de.inum ≠ 0 ∧ de.name = name then
          let ip ← ask (.iget d.dev de.inum)
          return some (ip, off)
        else return none) := by
    refine (Ends.firstSome (J := fun _ g' => g' = g)
      (R := fun (a : Fin NINODE × ℕ) g' => g' = g.addInode a.1 1) (fun off _ g' hg' => ?_) rfl).mono
      fun r g' hg' => ?_
    · subst hg'
      refine (idle_readEntry dp off _).seq fun de => ?_
      change Ends _ _ _ (if _ then _ else _)
      split
      · refine ends_ask trivial fun ip g'' hg'' => ?_
        exact ⟨fun h => (nomatch h), fun a ha => by cases ha; exact hg''⟩
      · exact ⟨fun _ => rfl, fun _ h => nomatch h⟩
    · cases r with
      | none => exact hg'.1 rfl
      | some a => exact hg'.2 a rfl
  change Ends _ _ _ (if _ then _ else _)
  split
  · exact (idle_panic _).seq fun _ => hloop
  · exact hloop

theorem ends_dirlink (hg : g.Sane) (dp : Fin NINODE) (name : Name) (inum : ℕ) :
    Ends (custody ι) (fun _ g' => g' = g) g (dirlink dp name inum) := by
  refine (ends_dirlookup dp name).bind fun r g' hg' => ?_
  rcases r with _ | ⟨ip, off⟩
  · obtain rfl : g' = g := hg'
    refine (idle_ask rfl).seq fun d => ?_
    refine (Idle.firstSome fun off => ?_).seq fun r => ?_
    · exact (idle_readEntry dp off _).bind fun _ => trivial
    · exact (idle_writeEntry dp _ _ _).seq fun _ => rfl
  · obtain rfl : g' = g.addInode ip 1 := hg'
    exact (ends_put hg).bind fun _ g' hg' => hg'

theorem ends_namexLoop (np : Bool) (names : List Name) (hg : g.Sane) (hip : 1 ≤ g.inodes ip) :
    Ends (custody ι) (fun r g' => g' = (g.addInode ip (-1)).hold (r.map Prod.fst)) g
      (namexLoop np names ip) := by
  induction names generalizing g ip with
  | nil =>
    unfold namexLoop
    split
    · exact (ends_iput hip).bind fun _ g' hg' => hg'
    · exact (addInode_cancel g ip (-1)).symm
  | cons name rest ih =>
    unfold namexLoop
    refine (idle_ilock ip).seq fun _ => (idle_ask rfl).seq fun i => ?_
    change Ends _ _ _ (if _ then _ else if _ then _ else _)
    split
    · exact (ends_iunlockput hip).bind fun _ g' hg' => hg'
    · split
      · exact (idle_iunlock ip).seq fun _ => (addInode_cancel g ip (-1)).symm
      · refine (ends_dirlookup ip name).bind fun r g' hg' => ?_
        rcases r with _ | ⟨next, off⟩
        · obtain rfl : g' = g := hg'
          exact (ends_iunlockput hip).bind fun _ g' hg' => hg'
        · obtain rfl : g' = g.addInode next 1 := hg'
          have hnext := (hg.dropInode hip).held next
          refine (ends_iunlockput (held_addInode hip next)).bind fun _ g' hg' => ?_
          obtain rfl : g' = (g.addInode ip (-1)).addInode next 1 :=
            hg'.trans (addInode_comm g next ip 1 (-1))
          refine (ih ((hg.dropInode hip).addInode next) hnext).mono fun r g' hg' => ?_
          rwa [addInode_cancel] at hg'

theorem ends_namex (hg : g.Ready) (path : Path) (np : Bool) :
    Ends (custody ι) (fun r g' => g' = g.hold (r.map Prod.fst)) g (namex path np) := by
  have hloop : ∀ ip, Ends (custody ι) (fun r g' => g' = g.hold (r.map Prod.fst)) (g.addInode ip 1)
      (namexLoop np path.elems ip) := by
    intro ip
    refine (ends_namexLoop np path.elems (hg.sane.addInode ip) (hg.sane.held ip)).mono
      fun r g' hg' => ?_
    rwa [addInode_cancel] at hg'
  unfold namex
  split
  · exact ends_ask trivial fun ip g' hg' => by rw [hg']; exact hloop ip
  · refine ends_ask hg.active fun r g' hg' => ?_
    obtain ⟨rfl, hr⟩ := hg'
    cases r with
    | none => exact ends_panic _
    | some ip =>
      obtain ⟨h, hh⟩ := Option.ne_none_iff_exists'.mp hg.active
      exact ends_ask (hg.cwd h ip hh (hr h hh).symm) fun _ g' hg' => by rw [hg']; exact hloop ip

theorem ends_namei (hg : g.Ready) (path : Path) :
    Ends (custody ι) (fun r g' => g' = g.hold r) g (namei path) :=
  (ends_namex hg path false).bind fun _ _ hg' => hg'

theorem ends_create (hg : g.Ready) (path : Path) (type : IType) (major minor : ℕ) :
    Ends (custody ι) (fun r g' => g' = g.hold r) g (create path type major minor) := by
  refine (ends_namex hg path true).bind fun r g' hg' => ?_
  rcases r with _ | ⟨dp, name⟩
  · exact hg'
  obtain rfl : g' = g.addInode dp 1 := hg'
  refine (idle_ilock dp).seq fun _ => (ends_dirlookup dp name).bind fun r g' hg' => ?_
  rcases r with _ | ⟨ip, off⟩
  · obtain rfl : g' = g.addInode dp 1 := hg'
    refine (idle_ask rfl).seq fun d => (ends_ialloc d.dev type).bind fun ip g' hg' => ?_
    rw [addInode_comm] at hg'
    subst hg'
    have hip := hg.sane.addInode ip
    refine (idle_ilock ip).seq fun _ => (idle_ask rfl).seq fun _ => ?_
    refine (idle_iupdate ip).seq fun _ => (idle_ask rfl).seq fun i => ?_
    have hend : Ends (custody ι) (fun r g' => g' = g.hold r) ((g.addInode ip 1).addInode dp 1) (do
        if (← dirlink dp name i.inum) = false then panic "create: dirlink"
        iunlockput dp
        return some ip) := by
      refine (ends_dirlink (hip.addInode dp) dp name i.inum).bind fun r g' hg' => ?_
      obtain rfl := hg'
      have hput : Ends (custody ι) (fun r g' => g' = g.hold r) ((g.addInode ip 1).addInode dp 1) (do
          iunlockput dp
          return some ip) := (ends_unlockput hip).bind fun _ g' hg' => hg'
      change Ends _ _ _ (if _ then _ else _)
      split
      · exact (idle_panic _).seq fun _ => hput
      · exact hput
    change Ends _ _ _ (if _ then _ else _)
    split
    · refine (idle_addLinks dp 1).seq fun _ => ?_
      have hdots : Ends (custody ι) (fun _ g' => g' = (g.addInode ip 1).addInode dp 1)
          ((g.addInode ip 1).addInode dp 1) (do
            if ← dirlink ip dot i.inum then dirlink ip dotdot d.inum else return false) := by
        refine (ends_dirlink (hip.addInode dp) ip dot i.inum).bind fun r g' hg' => ?_
        obtain rfl := hg'
        cases r with
        | false => exact rfl
        | true => exact ends_dirlink (hip.addInode dp) ip dotdot d.inum
      refine hdots.bind fun r g' hg' => ?_
      obtain rfl := hg'
      change Ends _ _ _ (if _ then _ else _)
      split
      · exact (idle_panic _).seq fun _ => hend
      · exact hend
    · exact hend
  · obtain rfl : g' = (g.addInode dp 1).addInode ip 1 := hg'
    rw [addInode_comm]
    refine (ends_unlockput (hg.sane.addInode ip)).bind fun _ g' hg' => ?_
    obtain rfl := hg'
    refine (idle_ilock ip).seq fun _ => (idle_ask rfl).seq fun i => ?_
    change Ends _ _ _ (if _ then _ else _)
    split
    · exact rfl
    · exact (ends_unlockput hg.sane).bind fun _ g' hg' => hg'

theorem ends_openInode (hg : g.Ready) (path : Path) (omode : ℕ) :
    Ends (custody ι) (fun r g' => g' = g.hold r) g (openInode path omode) := by
  unfold openInode
  split
  · exact ends_create hg path .file 0 0
  · refine (ends_namei hg path).bind fun r g' hg' => ?_
    cases r with
    | none => exact hg'
    | some ip =>
      obtain rfl : g' = g.addInode ip 1 := hg'
      refine (idle_ilock ip).seq fun _ => (idle_ask rfl).seq fun i => ?_
      change Ends _ _ _ (if _ then _ else _)
      split
      · exact (ends_unlockput hg.sane).bind fun _ g' hg' => hg'
      · exact rfl

/-- The end of `sys_unlink`, which puts both inodes. -/
theorem ends_unlinkEntry (hg : g.Sane) (i : Inode) (off : ℕ) :
    Ends (custody ι) (fun _ g' => g' = g) ((g.addInode ip 1).addInode dp 1)
      (unlinkEntry dp ip i off) := by
  have hend : Ends (custody ι) (fun _ g' => g' = g) ((g.addInode ip 1).addInode dp 1) (do
      iunlockput dp
      addLinks ip (-1)
      iunlockput ip) := by
    refine (ends_unlockput (hg.addInode ip)).bind fun _ g' hg' => ?_
    obtain rfl := hg'
    exact (idle_addLinks ip (-1)).seq fun _ => ends_unlockput hg
  refine (idle_writeEntry dp off {} _).seq fun _ => ?_
  change Ends _ _ _ (if _ then _ else _)
  split
  · exact (idle_addLinks dp (-1)).seq fun _ => hend
  · exact hend

/-- The reference of the current directory is put. -/
theorem ends_iputCwd (hg : g.Ready) :
    Ends (custody ι) (fun _ g' => ∃ h ip, g.self = some h ∧ h.cwd = some ip ∧
      g' = g.addInode ip (-1)) g iputCwd := by
  obtain ⟨h, hh⟩ := Option.ne_none_iff_exists'.mp hg.active
  refine ends_ask hg.active fun r g' hg' => ?_
  obtain ⟨rfl, hr⟩ := hg'
  have hcwd := hr h hh
  cases r with
  | none => exact ends_panic _
  | some ip =>
    exact (ends_iput (hg.cwd h ip hh hcwd.symm)).mono fun _ g' hg' => ⟨h, ip, hh, hcwd.symm, hg'⟩

theorem ends_argnamei (hg : g.Ready) (path : Option Path) :
    Ends (custody ι) (fun r g' => g' = g.hold r) g (argnamei path) := by
  cases path with
  | none => exact rfl
  | some path => exact ends_namei hg path

end Ends

end StrideXv6
