import StrideXv6.AddressSpace
import StrideXv6.Inode

/-!
# Loading a program (`exec.c`)

`exec` builds a new address space from a file and moves the process over. What it
reads is any file, or what somebody types if the file is the console; the argument
strings are what the process gave it. It stores into memory in two ways: `loaduvm`
reads parts of the file into pages that it finds in the new page table, and
`copyout` puts the arguments on the new stack. Both go through the kernel's
mapping of physical memory, so what they find in a page table decides which page
is hit.
-/

namespace StrideXv6

namespace Phys

/-- What is typed next. -/
def setInput (m : Phys) (input : List (List Bytes.Byte × Bool)) : Phys := { m with input := input }

end Phys

namespace Memory

open Bytes Effect Placement

/-! ## Files -/

/-- A file as `exec` finds it. -/
structure Image : Type where
  type : IType
  major : ℕ := 0
  size : ℕ
  data : ℕ → Byte

/-- What `readi` did: the bytes it stored, and its answer, which is `none` for `-1`. -/
structure Reading : Type where
  len : ℕ := 0
  byte : ℕ → Byte := fun _ => 0#8
  ret : Option ℕ := none

/-- `readi` of a file that is no device. -/
def Image.fileRead (img : Image) (off n : ℕ) : Reading :=
  if off > img.size ∨ (off + n) % 4294967296 < off then {}
  else
    let k := if off + n > img.size then img.size - off else n
    { len := k, byte := fun j => img.data (off + j), ret := some k }

/-- `readi`. The console gives what was typed; another device has no driver. -/
def Image.readi (img : Image) (off n : ℕ) : Vm Reading := do
  if img.type = .dev then
    if img.major = CONSOLE then
      match (← get).input with
      | [] => pure {}
      | (line, killed) :: input =>
        modify (·.setInput input)
        let k := min line.length n
        pure { len := k, byte := fun j => line.getD j 0#8, ret := if killed then none else some k }
    else pure {}
  else pure (img.fileRead off n)

/-! ## Stores through the kernel's mapping -/

variable (L : Layout)

/-- The kernel's page for a physical page. -/
def p2v (g : ℕ) : ℕ := (g + KERNPAGE) % NPAGE

/-- The kernel, on the page table `cur`, stores into its page `v`. -/
def storeAt (cur v o n : ℕ) (f : ℕ → Byte) : Vm Unit := do
  if v < KERNPAGE then
    match (← get).walk cur v with
    | some x =>
      if isPresent x ∧ isWriteable x then modify (·.store (pteAddr x) o n f) else throw .trap
    | none => throw .trap
  else if v < KERNPAGE + EXTMEM ∨ KERNPAGE + L.data ≤ v ∧ v < KERNPAGE + PHYSTOP then
    modify (·.store (v - KERNPAGE) o n f)
  else if v ≥ DEVSPACE then pure ()
  else throw .trap

/-! ## `vm.c`, what `exec` uses -/

/-- One turn of the loop of `loaduvm`: read `n` bytes of the file from `off` on into
the virtual page `v`. -/
def loadPage (cur pgdir : ℕ) (img : Image) (v off n : ℕ) : Vm Bool := do
  modify (·.note (.reach v))
  match ← walkpgdir pgdir v false with
  | none => throw .addressShouldExist
  | some (t, j) =>
    let g := pteAddr ((← get).pte t j)
    modify (·.note (.load v g))
    let r ← img.readi off n
    (if r.len = 0 then pure () else storeAt L cur (p2v g) 0 r.len r.byte)
    pure (r.ret == some n)

/-- The loop of `loaduvm` over the `n` pages of `sz` bytes from the page `i` on. -/
def loadLoop (cur pgdir : ℕ) (img : Image) (v off sz : ℕ) : (i n : ℕ) → Vm Bool
  | _, 0 => pure true
  | i, n + 1 => do
    if ← loadPage L cur pgdir img ((v + i) % NPAGE) ((off + i * 4096) % 4294967296)
        (min 4096 (sz - i * 4096)) then
      loadLoop cur pgdir img v off sz (i + 1) n
    else pure false

/-- Load a program segment into the page table. -/
def loaduvm (cur pgdir : ℕ) (img : Image) (addr off sz : ℕ) : Vm Bool :=
  if addr % 4096 ≠ 0 then throw .notAligned
  else loadLoop L cur pgdir img (addr / 4096) off sz 0 (pgroundup sz)

/-- `*pte`, for the entry that `walkpgdir` found. If it found none, `pte` is 0, and the
kernel reads from there, on the page table `cur`. -/
def loadPte (cur v : ℕ) : Option (ℕ × ℕ) → Vm ℕ
  | some (t, j) => do pure ((← get).pte t j)
  | none => do
    modify (·.note (.null v))
    let m ← get
    match m.mapped cur 0 with
    | some g => pure (word (m.byte g) 0)
    | none => throw .trap

/-- Map user virtual page to physical page. -/
def uva2ka (cur pgdir v : ℕ) : Vm (Option ℕ) := do
  let x ← loadPte cur v (← walkpgdir pgdir v false)
  if isPresent x ∧ isUser x then pure (some (pteAddr x)) else pure none

/-- The loop of `copyout`; every turn copies something, so `len` turns are enough. -/
def copyoutLoop (cur pgdir : ℕ) : (va : ℕ) → (buf : ℕ → Byte) → (len fuel : ℕ) → Vm Bool
  | _, _, _, 0 => pure true
  | va, buf, len, fuel + 1 =>
    if len > 0 then do
      match ← uva2ka cur pgdir (va / 4096) with
      | none => pure false
      | some g =>
        let n := min (4096 - va % 4096) len
        storeAt L cur (p2v g) (va % 4096) n buf
        copyoutLoop cur pgdir ((va / 4096 * 4096 + 4096) % 4294967296) (fun j => buf (n + j))
          (len - n) fuel
    else pure true

/-- Copy `len` bytes to user address `va` in the page table. -/
def copyout (cur pgdir va : ℕ) (buf : ℕ → Byte) (len : ℕ) : Vm Bool :=
  copyoutLoop L cur pgdir va buf len len

/-! ## `exec.c` -/

/-- `ELF_MAGIC`. -/
def ELF_MAGIC : ℕ := 0x464C457F

/-- `ELF_PROG_LOAD`. -/
def ELF_PROG_LOAD : ℕ := 1

/-- `sizeof(struct elfhdr)`. -/
def sizeofElfhdr : ℕ := 52

/-- `sizeof(struct proghdr)`. -/
def sizeofProghdr : ℕ := 32

/-- `elf.magic`. -/
def elfMagic (elf : ℕ → Byte) : ℕ := word elf 0

/-- `elf.phoff`. -/
def elfPhoff (elf : ℕ → Byte) : ℕ := word elf 28

/-- `elf.phnum`. -/
def elfPhnum (elf : ℕ → Byte) : ℕ := half elf 44

/-- The program header in these bytes. -/
def proghdr (b : ℕ → Byte) : Proghdr where
  type := word b 0
  off := word b 4
  vaddr := word b 8
  filesz := word b 16
  memsz := word b 20

/-- An argument string, without its final zero. -/
structure Arg : Type where
  len : ℕ
  byte : ℕ → Byte

/-- Load program into memory: the loop over the program headers from `off` on. The
size of the image, or `none` if it is `bad`. -/
def loadSegments (cur pgdir : ℕ) (img : Image) : (off n sz : ℕ) → Vm (Option ℕ)
  | _, 0, sz => pure (some sz)
  | off, n + 1, sz => do
    let r ← img.readi off sizeofProghdr
    if r.ret = some sizeofProghdr then
      let ph := proghdr r.byte
      if ph.type = ELF_PROG_LOAD then
        if ph.memsz < ph.filesz then pure none
        else do
          let sz ← allocuvm L pgdir sz ((ph.vaddr + ph.memsz) % 4294967296)
          if sz = 0 then pure none
          else do
            modify (·.note (.segment ph sz))
            if ← loaduvm L cur pgdir img ph.vaddr ph.off ph.filesz then
              loadSegments cur pgdir img ((off + sizeofProghdr) % 4294967296) n sz
            else pure none
      else loadSegments cur pgdir img ((off + sizeofProghdr) % 4294967296) n sz
    else pure none

/-- Push argument strings: the stack pointer and the addresses of the strings. -/
def pushArgs (cur pgdir : ℕ) : (argv : List Arg) → (sp : ℕ) → (ustack : List ℕ) →
    Vm (Option (ℕ × List ℕ))
  | [], sp, ustack => pure (some (sp, ustack))
  | arg :: argv, sp, ustack =>
    if ustack.length ≥ MAXARG then pure none
    else do
      let sp := uint (sp - (arg.len + 1)) / 4 * 4
      if ← copyout L cur pgdir sp arg.byte (arg.len + 1) then
        pushArgs cur pgdir argv sp (ustack ++ [sp])
      else pure none

/-- `ustack`: fake return PC, `argc`, `argv`, the addresses and a zero. -/
def ustackOf (sp : ℕ) (args : List ℕ) : List ℕ :=
  0xffffffff :: args.length :: uint (sp - (args.length + 1) * 4) :: args ++ [0]

/-- The bytes of an array of words. -/
def wordBytes (ws : List ℕ) (j : ℕ) : Byte := Bytes.byte (ws.getD (j / 4) 0) (j % 4)

/-- Prepare the stack below `sz`. -/
def setupStack (cur pgdir : ℕ) (argv : List Arg) (sz : ℕ) : Vm Bool := do
  -- make the first page inaccessible
  clearpteu pgdir (sz / 4096 - 2)
  match ← pushArgs L cur pgdir argv sz [] with
  | none => pure false
  | some (sp, args) =>
    let ustack := ustackOf sp args
    copyout L cur pgdir (uint (sp - (3 + args.length + 1) * 4)) (wordBytes ustack)
      ((3 + args.length + 1) * 4)

/-- What is left to do when the program is in memory: the size, or `none` if it is
`bad`. -/
def finishImage (cur pgdir : ℕ) (argv : List Arg) (sz : ℕ) : Vm (Option ℕ) := do
  -- Allocate two pages at the next page boundary.
  let sz ← allocuvm L pgdir (pgroundup sz * 4096) (pgroundup sz * 4096 + 2 * 4096)
  if sz = 0 then pure none
  else do
    if ← setupStack L cur pgdir argv sz then pure (some sz) else pure none

/-- Fill the new address space: its size, or `none` if it is `bad`. -/
def loadImage (cur pgdir : ℕ) (img : Image) (elf : ℕ → Byte) (argv : List Arg) :
    Vm (Option ℕ) := do
  match ← loadSegments L cur pgdir img (elfPhoff elf) (elfPhnum elf) 0 with
  | none => pure none
  | some sz => finishImage L cur pgdir argv sz

/-- `exec` with the header `elf`, up to the point where it commits to the user image:
the new page directory and the size. -/
def buildFrom (cur : ℕ) (img : Image) (elf : ℕ → Byte) (argv : List Arg) :
    Vm (Option (ℕ × ℕ)) := do
  if elfMagic elf ≠ ELF_MAGIC then pure none
  else do
    match ← setupkvm L with
    | none => pure none
    | some pgdir =>
      match ← loadImage L cur pgdir img elf argv with
      | some sz => pure (some (pgdir, sz))
      | none => do
        freevm L pgdir
        pure none

/-- `exec` from the header on. `junk` is what is on the kernel stack where it goes. -/
def buildImage (cur : ℕ) (img : Image) (junk : ℕ → Byte) (argv : List Arg) :
    Vm (Option (ℕ × ℕ)) := do
  let r ← img.readi 0 sizeofElfhdr
  -- the comparison is unsigned, so `-1` is not less
  if r.ret.any (· < sizeofElfhdr) then pure none
  else do
    (if r.ret = none then modify (·.note .unread) else pure ())
    buildFrom L cur img (splice junk 0 r.len r.byte) argv

/-- `exec` for a process with the page directory `cur`; there is no `img` if the path
leads nowhere. -/
def exec (cur : ℕ) (img : Option Image) (junk : ℕ → Byte) (argv : List Arg) :
    Vm (Option (ℕ × ℕ)) :=
  match img with
  | none => pure none
  | some img => do
    match ← buildImage L cur img junk argv with
    | none => pure none
    | some (pgdir, sz) => do
      freevm L cur
      pure (some (pgdir, sz))

/-! ## What is recorded

Whatever memory looks like. Only `loaduvm` stops with the panics of `loaduvm`. -/

section

variable {L : Layout} {d v n g cur : ℕ} {img : Image} {S : Note → Prop}

/-- The history goes on with notes in `S`. -/
def Adds (S : Note → Prop) (m m' : Phys) : Prop := ∃ l, m'.notes = m.notes ++ l ∧ ∀ e ∈ l, S e

/-- The history goes on. -/
abbrev Extends : Phys → Phys → Prop := Adds fun _ => True

instance : Std.Refl (Adds S) := ⟨fun _ => ⟨[], (List.append_nil _).symm, nofun⟩⟩

instance : IsTrans Phys (Adds S) where
  trans := by
    rintro m m' m'' ⟨l, hl, hS⟩ ⟨l', hl', hS'⟩
    refine ⟨l ++ l', by rw [hl', hl, List.append_assoc], fun e he => ?_⟩
    exact (List.mem_append.mp he).elim (hS e) (hS' e)

/-- Panics that are not those of `loaduvm`. -/
def Quiet (p : VmPanic) : Prop := p ≠ .notAligned ∧ p ≠ .addressShouldExist

theorem adds_same {f : Phys → Phys} (h : ∀ m, (f m).notes = m.notes) :
    Always (Adds S) Quiet (modify f) :=
  Always.modify fun m => ⟨[], by rw [h, List.append_nil], nofun⟩

theorem adds_note {e : Note} (he : S e) : Always (Adds S) Quiet (modify (·.note e)) :=
  Always.modify fun _ => ⟨[e], rfl, fun _ h => List.mem_singleton.mp h ▸ he⟩

theorem adds_kalloc : Always (Adds S) Quiet kalloc := by
  unfold kalloc
  refine Always.get.bind fun m => ?_
  split
  · exact Always.pure _
  · exact Always.bind (adds_same fun _ => rfl) fun _ => Always.pure _

theorem adds_kfree : Always (Adds S) Quiet (kfree L g) :=
  Always.ite (Always.throw ⟨nofun, nofun⟩)
    (Always.bind (adds_same fun _ => rfl) fun _ => adds_same fun _ => rfl)

theorem adds_walkpgdir {alloc : Bool} : Always (Adds S) Quiet (walkpgdir d v alloc) := by
  unfold walkpgdir
  refine Always.get.bind fun m => Always.ite (Always.pure _) (Always.ite ?_ (Always.pure _))
  refine adds_kalloc.bind fun r => ?_
  split
  · exact Always.pure _
  · exact Always.bind (adds_same fun _ => rfl) fun _ => Always.bind (adds_same fun _ => rfl) fun _ =>
      Always.pure _

theorem adds_mappages (hS : ∀ v, S (.starved v)) :
    ∀ {v g perm : ℕ}, Always (Adds S) Quiet (mappages d v n g perm) := by
  induction n with
  | zero => exact Always.pure _
  | succ n ih =>
    intro v g perm
    unfold mappages
    refine adds_walkpgdir.bind fun r => ?_
    split
    · exact Always.bind (adds_note (hS v)) fun _ => Always.pure _
    · exact Always.get.bind fun m => Always.ite (Always.throw ⟨nofun, nofun⟩)
        (Always.bind (adds_same fun _ => rfl) fun _ => ih)

theorem adds_mapKernel (hS : ∀ v, S (.starved v)) {ks : List (ℕ × ℕ × ℕ × ℕ)} :
    Always (Adds S) Quiet (mapKernel d ks) := by
  induction ks with
  | nil => exact Always.pure _
  | cons k ks ih => exact (adds_mappages hS).bind fun ok => Always.ite ih (Always.pure _)

theorem adds_setupkvm (hS : ∀ v, S (.starved v)) : Always (Adds S) Quiet (setupkvm L) := by
  unfold setupkvm
  refine adds_kalloc.bind fun r => ?_
  split
  · exact Always.pure _
  · exact Always.bind (adds_same fun _ => rfl) fun _ => (adds_mapKernel hS).bind fun _ =>
      Always.ite (Always.pure _) (Always.pure _)

theorem adds_deallocLoop {last : ℕ} :
    ∀ {a : ℕ}, Always (Adds S) Quiet (deallocLoop L d last a n) := by
  induction n with
  | zero => exact Always.pure _
  | succ n ih =>
    intro a
    unfold deallocLoop
    refine Always.ite (adds_walkpgdir.bind fun r => ?_) (Always.pure _)
    split
    · exact ih
    · refine Always.bind ?_ fun _ => ih
      exact Always.get.bind fun m => Always.ite
        (adds_kfree.bind fun _ => adds_same fun _ => rfl) (Always.pure _)

theorem adds_deallocuvm {oldsz newsz : ℕ} : Always (Adds S) Quiet (deallocuvm L d oldsz newsz) :=
  Always.ite (Always.pure _) (adds_deallocLoop.bind fun _ => Always.pure _)

theorem adds_freeTables : ∀ {i : ℕ}, Always (Adds S) Quiet (freeTables L d i n) := by
  induction n with
  | zero => exact Always.pure _
  | succ n ih =>
    intro i
    refine Always.bind ?_ fun _ => ih
    exact Always.get.bind fun m => Always.ite adds_kfree (Always.pure _)

theorem adds_freevm : Always (Adds S) Quiet (freevm L d) :=
  adds_deallocuvm.bind fun _ => adds_freeTables.bind fun _ => adds_kfree

theorem adds_allocLoop (hS : ∀ v, S (.starved v)) (hS' : ∀ v g, S (.grown v g)) {oldsz newsz : ℕ} :
    ∀ {a : ℕ}, Always (Adds S) Quiet (allocLoop L d oldsz newsz a n) := by
  induction n with
  | zero => exact Always.pure _
  | succ n ih =>
    intro a
    unfold allocLoop
    refine adds_kalloc.bind fun r => ?_
    split
    · exact adds_deallocuvm.bind fun _ => Always.pure _
    · exact Always.bind (adds_note (hS' _ _)) fun _ => Always.bind (adds_same fun _ => rfl) fun _ =>
        (adds_mappages hS).bind fun _ => ih

theorem adds_allocuvm (hS : ∀ v, S (.starved v)) (hS' : ∀ v g, S (.grown v g)) {oldsz newsz : ℕ} :
    Always (Adds S) Quiet (allocuvm L d oldsz newsz) :=
  Always.ite (Always.pure _) (Always.ite (Always.pure _) (adds_allocLoop hS hS'))

theorem adds_readi {off : ℕ} : Always (Adds S) Quiet (img.readi off n) := by
  unfold Image.readi
  refine Always.ite (Always.ite (Always.get.bind fun m => ?_) (Always.pure _)) (Always.pure _)
  split
  · exact Always.pure _
  · exact Always.bind (adds_same fun _ => rfl) fun _ => Always.pure _

theorem adds_storeAt {o : ℕ} {f : ℕ → Byte} : Always (Adds S) Quiet (storeAt L cur v o n f) := by
  unfold storeAt
  refine Always.ite (Always.get.bind fun m => ?_) (Always.ite (adds_same fun _ => rfl)
    (Always.ite (Always.pure _) (Always.throw ⟨nofun, nofun⟩)))
  split
  · exact Always.ite (adds_same fun _ => rfl) (Always.throw ⟨nofun, nofun⟩)
  · exact Always.throw ⟨nofun, nofun⟩

theorem adds_uva2ka (hS : ∀ v, S (.null v)) : Always (Adds S) Quiet (uva2ka cur d v) := by
  refine adds_walkpgdir.bind fun r => Always.bind ?_ fun x =>
    Always.ite (Always.pure _) (Always.pure _)
  unfold loadPte
  split
  · exact Always.get.bind fun m => Always.pure _
  · refine Always.bind (adds_note (hS v)) fun _ => Always.get.bind fun m => ?_
    split
    · exact Always.pure _
    · exact Always.throw ⟨nofun, nofun⟩

theorem adds_copyoutLoop (hS : ∀ v, S (.null v)) :
    ∀ {va : ℕ} {buf : ℕ → Byte} {len : ℕ},
      Always (Adds S) Quiet (copyoutLoop L cur d va buf len n) := by
  induction n with
  | zero => exact Always.pure _
  | succ n ih =>
    intro va buf len
    unfold copyoutLoop
    refine Always.ite ((adds_uva2ka hS).bind fun r => ?_) (Always.pure _)
    split
    · exact Always.pure _
    · exact Always.bind adds_storeAt fun _ => ih

theorem adds_pushArgs (hS : ∀ v, S (.null v)) {argv : List Arg} :
    ∀ {sp : ℕ} {ustack : List ℕ}, Always (Adds S) Quiet (pushArgs L cur d argv sp ustack) := by
  induction argv with
  | nil => exact Always.pure _
  | cons arg argv ih =>
    intro sp ustack
    exact Always.ite (Always.pure _)
      ((adds_copyoutLoop hS).bind fun ok => Always.ite ih (Always.pure _))

theorem adds_clearpteu : Always (Adds S) Quiet (clearpteu d v) := by
  refine adds_walkpgdir.bind fun r => ?_
  split
  · exact Always.throw ⟨nofun, nofun⟩
  · exact adds_same fun _ => rfl

theorem adds_setupStack (hS : ∀ v, S (.null v)) {argv : List Arg} {sz : ℕ} :
    Always (Adds S) Quiet (setupStack L cur d argv sz) := by
  refine adds_clearpteu.bind fun _ => (adds_pushArgs hS).bind fun r => ?_
  split
  · exact Always.pure _
  · exact adds_copyoutLoop hS

/-! Code that calls `loaduvm` may stop in any way. -/

section

variable (hS : ∀ n, n ≠ .unread → S n)

include hS

theorem adds_loadPage {off : ℕ} :
    Always (Adds S) (fun _ => True) (loadPage L cur d img v off n) := by
  unfold loadPage
  refine ((adds_note (hS (.reach v) nofun)).any).bind fun _ => (adds_walkpgdir.any).bind fun r => ?_
  split
  · exact Always.throw trivial
  · refine Always.get.bind fun m => Always.any (F := Quiet) ?_
    exact Always.bind (adds_note (hS (.load v _) nofun)) fun _ => adds_readi.bind fun r =>
      (Always.ite (Always.pure _) adds_storeAt).bind fun _ => Always.pure _

theorem adds_loadLoop {off sz : ℕ} :
    ∀ {i : ℕ}, Always (Adds S) (fun _ => True) (loadLoop L cur d img v off sz i n) := by
  induction n with
  | zero => exact Always.pure _
  | succ n ih => exact (adds_loadPage hS).bind fun ok => Always.ite ih (Always.pure _)

theorem adds_loadSegments :
    ∀ {off sz : ℕ}, Always (Adds S) (fun _ => True) (loadSegments L cur d img off n sz) := by
  induction n with
  | zero => exact Always.pure _
  | succ n ih =>
    intro off sz
    unfold loadSegments
    refine (adds_readi.any).bind fun r =>
      Always.ite (Always.ite (Always.ite (Always.pure _) ?_) ih) (Always.pure _)
    refine ((adds_allocuvm (fun _ => hS _ nofun) fun _ _ => hS _ nofun).any).bind fun sz' =>
      Always.ite (Always.pure _) ?_
    refine ((adds_note (hS (.segment _ sz') nofun)).any).bind fun _ => Always.bind ?_ fun ok =>
      Always.ite ih (Always.pure _)
    exact Always.ite (Always.throw trivial) (adds_loadLoop hS)

theorem adds_finishImage {sz : ℕ} {argv : List Arg} :
    Always (Adds S) Quiet (finishImage L cur d argv sz) := by
  refine (adds_allocuvm (fun _ => hS _ nofun) fun _ _ => hS _ nofun).bind fun sz =>
    Always.ite (Always.pure _) ?_
  exact (adds_setupStack fun _ => hS _ nofun).bind fun ok =>
    Always.ite (Always.pure _) (Always.pure _)

theorem adds_loadImage {elf : ℕ → Byte} {argv : List Arg} :
    Always (Adds S) (fun _ => True) (loadImage L cur d img elf argv) := by
  refine (adds_loadSegments hS).bind fun r => ?_
  split
  · exact Always.pure _
  · exact (adds_finishImage hS).any

theorem adds_buildFrom {elf : ℕ → Byte} {argv : List Arg} :
    Always (Adds S) (fun _ => True) (buildFrom L cur img elf argv) := by
  refine Always.ite (Always.pure _) ((adds_setupkvm fun _ => hS _ nofun).any.bind fun r => ?_)
  split
  · exact Always.pure _
  · refine (adds_loadImage hS).bind fun r => ?_
    split
    · exact Always.pure _
    · exact adds_freevm.any.bind fun _ => Always.pure _

end

end

end Memory

end StrideXv6
