import Mathlib.Data.List.Basic
import StrideXv6.Arguments
import StrideXv6.Bytes
import StrideXv6.Effects

/-!
# Pages and page tables (`kalloc.c`, `vm.c`)

Physical memory is modelled byte by byte, because that is what page tables are
made of: an entry is four bytes of a page, and whoever stores there changes it.
Pages are named by their number, physical ones as well as those of a virtual
address space, so `PGROUNDDOWN(a)` is a quotient. The free list is a list of
pages; the links between its pages are not kept in the pages.

The history `notes` is not part of the machine. It records what the functions do
that nobody can see in memory afterwards.
-/

namespace StrideXv6

open Bytes Effect

/-! ## Constants -/

/-- Entries of a page directory or page table. -/
def NPTENTRIES : ℕ := 1024

/-- The first kernel page. -/
def KERNPAGE : ℕ := 0x80000

/-- The end of physical memory, in pages. -/
def PHYSTOP : ℕ := 0xE000

/-- Where extended memory starts, in pages. -/
def EXTMEM : ℕ := 0x100

/-- The devices at high addresses, in pages. -/
def DEVSPACE : ℕ := 0xFE000

/-- The number of virtual pages. -/
def NPAGE : ℕ := 0x100000

/-- `PTE_P`: present. -/
def PTE_P : ℕ := 1

/-- `PTE_W`: writeable. -/
def PTE_W : ℕ := 2

/-- `PTE_U`: user. -/
def PTE_U : ℕ := 4

/-- The page number of `PGROUNDUP(sz)`. -/
def pgroundup (sz : ℕ) : ℕ := (sz + 4095) / 4096

/-- Where the linker put the kernel, in physical pages: `data` is the first page
of its data, `first` the first one after `end`. -/
structure Layout : Type where
  data : ℕ
  first : ℕ
  /-- the kernel's text is in extended memory -/
  text : EXTMEM < data
  le : data ≤ first
  /-- `kvmalloc` finds what it needs in the first four megabytes -/
  fits : first + 65 ≤ 1024

/-! ## Page table entries -/

/-- Is `PTE_P` set? -/
def isPresent (x : ℕ) : Bool := x % 2 == 1

/-- Is `PTE_W` set? -/
def isWriteable (x : ℕ) : Bool := x / 2 % 2 == 1

/-- Is `PTE_U` set? -/
def isUser (x : ℕ) : Bool := x / 4 % 2 == 1

/-- The page of an entry: `PTE_ADDR`. -/
def pteAddr (x : ℕ) : ℕ := x / 4096

/-- `PTE_FLAGS`. -/
def pteFlags (x : ℕ) : ℕ := x % 4096

/-- An entry for the page with some permissions: `pa | perm`. -/
def mkPte (g perm : ℕ) : ℕ := g * 4096 + perm

/-! ## Memory -/

/-- `struct proghdr`, as far as it is used. -/
structure Proghdr : Type where
  type : ℕ
  off : ℕ
  vaddr : ℕ
  filesz : ℕ
  memsz : ℕ
  deriving DecidableEq, Repr

/-- What is recorded of a call. -/
inductive Note : Type where
  /-- `mappages` got no page for the page table of the virtual page -/
  | starved (v : ℕ)
  /-- `allocuvm` got a page for the virtual page -/
  | grown (v g : ℕ)
  /-- `exec` went on with a header that `readi` did not read -/
  | unread
  /-- `exec` made room for the segment; the image has this size now -/
  | segment (ph : Proghdr) (sz : ℕ)
  /-- `loaduvm` comes to the virtual page -/
  | reach (v : ℕ)
  /-- `loaduvm` reads a part of the file into the page it found for the virtual page -/
  | load (v g : ℕ)
  /-- `uva2ka` takes the page table entry from address 0 -/
  | null (v : ℕ)
  deriving DecidableEq, Repr

/-- The functions stop for ever. -/
inductive VmPanic : Type where
  /-- `kfree` -/
  | kfree
  /-- `remap` -/
  | remap
  /-- `freevm: no pgdir` -/
  | noPgdir
  /-- `clearpteu` -/
  | clearpteu
  /-- `inituvm: more than a page` -/
  | inituvm
  /-- `copyuvm: pte should exist` -/
  | pteShouldExist
  /-- `copyuvm: page not present` -/
  | pageNotPresent
  /-- `loaduvm: addr must be page aligned` -/
  | notAligned
  /-- `loaduvm: address should exist` -/
  | addressShouldExist
  /-- `trap`: a page fault in the kernel -/
  | trap
  /-- `init exiting` -/
  | initExiting
  deriving DecidableEq, Repr

/-- Physical memory, with what the kernel keeps outside of it. -/
structure Phys : Type where
  /-- `kmem.freelist` -/
  free : List ℕ
  /-- the bytes of the pages -/
  byte : ℕ → ℕ → Byte
  /-- what is typed for the next reads of the console: how much they get, and
  whether the process is killed while it waits for more -/
  input : List (List Byte × Bool) := []
  /-- history -/
  notes : List Note := []

/-- Code that works on memory. -/
abbrev Vm : Type → Type := Eff Phys VmPanic

namespace Phys

/-- The entry `j` of the page directory or page table `t`. -/
def pte (m : Phys) (t j : ℕ) : ℕ := word (m.byte t) (4 * j)

/-- Replace the bytes of a page. -/
def setPage (m : Phys) (g : ℕ) (b : ℕ → Byte) : Phys :=
  { m with byte := Function.update m.byte g b }

/-- Store `n` bytes at offset `o` of a page. -/
def store (m : Phys) (g o n : ℕ) (f : ℕ → Byte) : Phys :=
  m.setPage g (splice (m.byte g) o n f)

/-- Write the entry `j` of the page directory or page table `t`. -/
def setPte (m : Phys) (t j x : ℕ) : Phys := m.store t (4 * j) 4 (Bytes.byte x)

/-- `memset` of a whole page. -/
def fill (m : Phys) (g : ℕ) (c : Byte) : Phys := m.setPage g fun _ => c

/-- Change the free list. -/
def setFree (m : Phys) (free : List ℕ) : Phys := { m with free := free }

/-- Add to the history. -/
def note (m : Phys) (e : Note) : Phys := { m with notes := m.notes ++ [e] }

end Phys

/-! ## `kalloc.c` -/

variable (L : Layout)

/-- Free the page of physical memory. -/
def kfree (g : ℕ) : Vm Unit :=
  if g < L.first ∨ g ≥ PHYSTOP then throw .kfree
  else do
    -- Fill with junk to catch dangling refs.
    modify (·.fill g 1#8)
    modify fun m => m.setFree (g :: m.free)

/-- Allocate one page of physical memory. -/
def kalloc : Vm (Option ℕ) := do
  match (← get).free with
  | [] => pure none
  | g :: free =>
    modify (·.setFree free)
    pure (some g)

/-- `freerange` of `n` pages. -/
def freerange : (g n : ℕ) → Vm Unit
  | _, 0 => pure ()
  | g, n + 1 => do
    kfree L g
    freerange (g + 1) n

/-! ## `vm.c` -/

/-- The page table entry for the virtual page: its page table, and which entry of
it. With `alloc` a page table is made where there is none. -/
def walkpgdir (pgdir v : ℕ) (alloc : Bool) : Vm (Option (ℕ × ℕ)) := do
  let pde := (← get).pte pgdir (v / NPTENTRIES)
  if isPresent pde then pure (some (pteAddr pde, v % NPTENTRIES))
  else if alloc then
    match ← kalloc with
    | none => pure none
    | some pgtab =>
      -- Make sure all those PTE_P bits are zero.
      modify (·.fill pgtab 0#8)
      modify (·.setPte pgdir (v / NPTENTRIES) (mkPte pgtab (PTE_P + PTE_W + PTE_U)))
      pure (some (pgtab, v % NPTENTRIES))
  else pure none

/-- Create entries for `n` pages from `v` on that refer to the physical pages from
`g` on. -/
def mappages (pgdir : ℕ) : (v n g perm : ℕ) → Vm Bool
  | _, 0, _, _ => pure true
  | v, n + 1, g, perm => do
    match ← walkpgdir pgdir v true with
    | none =>
      modify (·.note (.starved v))
      pure false
    | some (t, j) =>
      if isPresent ((← get).pte t j) then throw .remap
      else do
        modify (·.setPte t j (mkPte g (perm ||| PTE_P)))
        mappages pgdir (v + 1) n (g + 1) perm

/-- The kernel's mappings, which are present in every page table: the first page,
how many there are, where they are in physical memory, and the permissions. -/
def kmap : List (ℕ × ℕ × ℕ × ℕ) :=
  [(KERNPAGE, EXTMEM, 0, PTE_W),
   (KERNPAGE + EXTMEM, L.data - EXTMEM, EXTMEM, 0),
   (KERNPAGE + L.data, PHYSTOP - L.data, L.data, PTE_W),
   (DEVSPACE, NPAGE - DEVSPACE, DEVSPACE, PTE_W)]

/-- The loop of `setupkvm`. -/
def mapKernel (pgdir : ℕ) : List (ℕ × ℕ × ℕ × ℕ) → Vm Bool
  | [] => pure true
  | (virt, n, phys, perm) :: ks => do
    if ← mappages pgdir virt n phys perm then mapKernel pgdir ks
    else pure false

/-- Set up kernel part of a page table. -/
def setupkvm : Vm (Option ℕ) := do
  match ← kalloc with
  | none => pure none
  | some pgdir =>
    modify (·.fill pgdir 0#8)
    if ← mapKernel pgdir (kmap L) then pure (some pgdir)
    else pure none

/-- Load the initcode into address 0 of the page table. -/
def inituvm (pgdir : ℕ) (init : ℕ → Byte) (sz : ℕ) : Vm Unit :=
  if sz ≥ 4096 then throw .inituvm
  else do
    match ← kalloc with
    | none => throw .trap
    | some mem =>
      modify (·.fill mem 0#8)
      let _ ← mappages pgdir 0 1 mem (PTE_W + PTE_U)
      modify (·.store mem 0 sz init)

/-- Free the page of an entry, if it is there. -/
def freeEntry (t j : ℕ) : Vm Unit := do
  let x := (← get).pte t j
  if isPresent x then do
    kfree L (pteAddr x)
    modify (·.setPte t j 0)
  else pure ()

/-- The loop of `deallocuvm` from the page `a` to the page `last`. -/
def deallocLoop (pgdir last : ℕ) : (a fuel : ℕ) → Vm Unit
  | _, 0 => pure ()
  | a, fuel + 1 =>
    if a < last then do
      match ← walkpgdir pgdir a false with
      | none => deallocLoop pgdir last (a + NPTENTRIES) fuel
      | some (t, j) =>
        freeEntry L t j
        deallocLoop pgdir last (a + 1) fuel
    else pure ()

/-- Deallocate user pages to bring the process size from `oldsz` to `newsz`. -/
def deallocuvm (pgdir oldsz newsz : ℕ) : Vm ℕ :=
  if newsz ≥ oldsz then pure oldsz
  else do
    deallocLoop L pgdir (pgroundup oldsz) (pgroundup newsz) (pgroundup oldsz)
    pure newsz

/-- The loop of `allocuvm` over the `n` pages from `a` on. -/
def allocLoop (pgdir oldsz newsz : ℕ) : (a n : ℕ) → Vm ℕ
  | _, 0 => pure newsz
  | a, n + 1 => do
    match ← kalloc with
    | none =>
      let _ ← deallocuvm L pgdir newsz oldsz
      pure 0
    | some mem =>
      modify (·.note (.grown a mem))
      modify (·.fill mem 0#8)
      -- nobody looks at the answer
      let _ ← mappages pgdir a 1 mem (PTE_W + PTE_U)
      allocLoop pgdir oldsz newsz (a + 1) n

/-- Allocate page tables and physical memory to grow process from `oldsz` to
`newsz`. The new size, or 0 on error. -/
def allocuvm (pgdir oldsz newsz : ℕ) : Vm ℕ :=
  if newsz ≥ KERNBASE then pure 0
  else if newsz < oldsz then pure oldsz
  else allocLoop L pgdir oldsz newsz (pgroundup oldsz) (pgroundup newsz - pgroundup oldsz)

/-- Free a page table. -/
def freeTable (pgdir i : ℕ) : Vm Unit := do
  let pde := (← get).pte pgdir i
  if isPresent pde then kfree L (pteAddr pde) else pure ()

/-- The loop of `freevm` over the `n` page tables from `i` on. -/
def freeTables (pgdir : ℕ) : (i n : ℕ) → Vm Unit
  | _, 0 => pure ()
  | i, n + 1 => do
    freeTable L pgdir i
    freeTables pgdir (i + 1) n

/-- Free a page table and all the physical memory pages in the user part. -/
def freevm (pgdir : ℕ) : Vm Unit := do
  let _ ← deallocuvm L pgdir KERNBASE 0
  freeTables L pgdir 0 NPTENTRIES
  kfree L pgdir

/-- Clear `PTE_U` on a page. -/
def clearpteu (pgdir v : ℕ) : Vm Unit := do
  match ← walkpgdir pgdir v false with
  | none => throw .clearpteu
  | some (t, j) =>
    modify fun m => m.setPte t j (if isUser (m.pte t j) then m.pte t j - PTE_U else m.pte t j)

/-- The loop of `copyuvm` over the `n` pages from `i` on. -/
def copyPages (pgdir d : ℕ) : (i n : ℕ) → Vm Bool
  | _, 0 => pure true
  | i, n + 1 => do
    match ← walkpgdir pgdir i false with
    | none => throw .pteShouldExist
    | some (t, j) =>
      let x := (← get).pte t j
      if isPresent x then
        match ← kalloc with
        | none => pure false
        | some mem =>
          modify fun m => m.store mem 0 4096 (m.byte (pteAddr x))
          if ← mappages d i 1 mem (pteFlags x) then copyPages pgdir d (i + 1) n
          else pure false
      else throw .pageNotPresent

/-- Given a parent process's page table, create a copy of it for a child. -/
def copyuvm (pgdir sz : ℕ) : Vm (Option ℕ) := do
  match ← setupkvm L with
  | none => pure none
  | some d =>
    if ← copyPages pgdir d 0 (pgroundup sz) then pure (some d)
    else do
      freevm L d
      pure none

end StrideXv6
