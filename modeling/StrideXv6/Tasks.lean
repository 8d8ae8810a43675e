import StrideXv6.Exec

/-!
# The memory of processes (`proc.c`, `pipe.c`)

The calls that allocate and free pages, one at a time on one processor: `fork`,
`exec`, `sbrk`, `pipe`, the close of an end of a pipe, `exit` and `wait`; and user
code that stores into its memory in between. A process is what `struct proc` says
about its memory. A call that sleeps has no effect until it goes on.

Which slot `allocproc` finds, which child `wait` finds, whether there are file
structures and descriptors left for a pipe, and what is in the files that `exec`
reads, is given with the call.
-/

namespace StrideXv6

namespace Memory

open Bytes Effect

/-! ## Boot -/

section

variable (L : Layout)

/-- `main`, as far as memory goes: `kinit1`, `kvmalloc`, `kinit2` and `userinit`. The
kernel's page directory, and the kernel stack and page directory of the first
process, whose program is `init`. -/
def bootMemory (init : ℕ → Byte) (sz : ℕ) : Vm (ℕ × ℕ × ℕ) := do
  freerange L L.first (1024 - L.first)
  match ← setupkvm L with
  | none => throw .trap
  | some kpgdir =>
    freerange L 1024 (PHYSTOP - 1024)
    match ← kalloc with
    | none => throw .trap
    | some kstack =>
      match ← setupkvm L with
      | none => throw .trap
      | some pgdir =>
        inituvm pgdir init sz
        pure (kpgdir, kstack, pgdir)

/-! ## `proc.c`, what it does to memory -/

/-- `forks`: `allocproc` gets a kernel stack, and `copyuvm` copies the memory of the
parent. The kernel stack and the page directory of the child. -/
def forkPages (pgdir sz : ℕ) : Vm (Option (ℕ × ℕ)) := do
  match ← kalloc with
  | none => pure none
  | some kstack =>
    match ← copyuvm L pgdir sz with
    | none => do
      kfree L kstack
      pure none
    | some d => pure (some (kstack, d))

/-- `growproc`: the new size, or `none` for `-1`. -/
def growPages (pgdir sz : ℕ) (n : ℤ) : Vm (Option ℕ) := do
  if n > 0 then
    let sz ← allocuvm L pgdir sz (uint (sz + n))
    pure (if sz = 0 then none else some sz)
  else if n < 0 then
    let sz ← deallocuvm L pgdir sz (uint (sz + n))
    pure (if sz = 0 then none else some sz)
  else pure (some sz)

/-- `wait`, for a child that it found. -/
def reapPages (kstack pgdir : ℕ) : Vm Unit := do
  kfree L kstack
  freevm L pgdir

end

/-! ## Processes -/

variable {ι : Type}

/-- What `struct proc` says about memory. -/
structure Task (ι : Type) : Type where
  life : Life := .unused
  kstack : Option ℕ := none
  pgdir : ℕ := 0
  /-- size of process memory -/
  sz : ℕ := 0
  parent : Option ι := none

/-- The machine. -/
structure Machine (ι : Type) : Type where
  phys : Phys
  kpgdir : ℕ
  task : ι → Task ι
  /-- the pages that are pipes -/
  pipes : ℕ → Option Pipe

/-- A call, or a store of user code. -/
inductive MemCall (ι : Type) : Type where
  /-- one of the calls of `forks`; there may be no slot -/
  | fork (p : ι) (np : Option ι)
  | exec (p : ι) (img : Option Image) (junk : ℕ → Byte) (argv : List Arg)
  | sbrk (p : ι) (n : ℤ)
  /-- `files`: there are two file structures; `fds`: there are two descriptors -/
  | pipe (p : ι) (files fds : Bool)
  /-- the last descriptor of an end of the pipe is closed -/
  | close (p : ι) (g : ℕ) (writable : Bool)
  | exit (p : ι)
  /-- `q` is the child that was found -/
  | wait (p q : ι)
  /-- user code stores a byte -/
  | store (p : ι) (va : ℕ) (b : Byte)

/-- The process that makes the call. -/
def MemCall.caller : MemCall ι → ι
  | fork p _ | exec p _ _ _ | sbrk p _ | pipe p _ _ | close p _ _ | exit p | wait p _ | store p _ _ => p

/-- Code on the machine. -/
abbrev Call (ι : Type) : Type → Type := Eff (Machine ι) VmPanic

/-- Code that works on memory only. -/
def onPhys {α : Type} (c : Vm α) : Call ι α := fun s =>
  match c s.phys with
  | (r, m) => (r, { s with phys := m })

variable [DecidableEq ι]

/-- Change the entry of a process. -/
def Machine.setTask (s : Machine ι) (p : ι) (t : Task ι) : Machine ι :=
  { s with task := Function.update s.task p t }

/-- Change the record of a pipe. -/
def Machine.setPipe (s : Machine ι) (g : ℕ) (pi : Option Pipe) : Machine ι :=
  { s with pipes := Function.update s.pipes g pi }

variable (L : Layout) (initproc : ι)

/-- The machine when the first process is there. `byte` is what was in memory, and
`input` what will be typed. -/
def boot (byte : ℕ → ℕ → Byte) (input : List (List Byte × Bool)) (init : ℕ → Byte) (sz : ℕ) :
    Option (Machine ι) :=
  match (bootMemory L init sz).exec { free := [], byte := byte, input := input } with
  | (.ok (kpgdir, kstack, pgdir), m) => some
    { phys := m
      kpgdir := kpgdir
      task := Function.update (fun _ => {}) initproc
        { life := .live, kstack := some kstack, pgdir := pgdir, sz := 4096 }
      pipes := fun _ => none }
  | (.error _, _) => none

/-- `forks`. -/
def forks (p : ι) : Option ι → Call ι Bool
  | none => pure false
  | some np => do
    let parent := (← get).task p
    match ← onPhys (forkPages L parent.pgdir parent.sz) with
    | none => pure false
    | some (kstack, d) =>
      modify (·.setTask np
        { life := .live, kstack := some kstack, pgdir := d, sz := parent.sz, parent := some p })
      pure true

/-- `exec`. -/
def execCall (p : ι) (img : Option Image) (junk : ℕ → Byte) (argv : List Arg) : Call ι Bool := do
  match ← onPhys (exec L ((← get).task p).pgdir img junk argv) with
  | none => pure false
  | some (d, sz) =>
    modify fun s => s.setTask p { s.task p with pgdir := d, sz := sz }
    pure true

/-- `growproc`. -/
def growproc (p : ι) (n : ℤ) : Call ι Bool := do
  let t := (← get).task p
  match ← onPhys (growPages L t.pgdir t.sz n) with
  | none => pure false
  | some sz =>
    modify fun s => s.setTask p { s.task p with sz := sz }
    pure true

/-- `pipeclose`. -/
def pipeclose (g : ℕ) (writable : Bool) : Call ι Unit := do
  match (← get).pipes g with
  | none => pure ()
  | some pi =>
    let pi := if writable then { pi with writeopen := false } else { pi with readopen := false }
    if pi.readopen = false ∧ pi.writeopen = false then do
      modify (·.setPipe g none)
      onPhys (kfree L g)
    else modify (·.setPipe g (some pi))

/-- `sys_pipe`. -/
def sysPipe (files fds : Bool) : Call ι Bool := do
  if files then
    match ← onPhys kalloc with
    | none => pure false
    | some g => do
      modify (·.setPipe g (some {}))
      if fds then pure true
      else do
        pipeclose L g false
        pipeclose L g true
        pure false
  else pure false

/-- `exit`; what it closes is closed before. -/
def exit (p : ι) : Call ι Unit := do
  if p = initproc then throw .initExiting
  else
    modify fun s => { s with task := fun q =>
      let t := s.task q
      let t := if t.parent = some p then { t with parent := some initproc } else t
      if q = p then { t with life := .zombie } else t }

/-- `wait`, when `q` is found. -/
def wait (q : ι) : Call ι Unit := do
  let t := (← get).task q
  onPhys (reapPages L (t.kstack.getD 0) t.pgdir)
  modify (·.setTask q { t with life := .unused, kstack := none, parent := none })

/-- A store of user code; without a page it can write to the process is killed. -/
def userStore (p : ι) (va : ℕ) (b : Byte) : Call ι Unit :=
  modify fun s =>
    match s.phys.walk (s.task p).pgdir (va / 4096) with
    | some x =>
      if isPresent x ∧ isUser x ∧ isWriteable x then
        { s with phys := s.phys.store (pteAddr x) (va % 4096) 1 fun _ => b }
      else s
    | none => s

/-- Can the call be made? -/
def enabled (s : Machine ι) (c : MemCall ι) : Bool :=
  (s.task c.caller).life = .live &&
    match c with
    | .fork _ (some np) => (s.task np).life = .unused
    | .close _ g writable =>
      (s.pipes g).any fun pi => if writable then pi.writeopen else pi.readopen
    | .wait p q => (s.task q).life = .zombie ∧ (s.task q).parent = some p
    -- `sys_exec` takes the strings from the memory of the process
    | .exec p _ _ argv => argv.all fun arg => arg.len < (s.task p).sz
    | .sbrk _ n => -2147483648 ≤ n ∧ n ≤ Word32.intMax
    | .store _ va _ => va < KERNBASE
    | _ => true

/-- What a call does. -/
def call : MemCall ι → Call ι Unit
  | .fork p np => do let _ ← forks L p np
  | .exec p img junk argv => do let _ ← execCall L p img junk argv
  | .sbrk p n => do let _ ← growproc L p n
  | .pipe _ files fds => do let _ ← sysPipe L files fds
  | .close _ g writable => pipeclose L g writable
  | .exit p => exit initproc p
  | .wait _ q => wait L q
  | .store p va b => userStore p va b

/-- One call; none if it cannot be made or the kernel panics. -/
def step (s : Machine ι) (c : MemCall ι) : Option (Machine ι) :=
  if enabled s c then
    match (call L initproc c).exec s with
    | (.ok _, s') => some s'
    | (.error _, _) => none
  else none

end Memory

end StrideXv6
