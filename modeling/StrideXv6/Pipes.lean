import StrideXv6.Run
import StrideXv6.Bytes
import StrideXv6.CountedRing

/-!
# Pipes (`pipe.c`)

One pipe and any number of processes that read it, write it and close its ends.
A process in one of the three functions stands at a point of its code; a step
takes it from there to the next point, so that other processes and `kill` can
come in between any two of them. `p->lock` is a field of the state like any
other: that nobody else touches the pipe while a process holds it is proved
(`Lawful.held`), not built in. `sleep` gives up the lock and marks the process
`SLEEPING` in one step, because both happen under `ptable.lock`, which `wakeup`
and `kill` have to take too.

The pipe is a queue of bytes whatever happens (`pipe_fifo`). That no wakeup is
lost is true with one exception: `pipewrite` wakes the readers at its end and
before it sleeps, but not on its third way out, where the ring is full and the
process killed or the read end closed. Bytes it has written by then wait for the
next call (`no_lost_wakeup`, `killed_writer_leaves_reader_asleep`).
-/

namespace StrideXv6

open Machine

/-- The size of the ring. -/
def PIPESIZE : ℕ := 512

/-- `struct pipe` without its lock. -/
structure PipePage : Type where
  /-- `data`, `nread` and `nwrite` -/
  ring : CountedRing 32 Bytes.Byte
  /-- read fd is still open -/
  readopen : Bool := true
  /-- write fd is still open -/
  writeopen : Bool := true

/-- What processes sleep on. -/
inductive PipeChan : Type where
  /-- `&p->nread`: readers wait for data -/
  | nread
  /-- `&p->nwrite`: writers wait for room -/
  | nwrite
  deriving DecidableEq, Repr

/-! ## Points of the code -/

/-- Points of `pipewrite`. -/
inductive WriteAt : Type where
  /-- `acquire(&p->lock)` -/
  | acquire
  /-- the test `i < n` -/
  | loop
  /-- the test `p->nwrite == p->nread + PIPESIZE` -/
  | full
  /-- `p->data[p->nwrite++ % PIPESIZE] = addr[i]` and `i++` -/
  | copy
  /-- the test `p->readopen == 0 || proc->killed` -/
  | test
  /-- `wakeup(&p->nread)` in the loop -/
  | wake
  /-- `sleep(&p->nwrite, &p->lock)` -/
  | sleep
  /-- in it, until the lock is taken again -/
  | asleep
  /-- `release(&p->lock)` and `return -1` -/
  | fail
  /-- `wakeup(&p->nread)` after the loop -/
  | done
  /-- `release(&p->lock)` and `return n` -/
  | release
  deriving DecidableEq, Repr

/-- Points of `piperead`. -/
inductive ReadAt : Type where
  /-- `acquire(&p->lock)` -/
  | acquire
  /-- the test `p->nread == p->nwrite && p->writeopen` -/
  | empty
  /-- the test `proc->killed` -/
  | test
  /-- `sleep(&p->nread, &p->lock)` -/
  | sleep
  /-- in it, until the lock is taken again -/
  | asleep
  /-- `release(&p->lock)` and `return -1` -/
  | fail
  /-- the test `i < n` -/
  | loop
  /-- the test `p->nread == p->nwrite` -/
  | more
  /-- `addr[i] = p->data[p->nread++ % PIPESIZE]` and `i++` -/
  | copy
  /-- `wakeup(&p->nwrite)` -/
  | wake
  /-- `release(&p->lock)` and `return i` -/
  | release
  deriving DecidableEq, Repr

/-- Points of `pipeclose`. -/
inductive CloseAt : Type where
  /-- `acquire(&p->lock)` -/
  | acquire
  /-- the end is marked as closed -/
  | set
  /-- `wakeup` of the processes at the other end -/
  | wake
  /-- the test `p->readopen == 0 && p->writeopen == 0` -/
  | test
  /-- `release(&p->lock)` -/
  | release
  /-- `release(&p->lock)` before `kfree` -/
  | last
  /-- `kfree((char*)p)` -/
  | kfree
  deriving DecidableEq, Repr

/-- Where a process stands, with its arguments and variables. -/
inductive PipePc : Type where
  /-- in none of the functions -/
  | idle
  /-- in `pipewrite(p, addr, n)`; `copied` is bookkeeping: a byte was copied since
  the process took the lock -/
  | write (addr : ℕ → Bytes.Byte) (n : ℤ) (i : ℕ) (copied : Bool) (pt : WriteAt)
  /-- in `piperead(p, addr, n)` -/
  | read (n : ℤ) (i : ℕ) (pt : ReadAt)
  /-- in `pipeclose(p, writable)` -/
  | close (writable : Bool) (pt : CloseAt)

/-- What the call returns with the next step, if that is the end of it. -/
def PipePc.result : PipePc → Option ℤ
  | write _ n _ _ .release => some n
  | write _ _ _ _ .fail => some (-1)
  | read _ i .release => some i
  | read _ _ .fail => some (-1)
  | _ => none

/-- The processes that use a pipe. -/
structure Piping (ι : Type) : Type where
  page : PipePage
  /-- who holds `p->lock` -/
  lock : Option ι := none
  pc : ι → PipePc := fun _ => .idle
  /-- what a `SLEEPING` process sleeps on -/
  asleep : ι → Option PipeChan := fun _ => none
  /-- `proc->killed` -/
  killed : ι → Bool := fun _ => false
  /-- the page was given back -/
  freed : Bool := false
  /-- the bytes copied in by writers, in order -/
  taken : List Bytes.Byte := []
  /-- the bytes copied out by readers, in order -/
  given : List Bytes.Byte := []

/-- `pipealloc`, with whatever was in the page. -/
def Piping.alloc (ι : Type) (data : ℕ → Bytes.Byte) : Piping ι where
  page := { ring := { data := data, nread := 0, nwrite := 0 } }

namespace Piping

variable {ι : Type} [DecidableEq ι] (s : Piping ι) (q : ι)

/-! ## Steps -/

/-- Go to another point. -/
def goto (pc : PipePc) : Piping ι := { s with pc := Function.update s.pc q pc }

/-- `acquire`, once the lock is free. -/
def acquire (pc : PipePc) : Option (Piping ι) :=
  if s.lock = none then some ({ s with lock := some q }.goto q pc) else none

/-- `release`. -/
def release (pc : PipePc) : Piping ι := { s with lock := none }.goto q pc

/-- `wakeup`. -/
def wakeup (ch : PipeChan) : Piping ι :=
  { s with asleep := fun r => if s.asleep r = some ch then none else s.asleep r }

/-- `sleep` up to the switch to another process. -/
def sleep (ch : PipeChan) (pc : PipePc) : Piping ι :=
  { s with lock := none, asleep := Function.update s.asleep q (some ch) }.goto q pc

/-- The rest of `sleep`, once the process is awake and the lock free. -/
def awake (pc : PipePc) : Option (Piping ι) :=
  if s.asleep q = none then s.acquire q pc else none

/-- The next step in `pipewrite`. -/
def pipewrite (addr : ℕ → Bytes.Byte) (n : ℤ) (i : ℕ) (copied : Bool) :
    WriteAt → Option (Piping ι)
  | .acquire => s.acquire q (.write addr n 0 false .loop)
  | .loop => some (s.goto q (.write addr n i copied (if i < n then .full else .done)))
  | .full =>
    some (s.goto q (.write addr n i copied (if s.page.ring.Full PIPESIZE then .test else .copy)))
  | .copy =>
    some ({ s with
      page := { s.page with ring := s.page.ring.push PIPESIZE (addr i) }
      taken := s.taken ++ [addr i] }.goto q (.write addr n (i + 1) true .loop))
  | .test =>
    some (s.goto q (.write addr n i copied
      (if s.page.readopen = false ∨ s.killed q = true then .fail else .wake)))
  | .wake => some ((s.wakeup .nread).goto q (.write addr n i copied .sleep))
  | .sleep => some (s.sleep q .nwrite (.write addr n i copied .asleep))
  | .asleep => s.awake q (.write addr n i false .full)
  | .fail => some (s.release q .idle)
  | .done => some ((s.wakeup .nread).goto q (.write addr n i copied .release))
  | .release => some (s.release q .idle)

/-- The next step in `piperead`. -/
def piperead (n : ℤ) (i : ℕ) : ReadAt → Option (Piping ι)
  | .acquire => s.acquire q (.read n 0 .empty)
  | .empty =>
    some (s.goto q (.read n 0
      (if s.page.ring.Empty ∧ s.page.writeopen = true then .test else .loop)))
  | .test => some (s.goto q (.read n 0 (if s.killed q = true then .fail else .sleep)))
  | .sleep => some (s.sleep q .nread (.read n 0 .asleep))
  | .asleep => s.awake q (.read n 0 .empty)
  | .fail => some (s.release q .idle)
  | .loop => some (s.goto q (.read n i (if i < n then .more else .wake)))
  | .more => some (s.goto q (.read n i (if s.page.ring.Empty then .wake else .copy)))
  | .copy =>
    some ({ s with
      page := { s.page with ring := s.page.ring.pop }
      given := s.given ++ [s.page.ring.front PIPESIZE] }.goto q (.read n (i + 1) .loop))
  | .wake => some ((s.wakeup .nwrite).goto q (.read n i .release))
  | .release => some (s.release q .idle)

/-- The next step in `pipeclose`. -/
def pipeclose (writable : Bool) : CloseAt → Option (Piping ι)
  | .acquire => s.acquire q (.close writable .set)
  | .set =>
    some ({ s with page := if writable then { s.page with writeopen := false }
      else { s.page with readopen := false } }.goto q (.close writable .wake))
  | .wake =>
    some ((s.wakeup (if writable then .nread else .nwrite)).goto q (.close writable .test))
  | .test =>
    some (s.goto q (.close writable
      (if s.page.readopen = false ∧ s.page.writeopen = false then .last else .release)))
  | .release => some (s.release q .idle)
  | .last => some (s.release q (.close writable .kfree))
  | .kfree => some ({ s with freed := true }.goto q .idle)

/-- The next step of a process that is in one of the functions. -/
def advance : Option (Piping ι) :=
  match s.pc q with
  | .idle => none
  | .write addr n i copied pt => s.pipewrite q addr n i copied pt
  | .read n i pt => s.piperead q n i pt
  | .close writable pt => s.pipeclose q writable pt

end Piping

/-- The three calls. -/
inductive PipeCall : Type where
  | pipewrite (addr : ℕ → Bytes.Byte) (n : ℤ)
  | piperead (n : ℤ)
  | pipeclose (writable : Bool)

/-- Where a call starts. -/
def PipeCall.start : PipeCall → PipePc
  | pipewrite addr n => .write addr n 0 false .acquire
  | piperead n => .read n 0 .acquire
  | pipeclose writable => .close writable .acquire

/-- What can happen next. -/
inductive PipeAction (ι : Type) : Type where
  /-- a process calls one of the functions -/
  | call : ι → PipeCall → PipeAction ι
  /-- it goes on -/
  | step : ι → PipeAction ι
  /-- it is killed -/
  | kill : ι → PipeAction ι
  /-- it is woken up for no reason -/
  | wake : ι → PipeAction ι

/-- The next state, as long as the pipe exists. -/
def Piping.step {ι : Type} [DecidableEq ι] (s : Piping ι) (a : PipeAction ι) :
    Option (Piping ι) :=
  if s.freed then none
  else
    match a with
    | .call q f =>
      match s.pc q with
      | .idle => some (s.goto q f.start)
      | _ => none
    | .step q => s.advance q
    | .kill q => some { s with
        killed := Function.update s.killed q true, asleep := Function.update s.asleep q none }
    | .wake q => some { s with asleep := Function.update s.asleep q none }

/-! ## The lock -/

/-- The points between `acquire` and `release`. -/
def PipePc.Inside : PipePc → Prop
  | .idle => False
  | .write _ _ _ _ pt => pt ≠ .acquire ∧ pt ≠ .asleep
  | .read _ _ pt => pt ≠ .acquire ∧ pt ≠ .asleep
  | .close _ pt => pt ≠ .acquire ∧ pt ≠ .kfree

/-- What a process knows of the pipe at its point, from the tests it has made
since it took the lock. -/
def PipePc.Knows (page : PipePage) : PipePc → Prop
  | .write _ _ _ _ .copy => ¬ page.ring.Full PIPESIZE
  | .write _ _ _ _ .test => page.ring.Full PIPESIZE
  | .write _ _ _ _ .wake => page.ring.Full PIPESIZE ∧ page.readopen = true
  | .write _ _ _ _ .sleep => page.ring.Full PIPESIZE ∧ page.readopen = true
  | .read _ _ .test => page.ring.Empty ∧ page.writeopen = true
  | .read _ _ .sleep => page.ring.Empty ∧ page.writeopen = true
  | .read _ i .loop => i = 0 → ¬ (page.ring.Empty ∧ page.writeopen = true)
  | .read _ i .more => i = 0 → ¬ (page.ring.Empty ∧ page.writeopen = true)
  | .read _ _ .copy => ¬ page.ring.Empty
  | .read n i .wake => 0 < n → i = 0 → page.ring.Empty ∧ page.writeopen = false
  | .read n i .release => 0 < n → i = 0 → page.ring.Empty ∧ page.writeopen = false
  | _ => True

/-- Who does not hold the lock knows nothing. -/
theorem PipePc.knows_of_not_inside {page : PipePage} {pc : PipePc} (h : ¬ pc.Inside) :
    pc.Knows page := by
  cases pc with
  | idle => trivial
  | write addr n i copied pt =>
    have hpt : pt = .acquire ∨ pt = .asleep := by
      by_contra hne
      rw [not_or] at hne
      exact h hne
    rcases hpt with rfl | rfl <;> trivial
  | read n i pt =>
    have hpt : pt = .acquire ∨ pt = .asleep := by
      by_contra hne
      rw [not_or] at hne
      exact h hne
    rcases hpt with rfl | rfl <;> trivial
  | close writable pt => trivial

namespace Piping

variable {ι : Type} [DecidableEq ι] {s : Piping ι} {q : ι}

/-- What holds in every state. -/
structure Lawful (s : Piping ι) : Prop where
  /-- between `acquire` and `release` a process holds the lock -/
  held : ∀ q, (s.pc q).Inside → s.lock = some q
  /-- and what it has found out of the pipe is still true -/
  knows : ∀ q, (s.pc q).Knows s.page
  /-- the ring is not overfull -/
  bounded : s.page.ring.count ≤ PIPESIZE
  /-- and it is a queue -/
  fifo : s.given ++ s.page.ring.contents PIPESIZE = s.taken

omit [DecidableEq ι] in
theorem Lawful.alloc (data : ℕ → Bytes.Byte) : Lawful (alloc ι data) := by
  have hcount : (Piping.alloc ι data).page.ring.count = 0 := CountedRing.empty_iff.mp rfl
  refine ⟨nofun, fun _ => trivial, ?_, ?_⟩
  · rw [hcount]
    exact Nat.zero_le _
  · have hnil : (Piping.alloc ι data).page.ring.contents PIPESIZE = [] :=
      List.length_eq_zero_iff.mp (CountedRing.length_contents.trans hcount)
    rw [hnil]
    rfl

namespace Lawful

variable {t : Piping ι} {pc : PipePc}

/-- A process moves that nobody keeps from the lock. The others are outside, and
know nothing that could have become false. -/
theorem move (h : Lawful s) (hmine : s.lock = none ∨ s.lock = some q)
    (hpc : t.pc = Function.update s.pc q pc) (hin : pc.Inside → t.lock = some q)
    (hknows : pc.Knows t.page) (hbounded : t.page.ring.count ≤ PIPESIZE)
    (hfifo : t.given ++ t.page.ring.contents PIPESIZE = t.taken) : Lawful t := by
  have hout : ∀ r, r ≠ q → ¬ (s.pc r).Inside := by
    intro r hr hin
    have hheld := h.held r hin
    rcases hmine with hnone | hsome
    · rw [hnone] at hheld
      cases hheld
    · exact hr (Option.some.inj (hheld.symm.trans hsome))
  refine ⟨fun r => ?_, fun r => ?_, hbounded, hfifo⟩
  · rw [hpc]
    by_cases hr : r = q
    · subst hr
      rw [Function.update_self]
      exact hin
    · rw [Function.update_of_ne hr]
      exact fun hin => absurd hin (hout r hr)
  · rw [hpc]
    by_cases hr : r = q
    · subst hr
      rw [Function.update_self]
      exact hknows
    · rw [Function.update_of_ne hr]
      exact PipePc.knows_of_not_inside (hout r hr)

/-- The holder of the lock goes to another point. -/
theorem goto (h : Lawful s) (hlock : s.lock = some q) (hknows : pc.Knows s.page) :
    Lawful (s.goto q pc) :=
  h.move (Or.inr hlock) rfl (fun _ => hlock) hknows h.bounded h.fifo

/-- The holder of the lock gives it up. -/
theorem leave (h : Lawful s) (hlock : s.lock = some q)
    (hpc : t.pc = Function.update s.pc q pc) (hout : ¬ pc.Inside) (hpage : t.page = s.page)
    (hgiven : t.given = s.given) (htaken : t.taken = s.taken) : Lawful t := by
  refine h.move (Or.inr hlock) hpc (fun hin => absurd hin hout)
    (PipePc.knows_of_not_inside hout) ?_ ?_
  · rw [hpage]
    exact h.bounded
  · rw [hpage, hgiven, htaken]
    exact h.fifo

/-- A process outside goes to another point outside. -/
theorem aside (h : Lawful s) (hout : ¬ pc.Inside) (hpc : t.pc = Function.update s.pc q pc)
    (hlock : t.lock = s.lock) (hpage : t.page = s.page) (hgiven : t.given = s.given)
    (htaken : t.taken = s.taken) : Lawful t := by
  refine ⟨fun r => ?_, fun r => ?_, by rw [hpage]; exact h.bounded,
    by rw [hpage, hgiven, htaken]; exact h.fifo⟩
  · rw [hpc, hlock]
    by_cases hr : r = q
    · subst hr
      rw [Function.update_self]
      exact fun hin => absurd hin hout
    · rw [Function.update_of_ne hr]
      exact h.held r
  · rw [hpc, hpage]
    by_cases hr : r = q
    · subst hr
      rw [Function.update_self]
      exact PipePc.knows_of_not_inside hout
    · rw [Function.update_of_ne hr]
      exact h.knows r

theorem acquire (h : Lawful s) (ht : s.acquire q pc = some t) (hknows : pc.Knows s.page) :
    Lawful t := by
  unfold Piping.acquire at ht
  split at ht
  · next hfree =>
    obtain rfl := Option.some.inj ht
    exact h.move (Or.inl hfree) rfl (fun _ => rfl) hknows h.bounded h.fifo
  · cases ht

theorem awake (h : Lawful s) (ht : s.awake q pc = some t) (hknows : pc.Knows s.page) :
    Lawful t := by
  unfold Piping.awake at ht
  split at ht
  · exact h.acquire ht hknows
  · cases ht

/-- A step in `pipewrite`. -/
theorem pipewrite (h : Lawful s) {addr : ℕ → Bytes.Byte} {n : ℤ} {i : ℕ} {copied : Bool}
    {pt : WriteAt} (hpc : s.pc q = .write addr n i copied pt)
    (ht : s.pipewrite q addr n i copied pt = some t) : Lawful t := by
  have hheld : pt ≠ .acquire → pt ≠ .asleep → s.lock = some q := by
    intro hacq hasleep
    exact h.held q (by rw [hpc]; exact ⟨hacq, hasleep⟩)
  have hknows := h.knows q
  rw [hpc] at hknows
  cases pt with
  | acquire => exact h.acquire ht trivial
  | asleep => exact h.awake ht trivial
  | loop =>
    obtain rfl := Option.some.inj ht
    refine h.goto (hheld nofun nofun) ?_
    split <;> trivial
  | full =>
    obtain rfl := Option.some.inj ht
    refine h.goto (hheld nofun nofun) ?_
    split
    · next hfull => exact hfull
    · next hfull => exact hfull
  | copy =>
    obtain rfl := Option.some.inj ht
    have hroom : s.page.ring.count < PIPESIZE := by
      refine lt_of_le_of_ne h.bounded fun heq => hknows ?_
      exact (CountedRing.full_iff (by decide)).mpr heq
    refine h.move (Or.inr (hheld nofun nofun)) rfl (fun _ => hheld nofun nofun) trivial ?_ ?_
    · exact (CountedRing.count_push (by unfold PIPESIZE at hroom; omega) _).trans_le hroom
    · change s.given ++ (s.page.ring.push PIPESIZE (addr i)).contents PIPESIZE = s.taken ++ [addr i]
      rw [CountedRing.contents_push (by decide) (by decide) hroom, ← List.append_assoc, h.fifo]
  | test =>
    obtain rfl := Option.some.inj ht
    refine h.goto (hheld nofun nofun) ?_
    split
    · trivial
    · next hopen => exact ⟨hknows, by simpa using fun hclosed => hopen (Or.inl hclosed)⟩
  | wake =>
    obtain rfl := Option.some.inj ht
    exact h.move (Or.inr (hheld nofun nofun)) rfl (fun _ => hheld nofun nofun) hknows h.bounded
      h.fifo
  | done =>
    obtain rfl := Option.some.inj ht
    exact h.move (Or.inr (hheld nofun nofun)) rfl (fun _ => hheld nofun nofun) trivial h.bounded
      h.fifo
  | sleep =>
    obtain rfl := Option.some.inj ht
    exact h.leave (hheld nofun nofun) rfl (fun hin => hin.2 rfl) rfl rfl rfl
  | fail =>
    obtain rfl := Option.some.inj ht
    exact h.leave (hheld nofun nofun) rfl id rfl rfl rfl
  | release =>
    obtain rfl := Option.some.inj ht
    exact h.leave (hheld nofun nofun) rfl id rfl rfl rfl

/-- A step in `piperead`. -/
theorem piperead (h : Lawful s) {n : ℤ} {i : ℕ} {pt : ReadAt} (hpc : s.pc q = .read n i pt)
    (ht : s.piperead q n i pt = some t) : Lawful t := by
  have hheld : pt ≠ .acquire → pt ≠ .asleep → s.lock = some q := by
    intro hacq hasleep
    exact h.held q (by rw [hpc]; exact ⟨hacq, hasleep⟩)
  have hknows := h.knows q
  rw [hpc] at hknows
  cases pt with
  | acquire => exact h.acquire ht trivial
  | asleep => exact h.awake ht trivial
  | empty =>
    obtain rfl := Option.some.inj ht
    refine h.goto (hheld nofun nofun) ?_
    split
    · next hempty => exact hempty
    · next hempty => exact fun _ => hempty
  | test =>
    obtain rfl := Option.some.inj ht
    refine h.goto (hheld nofun nofun) ?_
    split
    · trivial
    · exact hknows
  | sleep =>
    obtain rfl := Option.some.inj ht
    exact h.leave (hheld nofun nofun) rfl (fun hin => hin.2 rfl) rfl rfl rfl
  | fail =>
    obtain rfl := Option.some.inj ht
    exact h.leave (hheld nofun nofun) rfl id rfl rfl rfl
  | loop =>
    obtain rfl := Option.some.inj ht
    refine h.goto (hheld nofun nofun) ?_
    split
    · exact hknows
    · next hle =>
      -- the loop ends before its first turn only if nothing was asked for
      intro hn hi
      subst hi
      exact absurd hn hle
  | more =>
    obtain rfl := Option.some.inj ht
    refine h.goto (hheld nofun nofun) ?_
    split
    · next hempty =>
      intro _ hi
      exact ⟨hempty, by simpa using fun hopen => hknows hi ⟨hempty, hopen⟩⟩
    · next hempty => exact hempty
  | copy =>
    obtain rfl := Option.some.inj ht
    refine h.move (Or.inr (hheld nofun nofun)) rfl (fun _ => hheld nofun nofun) nofun ?_ ?_
    · have hcount := CountedRing.count_pop hknows
      have hbound := h.bounded
      change s.page.ring.pop.count ≤ PIPESIZE
      omega
    · change (s.given ++ [s.page.ring.front PIPESIZE]) ++ s.page.ring.pop.contents PIPESIZE = s.taken
      rw [List.append_assoc, List.singleton_append, ← CountedRing.contents_pop hknows]
      exact h.fifo
  | wake =>
    obtain rfl := Option.some.inj ht
    exact h.move (Or.inr (hheld nofun nofun)) rfl (fun _ => hheld nofun nofun) hknows h.bounded
      h.fifo
  | release =>
    obtain rfl := Option.some.inj ht
    exact h.leave (hheld nofun nofun) rfl id rfl rfl rfl

/-- A step in `pipeclose`. -/
theorem pipeclose (h : Lawful s) {writable : Bool} {pt : CloseAt}
    (hpc : s.pc q = .close writable pt) (ht : s.pipeclose q writable pt = some t) :
    Lawful t := by
  have hheld : pt ≠ .acquire → pt ≠ .kfree → s.lock = some q := by
    intro hacq hfree
    exact h.held q (by rw [hpc]; exact ⟨hacq, hfree⟩)
  cases pt with
  | acquire => exact h.acquire ht trivial
  | set =>
    obtain rfl := Option.some.inj ht
    have hring : ∀ page : PipePage, (if writable then { page with writeopen := false }
        else { page with readopen := false }).ring = page.ring := by
      intro page
      split <;> rfl
    refine h.move (Or.inr (hheld nofun nofun)) rfl (fun _ => hheld nofun nofun) trivial ?_ ?_
    · exact (congrArg CountedRing.count (hring s.page)).trans_le h.bounded
    · exact (congrArg (fun r => s.given ++ CountedRing.contents r PIPESIZE)
        (hring s.page)).trans h.fifo
  | wake =>
    obtain rfl := Option.some.inj ht
    exact h.move (Or.inr (hheld nofun nofun)) rfl (fun _ => hheld nofun nofun) trivial h.bounded
      h.fifo
  | test =>
    obtain rfl := Option.some.inj ht
    exact h.goto (hheld nofun nofun) trivial
  | release =>
    obtain rfl := Option.some.inj ht
    exact h.leave (hheld nofun nofun) rfl id rfl rfl rfl
  | last =>
    obtain rfl := Option.some.inj ht
    exact h.leave (hheld nofun nofun) rfl (fun hin => hin.2 rfl) rfl rfl rfl
  | kfree =>
    obtain rfl := Option.some.inj ht
    exact h.aside id rfl rfl rfl rfl rfl

theorem advance (h : Lawful s) (ht : s.advance q = some t) : Lawful t := by
  unfold Piping.advance at ht
  split at ht
  · cases ht
  · next hpc => exact h.pipewrite hpc ht
  · next hpc => exact h.piperead hpc ht
  · next hpc => exact h.pipeclose hpc ht

theorem step (h : Lawful s) {a : PipeAction ι} (ht : s.step a = some t) : Lawful t := by
  unfold Piping.step at ht
  split at ht
  · cases ht
  cases a with
  | call q f =>
    dsimp only at ht
    split at ht
    · obtain rfl := Option.some.inj ht
      refine h.aside (q := q) ?_ rfl rfl rfl rfl rfl
      cases f <;> exact fun hin => hin.1 rfl
    · cases ht
  | step q => exact h.advance ht
  | kill q =>
    obtain rfl := Option.some.inj ht
    exact ⟨h.held, h.knows, h.bounded, h.fifo⟩
  | wake q =>
    obtain rfl := Option.some.inj ht
    exact ⟨h.held, h.knows, h.bounded, h.fifo⟩

end Lawful

/-! ## First in, first out -/

/-- The pipe as its users see it. -/
structure Fifo (s : Piping ι) : Prop where
  /-- `nwrite - nread`, as the counters give it, is at most the size of the ring -/
  bounded : (s.page.ring.nwrite - s.page.ring.nread).toNat ≤ PIPESIZE
  /-- what was read and what is in the ring is what was written -/
  fifo : s.given ++ s.page.ring.contents PIPESIZE = s.taken
  /-- a reader that wants something gets nothing only at the end of the data -/
  eof : ∀ q n i pt, s.pc q = .read n i pt → 0 < n → (s.pc q).result = some 0 →
    s.page.ring.Empty ∧ s.page.writeopen = false

omit [DecidableEq ι] in
theorem Lawful.toFifo (h : Lawful s) : Fifo s := by
  refine ⟨h.bounded, h.fifo, fun q n i pt hpc hn hresult => ?_⟩
  have hknows := h.knows q
  rw [hpc] at hknows hresult
  cases pt with
  | release => exact hknows hn (Int.ofNat_eq_zero.mp (Option.some.inj hresult))
  | fail => cases hresult
  | _ => cases hresult

/-- **A pipe is a queue**, in every state of every run: any number of readers and
writers, each stopped anywhere, killed or woken at any time. -/
theorem pipe_fifo (data : ℕ → Bytes.Byte) (as : List (PipeAction ι)) :
    AllStates Piping.step Fifo (Piping.alloc ι data) as :=
  (allStates_of_step (fun _ _ _ h ht => h.step ht) (Lawful.alloc data)).mono fun _ h => h.toFifo

end Piping

/-! ## Wakeups -/

/-- What a process waits for is not there: that is when it may sleep. -/
def PipeChan.Waits (page : PipePage) : PipeChan → Prop
  | .nread => page.ring.Empty ∧ page.writeopen = true
  | .nwrite => page.ring.Full PIPESIZE ∧ page.readopen = true

/-- From here `pipewrite` comes to a `wakeup`, unless it fails. -/
def WriteAt.Wakes (pt : WriteAt) : Prop :=
  pt = .loop ∨ pt = .full ∨ pt = .copy ∨ pt = .test ∨ pt = .wake ∨ pt = .done

/-- From here `piperead` comes to its `wakeup`. -/
def ReadAt.Wakes (pt : ReadAt) : Prop := pt = .loop ∨ pt = .more ∨ pt = .copy ∨ pt = .wake

/-- The process has changed the pipe and not yet called `wakeup(ch)`, but it
will. -/
def PipePc.Owes (ch : PipeChan) : PipePc → Prop
  | .idle => False
  | .write _ _ _ copied pt => ch = .nread ∧ copied = true ∧ pt.Wakes
  | .read _ i pt => ch = .nwrite ∧ 0 < i ∧ pt.Wakes
  | .close writable pt => ch = (if writable then .nread else .nwrite) ∧ pt = .wake

namespace Piping

variable {ι : Type} [DecidableEq ι] {s t : Piping ι} {q : ι} {pc : PipePc}

/-- Who sleeps has a reason to, or the holder of the lock is about to wake them. -/
def Settled (s : Piping ι) : Prop :=
  ∀ r ch, s.asleep r = some ch → ch.Waits s.page ∨ ∃ q, s.lock = some q ∧ (s.pc q).Owes ch

/-- Where `pipewrite` tests for the read end and for `kill`, after it has copied
bytes, the end is open and the process not killed. -/
def WritesOn (s : Piping ι) : PipeAction ι → Prop
  | .step q =>
    match s.pc q with
    | .write _ _ _ true .test => s.page.readopen = true ∧ s.killed q = false
    | _ => True
  | _ => True

instance (s : Piping ι) : DecidablePred s.WritesOn := fun a => by
  unfold WritesOn
  split
  · split <;> infer_instance
  · infer_instance

namespace Settled

/-- The step of a process that nobody keeps from the lock, channel by channel. -/
theorem move (h : Settled s) (hmine : s.lock = none ∨ s.lock = some q)
    (hpc : t.pc = Function.update s.pc q pc)
    (hasleep : ∀ r ch, t.asleep r = some ch → s.asleep r = some ch ∨ ch.Waits t.page)
    (hkeep : ∀ ch, (∃ r, t.asleep r = some ch) → ch.Waits s.page ∨ (s.pc q).Owes ch →
      ch.Waits t.page ∨ (t.lock = some q ∧ pc.Owes ch)) : Settled t := by
  intro r ch hr
  rcases hasleep r ch hr with hs | hw
  · have hwas : ch.Waits s.page ∨ (s.pc q).Owes ch := by
      rcases h r ch hs with hw | ⟨p, hp, ho⟩
      · exact Or.inl hw
      · rcases hmine with hnone | hsome
        · rw [hnone] at hp
          cases hp
        · obtain rfl := Option.some.inj (hp.symm.trans hsome)
          exact Or.inr ho
    rcases hkeep ch ⟨r, hr⟩ hwas with hw | ⟨hlock, ho⟩
    · exact Or.inl hw
    · refine Or.inr ⟨q, hlock, ?_⟩
      rw [hpc, Function.update_self]
      exact ho
  · exact Or.inl hw

/-- A step that leaves the pipe as it is: what the process owes it still owes,
or nobody sleeps there any more. -/
theorem same (h : Settled s) (hmine : s.lock = none ∨ s.lock = some q)
    (hpc : t.pc = Function.update s.pc q pc) (hpage : t.page = s.page)
    (hasleep : ∀ r ch, t.asleep r = some ch → s.asleep r = some ch ∨ ch.Waits t.page)
    (howes : ∀ ch, (s.pc q).Owes ch → (∃ r, t.asleep r = some ch) →
      t.lock = some q ∧ pc.Owes ch) : Settled t := by
  refine h.move hmine hpc hasleep fun ch hr hwas => ?_
  rcases hwas with hw | ho
  · rw [hpage]
    exact Or.inl hw
  · exact Or.inr (howes ch ho hr)

omit [DecidableEq ι] in
/-- The pipe stays as it is, who owes something still does, and nobody goes to
sleep. -/
theorem aside (h : Settled s) (howes : ∀ p ch, (s.pc p).Owes ch → (t.pc p).Owes ch)
    (hlock : t.lock = s.lock) (hpage : t.page = s.page)
    (hasleep : ∀ r ch, t.asleep r = some ch → s.asleep r = some ch) : Settled t := by
  intro r ch hr
  rw [hpage, hlock]
  rcases h r ch (hasleep r ch hr) with hw | ⟨p, hp, ho⟩
  · exact Or.inl hw
  · exact Or.inr ⟨p, hp, howes p ch ho⟩

/-- A process that owes nothing may go to another point. -/
theorem owes_update (hnone : ∀ ch, ¬ (s.pc q).Owes ch) (p : ι) (ch : PipeChan)
    (ho : (s.pc p).Owes ch) : (Function.update s.pc q pc p).Owes ch := by
  by_cases hp : p = q
  · subst hp
    exact absurd ho (hnone ch)
  · rw [Function.update_of_ne hp]
    exact ho

/-- The holder of the lock goes to another point and owes what it owed. -/
theorem goto (h : Settled s) (hlock : s.lock = some q)
    (howes : ∀ ch, (s.pc q).Owes ch → pc.Owes ch) : Settled (s.goto q pc) :=
  h.same (Or.inr hlock) rfl rfl (fun _ _ hr => Or.inl hr) fun ch ho _ => ⟨hlock, howes ch ho⟩

/-- The holder of the lock gives it up and owes nothing. -/
theorem leave (h : Settled s) (hlock : s.lock = some q) (hpc : t.pc = Function.update s.pc q pc)
    (hpage : t.page = s.page)
    (hasleep : ∀ r ch, t.asleep r = some ch → s.asleep r = some ch ∨ ch.Waits t.page)
    (howes : ∀ ch, ¬ (s.pc q).Owes ch) : Settled t :=
  h.same (Or.inr hlock) hpc hpage hasleep fun ch ho _ => absurd ho (howes ch)

theorem acquire (h : Settled s) (ht : s.acquire q pc = some t) (howes : ∀ ch, ¬ (s.pc q).Owes ch) :
    Settled t := by
  unfold Piping.acquire at ht
  split at ht
  · next hfree =>
    obtain rfl := Option.some.inj ht
    exact h.same (Or.inl hfree) rfl rfl (fun _ _ hr => Or.inl hr)
      fun ch ho _ => absurd ho (howes ch)
  · cases ht

theorem awake (h : Settled s) (ht : s.awake q pc = some t) (howes : ∀ ch, ¬ (s.pc q).Owes ch) :
    Settled t := by
  unfold Piping.awake at ht
  split at ht
  · exact h.acquire ht howes
  · cases ht

omit [DecidableEq ι] in
/-- After `wakeup(ch)` nobody sleeps on `ch`. -/
theorem asleep_wakeup {ch : PipeChan} {r : ι} {c : PipeChan}
    (hr : (s.wakeup ch).asleep r = some c) : s.asleep r = some c ∧ c ≠ ch := by
  change (if s.asleep r = some ch then none else s.asleep r) = some c at hr
  split at hr
  · cases hr
  · next hne => exact ⟨hr, fun hc => hne (hc ▸ hr)⟩

/-- The holder of the lock calls `wakeup`, and goes on. -/
theorem wakeup (h : Settled s) (hlock : s.lock = some q) {ch : PipeChan}
    (howes : ∀ c, (s.pc q).Owes c → c = ch) : Settled ((s.wakeup ch).goto q pc) := by
  refine h.same (Or.inr hlock) rfl rfl (fun r c hr => Or.inl (asleep_wakeup hr).1) ?_
  rintro c ho ⟨r, hr⟩
  exact absurd (howes c ho) (asleep_wakeup hr).2

/-- The holder of the lock goes to sleep, with reason. -/
theorem sleep (h : Settled s) (hlock : s.lock = some q) {ch : PipeChan} (hw : ch.Waits s.page)
    (howes : ∀ c, ¬ (s.pc q).Owes c) : Settled (s.sleep q ch pc) := by
  refine h.leave hlock rfl rfl (fun r c hr => ?_) howes
  change Function.update s.asleep q (some ch) r = some c at hr
  by_cases hrq : r = q
  · subst hrq
    rw [Function.update_self] at hr
    obtain rfl := Option.some.inj hr
    exact Or.inr hw
  · rw [Function.update_of_ne hrq] at hr
    exact Or.inl hr

/-- A step in `pipewrite`. -/
theorem pipewrite (h : Settled s) (hL : Lawful s) {addr : ℕ → Bytes.Byte} {n : ℤ} {i : ℕ}
    {copied : Bool} {pt : WriteAt} (hpc : s.pc q = .write addr n i copied pt)
    (hon : s.WritesOn (.step q)) (ht : s.pipewrite q addr n i copied pt = some t) :
    Settled t := by
  have hheld : pt ≠ .acquire → pt ≠ .asleep → s.lock = some q := by
    intro hacq hasleep
    exact hL.held q (by rw [hpc]; exact ⟨hacq, hasleep⟩)
  have hknows := hL.knows q
  have howes : ∀ ch, (s.pc q).Owes ch → ch = .nread ∧ copied = true ∧ pt.Wakes := by
    intro ch ho
    rw [hpc] at ho
    exact ho
  have hnone : ¬ pt.Wakes → ∀ ch, ¬ (s.pc q).Owes ch := fun hpt ch ho => hpt (howes ch ho).2.2
  rw [hpc] at hknows
  cases pt with
  | acquire => exact h.acquire ht (hnone (by unfold WriteAt.Wakes; simp))
  | asleep => exact h.awake ht (hnone (by unfold WriteAt.Wakes; simp))
  | loop =>
    obtain rfl := Option.some.inj ht
    refine h.goto (hheld nofun nofun) fun ch ho => ⟨(howes ch ho).1, (howes ch ho).2.1, ?_⟩
    split <;> simp [WriteAt.Wakes]
  | full =>
    obtain rfl := Option.some.inj ht
    refine h.goto (hheld nofun nofun) fun ch ho => ⟨(howes ch ho).1, (howes ch ho).2.1, ?_⟩
    split <;> simp [WriteAt.Wakes]
  | copy =>
    obtain rfl := Option.some.inj ht
    refine h.move (Or.inr (hheld nofun nofun)) rfl (fun _ _ hr => Or.inl hr) fun ch _ hwas => ?_
    -- nobody was waiting for room
    have hch : ch = .nread := by
      rcases hwas with hw | ho
      · cases ch with
        | nread => rfl
        | nwrite => exact absurd hw.1 hknows
      · exact (howes ch ho).1
    exact Or.inr ⟨hheld nofun nofun, hch, rfl, Or.inl rfl⟩
  | test =>
    obtain rfl := Option.some.inj ht
    refine h.goto (hheld nofun nofun) fun ch ho => ⟨(howes ch ho).1, (howes ch ho).2.1, ?_⟩
    obtain ⟨-, rfl, -⟩ := howes ch ho
    unfold WritesOn at hon
    simp only [hpc] at hon
    rw [if_neg (by simp [hon])]
    simp [WriteAt.Wakes]
  | wake =>
    obtain rfl := Option.some.inj ht
    exact h.wakeup (hheld nofun nofun) fun ch ho => (howes ch ho).1
  | done =>
    obtain rfl := Option.some.inj ht
    exact h.wakeup (hheld nofun nofun) fun ch ho => (howes ch ho).1
  | sleep =>
    obtain rfl := Option.some.inj ht
    exact h.sleep (hheld nofun nofun) hknows (hnone (by unfold WriteAt.Wakes; simp))
  | fail =>
    obtain rfl := Option.some.inj ht
    exact h.leave (hheld nofun nofun) rfl rfl (fun _ _ hr => Or.inl hr)
      (hnone (by unfold WriteAt.Wakes; simp))
  | release =>
    obtain rfl := Option.some.inj ht
    exact h.leave (hheld nofun nofun) rfl rfl (fun _ _ hr => Or.inl hr)
      (hnone (by unfold WriteAt.Wakes; simp))

/-- A step in `piperead`. -/
theorem piperead (h : Settled s) (hL : Lawful s) {n : ℤ} {i : ℕ} {pt : ReadAt}
    (hpc : s.pc q = .read n i pt) (ht : s.piperead q n i pt = some t) : Settled t := by
  have hheld : pt ≠ .acquire → pt ≠ .asleep → s.lock = some q := by
    intro hacq hasleep
    exact hL.held q (by rw [hpc]; exact ⟨hacq, hasleep⟩)
  have hknows := hL.knows q
  have howes : ∀ ch, (s.pc q).Owes ch → ch = .nwrite ∧ 0 < i ∧ pt.Wakes := by
    intro ch ho
    rw [hpc] at ho
    exact ho
  have hnone : ¬ pt.Wakes → ∀ ch, ¬ (s.pc q).Owes ch := fun hpt ch ho => hpt (howes ch ho).2.2
  rw [hpc] at hknows
  cases pt with
  | acquire => exact h.acquire ht (hnone (by unfold ReadAt.Wakes; simp))
  | asleep => exact h.awake ht (hnone (by unfold ReadAt.Wakes; simp))
  | empty =>
    obtain rfl := Option.some.inj ht
    exact h.goto (hheld nofun nofun) fun ch ho =>
      absurd ho (hnone (by unfold ReadAt.Wakes; simp) ch)
  | test =>
    obtain rfl := Option.some.inj ht
    exact h.goto (hheld nofun nofun) fun ch ho =>
      absurd ho (hnone (by unfold ReadAt.Wakes; simp) ch)
  | sleep =>
    obtain rfl := Option.some.inj ht
    exact h.sleep (hheld nofun nofun) hknows (hnone (by unfold ReadAt.Wakes; simp))
  | fail =>
    obtain rfl := Option.some.inj ht
    exact h.leave (hheld nofun nofun) rfl rfl (fun _ _ hr => Or.inl hr)
      (hnone (by unfold ReadAt.Wakes; simp))
  | loop =>
    obtain rfl := Option.some.inj ht
    refine h.goto (hheld nofun nofun) fun ch ho => ⟨(howes ch ho).1, (howes ch ho).2.1, ?_⟩
    split <;> simp [ReadAt.Wakes]
  | more =>
    obtain rfl := Option.some.inj ht
    refine h.goto (hheld nofun nofun) fun ch ho => ⟨(howes ch ho).1, (howes ch ho).2.1, ?_⟩
    split <;> simp [ReadAt.Wakes]
  | copy =>
    obtain rfl := Option.some.inj ht
    refine h.move (Or.inr (hheld nofun nofun)) rfl (fun _ _ hr => Or.inl hr) fun ch _ hwas => ?_
    -- nobody was waiting for data
    have hch : ch = .nwrite := by
      rcases hwas with hw | ho
      · cases ch with
        | nread => exact absurd hw.1 hknows
        | nwrite => rfl
      · exact (howes ch ho).1
    exact Or.inr ⟨hheld nofun nofun, hch, Nat.succ_pos i, Or.inl rfl⟩
  | wake =>
    obtain rfl := Option.some.inj ht
    exact h.wakeup (hheld nofun nofun) fun ch ho => (howes ch ho).1
  | release =>
    obtain rfl := Option.some.inj ht
    exact h.leave (hheld nofun nofun) rfl rfl (fun _ _ hr => Or.inl hr)
      (hnone (by unfold ReadAt.Wakes; simp))

/-- A step in `pipeclose`. -/
theorem pipeclose (h : Settled s) (hL : Lawful s) {writable : Bool} {pt : CloseAt}
    (hpc : s.pc q = .close writable pt) (ht : s.pipeclose q writable pt = some t) :
    Settled t := by
  have hheld : pt ≠ .acquire → pt ≠ .kfree → s.lock = some q := by
    intro hacq hfree
    exact hL.held q (by rw [hpc]; exact ⟨hacq, hfree⟩)
  have howes : ∀ ch, (s.pc q).Owes ch →
      ch = (if writable then .nread else .nwrite) ∧ pt = .wake := by
    intro ch ho
    rw [hpc] at ho
    exact ho
  have hnone : pt ≠ .wake → ∀ ch, ¬ (s.pc q).Owes ch := fun hpt ch ho => hpt (howes ch ho).2
  cases pt with
  | acquire => exact h.acquire ht (hnone nofun)
  | set =>
    obtain rfl := Option.some.inj ht
    refine h.move (Or.inr (hheld nofun nofun)) rfl (fun _ _ hr => Or.inl hr) fun ch _ hwas => ?_
    have hw : ch.Waits s.page := hwas.resolve_right (hnone nofun ch)
    -- only the sleepers at the other end lose their reason
    by_cases hch : ch = (if writable then .nread else .nwrite)
    · exact Or.inr ⟨hheld nofun nofun, hch, rfl⟩
    · left
      cases writable <;> cases ch <;> first | exact hw | exact absurd rfl hch
  | wake =>
    obtain rfl := Option.some.inj ht
    exact h.wakeup (hheld nofun nofun) fun ch ho => (howes ch ho).1
  | test =>
    obtain rfl := Option.some.inj ht
    exact h.goto (hheld nofun nofun) fun ch ho => absurd ho (hnone nofun ch)
  | release =>
    obtain rfl := Option.some.inj ht
    exact h.leave (hheld nofun nofun) rfl rfl (fun _ _ hr => Or.inl hr) (hnone nofun)
  | last =>
    obtain rfl := Option.some.inj ht
    exact h.leave (hheld nofun nofun) rfl rfl (fun _ _ hr => Or.inl hr) (hnone nofun)
  | kfree =>
    obtain rfl := Option.some.inj ht
    exact h.aside (owes_update (hnone nofun)) rfl rfl fun _ _ hr => hr

theorem step (h : Settled s) (hL : Lawful s) {a : PipeAction ι} (hon : s.WritesOn a)
    (ht : s.step a = some t) : Settled t := by
  have hupdate : ∀ q r ch, Function.update s.asleep q none r = some ch → s.asleep r = some ch := by
    intro q r ch hr
    by_cases hrq : r = q
    · subst hrq
      rw [Function.update_self] at hr
      cases hr
    · rwa [Function.update_of_ne hrq] at hr
  unfold Piping.step at ht
  split at ht
  · cases ht
  cases a with
  | call q f =>
    dsimp only at ht
    split at ht
    · next hpc =>
      obtain rfl := Option.some.inj ht
      exact h.aside (owes_update fun ch ho => by rw [hpc] at ho; exact ho) rfl rfl
        fun _ _ hr => hr
    · cases ht
  | step q =>
    dsimp only at ht
    unfold advance at ht
    split at ht
    · cases ht
    · next hpc => exact h.pipewrite hL hpc hon ht
    · next hpc => exact h.piperead hL hpc ht
    · next hpc => exact h.pipeclose hL hpc ht
  | kill q =>
    obtain rfl := Option.some.inj ht
    exact h.aside (fun _ _ ho => ho) rfl rfl (hupdate q)
  | wake q =>
    obtain rfl := Option.some.inj ht
    exact h.aside (fun _ _ ho => ho) rfl rfl (hupdate q)

end Settled

/-- While the lock is free, a process sleeps only as long as what it waits for is
not there. -/
def NoLostWakeup (s : Piping ι) : Prop :=
  s.lock = none → ∀ r,
    (s.asleep r = some .nread →
      s.page.ring.nread = s.page.ring.nwrite ∧ s.page.writeopen = true) ∧
    (s.asleep r = some .nwrite →
      s.page.ring.nwrite = s.page.ring.nread + BitVec.ofNat 32 PIPESIZE ∧ s.page.readopen = true)

omit [DecidableEq ι] in
theorem Settled.noLostWakeup (h : Settled s) : NoLostWakeup s := by
  intro hfree r
  have hwaits : ∀ ch, s.asleep r = some ch → ch.Waits s.page := by
    intro ch hr
    rcases h r ch hr with hw | ⟨p, hp, -⟩
    · exact hw
    · rw [hfree] at hp
      cases hp
  exact ⟨hwaits .nread, hwaits .nwrite⟩

/-- **No wakeup is lost** in a run in which no call of `pipewrite` that has copied
bytes finds the ring full and itself killed or the read end closed. -/
theorem no_lost_wakeup {data : ℕ → Bytes.Byte} {as : List (PipeAction ι)}
    (h : AllSteps Piping.step WritesOn (Piping.alloc ι data) as) :
    AllStates Piping.step NoLostWakeup (Piping.alloc ι data) as := by
  refine (allStates_of_allSteps (P := fun s => Lawful s ∧ Settled s) ?_
    ⟨Lawful.alloc data, nofun⟩ h).mono fun _ h => h.2.noLostWakeup
  intro s a t hs hon ht
  exact ⟨hs.1.step ht, hs.2.step hs.1 hon ht⟩

/-- A reader goes to sleep; a writer is killed, copies 512 bytes nevertheless and
finds the ring full. -/
def killedWriterRun : List (PipeAction (Fin 2)) :=
  [.call 0 (.piperead 1), .step 0, .step 0, .step 0, .step 0,
    .kill 1, .call 1 (.pipewrite (fun _ => 7) 513), .step 1] ++
  List.replicate (512 * 3) (.step 1) ++ [.step 1, .step 1, .step 1, .step 1]

/-- A reader goes to sleep, a writer copies one byte and wakes it up. -/
theorem no_lost_wakeup_one_byte :
    (exec Piping.step (Piping.alloc (Fin 2) fun _ => 0)
      ([.call 0 (.piperead 1), .step 0, .step 0, .step 0, .step 0,
        .call 1 (.pipewrite (fun _ => 7) 1)] ++ List.replicate 7 (.step 1))).map
        (fun s => (s.asleep 0, s.page.ring.count, s.lock)) = some (none, 1, none) ∧
      AllStates Piping.step NoLostWakeup (Piping.alloc (Fin 2) fun _ => 0)
        ([.call 0 (.piperead 1), .step 0, .step 0, .step 0, .step 0,
          .call 1 (.pipewrite (fun _ => 7) 1)] ++ List.replicate 7 (.step 1)) :=
  ⟨by decide +kernel, no_lost_wakeup (by decide +kernel)⟩

/-- Then the writer is gone and the reader sleeps on, with the ring full. -/
theorem killed_writer_leaves_reader_asleep :
    ¬ AllStates Piping.step NoLostWakeup (Piping.alloc (Fin 2) fun _ => 0) killedWriterRun := by
  obtain ⟨t, ht, hsleep⟩ := Option.map_eq_some_iff.mp
    (show (exec Piping.step (Piping.alloc (Fin 2) fun _ => 0) killedWriterRun).map
      (fun s => (s.asleep 0, s.page.ring.count, s.lock)) = some (some .nread, 512, none) by
        decide +kernel)
  refine not_allStates ht fun h => ?_
  obtain ⟨hasleep, hcount, hlock⟩ : t.asleep 0 = some .nread ∧ t.page.ring.count = 512 ∧
      t.lock = none := by simpa using hsleep
  have hempty : t.page.ring.Empty := ((h hlock 0).1 hasleep).1
  rw [CountedRing.empty_iff.mp hempty] at hcount
  cases hcount

end Piping

end StrideXv6
