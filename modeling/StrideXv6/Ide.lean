import StrideXv6.Bio
import StrideXv6.Disk
import StrideXv6.LinkedQueue
import Mathlib.Data.Fintype.Card

/-!
# The disk driver (`ide.c`)

Requests wait in a queue that is strung on the `qnext` pointers of the buffers. `iderw` puts
its buffer at the end, and starts the disk if there is no other request; `ideintr` takes the
first buffer from the queue and starts the disk on the next one. Both hold `idelock`, which
`iderw` gives up when it sleeps. A process that sleeps may be dispatched at any time, and
looks at the flags again.

The buffers are used by the rest of the kernel, which may change those that no call of
`iderw` is about. The disk raises one interrupt for each command.
-/

namespace StrideXv6

open Machine LinkedQueue

/-- `SECTOR_SIZE` -/
def SECTOR_SIZE : ℕ := 512

/-- What the disk is told: the disk, the sector, and what to write (`IDE_CMD_WRITE`), if it
is not to read (`IDE_CMD_READ`). -/
structure Command : Type where
  dev : ℕ
  sector : ℕ
  data : Option Block

/-- Where a process is in `iderw`. -/
inductive Call : Type where
  | idle
  /-- about to acquire `idelock` -/
  | checked (b : Fin NBUF)
  /-- in the loop; its request was the `t`-th to be queued -/
  | waiting (b : Fin NBUF) (t : ℕ)
  /-- at the end -/
  | returned (b : Fin NBUF) (t : ℕ)
  deriving DecidableEq, Repr

/-- The buffer that a call is about. -/
def Call.buf? : Call → Option (Fin NBUF)
  | idle => none
  | checked b => some b
  | waiting b _ => some b
  | returned b _ => some b

/-- The flags are `B_VALID` without `B_DIRTY`. -/
def Buf.synced (v : Buf) : Bool := v.valid && !v.dirty

/-- The driver, the disks, and what has happened to the requests. -/
structure Ide (ι : Type) : Type where
  buf : Fin NBUF → Buf
  /-- `idequeue` and `qnext` -/
  queue : Links (Fin NBUF)
  havedisk1 : Bool
  /-- the sectors of the disks -/
  sectors : ℕ → ℕ → Block
  /-- commands that have not raised their interrupt -/
  commands : List Command
  call : ι → Call
  /-- the requests in the order in which they were queued -/
  queued : List (Fin NBUF)
  /-- … in which the disk was started on them -/
  started : List (Fin NBUF)
  /-- … in which they were completed -/
  completed : List (Fin NBUF)

/-- What `idestart` writes to the ports. -/
def Buf.command (v : Buf) : Command where
  dev := v.dev % 2
  sector := v.blockno * (BSIZE / SECTOR_SIZE) % 268435456
  data := if v.dirty then some v.data else none

/-- What `ideintr` makes of a buffer: `ok` if `idewait(1)` is not negative, and `d` is what
can be read from the disk. -/
def Buf.done (v : Buf) (ok : Bool) (d : Block) : Buf :=
  { v with
    data := if !v.dirty && ok then d else v.data
    valid := true
    dirty := false }

/-- The buffers and disks after an interrupt: the block was transferred, but nothing was read if
the disk reports an error. -/
def Store.served (store : Store) (b : Fin NBUF) (ok : Bool) : Store :=
  if ok ∨ (store.buf b).dirty then store.transfer b
  else store.setBuf b { store.buf b with valid := true }

namespace Ide

variable {ι : Type}

/-- `idestart` -/
def idestart (s : Ide ι) : Option (Fin NBUF) → Except Stop (Ide ι)
  | none => .error (.panic "idestart")
  | some b =>
    if (s.buf b).blockno ≥ FSSIZE then .error (.panic "incorrect blockno")
    else if BSIZE / SECTOR_SIZE > 7 then .error (.panic "idestart")
    else .ok { s with
      commands := s.commands ++ [(s.buf b).command]
      started := s.started ++ [b] }

/-- `ideintr` -/
def ideintr (s : Ide ι) (ok : Bool) (d : Block) : Except Stop (Ide ι) :=
  match s.queue.head with
  -- a spurious interrupt
  | none => .ok s
  | some b =>
    let s' := { s with
      queue := { s.queue with head := s.queue.next b }
      buf := Function.update s.buf b ((s.buf b).done ok d)
      completed := s.completed ++ [b] }
    if s'.queue.head = none then .ok s' else s'.idestart s'.queue.head

/-- `iderw` before it acquires `idelock`. -/
def check (s : Ide ι) (b : Fin NBUF) : Except Stop Unit :=
  if (s.buf b).busy = false then .error (.panic "iderw: buf not busy")
  else if (s.buf b).synced then .error (.panic "iderw: nothing to do")
  else if (s.buf b).dev ≠ 0 ∧ s.havedisk1 = false then
    .error (.panic "iderw: ide disk 1 not present")
  else .ok ()

/-- `iderw` until it waits; `none` if the end of the queue is not found. -/
def enqueue (s : Ide ι) (b : Fin NBUF) : Option (Except Stop (Ide ι)) :=
  (s.queue.append (NBUF + 1) b).map fun queue =>
    let s' := { s with queue := queue, queued := s.queued ++ [b] }
    if queue.head = some b then s'.idestart (some b) else .ok s'

/-- What can happen next. -/
inductive Action (ι : Type) : Type where
  | call : ι → Fin NBUF → Action ι
  | enqueue : ι → Action ι
  /-- dispatched, for whatever reason -/
  | wait : ι → Action ι
  | leave : ι → Action ι
  | intr : Bool → Action ι
  /-- other code changes a buffer -/
  | change : Fin NBUF → Buf → Action ι

/-- The disk has done what it was told. -/
def perform (s : Ide ι) (c : Command) : ℕ → ℕ → Block :=
  match c.data with
  | some d => Function.update s.sectors c.dev (Function.update (s.sectors c.dev) c.sector d)
  | none => s.sectors

section Step

variable [DecidableEq ι]

/-- A process goes on. -/
def setCall (s : Ide ι) (p : ι) (c : Call) : Ide ι := { s with call := Function.update s.call p c }

/-- The next state. -/
def step (s : Ide ι) : Action ι → Option (Ide ι)
  | .call p b =>
    if s.call p = .idle then
      match s.check b with
      | .ok _ => some (s.setCall p (.checked b))
      | .error _ => none
    else none
  | .enqueue p =>
    match s.call p with
    | .checked b =>
      match s.enqueue b with
      | some (.ok s') => some (s'.setCall p (.waiting b s.queued.length))
      | _ => none
    | _ => none
  | .wait p =>
    match s.call p with
    | .waiting b t => if (s.buf b).synced then some (s.setCall p (.returned b t)) else some s
    | _ => none
  | .leave p =>
    match s.call p with
    | .returned _ _ => some (s.setCall p .idle)
    | _ => none
  | .intr ok =>
    match s.commands with
    -- there is one interrupt for each command
    | [] => none
    | c :: commands =>
      match ideintr { s with commands := commands, sectors := s.perform c } ok
        (s.perform c c.dev c.sector) with
      | .ok s' => some s'
      | .error _ => none
  | .change b v => some { s with buf := Function.update s.buf b v }

/-- Calls are about different buffers, and nobody else changes these. -/
def Separate (s : Ide ι) : Action ι → Prop
  | .call _ b => ∀ q, (s.call q).buf? ≠ some b
  | .change b _ => ∀ q, (s.call q).buf? ≠ some b
  | _ => True

instance [Fintype ι] (s : Ide ι) (a : Action ι) : Decidable (s.Separate a) :=
  match a with
  | .call _ b => inferInstanceAs (Decidable (∀ q, (s.call q).buf? ≠ some b))
  | .change b _ => inferInstanceAs (Decidable (∀ q, (s.call q).buf? ≠ some b))
  | .enqueue _ | .wait _ | .leave _ | .intr _ => isTrue trivial

end Step

/-- After `ideinit`. -/
def start (buf : Fin NBUF → Buf) (qnext : Fin NBUF → Option (Fin NBUF)) (havedisk1 : Bool)
    (sectors : ℕ → ℕ → Block) : Ide ι where
  buf := buf
  queue := { head := none, next := qnext }
  havedisk1 := havedisk1
  sectors := sectors
  commands := []
  call := fun _ => .idle
  queued := []
  started := []
  completed := []

/-- The request of a call is in the queue. -/
def Pending (s : Ide ι) (b : Fin NBUF) : Prop :=
  ∃ p t, s.call p = .waiting b t ∧ s.completed.length ≤ t

/-- What the queue is like, if the buffers in it are `l`. -/
structure Serves (s : Ide ι) (l : List (Fin NBUF)) : Prop where
  /-- the pointers lead from `idequeue` along the buffers, which are different, to the end -/
  queue : IsQueue s.queue l
  mem : ∀ b, b ∈ l ↔ s.Pending b
  /-- `iderw` finds the end -/
  room : ∀ b ∉ l, (s.queue.append (NBUF + 1) b).isSome
  /-- the disk works on the first one, and on nothing else -/
  commands : s.commands = s.queue.head.toList.map fun b => (s.buf b).command
  started : s.started = s.completed ++ s.queue.head.toList
  queued : s.queued = s.completed ++ l
  returned : ∀ p b t, s.call p = .returned b t →
    s.queued[t]? = some b ∧ t < s.completed.length ∧
      (s.buf b).valid = true ∧ (s.buf b).dirty = false

/-- What is kept by each step. -/
structure Inv (s : Ide ι) (l : List (Fin NBUF)) : Prop where
  queue : IsQueue s.queue l
  commands : s.commands = l.head?.toList.map fun b => (s.buf b).command
  started : s.started = s.completed ++ l.head?.toList
  queued : s.queued = s.completed ++ l
  bounded : ∀ b ∈ l.head?, (s.buf b).blockno < FSSIZE
  /-- no two calls are about the same buffer -/
  apart : ∀ p q b, (s.call p).buf? = some b → (s.call q).buf? = some b → p = q
  checked : ∀ p b, s.call p = .checked b → (s.buf b).busy = true ∧ (s.buf b).synced = false
  waiting : ∀ p b t, s.call p = .waiting b t →
    s.queued[t]? = some b ∧ ((s.buf b).synced = true ↔ t < s.completed.length)
  returned : ∀ p b t, s.call p = .returned b t →
    s.queued[t]? = some b ∧ t < s.completed.length ∧ (s.buf b).synced = true
  pending : ∀ k b, l[k]? = some b → ∃ p, s.call p = .waiting b (s.completed.length + k)

/-- A buffer is started if its block is on the disk; all that changes is what the disk was
told and the list of the buffers it was told about. -/
theorem idestart_eq_ok {s s' : Ide ι} {b : Fin NBUF} (h : s.idestart (some b) = .ok s') :
    (s.buf b).blockno < FSSIZE ∧
      s' = { s with commands := s.commands ++ [(s.buf b).command], started := s.started ++ [b] } := by
  simp only [idestart] at h
  split at h
  · cases h
  · next hlt =>
    split at h
    · cases h
    · exact ⟨Nat.not_le.mp hlt, (Except.ok.inj h).symm⟩

/-- The one panic of `idestart` that is left when there is a buffer. -/
theorem idestart_eq_error {s : Ide ι} {b : Fin NBUF} {e : Stop} (h : s.idestart (some b) = .error e) :
    FSSIZE ≤ (s.buf b).blockno := by
  simp only [idestart] at h
  split at h
  · assumption
  · rw [if_neg (by decide)] at h
    cases h

/-- What `iderw` has looked at before it takes the lock: the buffer is held, and there is
something to do for it. -/
theorem of_check {s : Ide ι} {b : Fin NBUF} {u : Unit} (h : s.check b = .ok u) :
    (s.buf b).busy = true ∧ (s.buf b).synced = false := by
  unfold check at h
  split at h
  · cases h
  · next hbusy =>
    split at h
    · cases h
    · next hsynced => exact ⟨Bool.not_eq_false _ ▸ hbusy, Bool.not_eq_true _ ▸ hsynced⟩

/-- The interrupt handler has completed a request and started the next one. -/
theorem ideintr_eq_ok {s s' : Ide ι} {b : Fin NBUF} {ok : Bool} {d : Block}
    (hb : s.queue.head = some b) (h : s.ideintr ok d = .ok s') :
    (∀ j ∈ s.queue.next b, (Function.update s.buf b ((s.buf b).done ok d) j).blockno < FSSIZE) ∧
    s' = { s with
      queue := { s.queue with head := s.queue.next b }
      buf := Function.update s.buf b ((s.buf b).done ok d)
      completed := s.completed ++ [b]
      commands := s.commands ++ (s.queue.next b).toList.map fun j =>
        (Function.update s.buf b ((s.buf b).done ok d) j).command
      started := s.started ++ (s.queue.next b).toList } := by
  simp only [ideintr, hb] at h
  cases hn : s.queue.next b with
  | none =>
    rw [hn, if_pos rfl] at h
    refine ⟨by rintro j ⟨⟩, ?_⟩
    simpa using (Except.ok.inj h).symm
  | some j =>
    rw [hn, if_neg (Option.some_ne_none j)] at h
    obtain ⟨hlt, hs⟩ := idestart_eq_ok h
    refine ⟨?_, hs⟩
    rintro _ ⟨⟩
    exact hlt

/-- A request was queued, and started if it is the first one. -/
theorem enqueue_eq_ok {s s' : Ide ι} {b : Fin NBUF} (h : s.enqueue b = some (.ok s')) :
    ∃ q, s.queue.append (NBUF + 1) b = some q ∧ (q.head = some b → (s.buf b).blockno < FSSIZE) ∧
    s' = { s with
      queue := q
      queued := s.queued ++ [b]
      commands := s.commands ++ if q.head = some b then [(s.buf b).command] else []
      started := s.started ++ if q.head = some b then [b] else [] } := by
  obtain ⟨q, hq, hs⟩ := Option.map_eq_some_iff.mp h
  refine ⟨q, hq, ?_⟩
  by_cases hb : q.head = some b
  · simp only [if_pos hb] at hs ⊢
    obtain ⟨hlt, hs'⟩ := idestart_eq_ok hs
    exact ⟨fun _ => hlt, hs'⟩
  · simp only [if_neg hb, List.append_nil] at hs ⊢
    exact ⟨fun hb' => absurd hb' hb, (Except.ok.inj hs).symm⟩

namespace Inv

variable {s s' : Ide ι} {l : List (Fin NBUF)}

/-- A buffer in the queue is waited for. -/
theorem waited (h : s.Inv l) {b : Fin NBUF} (hb : b ∈ l) :
    ∃ p t, s.call p = .waiting b t := by
  obtain ⟨k, hk⟩ := List.mem_iff_getElem?.mp hb
  obtain ⟨p, hp⟩ := h.pending k b hk
  exact ⟨p, _, hp⟩

/-- A buffer that is not in the loop of `iderw` is not in the queue. -/
theorem not_mem (h : s.Inv l) {p : ι} {b : Fin NBUF} (hp : (s.call p).buf? = some b)
    (hne : ∀ t, s.call p ≠ .waiting b t) : b ∉ l := by
  intro hb
  obtain ⟨q, t, hq⟩ := h.waited hb
  obtain rfl := h.apart p q b hp (by rw [hq]; rfl)
  exact hne t hq

/-- A request is in the queue as long as it is not completed. -/
theorem mem_iff (h : s.Inv l) (b : Fin NBUF) : b ∈ l ↔ s.Pending b := by
  constructor
  · intro hb
    obtain ⟨k, hk⟩ := List.mem_iff_getElem?.mp hb
    obtain ⟨p, hp⟩ := h.pending k b hk
    exact ⟨p, _, hp, Nat.le_add_right _ _⟩
  · rintro ⟨p, t, hp, ht⟩
    have hget := (h.waiting p b t hp).1
    rw [h.queued, List.getElem?_append_right ht] at hget
    exact List.mem_of_getElem? hget

/-- There is an end to find: there are only `NBUF` buffers. -/
theorem length_lt (h : s.Inv l) : l.length < NBUF + 1 := by
  have hcard := h.queue.nodup.length_le_card
  rw [Fintype.card_fin] at hcard
  omega

/-- What is kept says what the queue is like. -/
theorem serves (h : s.Inv l) : s.Serves l := by
  have hhead := h.queue.spells.head?
  refine ⟨h.queue, h.mem_iff, fun b hb => ?_, ?_, ?_, h.queued, fun p b t hp => ?_⟩
  · obtain ⟨q, hq, -⟩ := h.queue.append hb h.length_lt
    rw [hq]
    rfl
  · rw [h.commands, hhead]
  · rw [h.started, hhead]
  · obtain ⟨hget, hlt, hsynced⟩ := h.returned p b t hp
    rw [Buf.synced, Bool.and_eq_true, Bool.not_eq_true'] at hsynced
    exact ⟨hget, hlt, hsynced⟩

/-- A command was given for the first request. -/
theorem commands_cons (h : s.Inv l) {c : Command} {cs : List Command} (hc : s.commands = c :: cs) :
    cs = [] ∧ ∃ b l', l = b :: l' ∧ c = (s.buf b).command := by
  rw [h.commands] at hc
  cases l with
  | nil => cases hc
  | cons b l =>
    obtain ⟨hb, hcs⟩ := List.cons.inj hc
    exact ⟨hcs.symm, b, l, rfl, hb.symm⟩

/-- The interrupt handler completes the first request, which is the one that the disk
was told. -/
theorem intr {b : Fin NBUF} (h : s.Inv (b :: l)) {ok : Bool} {d : Block}
    {sectors : ℕ → ℕ → Block}
    (hs : ideintr { s with commands := [], sectors := sectors } ok d = .ok s') : s'.Inv l := by
  have hhead := h.queue.tail.spells.head?
  obtain ⟨hbound, rfl⟩ := ideintr_eq_ok (by exact h.queue.spells.1) hs
  -- the process whose request this is
  obtain ⟨p, hp⟩ := h.pending 0 b rfl
  have hother : ∀ q x, (s.call q).buf? = some x → q ≠ p → x ≠ b := by
    rintro q x hq hne rfl
    exact hne (h.apart q p x hq (by rw [hp]; rfl))
  have hbuf : ∀ q x, (s.call q).buf? = some x → q ≠ p → Function.update s.buf b ((s.buf b).done ok d) x = s.buf x :=
    fun q x hq hne => Function.update_of_ne (hother q x hq hne) ..
  refine ⟨h.queue.tail, ?_, ?_, ?_, ?_, h.apart, ?_, ?_, ?_, ?_⟩
  · dsimp only at hhead ⊢
    rw [hhead]
    rfl
  · dsimp only at hhead ⊢
    rw [hhead, h.started]
    rfl
  · dsimp only
    rw [h.queued, List.append_assoc]
    rfl
  · dsimp only at hhead ⊢
    rw [hhead]
    exact hbound
  · intro q x hq
    have hne : q ≠ p := by
      rintro rfl
      rw [hp] at hq
      cases hq
    dsimp only at hq ⊢
    rw [hbuf q x (by rw [hq]; rfl) hne]
    exact h.checked q x hq
  · intro q x t hq
    dsimp only at hq ⊢
    obtain ⟨hget, hsynced⟩ := h.waiting q x t hq
    refine ⟨hget, ?_⟩
    rw [List.length_append, List.length_singleton]
    by_cases hne : q = p
    · subst hne
      obtain ⟨rfl, rfl⟩ : b = x ∧ s.completed.length = t := by
        rw [hp] at hq
        cases hq
        exact ⟨rfl, rfl⟩
      rw [Function.update_self]
      exact ⟨fun _ => Nat.lt_succ_self _, fun _ => rfl⟩
    · have hx := hother q x (by rw [hq]; rfl) hne
      rw [hbuf q x (by rw [hq]; rfl) hne, hsynced]
      -- the ticket of the completed request is not this one
      have ht : t ≠ s.completed.length := by
        rintro rfl
        rw [h.queued, List.getElem?_append_right (Nat.le_refl _), Nat.sub_self] at hget
        exact hx (Option.some.inj hget).symm
      omega
  · intro q x t hq
    have hne : q ≠ p := by
      rintro rfl
      rw [hp] at hq
      cases hq
    dsimp only at hq ⊢
    obtain ⟨hget, hlt, hsynced⟩ := h.returned q x t hq
    rw [List.length_append, hbuf q x (by rw [hq]; rfl) hne]
    exact ⟨hget, Nat.lt_add_right _ hlt, hsynced⟩
  · intro k x hx
    obtain ⟨q, hq⟩ := h.pending (k + 1) x hx
    refine ⟨q, ?_⟩
    rw [List.length_append, List.length_singleton, Nat.add_assoc, Nat.add_comm 1]
    exact hq

/-- Other buffers may change. -/
theorem change (h : s.Inv l) {b : Fin NBUF} (hb : ∀ q, (s.call q).buf? ≠ some b) (v : Buf) :
    Inv { s with buf := Function.update s.buf b v } l := by
  have hbuf : ∀ q x, (s.call q).buf? = some x → Function.update s.buf b v x = s.buf x := by
    intro q x hq
    refine Function.update_of_ne ?_ ..
    rintro rfl
    exact hb q hq
  have hhead : ∀ x ∈ l.head?, Function.update s.buf b v x = s.buf x := by
    intro x hx
    obtain ⟨p, t, hp⟩ := h.waited (List.mem_of_mem_head? hx)
    exact hbuf p x (by rw [hp]; rfl)
  refine ⟨h.queue, ?_, h.started, h.queued, ?_, h.apart, ?_, ?_, ?_, h.pending⟩
  · rw [h.commands]
    cases hl : l.head? with
    | none => rfl
    | some x =>
      simp only [Option.toList_some, List.map_cons, List.map_nil]
      rw [hhead x hl]
  · intro x hx
    dsimp only
    rw [hhead x hx]
    exact h.bounded x hx
  · intro p x hp
    dsimp only at hp ⊢
    rw [hbuf p x (by rw [hp]; rfl)]
    exact h.checked p x hp
  · intro p x t hp
    dsimp only at hp ⊢
    rw [hbuf p x (by rw [hp]; rfl)]
    exact h.waiting p x t hp
  · intro p x t hp
    dsimp only at hp ⊢
    rw [hbuf p x (by rw [hp]; rfl)]
    exact h.returned p x t hp

variable [DecidableEq ι]

/-- A process goes on that has nothing in the queue. -/
theorem setCall (h : s.Inv l) {p : ι} {c : Call} (hnot : ∀ b t, s.call p = .waiting b t → b ∉ l)
    (hapart : ∀ b, c.buf? = some b → ∀ q ≠ p, (s.call q).buf? ≠ some b)
    (hchecked : ∀ b, c = .checked b → (s.buf b).busy = true ∧ (s.buf b).synced = false)
    (hwaiting : ∀ b t, c ≠ .waiting b t)
    (hreturned : ∀ b t, c = .returned b t →
      s.queued[t]? = some b ∧ t < s.completed.length ∧ (s.buf b).synced = true) :
    (s.setCall p c).Inv l := by
  have hself : (s.setCall p c).call p = c := Function.update_self ..
  have hother : ∀ q ≠ p, (s.setCall p c).call q = s.call q := fun q hq =>
    Function.update_of_ne hq ..
  refine ⟨h.queue, h.commands, h.started, h.queued, h.bounded, ?_, ?_, ?_, ?_, ?_⟩
  · intro q r b hq hr
    by_cases hqp : q = p
    · by_cases hrp : r = p
      · rw [hqp, hrp]
      · subst hqp
        rw [hself] at hq
        rw [hother r hrp] at hr
        exact absurd hr (hapart b hq r hrp)
    · by_cases hrp : r = p
      · subst hrp
        rw [hself] at hr
        rw [hother q hqp] at hq
        exact absurd hq (hapart b hr q hqp)
      · rw [hother q hqp] at hq
        rw [hother r hrp] at hr
        exact h.apart q r b hq hr
  · intro q b hq
    by_cases hqp : q = p
    · subst hqp
      exact hchecked b (hself.symm.trans hq)
    · exact h.checked q b ((hother q hqp).symm.trans hq)
  · intro q b t hq
    by_cases hqp : q = p
    · subst hqp
      exact absurd (hself.symm.trans hq) (hwaiting b t)
    · exact h.waiting q b t ((hother q hqp).symm.trans hq)
  · intro q b t hq
    by_cases hqp : q = p
    · subst hqp
      exact hreturned b t (hself.symm.trans hq)
    · exact h.returned q b t ((hother q hqp).symm.trans hq)
  · intro k b hk
    obtain ⟨q, hq⟩ := h.pending k b hk
    refine ⟨q, (hother q ?_).trans hq⟩
    rintro rfl
    exact hnot b _ hq (List.mem_of_getElem? hk)

/-- The request of a process is put into the queue. -/
theorem enqueue (h : s.Inv l) {p : ι} {b : Fin NBUF} (hp : s.call p = .checked b)
    (hs : s.enqueue b = some (.ok s')) :
    (s'.setCall p (.waiting b s.queued.length)).Inv (l ++ [b]) := by
  have hb : b ∉ l := h.not_mem (p := p) (by rw [hp]; rfl) fun t ht => by
    rw [hp] at ht
    cases ht
  obtain ⟨q, hq, hbound, rfl⟩ := enqueue_eq_ok hs
  obtain ⟨q', hq', hqueue⟩ := h.queue.append hb h.length_lt
  obtain rfl := Option.some.inj (hq.symm.trans hq')
  have hhead : q.head = (l ++ [b]).head? := hqueue.spells.head?.symm
  have hlen : s.queued.length = s.completed.length + l.length := by
    rw [h.queued, List.length_append]
  have hself : Function.update s.call p (.waiting b s.queued.length) p =
      .waiting b s.queued.length := Function.update_self ..
  have hother : ∀ r ≠ p, Function.update s.call p (.waiting b s.queued.length) r = s.call r :=
    fun r hr => Function.update_of_ne hr ..
  have hbuf : ∀ r, (Function.update s.call p (.waiting b s.queued.length) r).buf? =
      (s.call r).buf? := by
    intro r
    by_cases hr : r = p
    · rw [hr, hself, hp]
      rfl
    · rw [hother r hr]
  have hfirst : q.head = some b ↔ l = [] := by
    cases l with
    | nil => exact iff_of_true hhead rfl
    | cons x l =>
      refine iff_of_false ?_ (List.cons_ne_nil x l)
      rw [hhead]
      rintro ⟨⟩
      exact hb (.head _)
  refine ⟨hqueue, ?_, ?_, ?_, ?_, ?_, ?_, ?_, ?_, ?_⟩
  · show s.commands ++ (if q.head = some b then [(s.buf b).command] else []) = _
    rw [h.commands]
    cases l with
    | nil =>
      rw [if_pos (hfirst.mpr rfl)]
      rfl
    | cons x l =>
      rw [if_neg fun hx => List.cons_ne_nil x l (hfirst.mp hx)]
      rfl
  · show s.started ++ (if q.head = some b then [b] else []) = _
    rw [h.started]
    cases l with
    | nil =>
      rw [if_pos (hfirst.mpr rfl)]
      simp only [List.head?_nil, Option.toList_none, List.append_nil]
      rfl
    | cons x l =>
      rw [if_neg fun hx => List.cons_ne_nil x l (hfirst.mp hx), List.append_nil]
      rfl
  · exact (congrArg (· ++ [b]) h.queued).trans (List.append_assoc ..)
  · cases l with
    | nil =>
      rintro x ⟨⟩
      exact hbound (hfirst.mpr rfl)
    | cons x l => exact h.bounded
  · intro r r' x hr hr'
    exact h.apart r r' x ((hbuf r).symm.trans hr) ((hbuf r').symm.trans hr')
  · intro r x hr
    by_cases hrp : r = p
    · subst hrp
      cases hself.symm.trans hr
    · exact h.checked r x ((hother r hrp).symm.trans hr)
  · intro r x t hr
    by_cases hrp : r = p
    · subst hrp
      cases hself.symm.trans hr
      refine ⟨List.getElem?_concat_length, ?_⟩
      refine iff_of_false ?_ (by rw [hlen]; exact Nat.not_lt.mpr (Nat.le_add_right _ _))
      exact Bool.not_eq_true _ ▸ (h.checked r b hp).2
    · obtain ⟨hget, hsynced⟩ := h.waiting r x t ((hother r hrp).symm.trans hr)
      exact ⟨(List.getElem?_append_left (List.getElem?_eq_some_iff.mp hget).1).trans hget, hsynced⟩
  · intro r x t hr
    by_cases hrp : r = p
    · subst hrp
      cases hself.symm.trans hr
    · obtain ⟨hget, hrest⟩ := h.returned r x t ((hother r hrp).symm.trans hr)
      exact ⟨(List.getElem?_append_left (List.getElem?_eq_some_iff.mp hget).1).trans hget, hrest⟩
  · intro k x hk
    by_cases hkl : k < l.length
    · rw [List.getElem?_append_left hkl] at hk
      obtain ⟨r, hr⟩ := h.pending k x hk
      refine ⟨r, (hother r ?_).trans hr⟩
      rintro rfl
      rw [hp] at hr
      cases hr
    · rw [List.getElem?_append_right (Nat.not_lt.mp hkl), List.getElem?_singleton] at hk
      split at hk
      · next hzero =>
        obtain rfl := Option.some.inj hk
        obtain rfl : k = l.length := by omega
        exact ⟨p, hlen ▸ hself⟩
      · cases hk

/-- Each step keeps it. -/
theorem step (h : s.Inv l) {a : Action ι} (ha : s.Separate a) (hs : s.step a = some s') :
    ∃ l', s'.Inv l' := by
  cases a with
  | call p b =>
    simp only [Ide.step] at hs
    split at hs
    · next hidle =>
      split at hs
      · next hcheck =>
        obtain rfl := Option.some.inj hs
        refine ⟨l, h.setCall (fun x t hx => ?_) (fun x hx q _ => ?_) ?_ ?_ ?_⟩
        · rw [hidle] at hx
          cases hx
        · obtain rfl := Option.some.inj hx
          exact ha q
        · rintro x ⟨⟩
          exact of_check hcheck
        · rintro x t ⟨⟩
        · rintro x t ⟨⟩
      · cases hs
    · cases hs
  | enqueue p =>
    simp only [Ide.step] at hs
    split at hs
    · next b hp =>
      split at hs
      · next s₁ hs₁ =>
        obtain rfl := Option.some.inj hs
        exact ⟨_, h.enqueue hp hs₁⟩
      · cases hs
    · cases hs
  | wait p =>
    simp only [Ide.step] at hs
    split at hs
    · next b t hp =>
      split at hs
      · next hsynced =>
        obtain rfl := Option.some.inj hs
        obtain ⟨hget, hlt⟩ := h.waiting p b t hp
        refine ⟨l, h.setCall (fun x u hx => ?_) (fun x hx q hq hqx => ?_) ?_ ?_ ?_⟩
        · rw [hp] at hx
          cases hx
          rw [h.mem_iff]
          rintro ⟨q, u, hq, hu⟩
          obtain rfl := h.apart q p b (by rw [hq]; rfl) (by rw [hp]; rfl)
          cases hp.symm.trans hq
          exact Nat.not_lt.mpr hu (hlt.mp hsynced)
        · exact hq (h.apart q p x hqx (by rw [hp]; exact hx))
        · rintro x ⟨⟩
        · rintro x u ⟨⟩
        · rintro x u ⟨⟩
          exact ⟨hget, hlt.mp hsynced, hsynced⟩
      · obtain rfl := Option.some.inj hs
        exact ⟨l, h⟩
    · cases hs
  | leave p =>
    simp only [Ide.step] at hs
    split at hs
    · next b t hp =>
      obtain rfl := Option.some.inj hs
      refine ⟨l, h.setCall (fun x u hx => ?_) ?_ ?_ ?_ ?_⟩
      · rw [hp] at hx
        cases hx
      · rintro x ⟨⟩
      · rintro x ⟨⟩
      · rintro x u ⟨⟩
      · rintro x u ⟨⟩
    · cases hs
  | intr ok =>
    simp only [Ide.step] at hs
    split at hs
    · cases hs
    · next c cs hc =>
      split at hs
      · next s₁ hs₁ =>
        obtain rfl := Option.some.inj hs
        obtain ⟨rfl, b, l, rfl, -⟩ := h.commands_cons hc
        exact ⟨l, h.intr hs₁⟩
      · cases hs
  | change b v =>
    obtain rfl := Option.some.inj hs
    exact ⟨l, h.change ha v⟩

end Inv

/-- Nothing has been asked for. -/
theorem inv_start (buf : Fin NBUF → Buf) (qnext : Fin NBUF → Option (Fin NBUF)) (havedisk1 : Bool)
    (sectors : ℕ → ℕ → Block) : (start buf qnext havedisk1 sectors : Ide ι).Inv [] where
  queue := ⟨List.nodup_nil, rfl⟩
  commands := rfl
  started := rfl
  queued := rfl
  bounded := by rintro b ⟨⟩
  apart := by rintro p q b ⟨⟩
  checked := by rintro p b ⟨⟩
  waiting := by rintro p b t ⟨⟩
  returned := by rintro p b t ⟨⟩
  pending := by rintro k b ⟨⟩

/-- **The disk driver serves its requests one after the other**, whatever the order of calls
and interrupts. -/
theorem ide_serves [DecidableEq ι] (buf : Fin NBUF → Buf) (qnext : Fin NBUF → Option (Fin NBUF))
    (havedisk1 : Bool) (sectors : ℕ → ℕ → Block) {as : List (Action ι)}
    (h : AllSteps step Separate (start buf qnext havedisk1 sectors) as) :
    AllStates step (fun s => ∃ l, s.Serves l) (start buf qnext havedisk1 sectors) as := by
  have hinv : AllStates step (fun s => ∃ l, s.Inv l) (start buf qnext havedisk1 sectors) as := by
    refine allStates_of_allSteps ?_ ⟨_, inv_start buf qnext havedisk1 sectors⟩ h
    rintro s a t ⟨l, hs⟩ ha hstep
    exact hs.step ha hstep
  refine hinv.mono ?_
  rintro s ⟨l, hs⟩
  exact ⟨l, hs.serves⟩

/-- Two processes ask for two blocks; the second one is dispatched too early, and the first
request is served first. -/
theorem ide_serves_two : AllStates Ide.step (fun s => ∃ l, s.Serves l)
    (start (fun i => ⟨1, i.val, true, false, false, fun _ => 0⟩) (fun _ => none) true fun _ _ _ => 5)
    [.call true 3, .call false 4, .enqueue true, .enqueue false, .wait false, .intr true,
      .wait false, .wait true, .leave true, .change 3 ⟨1, 7, false, true, false, fun _ => 0⟩,
      .intr true, .wait false, .leave false] :=
  ide_serves _ _ _ _ (by decide +kernel)

/-! ## The queue as a list -/

/-- The driver as the buffer cache sees it, with the requests in a list. -/
structure Listed (ι : Type) : Type where
  bio : Bio ι
  call : ι → Call
  /-- how many requests were queued -/
  count : ℕ
  havedisk1 : Bool

namespace Listed

/-- Before any process uses the cache. -/
def start (store : Store) (havedisk1 : Bool) : Listed ι where
  bio := .start store
  call := fun _ => .idle
  count := 0
  havedisk1 := havedisk1

variable [DecidableEq ι]

/-- The same actions with the list: `iderw` puts its buffer at the end of it, the interrupt
handler serves the first one, and buffers are changed by other code only. -/
def step (x : Listed ι) : Action ι → Option (Listed ι)
  | .call p b =>
    if x.call p = .idle ∧ (x.bio.buf b).busy = true ∧ (x.bio.buf b).synced = false ∧
        ((x.bio.buf b).dev ≠ 0 → x.havedisk1 = true) then
      some { x with call := Function.update x.call p (.checked b) }
    else none
  | .enqueue p =>
    match x.call p with
    | .checked b =>
      match BufOp.run p x.bio (.iderw b) with
      | .ok (_, bio) => some { x with
          bio := bio
          call := Function.update x.call p (.waiting b x.count)
          count := x.count + 1 }
      | .error _ => none
    | _ => none
  | .wait p =>
    match x.call p with
    | .waiting b t =>
      if (x.bio.buf b).synced then
        some { x with call := Function.update x.call p (.returned b t) }
      else some x
    | _ => none
  | .leave p =>
    match x.call p with
    | .returned _ _ => some { x with call := Function.update x.call p .idle }
    | _ => none
  | .intr ok =>
    if x.bio.queue = [] then none
    else
      match if ok then x.bio.ideintr else x.bio.ideintrError with
      | .ok bio => some { x with bio := bio }
      | .error _ => none
  | .change b v => some { x with bio := x.bio.setBuf b v }

end Listed

/-- The driver and the list are in the same state: the same buffers, disks and callers, and the
pointers go through the buffers of the list. -/
structure Simulates (s : Ide ι) (x : Listed ι) : Prop where
  buf : s.buf = x.bio.store.buf
  sectors : s.sectors = x.bio.store.disk
  call : s.call = x.call
  count : s.queued.length = x.count
  havedisk1 : s.havedisk1 = x.havedisk1
  inv : s.Inv x.bio.queue

/-- Before any process uses the cache, `ideinit` has left an empty queue, which is the empty list. -/
theorem simulates_start (store : Store) (qnext : Fin NBUF → Option (Fin NBUF)) (havedisk1 : Bool) :
    (start store.buf qnext havedisk1 store.disk : Ide ι).Simulates (.start store havedisk1) :=
  ⟨rfl, rfl, rfl, rfl, rfl, inv_start store.buf qnext havedisk1 store.disk⟩

section Served

variable {store : Store} {s : Ide ι} {b : Fin NBUF}

/-- The sector is the block. -/
theorem command_sector {v : Buf} (h : v.blockno < FSSIZE) : v.command.sector = v.blockno := by
  have hlt : v.blockno < 1000 := h
  show v.blockno * 1 % 268435456 = v.blockno
  omega

/-- The disk reads or writes the block of the buffer. -/
theorem perform_command (h : s.sectors = store.disk) (hbuf : s.buf = store.buf)
    (hlt : (s.buf b).blockno < FSSIZE) : s.perform (s.buf b).command = (store.transfer b).disk := by
  funext d n
  rw [Store.transfer_disk, ← hbuf, ← h, perform]
  by_cases hdirty : (s.buf b).dirty = true
  · have hsector := command_sector hlt
    simp only [Buf.command, hdirty, if_true, true_and] at hsector ⊢
    rw [hsector]
    exact setBlock_apply ..
  · rw [if_neg fun hd => hdirty hd.1]
    simp only [Buf.command, hdirty, Bool.false_eq_true, if_false]

/-- What `ideintr` makes of the buffer and of the disk. -/
theorem served_eq (h : s.sectors = store.disk) (hbuf : s.buf = store.buf)
    (hlt : (s.buf b).blockno < FSSIZE) (ok : Bool) :
    Function.update s.buf b ((s.buf b).done ok
        (s.perform (s.buf b).command (s.buf b).command.dev (s.buf b).command.sector)) =
      (store.served b ok).buf ∧
    s.perform (s.buf b).command = (store.served b ok).disk := by
  have hdisk := perform_command h hbuf hlt
  unfold Store.served
  split
  · next hserved =>
    refine ⟨?_, hdisk⟩
    funext j
    rw [Store.transfer_buf, Function.update_apply, hdisk, command_sector hlt, hbuf]
    refine if_congr Iff.rfl ?_ rfl
    rw [Store.transfer_disk]
    by_cases hdirty : (store.buf b).dirty = true
    · simp only [Buf.done, hdirty, Bool.not_true, Bool.false_and, Bool.false_eq_true, if_false,
        if_true]
    · rw [hserved.resolve_right hdirty]
      simp only [Buf.done, hdirty, Bool.not_false, Bool.true_and, Bool.false_eq_true, if_false,
        if_true, false_and]
      rfl
  · next hserved =>
    -- a read that failed: the disk was not changed, and neither was the data
    rw [not_or, Bool.not_eq_true, Bool.not_eq_true] at hserved
    obtain ⟨rfl, hdirty⟩ := hserved
    constructor
    · funext j
      rw [Store.setBuf_buf, Function.update_apply, hbuf]
      refine if_congr Iff.rfl ?_ rfl
      simp only [Buf.done, hdirty, Bool.and_false, Bool.false_eq_true, if_false]
    · rw [perform, Buf.command, hbuf, hdirty]
      exact h

end Served

/-- `ideintr` with the list, for a request `b` with `l` behind it. -/
theorem listed_intr {x : Bio ι} {b : Fin NBUF} {l : List (Fin NBUF)} (hq : x.queue = b :: l)
    (ok : Bool) : (if ok then x.ideintr else x.ideintrError) =
      if ∃ j ∈ l.head?, FSSIZE ≤ (x.buf j).blockno then .error (.panic "incorrect blockno")
      else .ok { x with store := x.store.served b ok, queue := l } := by
  have hserved : (if ok then x.ideintr else x.ideintrError) =
      match l with
      | [] => .ok { x with store := x.store.served b ok, queue := l }
      | j :: _ => if FSSIZE ≤ (x.buf j).blockno then .error (.panic "incorrect blockno")
        else .ok { x with store := x.store.served b ok, queue := l } := by
    unfold Store.served Bio.ideintrError Bio.ideintr
    cases ok <;> by_cases hdirty : (x.store.buf b).dirty = true <;> cases l <;>
      simp [hq, hdirty, Bio.setBuf]
  rw [hserved]
  cases l with
  | nil => exact (if_neg (by rintro ⟨j, ⟨⟩, -⟩)).symm
  | cons j l =>
    refine if_congr ⟨fun hj => ⟨j, rfl, hj⟩, ?_⟩ rfl rfl
    rintro ⟨_, ⟨⟩, hj⟩
    exact hj

variable [DecidableEq ι] {s s' : Ide ι} {x : Listed ι}

namespace Simulates

/-- An interrupt: the driver takes the first buffer from the pointers, and the list loses its first
element. Both stop if the block of the next request is out of range. -/
theorem intr (h : s.Simulates x) (ok : Bool) :
    Option.Rel Simulates (s.step (.intr ok)) (x.step (.intr ok)) := by
  have hinv := h.inv
  cases hq : x.bio.queue with
  | nil =>
    rw [hq] at hinv
    have hcommands : s.commands = [] := hinv.commands
    simp only [step, Listed.step, hcommands, hq, if_true]
    exact .none
  | cons b l =>
    rw [hq] at hinv
    have hcommands : s.commands = [(s.buf b).command] := hinv.commands
    have hlt : (s.buf b).blockno < FSSIZE := hinv.bounded b rfl
    have hb : s.queue.head = some b := hinv.queue.spells.1
    have hnext : s.queue.next b = l.head? := hinv.queue.spells.2.head?.symm
    obtain ⟨hbuf, hdisk⟩ := served_eq h.sectors h.buf hlt ok
    -- the next request is about another buffer
    have hsame : ∀ j ∈ l.head?, ((x.bio.store.served b ok).buf j).blockno =
        (x.bio.buf j).blockno := by
      intro j hj
      have hne : j ≠ b := by
        rintro rfl
        exact (List.nodup_cons.mp hinv.queue.nodup).1 (List.mem_of_mem_head? hj)
      rw [← hbuf, Function.update_of_ne hne, h.buf]
    simp only [step, Listed.step, hcommands, hq, reduceCtorEq, if_false, listed_intr hq]
    cases hi : ideintr { s with commands := [], sectors := s.perform (s.buf b).command } ok
        (s.perform (s.buf b).command (s.buf b).command.dev (s.buf b).command.sector) with
    | ok s' =>
      have hinv' := hinv.intr hi
      obtain ⟨hrange, rfl⟩ := ideintr_eq_ok (by exact hb) hi
      rw [if_neg]
      · exact .some ⟨hbuf, hdisk, h.call, h.count, h.havedisk1, hinv'⟩
      · rintro ⟨j, hj, hle⟩
        have hjlt := hrange j (by rw [hnext]; exact hj)
        dsimp only at hjlt
        rw [hbuf, hsame j hj] at hjlt
        exact Nat.not_lt.mpr hle hjlt
    | error e =>
      simp only [ideintr, hb] at hi
      cases l with
      | nil =>
        rw [hnext, List.head?_nil, if_pos rfl] at hi
        cases hi
      | cons j l =>
        rw [hnext, List.head?_cons, if_neg (Option.some_ne_none j)] at hi
        have hle := idestart_eq_error hi
        dsimp only at hle
        rw [hbuf, hsame j rfl] at hle
        rw [if_pos ⟨j, rfl, hle⟩]
        exact .none

/-- A request is queued: behind the last pointer, and at the end of the list. Both stop if it is the
only one and its block is out of range. -/
theorem enqueue (h : s.Simulates x) (p : ι) :
    Option.Rel Simulates (s.step (.enqueue p)) (x.step (.enqueue p)) := by
  simp only [step, Listed.step, ← h.call]
  cases hp : s.call p with
  | checked b =>
    obtain ⟨hbusy, hsynced⟩ := h.inv.checked p b hp
    have hb : b ∉ x.bio.queue := h.inv.not_mem (p := p) (by rw [hp]; rfl) fun t ht => by
      rw [hp] at ht
      cases ht
    obtain ⟨q, hq, hqueue⟩ := h.inv.queue.append hb h.inv.length_lt
    have hhead : q.head = some b ↔ x.bio.queue = [] := by
      rw [← hqueue.spells.head?]
      cases hx : x.bio.queue with
      | nil => simp
      | cons j l =>
        refine iff_of_false (fun hj => hb ?_) (List.cons_ne_nil j l)
        rw [hx, ← Option.some.inj hj]
        exact .head _
    have hrun : BufOp.run p x.bio (.iderw b) =
        if x.bio.queue = [] ∧ FSSIZE ≤ (s.buf b).blockno then .error (.panic "incorrect blockno")
        else .ok ((), { x.bio with queue := x.bio.queue ++ [b] }) := by
      rw [h.buf] at hbusy hsynced ⊢
      simp only [BufOp.run]
      rw [if_neg (by rw [hbusy]; decide), if_neg (by rw [← Buf.synced, hsynced]; decide)]
    dsimp only
    rw [hrun]
    cases hr : s.enqueue b with
    | none =>
      rw [Ide.enqueue, hq] at hr
      cases hr
    | some r =>
    cases r with
    | ok s₁ =>
      have hinv := h.inv.enqueue hp hr
      obtain ⟨q', hq', hrange, rfl⟩ := enqueue_eq_ok hr
      obtain rfl := Option.some.inj (hq.symm.trans hq')
      have hfree : ¬ (x.bio.queue = [] ∧ FSSIZE ≤ (s.buf b).blockno) := fun hbad =>
        Nat.not_lt.mpr hbad.2 (hrange (hhead.mpr hbad.1))
      rw [if_neg hfree]
      refine .some ⟨h.buf, h.sectors, ?_, ?_, h.havedisk1, hinv⟩
      · change Function.update s.call p _ = Function.update s.call p _
        rw [h.count]
      · change (s.queued ++ [b]).length = _
        rw [List.length_append, h.count]
        rfl
    | error e =>
      rw [Ide.enqueue, hq] at hr
      dsimp only [Option.map] at hr
      split at hr
      · next hfirst =>
        have hle := idestart_eq_error (Option.some.inj hr)
        rw [if_pos ⟨hhead.mp hfirst, hle⟩]
        exact .none
      · cases hr
  | _ => exact .none

/-- A step in which only a caller goes on: the requests stay those of the list. -/
theorem goOn (h : s.Simulates x) {p : ι} {c : Call} {a : Action ι} (ha : s.Separate a)
    (hs : s.step a = some (s.setCall p c)) :
    (s.setCall p c).Simulates { x with call := Function.update x.call p c } := by
  obtain ⟨l, hl⟩ := h.inv.step ha hs
  obtain rfl : l = x.bio.queue := List.append_cancel_left (hl.queued.symm.trans h.inv.queued)
  refine ⟨h.buf, h.sectors, ?_, h.count, h.havedisk1, hl⟩
  change Function.update s.call p c = _
  rw [h.call]

/-- **One step with the pointers is one step with the list**, and there is none with the list if
there is none with the pointers. -/
theorem step (h : s.Simulates x) {a : Action ι} (ha : s.Separate a) :
    Option.Rel Simulates (s.step a) (x.step a) := by
  cases a with
  | enqueue p => exact h.enqueue p
  | intr ok => exact h.intr ok
  | change b v =>
    refine .some ⟨?_, h.sectors, h.call, h.count, h.havedisk1, h.inv.change ha v⟩
    change Function.update s.buf b v = _
    rw [h.buf]
    rfl
  | call p b =>
    have hcheck : (∃ u, s.check b = .ok u) ↔ (s.buf b).busy = true ∧ (s.buf b).synced = false ∧
        ((s.buf b).dev ≠ 0 → s.havedisk1 = true) := by
      unfold check
      cases (s.buf b).busy <;> cases (s.buf b).synced <;> cases s.havedisk1 <;>
        by_cases hdev : (s.buf b).dev = 0 <;> simp [hdev]
    have hgo := h.goOn (p := p) (c := .checked b) ha
    rw [h.buf, h.havedisk1] at hcheck
    simp only [Ide.step, Listed.step, h.call] at hgo ⊢
    by_cases hidle : x.call p = .idle
    · rw [if_pos hidle] at hgo ⊢
      cases hr : s.check b with
      | ok u =>
        rw [hr] at hgo
        rw [if_pos ⟨hidle, hcheck.mp ⟨u, hr⟩⟩]
        exact .some (hgo rfl)
      | error e =>
        rw [if_neg fun hx => ?_]
        · exact .none
        · obtain ⟨u, hu⟩ := hcheck.mpr hx.2
          rw [hr] at hu
          cases hu
    · rw [if_neg hidle, if_neg fun hx => hidle hx.1]
      exact .none
  | wait p =>
    cases hp : s.call p with
    | waiting b t =>
      have hgo := h.goOn (p := p) (c := .returned b t) ha
      have hp' : x.call p = .waiting b t := h.call ▸ hp
      simp only [Ide.step, Listed.step, hp, hp', h.buf] at hgo ⊢
      split
      · next hsynced =>
        rw [if_pos hsynced] at hgo
        exact .some (hgo rfl)
      · exact .some h
    | _ =>
      have hp' := h.call ▸ hp
      simp only [Ide.step, Listed.step, hp, hp']
      exact .none
  | leave p =>
    cases hp : s.call p with
    | returned b t =>
      have hgo := h.goOn (p := p) (c := .idle) ha
      have hp' : x.call p = .returned b t := h.call ▸ hp
      simp only [Ide.step, Listed.step, hp, hp'] at hgo ⊢
      exact .some (hgo trivial)
    | _ =>
      have hp' := h.call ▸ hp
      simp only [Ide.step, Listed.step, hp, hp']
      exact .none

end Simulates

/-- **The queue may be taken for a list**: from `ideinit` on, whatever the processes and the disk do,
as long as no two calls are about one buffer and no other code changes a buffer that a call is about,
the driver with its pointers and the one with the list are in the same state after the same actions,
and one of them stops exactly when the other does. -/
theorem driver_refines_list (store : Store) (qnext : Fin NBUF → Option (Fin NBUF))
    (havedisk1 : Bool) {as : List (Action ι)}
    (h : AllSteps Ide.step Separate (start store.buf qnext havedisk1 store.disk) as) :
    Option.Rel Simulates (exec Ide.step (start store.buf qnext havedisk1 store.disk) as)
      (exec Listed.step (.start store havedisk1) as) :=
  exec_rel_of_allSteps (fun _ _ _ hs ha => hs.step ha) (simulates_start store qnext havedisk1) h

/-- Two blocks are read, by pointers and by the list; the second read fails. -/
theorem driver_refines_list_two : Option.Rel Simulates
    (exec Ide.step (start (.binit (fun _ _ _ => 5) {} 0 : Store).buf (fun _ => none) true fun _ _ _ => 5)
      [.change 3 ⟨1, 7, true, false, false, fun _ => 0⟩, .change 4 ⟨1, 8, true, false, false, fun _ => 0⟩,
        .call true 3, .call false 4, .enqueue true, .enqueue false, .wait false, .intr true,
        .wait true, .intr false, .wait false, .leave true, .leave false])
    (exec Listed.step (.start (.binit (fun _ _ _ => 5) {} 0) true)
      [.change 3 ⟨1, 7, true, false, false, fun _ => 0⟩, .change 4 ⟨1, 8, true, false, false, fun _ => 0⟩,
        .call true 3, .call false 4, .enqueue true, .enqueue false, .wait false, .intr true,
        .wait true, .intr false, .wait false, .leave true, .leave false]) :=
  driver_refines_list (.binit (fun _ _ _ => 5) {} 0) _ _ (by decide +kernel)

end Ide

end StrideXv6
