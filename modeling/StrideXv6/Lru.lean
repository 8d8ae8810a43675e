import StrideXv6.Buffer
import StrideXv6.DoublyLinked
import StrideXv6.Run

/-!
# The list of buffers (`bio.c`)

The buffers are strung on a ring, most recently used first, with `bcache.head` as the mark.
`bget` and `brelse` hold `bcache.lock` while they are at it, so each is one step; between
them anything may be done to the buffers themselves. Everywhere else in this development
the ring is a list, `Store.order`: `Simulates` says that it may be taken for one.
-/

namespace StrideXv6.Lru

open Machine DoublyLinked

/-- A buffer, or `bcache.head`. -/
abbrev Node : Type := Option (Fin NBUF)

/-- `bcache.head` -/
def head : Node := none

/-- `bcache` -/
structure Bcache : Type where
  links : Links Node
  buf : Fin NBUF → Buf
  /-- the buffers that were released, the last one first -/
  released : List (Fin NBUF)

/-- What comes of `bget`. -/
inductive Got : Type where
  /-- the block is in this buffer -/
  | found : Fin NBUF → Got
  /-- it is, but somebody else uses it -/
  | asleep : Fin NBUF → Got
  /-- this buffer is recycled -/
  | recycled : Fin NBUF → Got
  /-- `panic("bget: no buffers")` -/
  | noBuffers
  deriving DecidableEq, Repr

namespace Bcache

/-- `binit`, whatever the pointers were before. -/
def binit (r : Links Node) : Bcache where
  links := (List.finRange NBUF).foldl (fun r i => r.push head (some i)) (r.close head)
  buf := fun _ =>
    { dev := 4294967295, blockno := 0, busy := false, valid := false, dirty := false
      data := fun _ => 0 }
  released := []

/-- Change one buffer. -/
def setBuf (s : Bcache) (i : Fin NBUF) (b : Buf) : Bcache :=
  { s with buf := Function.update s.buf i b }

/-- The test in the first loop of `bget`. -/
def isFor (s : Bcache) (dev blockno : ℕ) : Node → Bool
  | none => false
  | some i => (s.buf i).dev = dev ∧ (s.buf i).blockno = blockno

/-- The test in the second one. -/
def isClean (s : Bcache) : Node → Bool
  | none => false
  | some i => (s.buf i).busy = false ∧ (s.buf i).dirty = false

/-- `bget`, with at most `fuel` turns of each loop. -/
def bget (s : Bcache) (fuel dev blockno : ℕ) : Option Got := do
  match ← Loop.run (seek s.links.next head (s.isFor dev blockno)) fuel (s.links.next head) with
  | some (some i) => return if (s.buf i).busy then .asleep i else .found i
  | _ =>
    match ← Loop.run (seek s.links.prev head s.isClean) fuel (s.links.prev head) with
    | some (some i) => return .recycled i
    | _ => return .noBuffers

/-- `brelse` -/
def brelse (s : Bcache) (i : Fin NBUF) : Option Bcache :=
  if (s.buf i).busy = false then none
  else some
    { links := (s.links.unlink (some i)).push head (some i)
      buf := Function.update s.buf i { s.buf i with busy := false }
      released := i :: s.released }

end Bcache

/-- What can happen next. -/
inductive Action : Type where
  | bget (dev blockno : ℕ)
  | brelse (i : Fin NBUF)
  /-- anything else that is done to a buffer -/
  | change (i : Fin NBUF) (b : Buf)

/-- What `bget` does to the buffer that it returns. -/
def Bcache.take (s : Bcache) (dev blockno : ℕ) : Got → Option Bcache
  | .found i => some (s.setBuf i { s.buf i with busy := true })
  | .asleep _ => some s
  | .recycled i => some (s.setBuf i
      { s.buf i with dev := dev, blockno := blockno, busy := true, valid := false, dirty := false })
  | .noBuffers => none

/-- The next state; the kernel may also panic. -/
def step (s : Bcache) : Action → Option Bcache
  | .bget dev blockno => (s.bget (NBUF + 1) dev blockno).bind (s.take dev blockno)
  | .brelse i => s.brelse i
  | .change i b => some (s.setBuf i b)

/-- The list is a faithful order of use. -/
structure Faithful (s : Bcache) (order : List (Fin NBUF)) : Prop where
  once : order.Nodup ∧ ∀ i, i ∈ order
  visits : List.iterate s.links.next (s.links.next head) (NBUF + 1) = order.map some ++ [head]
  inverse : ∀ a, s.links.prev (s.links.next a) = a ∧ s.links.next (s.links.prev a) = a
  /-- those that were released come first, the last one in front -/
  recent : order.Pairwise fun i j => j ∈ s.released → s.released.idxOf i < s.released.idxOf j
  returns : ∀ fuel > NBUF, ∀ dev blockno, ∃ r, s.bget fuel dev blockno = some r
  recycles : ∀ fuel > NBUF, ∀ dev blockno i, s.bget fuel dev blockno = some (.recycled i) →
    ∃ x y, order = x ++ i :: y ∧ s.isClean (some i) = true ∧ ∀ j ∈ y, s.isClean (some j) = false

/-! ## The order -/

/-- The ring has all buffers, in the order of their last releases. -/
structure Ordered (s : Bcache) (order : List (Fin NBUF)) : Prop where
  ring : IsRing s.links head (order.map some)
  all : ∀ i, i ∈ order
  recent : order.Pairwise fun i j => j ∈ s.released → s.released.idxOf i < s.released.idxOf j

variable {s s' : Bcache} {order : List (Fin NBUF)} {i : Fin NBUF} {dev blockno fuel : ℕ}

/-- Buffers that are pushed one by one end up in front, the last one first. -/
theorem isRing_foldl {r : Links Node} {l : List (Fin NBUF)} (hr : IsRing r head (order.map some))
    (hl : (l.reverse ++ order).Nodup) :
    IsRing (l.foldl (fun r i => r.push head (some i)) r) head ((l.reverse ++ order).map some) := by
  induction l generalizing r order with
  | nil => exact hr
  | cons i l ih =>
    rw [List.reverse_cons, List.append_assoc, List.singleton_append] at hl ⊢
    refine ih (hr.push ?_) hl
    have hi : i ∉ order := (List.nodup_cons.mp (List.nodup_append.mp hl).2.1).1
    rw [List.mem_cons, List.mem_map, not_or]
    refine ⟨by rintro ⟨⟩, ?_⟩
    rintro ⟨j, hj, hji⟩
    exact hi (Option.some.inj hji ▸ hj)

/-- `binit` puts one buffer in front of the other. -/
theorem ordered_binit (r : Links Node) : Ordered (.binit r) (List.finRange NBUF).reverse where
  ring := by
    have hnodup : ((List.finRange NBUF).reverse ++ []).Nodup := by
      rw [List.append_nil, List.nodup_reverse]
      exact List.nodup_finRange NBUF
    have hclose : IsRing (r.close head) head (([] : List (Fin NBUF)).map some) := isRing_close
    have hring := isRing_foldl hclose hnodup
    rwa [List.append_nil] at hring
  all i := List.mem_reverse.mpr (List.mem_finRange i)
  recent := List.pairwise_of_forall fun i j hj => absurd hj List.not_mem_nil

namespace Ordered

theorem nodup (h : Ordered s order) : order.Nodup :=
  List.Nodup.of_map _ (List.nodup_cons.mp h.ring.nodup).2

theorem length_eq (h : Ordered s order) : order.length = NBUF := by
  have hperm : order.Perm (List.finRange NBUF) :=
    (List.perm_ext_iff_of_nodup h.nodup (List.nodup_finRange NBUF)).mpr fun i =>
      iff_of_true (h.all i) (List.mem_finRange i)
  rw [hperm.length_eq, List.length_finRange]

/-- The first loop of `bget`. -/
theorem run_lookup (h : Ordered s order) (hfuel : NBUF < fuel) :
    Loop.run (seek s.links.next head (s.isFor dev blockno)) fuel (s.links.next head) =
      some ((order.find? fun i => s.isFor dev blockno (some i)).map some) := by
  have hlt : (order.map some).length < fuel := by
    rw [List.length_map, h.length_eq]
    exact hfuel
  rw [h.ring.run_seek hlt, List.find?_map]
  rfl

/-- The second one. -/
theorem run_victim (h : Ordered s order) (hfuel : NBUF < fuel) :
    Loop.run (seek s.links.prev head s.isClean) fuel (s.links.prev head) =
      some ((order.reverse.find? fun i => s.isClean (some i)).map some) := by
  have hlt : (order.map some).reverse.length < fuel := by
    rw [List.length_reverse, List.length_map, h.length_eq]
    exact hfuel
  rw [← List.map_reverse] at hlt
  have hring := h.ring.reverse
  rw [← List.map_reverse] at hring
  rw [hring.run_seek hlt, List.find?_map]
  rfl

/-- What `bget` finds, in terms of the list. -/
theorem bget_eq (h : Ordered s order) (hfuel : NBUF < fuel) : s.bget fuel dev blockno = some
    (match order.find? fun i => s.isFor dev blockno (some i) with
      | some i => if (s.buf i).busy then .asleep i else .found i
      | none =>
        match order.reverse.find? fun i => s.isClean (some i) with
        | some i => .recycled i
        | none => .noBuffers) := by
  unfold Bcache.bget
  rw [h.run_lookup hfuel, h.run_victim hfuel]
  cases order.find? fun i => s.isFor dev blockno (some i) with
  | some i => rfl
  | none => cases order.reverse.find? fun i => s.isClean (some i) <;> rfl

/-- A recycled buffer is the clean one nearest to the tail. -/
theorem recycles (h : Ordered s order) (hfuel : NBUF < fuel)
    (hget : s.bget fuel dev blockno = some (.recycled i)) :
    ∃ x y, order = x ++ i :: y ∧ s.isClean (some i) = true ∧
      ∀ j ∈ y, s.isClean (some j) = false := by
  rw [h.bget_eq hfuel] at hget
  have hvictim : (order.reverse.find? fun i => s.isClean (some i)) = some i := by
    revert hget
    cases order.find? fun i => s.isFor dev blockno (some i) with
    | some j =>
      dsimp only
      split <;> rintro ⟨⟩
    | none =>
      cases order.reverse.find? fun i => s.isClean (some i) with
      | some j =>
        rintro ⟨⟩
        rfl
      | none => rintro ⟨⟩
  obtain ⟨hclean, y, x, heq, hbusy⟩ := List.find?_eq_some_iff_append.mp hvictim
  refine ⟨x.reverse, y.reverse, ?_, hclean, fun j hj => ?_⟩
  · rw [← List.reverse_reverse order, heq]
    simp only [List.reverse_append, List.reverse_cons, List.append_assoc, List.singleton_append]
  · have := hbusy j (List.mem_reverse.mp hj)
    rwa [Bool.not_eq_true'] at this

/-- The ring, walked either way, is the list; those that were released stand in front, in the
order in which they were; and `bget` recycles the clean buffer nearest to the end. -/
theorem faithful (h : Ordered s order) : Faithful s order where
  once := ⟨h.nodup, h.all⟩
  visits := by
    have := h.ring.iterate_next
    rwa [List.length_map, h.length_eq] at this
  inverse a := by
    have ha : a ∈ head :: order.map some := by
      cases a with
      | none => exact .head _
      | some i => exact .tail _ (List.mem_map_of_mem (h.all i))
    exact ⟨h.ring.prev_next ha, h.ring.next_prev ha⟩
  recent := h.recent
  returns fuel hfuel dev blockno := ⟨_, h.bget_eq hfuel⟩
  recycles fuel hfuel dev blockno i hget := h.recycles hfuel hget

/-! ### Steps -/

/-- Other changes to the buffers have nothing to do with the ring. -/
theorem setBuf (h : Ordered s order) (i : Fin NBUF) (b : Buf) : Ordered (s.setBuf i b) order :=
  ⟨h.ring, h.all, h.recent⟩

/-- What `bget` does to the buffer that it found leaves the ring alone. -/
theorem take (h : Ordered s order) {r : Got} (htake : s.take dev blockno r = some s') :
    Ordered s' order := by
  cases r with
  | found i =>
    cases htake
    exact h.setBuf i _
  | asleep i =>
    cases htake
    exact h
  | recycled i =>
    cases htake
    exact h.setBuf i _
  | noBuffers => cases htake

/-- `brelse` moves the buffer to the front. -/
theorem brelse (h : Ordered s order) (hrel : s.brelse i = some s') :
    Ordered s' (i :: order.erase i) := by
  unfold Bcache.brelse at hrel
  split at hrel
  · cases hrel
  cases hrel
  refine ⟨?_, fun j => ?_, ?_⟩
  · obtain ⟨x, y, -, rfl, herase⟩ := List.exists_erase_eq (h.all i)
    have hring := h.ring
    rw [List.map_append, List.map_cons] at hring
    rw [herase, List.map_cons, List.map_append]
    exact hring.moveToFront
  · by_cases hj : j = i
    · rw [hj]
      exact .head _
    · exact .tail _ ((List.mem_erase_of_ne hj).mpr (h.all j))
  · have hne : ∀ j ∈ order.erase i, i ≠ j := fun j hj heq =>
      (h.nodup.mem_erase_iff.mp hj).1 heq.symm
    refine List.pairwise_cons.mpr ⟨fun j hj _ => ?_, ?_⟩
    · rw [List.idxOf_cons_self, List.idxOf_cons_ne _ (hne j hj)]
      exact Nat.succ_pos _
    · refine (h.recent.sublist (List.erase_sublist)).imp_of_mem fun {j k} hj hk hjk hmem => ?_
      rw [List.idxOf_cons_ne _ (hne j hj), List.idxOf_cons_ne _ (hne k hk)]
      exact Nat.succ_lt_succ (hjk (List.mem_of_ne_of_mem (hne k hk).symm hmem))

end Ordered

/-- Only `brelse` changes the ring, and what it leaves is an order again. -/
theorem ordered_step {a : Action} (h : ∃ order, Ordered s order) (hstep : step s a = some s') :
    ∃ order, Ordered s' order := by
  obtain ⟨order, h⟩ := h
  cases a with
  | bget dev blockno =>
    obtain ⟨r, -, htake⟩ := Option.bind_eq_some_iff.mp hstep
    exact ⟨order, h.take htake⟩
  | brelse i => exact ⟨_, h.brelse hstep⟩
  | change i b =>
    cases hstep
    exact ⟨order, h.setBuf i b⟩

/-- **The list of buffers is an order of use**, whatever is done: it visits every buffer once,
in both directions, those that were released last come first, and `bget` recycles from the
other end. -/
theorem lru_order (r : Links Node) (as : List Action) :
    AllStates step (fun s => ∃ order, Faithful s order) (.binit r) as :=
  (allStates_of_step (fun _ _ _ h hstep => ordered_step h hstep) ⟨_, ordered_binit r⟩).mono
    fun _ h => h.imp fun _ => Ordered.faithful

/-! ## The list in place of the ring -/

/-- The storage in which the ring is a list. -/
structure Simulates (s : Bcache) (store : Store) : Prop where
  ordered : Ordered s store.order
  buf : s.buf = store.buf

variable {store : Store}

/-- At the start the list has every buffer, in the order of the ring. -/
theorem simulates_binit (r : Links Node) (disk : ℕ → ℕ → Block) (log : Log) (budget : ℕ) :
    Simulates (.binit r) (.binit disk log budget) := ⟨ordered_binit r, rfl⟩

/-- The two loops are the two searches in the list. -/
theorem Simulates.bget (h : Simulates s store) :
    s.bget (NBUF + 1) dev blockno = some (match store.lookup dev blockno with
      | some i => if (store.buf i).busy then .asleep i else .found i
      | none =>
        match store.victim with
        | some i => .recycled i
        | none => .noBuffers) := by
  have hget : s.bget (NBUF + 1) dev blockno = _ := h.ordered.bget_eq (Nat.lt_succ_self NBUF)
  unfold Bcache.isFor Bcache.isClean at hget
  rw [h.buf] at hget
  exact hget

theorem Simulates.setBuf (h : Simulates s store) (i : Fin NBUF) (b : Buf) :
    Simulates (s.setBuf i b) (store.setBuf i b) :=
  ⟨h.ordered.setBuf i b, by rw [Bcache.setBuf, Store.setBuf, h.buf]⟩

/-- `bget` does the same to both. -/
theorem Simulates.step_bget (h : Simulates s store) :
    match StrideXv6.bget dev blockno store with
    | .done _ store' => ∃ s', step s (.bget dev blockno) = some s' ∧ Simulates s' store'
    | .halt .asleep _ => step s (.bget dev blockno) = some s
    | .halt _ _ => step s (.bget dev blockno) = none := by
  have hget : s.bget (NBUF + 1) dev blockno = _ := h.bget
  simp only [step, hget, Option.bind_some]
  cases hl : store.lookup dev blockno with
  | some i =>
    by_cases hbusy : (store.buf i).busy = true
    · simp [StrideXv6.bget, hl, hbusy, Bcache.take]
    · simp only [StrideXv6.bget, Crash.get_bind_apply, hl, if_neg hbusy, Crash.modify_bind_apply,
        Crash.pure_apply]
      refine ⟨_, rfl, ?_⟩
      rw [← h.buf]
      exact h.setBuf i _
  | none =>
    cases hv : store.victim with
    | some i =>
      simp only [StrideXv6.bget, Crash.get_bind_apply, hl, hv, Crash.modify_bind_apply,
        Crash.pure_apply]
      refine ⟨_, rfl, ?_⟩
      rw [← h.buf]
      exact h.setBuf i _
    | none => simp [StrideXv6.bget, hl, hv, Bcache.take]

/-- So does `brelse`. -/
theorem Simulates.step_brelse (h : Simulates s store) :
    match StrideXv6.brelse i store with
    | .done _ store' => ∃ s', step s (.brelse i) = some s' ∧ Simulates s' store'
    | .halt _ _ => step s (.brelse i) = none := by
  by_cases hbusy : (store.buf i).busy = false
  · simp [StrideXv6.brelse, step, Bcache.brelse, hbusy, h.buf]
  · simp only [StrideXv6.brelse, Crash.get_bind_apply, if_neg hbusy, Crash.modify_apply]
    have hbusy' : ¬ (s.buf i).busy = false := by rwa [h.buf]
    have hrel : s.brelse i = some _ := if_neg hbusy'
    refine ⟨_, hrel, h.ordered.brelse hrel, ?_⟩
    simp only [Store.setBuf, h.buf]

/-- The same steps on the list. -/
def listStep (store : Store) : Action → Option Store
  | .bget dev blockno =>
    match StrideXv6.bget dev blockno store with
    | .done _ store' => some store'
    | .halt .asleep _ => some store
    | .halt _ _ => none
  | .brelse i =>
    match StrideXv6.brelse i store with
    | .done _ store' => some store'
    | .halt _ _ => none
  | .change i b => some (store.setBuf i b)

/-- **The ring may be taken for a list**: from `binit` on, whatever is done to it, both are in the
same state, and the kernel panics with one if and only if it does with the other. -/
theorem ring_refines_list (r : Links Node) (disk : ℕ → ℕ → Block) (log : Log) (budget : ℕ)
    (as : List Action) : Option.Rel Simulates (exec step (.binit r) as)
      (exec listStep (.binit disk log budget) as) := by
  refine exec_rel (fun s store a h => ?_) (simulates_binit r disk log budget)
  cases a with
  | bget dev blockno =>
    have hget := @Simulates.step_bget s dev blockno store h
    rw [listStep]
    split at hget
    · obtain ⟨s', hs', h'⟩ := hget
      rw [hs']
      exact .some h'
    · rw [hget]
      exact .some h
    · rw [hget]
      exact .none
  | brelse i =>
    have hrel := h.step_brelse (i := i)
    rw [listStep]
    split at hrel
    · obtain ⟨s', hs', h'⟩ := hrel
      rw [hs']
      exact .some h'
    · rw [hrel]
      exact .none
  | change i b => exact .some (h.setBuf i b)

end StrideXv6.Lru
