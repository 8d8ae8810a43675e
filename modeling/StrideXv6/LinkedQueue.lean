import StrideXv6.Loop
import Mathlib.Data.List.Nodup
import Mathlib.Logic.Function.Basic

/-!
# Singly linked queues

A queue is a pointer to its first node, and a pointer in each node to the one behind it, the
null pointer at the end. Nodes leave at the front. They come in at the end, which is found
by going from one pointer to the next: what the loop moves along is the place where a
pointer is kept, so that the last one can be assigned.
-/

namespace LinkedQueue

universe u

/-- The first node, and the one behind each node. -/
structure Links (α : Type u) : Type u where
  head : Option α
  next : α → Option α

variable {α : Type u}

/-- The nodes from a pointer on. -/
def Spells (next : α → Option α) : Option α → List α → Prop
  | p, [] => p = none
  | p, a :: l => p = some a ∧ Spells next (next a) l

/-- The nodes in the queue. -/
structure IsQueue (q : Links α) (l : List α) : Prop where
  nodup : l.Nodup
  spells : Spells q.next q.head l

variable {q : Links α} {a : α} {l : List α} {slot : Option α}

theorem Spells.head? {next : α → Option α} {p : Option α} (h : Spells next p l) : l.head? = p := by
  cases l with
  | nil => exact h.symm
  | cons b l => exact h.1.symm

/-- The first node leaves. -/
theorem IsQueue.tail (h : IsQueue q (a :: l)) : IsQueue { q with head := q.next a } l where
  nodup := h.nodup.of_cons
  spells := h.spells.2

namespace Links

/-- The pointer in a place: the first one, or the one in some node. -/
def get (q : Links α) : Option α → Option α
  | none => q.head
  | some a => q.next a

variable [DecidableEq α]

/-- Assign the pointer in a place. -/
def set (q : Links α) (slot v : Option α) : Links α :=
  match slot with
  | none => { q with head := v }
  | some a => { q with next := Function.update q.next a v }

theorem get_set (q : Links α) (slot slot' v : Option α) :
    (q.set slot v).get slot' = if slot' = slot then v else q.get slot' := by
  cases slot with
  | none => cases slot' <;> rfl
  | some a =>
    cases slot' with
    | none => rfl
    | some b =>
      simp only [set, get, Function.update_apply, Option.some.injEq]

/-- One turn of the loop that looks for the end. -/
def toEnd (q : Links α) (slot : Option α) : Option (Option α ⊕ Option α) :=
  match q.get slot with
  | some a => some (.inl (some a))
  | none => some (.inr slot)

/-- Put a node at the end; `none` if it is not found in `n` turns. -/
def append (n : ℕ) (q : Links α) (a : α) : Option (Links α) :=
  let q' := q.set (some a) none
  (Loop.run q'.toEnd n none).map fun slot => q'.set slot (some a)

end Links

/-- The place at the end, seen from one node further. -/
theorem getLast?_cons_or (b : α) (l : List α) (slot : Option α) :
    (b :: l).getLast?.or slot = l.getLast?.or (some b) := by
  rw [List.getLast?_cons]
  cases l.getLast? <;> rfl

/-- The loop stops at the last node. -/
theorem run_toEnd {n : ℕ} (h : Spells q.next (q.get slot) l) (hn : l.length < n) :
    Loop.run q.toEnd n slot = some (l.getLast?.or slot) := by
  induction l generalizing slot n with
  | nil =>
    obtain ⟨n, rfl⟩ := Nat.exists_eq_succ_of_ne_zero (Nat.ne_of_gt hn)
    rw [Loop.run_succ_inr (by rw [Links.toEnd, h])]
    rfl
  | cons b l ih =>
    obtain ⟨n, rfl⟩ := Nat.exists_eq_succ_of_ne_zero (Nat.ne_of_gt (Nat.zero_lt_of_lt hn))
    rw [Loop.run_succ_inl (t := some b) (by rw [Links.toEnd, h.1]), getLast?_cons_or]
    exact ih h.2 (Nat.lt_of_succ_lt_succ hn)

variable [DecidableEq α]

/-- Pointers that are not passed do not matter. -/
theorem Spells.set {p : Option α} {b : α} (h : Spells q.next p l) (hb : b ∉ l) (v : Option α) :
    Spells (q.set (some b) v).next p l := by
  induction l generalizing p with
  | nil => exact h
  | cons c l ih =>
    rw [List.mem_cons, not_or] at hb
    refine ⟨h.1, ?_⟩
    have hnext : (q.set (some b) v).next c = q.next c :=
      (q.get_set (some b) (some c) v).trans (if_neg fun heq => hb.1 (Option.some.inj heq).symm)
    rw [hnext]
    exact ih h.2 hb.2

/-- What is assigned in the last place is the last node. -/
theorem Spells.snoc (h : Spells q.next (q.get slot) l) (hnodup : l.Nodup) (ha : a ∉ l)
    (hend : q.next a = none) (hslot : ∀ b ∈ slot, b ∉ l ∧ b ≠ a) :
    Spells (q.set (l.getLast?.or slot) (some a)).next
      ((q.set (l.getLast?.or slot) (some a)).get slot) (l ++ [a]) := by
  induction l generalizing slot with
  | nil =>
    refine ⟨?_, ?_⟩
    · exact (q.get_set slot slot (some a)).trans (if_pos rfl)
    · have hnext := q.get_set slot (some a) (some a)
      rw [if_neg fun heq => (hslot a heq.symm).2 rfl] at hnext
      exact hnext.trans hend
  | cons b l ih =>
    rw [List.mem_cons, not_or] at ha
    rw [getLast?_cons_or]
    refine ⟨?_, ih h.2 hnodup.of_cons ha.2 ?_⟩
    · rw [Links.get_set, if_neg, h.1]
      intro heq
      have hmem : ∃ c, slot = some c ∧ c ∈ b :: l := by
        cases hl : l.getLast? with
        | none => exact ⟨b, by rw [heq, hl]; rfl, .head _⟩
        | some c => exact ⟨c, by rw [heq, hl]; rfl, .tail _ (List.mem_of_getLast? hl)⟩
      obtain ⟨c, rfl, hc⟩ := hmem
      exact (hslot c rfl).1 hc
    · rintro c ⟨⟩
      exact ⟨(List.nodup_cons.mp hnodup).1, fun heq => ha.1 heq.symm⟩

/-- A node comes in at the end. -/
theorem IsQueue.append {n : ℕ} (h : IsQueue q l) (ha : a ∉ l) (hn : l.length < n) :
    ∃ q', q.append n a = some q' ∧ IsQueue q' (l ++ [a]) := by
  have hspells : Spells (q.set (some a) none).next (q.set (some a) none).head l :=
    h.spells.set ha none
  have hrun : Loop.run (q.set (some a) none).toEnd n none = some (l.getLast?.or none) :=
    run_toEnd hspells hn
  refine ⟨_, by rw [Links.append, hrun]; rfl, ?_, ?_⟩
  · exact List.nodup_append.mpr ⟨h.nodup, List.nodup_singleton a, by
      rintro b hb c hc rfl
      exact ha (List.mem_singleton.mp hc ▸ hb)⟩
  · have hend : (q.set (some a) none).next a = none :=
      (q.get_set (some a) (some a) none).trans (if_pos rfl)
    exact Spells.snoc (l := l) (show Spells _ ((q.set (some a) none).get none) l from hspells)
      h.nodup ha hend (by rintro b ⟨⟩)

end LinkedQueue
