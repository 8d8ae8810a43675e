import StrideXv6.Loop
import Mathlib.Data.List.Chain
import Mathlib.Data.List.Nodup
import Mathlib.Logic.Function.Basic

/-!
# Circular doubly linked lists

A ring is strung on two pointers in each node, `next` and `prev`, and has a node that is no
element but marks the ends. `IsRing r h l` says that the elements are `l`, from the mark
`h` on. Nodes are taken out (`unlink`) and put in behind the mark (`push`) by assignments
in a fixed order, where each sees what was assigned before it.
-/

namespace DoublyLinked

universe u

/-- The two pointers in each node. -/
structure Links (α : Type u) : Type u where
  next : α → α
  prev : α → α

variable {α : Type u}

namespace Links

/-- From one node to the next one, and back. -/
def Joined (r : Links α) (a b : α) : Prop := r.next a = b ∧ r.prev b = a

end Links

/-- The elements of the ring with the mark `h`. -/
structure IsRing (r : Links α) (h : α) (l : List α) : Prop where
  nodup : (h :: l).Nodup
  chain : (h :: (l ++ [h])).IsChain r.Joined

variable {r r' : Links α} {h a b : α} {l x y : List α}

/-- What is strung together stays so if its inner pointers do. -/
theorem chain_congr (hl : l.IsChain r.Joined) (hnext : ∀ z ∈ l.dropLast, r'.next z = r.next z)
    (hprev : ∀ z ∈ l.tail, r'.prev z = r.prev z) : l.IsChain r'.Joined := by
  induction l with
  | nil => exact .nil
  | cons a l ih =>
    cases l with
    | nil => exact .singleton a
    | cons b l =>
      rw [List.isChain_cons_cons] at hl ⊢
      rw [List.dropLast_cons_cons] at hnext
      rw [List.tail_cons] at hprev
      refine ⟨⟨?_, ?_⟩, ih hl.2 (fun z hz => hnext z (.tail _ hz)) fun z hz => hprev z (.tail _ hz)⟩
      · rw [hnext a (.head _), hl.1.1]
      · rw [hprev b (.head _), hl.1.2]

namespace IsRing

/-- The list begins with some node, if only with the mark. -/
theorem exists_first (l : List α) (h : α) : ∃ v y, l ++ [h] = v :: y :=
  List.exists_cons_of_ne_nil (List.append_ne_nil_of_right_ne_nil l (List.cons_ne_nil h []))

theorem nodup_append (hr : IsRing r h l) : (l ++ [h]).Nodup := List.nodup_append_comm.mp hr.nodup

/-! ## Going around -/

/-- Going the other way round, the elements come in the other order. -/
theorem reverse (hr : IsRing r h l) : IsRing ⟨r.prev, r.next⟩ h l.reverse where
  nodup := by
    rw [List.nodup_cons, List.mem_reverse, List.nodup_reverse, ← List.nodup_cons]
    exact hr.nodup
  chain := by
    have hlist : h :: (l.reverse ++ [h]) = (h :: (l ++ [h])).reverse := by simp
    rw [hlist, List.isChain_reverse]
    exact hr.chain.imp fun a b hab => ⟨hab.2, hab.1⟩

theorem iterate_of_chain (hl : (a :: l).IsChain r.Joined) :
    List.iterate r.next (r.next a) l.length = l := by
  induction l generalizing a with
  | nil => rfl
  | cons b l ih =>
    obtain ⟨⟨rfl, -⟩, hrest⟩ := List.isChain_cons_cons.mp hl
    rw [List.length_cons, List.iterate, ih hrest]

/-- From the mark the pointers lead through all elements and back. -/
theorem iterate_next (hr : IsRing r h l) :
    List.iterate r.next (r.next h) (l.length + 1) = l ++ [h] := by
  have := iterate_of_chain hr.chain
  rwa [List.length_append, List.length_singleton] at this

theorem inverse_of_chain {c : α} (hl : (c :: (l ++ [h])).IsChain r.Joined) (ha : a ∈ c :: l) :
    r.prev (r.next a) = a := by
  induction l generalizing c with
  | nil =>
    obtain ⟨⟨rfl, hprev⟩, -⟩ := List.isChain_cons_cons.mp hl
    rw [List.mem_singleton.mp ha]
    exact hprev
  | cons b l ih =>
    obtain ⟨⟨rfl, hprev⟩, hrest⟩ := List.isChain_cons_cons.mp hl
    rcases List.mem_cons.mp ha with rfl | ha
    · exact hprev
    · exact ih hrest ha

/-- `prev` is the inverse of `next`. -/
theorem prev_next (hr : IsRing r h l) (ha : a ∈ h :: l) : r.prev (r.next a) = a :=
  inverse_of_chain hr.chain ha

theorem next_prev (hr : IsRing r h l) (ha : a ∈ h :: l) : r.next (r.prev a) = a := by
  refine hr.reverse.prev_next ?_
  rw [List.mem_cons, List.mem_reverse]
  exact List.mem_cons.mp ha

end IsRing

/-! ## Taking nodes out and putting them in -/

variable [DecidableEq α]

namespace Links

/-- `b->next->prev = b->prev; b->prev->next = b->next;` -/
def unlink (r : Links α) (b : α) : Links α :=
  let r := { r with prev := Function.update r.prev (r.next b) (r.prev b) }
  { r with next := Function.update r.next (r.prev b) (r.next b) }

/-- `b->next = h.next; b->prev = &h; h.next->prev = b; h.next = b;` -/
def push (r : Links α) (h b : α) : Links α :=
  let r := { r with next := Function.update r.next b (r.next h) }
  let r := { r with prev := Function.update r.prev b h }
  let r := { r with prev := Function.update r.prev (r.next h) b }
  { r with next := Function.update r.next h b }

/-- `h.prev = &h; h.next = &h;` -/
def close (r : Links α) (h : α) : Links α where
  next := Function.update r.next h h
  prev := Function.update r.prev h h

end Links

theorem isRing_close : IsRing (r.close h) h [] where
  nodup := List.nodup_singleton h
  chain := by
    rw [List.nil_append, List.isChain_pair]
    exact ⟨Function.update_self .., Function.update_self ..⟩

namespace IsRing

/-- **A node is put in behind the mark.** -/
theorem push (hr : IsRing r h l) (hb : b ∉ h :: l) : IsRing (r.push h b) h (b :: l) := by
  obtain ⟨v, y, hy⟩ := exists_first l h
  have hvy := hr.nodup_append
  have hchain := hr.chain
  rw [hy] at hvy
  rw [hy, List.isChain_cons_cons] at hchain
  obtain ⟨⟨hv, -⟩, hrest⟩ := hchain
  have hmem : ∀ z, z ∈ v :: y ↔ z ∈ h :: l := fun z => by
    rw [← hy, List.mem_append, List.mem_singleton, List.mem_cons, or_comm]
  have hbh : h ≠ b := fun heq => hb (heq ▸ .head _)
  have hbv : b ≠ v := fun heq => hb ((hmem b).mp (heq ▸ .head _))
  -- the pointers after the assignments
  have hnext : ∀ z, (r.push h b).next z = if z = h then b else if z = b then v else r.next z := by
    intro z
    simp only [Links.push, Function.update_apply, hv]
  have hprev : ∀ z, (r.push h b).prev z = if z = v then b else if z = b then h else r.prev z := by
    intro z
    simp only [Links.push, Function.update_apply, hv, if_neg hbh]
  refine ⟨?_, ?_⟩
  · rw [List.Perm.nodup_iff (List.Perm.swap b h l), List.nodup_cons]
    exact ⟨hb, hr.nodup⟩
  · rw [List.cons_append, List.isChain_cons_cons, hy, List.isChain_cons_cons]
    refine ⟨⟨?_, ?_⟩, ⟨?_, ?_⟩, chain_congr hrest (fun z hz => ?_) fun z hz => ?_⟩
    · rw [hnext, if_pos rfl]
    · rw [hprev, if_neg hbv, if_pos rfl]
    · rw [hnext, if_neg hbh.symm, if_pos rfl]
    · rw [hprev, if_pos rfl]
    · rw [← hy, List.dropLast_concat] at hz
      have hzh : z ≠ h := fun heq => (List.nodup_cons.mp hr.nodup).1 (heq ▸ hz)
      have hzb : z ≠ b := fun heq => hb (heq ▸ .tail _ hz)
      rw [hnext, if_neg hzh, if_neg hzb]
    · have hzv : z ≠ v := fun heq => (List.nodup_cons.mp hvy).1 (heq ▸ hz)
      have hzb : z ≠ b := fun heq => hb ((hmem b).mp (heq ▸ .tail _ hz))
      rw [hprev, if_neg hzv, if_neg hzb]

/-- **A node is taken out.** -/
theorem unlink (hr : IsRing r h (x ++ b :: y)) : IsRing (r.unlink b) h (x ++ y) := by
  obtain ⟨v, y', hy⟩ := exists_first y h
  obtain ⟨x', u, hx⟩ : ∃ x' u, h :: x = x' ++ [u] := by
    rcases List.eq_nil_or_concat' (h :: x) with hnil | hx
    · exact absurd hnil (List.cons_ne_nil h x)
    · exact hx
  have hnodup : (h :: x ++ b :: y).Nodup := hr.nodup
  have hchain : (h :: x ++ b :: (y ++ [h])).IsChain r.Joined := by
    have := hr.chain
    rwa [List.append_assoc, List.cons_append] at this
  rw [hx, hy, List.append_assoc, List.singleton_append, List.isChain_append_cons_cons,
    List.isChain_cons_cons] at hchain
  obtain ⟨hleft, ⟨-, hu⟩, ⟨hv, -⟩, hright⟩ := hchain
  have hvy : (v :: y').Nodup := by
    rw [← hy]
    exact List.nodup_append_comm.mp (hnodup.sublist (by simp))
  -- nothing of one side is on the other one
  have hapart : ∀ z ∈ h :: x, z ∉ b :: y := List.disjoint_of_nodup_append hnodup
  have huleft : u ∈ h :: x := hx ▸ List.mem_append_right x' (List.mem_singleton_self u)
  have hvright : v ∈ y ++ [h] := hy ▸ .head _
  have hbv : b ≠ v := by
    rintro rfl
    rcases List.mem_append.mp hvright with hmem | hmem
    · exact (List.nodup_cons.mp (List.nodup_append.mp hnodup).2.1).1 hmem
    · exact hapart h (.head _) (List.mem_singleton.mp hmem ▸ .head _)
  have hprev : ∀ z, (r.unlink b).prev z = if z = v then u else r.prev z := by
    intro z
    simp only [Links.unlink, Function.update_apply, hu, hv]
  have hnext : ∀ z, (r.unlink b).next z = if z = u then v else r.next z := by
    intro z
    simp only [Links.unlink, Function.update_apply, hu, hv, if_neg hbv]
  refine ⟨hnodup.sublist (by simp), ?_⟩
  rw [List.append_assoc, ← List.cons_append, hx, hy, List.append_assoc, List.singleton_append,
    List.isChain_append_cons_cons]
  refine ⟨chain_congr hleft (fun z hz => ?_) fun z hz => ?_, ⟨?_, ?_⟩,
    chain_congr hright (fun z hz => ?_) fun z hz => ?_⟩
  · have hxu : (x' ++ [u]).Nodup := hx ▸ hnodup.sublist (by simp)
    rw [List.dropLast_concat] at hz
    have hzu : z ≠ u := fun heq => (List.nodup_append.mp hxu).2.2 z hz u (.head _) heq
    rw [hnext, if_neg hzu]
  · rw [← hx, List.tail_cons] at hz
    have hzv : z ≠ v := by
      rintro rfl
      rcases List.mem_append.mp hvright with hmem | hmem
      · exact hapart z (.tail _ hz) (.tail _ hmem)
      · rw [List.mem_singleton.mp hmem] at hz
        exact (List.nodup_cons.mp hnodup).1 (List.mem_append_left _ hz)
    rw [hprev, if_neg hzv]
  · rw [hnext, if_pos rfl]
  · rw [hprev, if_pos rfl]
  · rw [← hy, List.dropLast_concat] at hz
    have hzu : z ≠ u := by
      rintro rfl
      exact hapart z huleft (.tail _ hz)
    rw [hnext, if_neg hzu]
  · have hzv : z ≠ v := fun heq => (List.nodup_cons.mp hvy).1 (heq ▸ hz)
    rw [hprev, if_neg hzv]

/-- **A node is moved to the front**, wherever it was. -/
theorem moveToFront (hr : IsRing r h (x ++ b :: y)) :
    IsRing ((r.unlink b).push h b) h (b :: (x ++ y)) := by
  refine hr.unlink.push fun hmem => ?_
  have hnodup := hr.nodup
  rw [← List.cons_append, List.Perm.nodup_iff List.perm_middle, List.nodup_cons] at hnodup
  exact hnodup.1 hmem

end IsRing

/-! ## Searching -/

/-- The body of `for(b = h.next; b != &h; b = b->next) if(found b) return b;` -/
def seek (next : α → α) (h : α) (found : α → Bool) (b : α) : Option (α ⊕ Option α) :=
  some (if b = h then .inr none else if found b then .inr (some b) else .inl (next b))

theorem run_seek_of_chain {found : α → Bool} {n : ℕ} (hl : (l ++ [h]).IsChain r.Joined)
    (hh : h ∉ l) (ha : (l ++ [h]).head? = some a) (hn : l.length < n) :
    Loop.run (seek r.next h found) n a = some (l.find? found) := by
  induction l generalizing a n with
  | nil =>
    obtain ⟨n, rfl⟩ := Nat.exists_eq_add_of_lt hn
    obtain rfl : h = a := Option.some.inj ha
    refine Loop.run_succ_inr ?_
    rw [seek, if_pos rfl]
    rfl
  | cons b l ih =>
    obtain ⟨n, rfl⟩ := Nat.exists_eq_add_of_lt hn
    obtain rfl : b = a := Option.some.inj ha
    have hbh : b ≠ h := fun heq => hh (heq ▸ .head _)
    by_cases hfound : found b = true
    · rw [List.find?_cons_of_pos hfound]
      refine Loop.run_succ_inr ?_
      rw [seek, if_neg hbh, if_pos hfound]
    · rw [List.find?_cons_of_neg hfound]
      have hstep : seek r.next h found b = some (.inl (r.next b)) := by
        rw [seek, if_neg hbh, if_neg hfound]
      rw [Loop.run_succ_inl hstep]
      obtain ⟨v, y, hy⟩ := IsRing.exists_first l h
      rw [List.cons_append, hy, List.isChain_cons_cons, ← hy] at hl
      refine ih hl.2 (fun hmem => hh (.tail _ hmem)) ?_ (by simp only [List.length_cons]; omega)
      rw [hy, hl.1.1]
      rfl

/-- **The loop finds the first element** that it looks for. -/
theorem IsRing.run_seek (hr : IsRing r h l) {found : α → Bool} {n : ℕ} (hn : l.length < n) :
    Loop.run (seek r.next h found) n (r.next h) = some (l.find? found) := by
  obtain ⟨v, y, hy⟩ := IsRing.exists_first l h
  have hchain := hr.chain
  rw [hy, List.isChain_cons_cons, ← hy] at hchain
  refine run_seek_of_chain hchain.2 (List.nodup_cons.mp hr.nodup).1 ?_ hn
  rw [hy, hchain.1.1]
  rfl

end DoublyLinked
