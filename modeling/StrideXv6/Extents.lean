import Mathlib.Data.List.Basic

/-!
# Extents

An extent is a range of addresses. A list of extents is looked at in two ways: by how
many of them cover an address (`cover`), which says that two lists share out the same
addresses, and, for a list in the order of addresses, by whether there is a gap between
any two of them (`Apart`). `place` adds an extent to such a list and joins it with its
neighbours.
-/

namespace Extents

structure Extent where
  start : ℕ
  len : ℕ
  deriving DecidableEq, Repr

namespace Extent

/-- The first address behind the extent. -/
def finish (e : Extent) : ℕ := e.start + e.len

/-- One extent out of two. -/
def join (a b : Extent) : Extent := ⟨a.start, a.len + b.len⟩

@[simp] theorem start_join (a b : Extent) : (a.join b).start = a.start := rfl

theorem finish_join {a b : Extent} (h : a.finish = b.start) : (a.join b).finish = b.finish := by
  simp only [finish, join] at h ⊢
  omega

end Extent

variable {a b c p : Extent} {l r pre post : List Extent} {x : ℕ}

/-- How many of the extents cover `x`. -/
def cover (x : ℕ) (l : List Extent) : ℕ := l.countP fun e => e.start ≤ x ∧ x < e.finish

@[simp] theorem cover_nil : cover x [] = 0 := rfl

theorem cover_cons : cover x (a :: l) =
    cover x l + if a.start ≤ x ∧ x < a.finish then 1 else 0 := by
  unfold cover
  rw [List.countP_cons]
  simp only [decide_eq_true_eq]

@[simp] theorem cover_append : cover x (l ++ r) = cover x l + cover x r := List.countP_append ..

theorem cover_perm (h : l.Perm r) : cover x l = cover x r := h.countP_eq _

/-- What is empty covers nothing. -/
theorem cover_cons_empty (h : a.len = 0) : cover x (a :: l) = cover x l := by
  rw [cover_cons, if_neg, Nat.add_zero]
  unfold Extent.finish
  omega

theorem cover_cons_join (h : a.finish = b.start) :
    cover x (a.join b :: l) = cover x (a :: b :: l) := by
  simp only [cover_cons, Extent.finish_join h, Extent.start_join]
  have hab : b.start ≤ b.finish := Nat.le_add_right ..
  have haa : a.start ≤ a.finish := Nat.le_add_right ..
  split_ifs <;> omega

/-- Two extents of a list that covers every address once at most have nothing in common. -/
theorem disjoint_of_cover (h : ∀ x, cover x (b :: l) ≤ 1) (ha : a ∈ l) (hla : 0 < a.len)
    (hlb : 0 < b.len) : a.finish ≤ b.start ∨ b.finish ≤ a.start := by
  by_contra hne
  push Not at hne
  obtain ⟨l₁, l₂, rfl⟩ := List.append_of_mem ha
  have hone := h (max a.start b.start)
  have hfa : a.finish = a.start + a.len := rfl
  have hfb : b.finish = b.start + b.len := rfl
  rw [cover_cons, cover_append, cover_cons, if_pos (by omega), if_pos (by omega)] at hone
  omega

/-! ## Lists in the order of addresses -/

/-- The extents are in order and no two of them touch. -/
def Apart (l : List Extent) : Prop := l.Pairwise fun a b => a.finish < b.start

theorem apart_cons : Apart (a :: l) ↔ (∀ b ∈ l, a.finish < b.start) ∧ Apart l :=
  List.pairwise_cons

theorem apart_append : Apart (l ++ r) ↔
    Apart l ∧ Apart r ∧ ∀ a ∈ l, ∀ b ∈ r, a.finish < b.start :=
  List.pairwise_append

/-- Join `b` with what comes right behind it. -/
def joinRight (b : Extent) : List Extent → Extent × List Extent
  | [] => (b, [])
  | c :: r => if b.finish = c.start then (b.join c, r) else (b, c :: r)

/-- Join `b` with what comes right before it. -/
def joinLeft (p b : Extent) (r : List Extent) : List Extent :=
  if p.finish = b.start then p.join b :: r else p :: b :: r

/-- Put `b` between `p` and the extents behind it. -/
def place (p b : Extent) (post : List Extent) : List Extent :=
  joinLeft p (joinRight b post).1 (joinRight b post).2

theorem start_joinRight : (joinRight b post).1.start = b.start := by
  cases post with
  | nil => rfl
  | cons c r =>
    simp only [joinRight]
    split <;> rfl

theorem cover_joinRight :
    cover x ((joinRight b post).1 :: (joinRight b post).2) = cover x (b :: post) := by
  cases post with
  | nil => rfl
  | cons c r =>
    simp only [joinRight]
    split
    · next h => exact cover_cons_join h
    · rfl

theorem cover_place : cover x (place p b post) = cover x (p :: b :: post) := by
  rw [cover_cons, ← cover_joinRight, ← cover_cons, place, joinLeft]
  split
  · next h => exact cover_cons_join h
  · rfl

/-- What is behind the joined extent was behind the other. -/
theorem mem_joinRight (h : a ∈ (joinRight b post).2) : a ∈ post := by
  cases post with
  | nil => exact h
  | cons c r =>
    simp only [joinRight] at h
    split at h
    · exact List.mem_cons_of_mem _ h
    · exact h

theorem apart_joinRight (h : Apart post) (hb : ∀ c ∈ post, b.finish ≤ c.start) :
    Apart ((joinRight b post).1 :: (joinRight b post).2) := by
  cases post with
  | nil => exact List.pairwise_singleton ..
  | cons c r =>
    obtain ⟨hc, hr⟩ := apart_cons.mp h
    simp only [joinRight]
    split
    · next heq =>
      refine apart_cons.mpr ⟨fun a ha => ?_, hr⟩
      rw [Extent.finish_join heq]
      exact hc a ha
    · next hne =>
      have hlt : b.finish < c.start := Nat.lt_of_le_of_ne (hb c (List.mem_cons_self ..)) hne
      refine apart_cons.mpr ⟨fun a ha => ?_, h⟩
      rcases List.mem_cons.mp ha with rfl | ha
      · exact hlt
      · have hcc : c.start ≤ c.finish := Nat.le_add_right ..
        have hca := hc a ha
        change b.finish < a.start
        omega

/-- Adding an extent in its place leaves a gap between any two. -/
theorem apart_place (h : Apart (pre ++ p :: post)) (hp : p.finish ≤ b.start)
    (hb : ∀ c ∈ post, b.finish ≤ c.start) : Apart (pre ++ place p b post) := by
  obtain ⟨hpre, hpost, hlt⟩ := apart_append.mp h
  obtain ⟨hpc, hpost⟩ := apart_cons.mp hpost
  have hright := apart_joinRight hpost hb
  obtain ⟨hbr, hr⟩ := apart_cons.mp hright
  have hstart : (joinRight b post).1.start = b.start := start_joinRight
  have hpp : p.start ≤ p.finish := Nat.le_add_right ..
  have hbefore : ∀ a ∈ pre, a.finish < p.start := fun a ha => hlt a ha p (List.mem_cons_self ..)
  have hbehind : ∀ a ∈ pre, ∀ e ∈ (joinRight b post).2, a.finish < e.start := fun a ha e he =>
    hlt a ha e (List.mem_cons_of_mem _ (mem_joinRight he))
  rw [place, joinLeft]
  split
  · next heq =>
    refine apart_append.mpr ⟨hpre, apart_cons.mpr ⟨fun e he => ?_, hr⟩, fun a ha e he => ?_⟩
    · rw [Extent.finish_join heq]
      exact hbr e he
    · rcases List.mem_cons.mp he with rfl | he
      · exact hbefore a ha
      · exact hbehind a ha e he
  · next hne =>
    refine apart_append.mpr ⟨hpre, apart_cons.mpr ⟨fun e he => ?_, hright⟩, fun a ha e he => ?_⟩
    · rcases List.mem_cons.mp he with rfl | he
      · omega
      · exact hpc e (mem_joinRight he)
    · rcases List.mem_cons.mp he with rfl | he
      · exact hbefore a ha
      · rcases List.mem_cons.mp he with rfl | he
        · have := hbefore a ha
          omega
        · exact hbehind a ha e he

end Extents
