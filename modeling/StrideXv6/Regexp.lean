import StrideXv6.Grep
import Mathlib.Computability.Language

/-!
# The regular expressions of `grep` (`grep.c`)

A pattern is a sequence of items: a character with a star, the end of the text, any
character, or a character as it is. Its language is the product of theirs, and the
matcher looks for a word of it: `matchhere` at the beginning of the text, `matchText`
anywhere unless the pattern begins with `^`.
-/

namespace StrideXv6.Grep

open Bytes
open scoped Computability

/-! ## What a pattern means -/

/-- What a pattern is made of. -/
inductive Item : Type where
  /-- `c*` -/
  | star : Byte → Item
  /-- `$` at the end of the pattern -/
  | eot
  /-- `.` -/
  | any
  /-- any other character -/
  | lit : Byte → Item
  deriving DecidableEq, Repr

/-- A character without a star. -/
def Item.char (c : Byte) : Item := if c = 46#8 then .any else .lit c

/-- Read a pattern from left to right. -/
def items : List Byte → List Item
  | [] => []
  | [c] => if c = 36#8 then [.eot] else [.char c]
  | c :: d :: re => if d = 42#8 then .star c :: items re else .char c :: items (d :: re)

/-- One character, whichever it is. -/
def anyChar : Language Byte := {w | w.length = 1}

/-- What may stand for `c` in `c*`. -/
def starred (c : Byte) : Language Byte := if c = 46#8 then anyChar else {[c]}

/-- The texts an item stands for. -/
def Item.language : Item → Language Byte
  | star c => (starred c)∗
  | eot => 1
  | any => anyChar
  | lit c => {[c]}

/-- The text begins with a word of the language of the items, and ends there if they say so. -/
def Begins (is : List Item) (text : List Byte) : Prop :=
  ∃ word rest, text = word ++ rest ∧ word ∈ (is.map Item.language).prod ∧ (.eot ∈ is → rest = [])

/-! ## Beginnings -/

variable {is : List Item} {c t : Byte} {text : List Byte}

theorem begins_nil : Begins [] text := ⟨[], text, rfl, rfl, fun h => absurd h List.not_mem_nil⟩

theorem begins_eot : Begins [.eot] text ↔ text = [] := by
  constructor
  · rintro ⟨word, rest, rfl, hword, hrest⟩
    rw [hrest (List.mem_singleton_self _), List.append_nil]
    simpa [Item.language, Language.mem_one] using hword
  · rintro rfl
    exact ⟨[], [], rfl, by simp [Item.language, Language.mem_one], fun _ => rfl⟩

theorem mem_anyChar {w : List Byte} : w ∈ anyChar ↔ ∃ t, w = [t] := List.length_eq_one_iff

theorem mem_starred {w : List Byte} : w ∈ starred c ↔ ∃ t, w = [t] ∧ (c = 46#8 ∨ c = t) := by
  unfold starred
  split
  · next h => simp only [mem_anyChar, h, true_or, and_true]
  · next h =>
    constructor
    · rintro rfl
      exact ⟨c, rfl, .inr rfl⟩
    · rintro ⟨t, rfl, hc | rfl⟩
      · exact absurd hc h
      · rfl

/-- What comes behind an item that stands for one character. -/
theorem begins_cons {i : Item} {P : Byte → Prop} (hi : i ≠ .eot)
    (hlang : ∀ w, w ∈ i.language ↔ ∃ t, w = [t] ∧ P t) :
    Begins (i :: is) text ↔ ∃ t text', text = t :: text' ∧ P t ∧ Begins is text' := by
  constructor
  · rintro ⟨_, rest, rfl, hword, hrest⟩
    rw [List.map_cons, List.prod_cons, Language.mem_mul] at hword
    obtain ⟨_, hone, word, hword, rfl⟩ := hword
    obtain ⟨t, rfl, ht⟩ := (hlang _).mp hone
    exact ⟨t, word ++ rest, rfl, ht, word, rest, rfl, hword, fun h => hrest (.tail _ h)⟩
  · rintro ⟨t, _, rfl, ht, word, rest, rfl, hword, hrest⟩
    refine ⟨t :: word, rest, rfl, ?_, fun h => hrest (List.mem_of_ne_of_mem hi.symm h)⟩
    rw [List.map_cons, List.prod_cons, Language.mem_mul]
    exact ⟨[t], (hlang _).mpr ⟨t, rfl, ht⟩, word, hword, rfl⟩

theorem mem_char {w : List Byte} :
    w ∈ (Item.char c).language ↔ ∃ t, w = [t] ∧ (c = 46#8 ∨ c = t) := by
  rw [← mem_starred, Item.char, starred]
  split <;> rfl

theorem begins_char : Begins (.char c :: is) text ↔
    ∃ t text', text = t :: text' ∧ (c = 46#8 ∨ c = t) ∧ Begins is text' := by
  refine begins_cons ?_ fun w => mem_char
  unfold Item.char
  split <;> rintro ⟨⟩

/-- A star stands for nothing, or for a character and a star again. -/
theorem begins_star : Begins (.star c :: is) text ↔
    Begins is text ∨ ∃ t text', text = t :: text' ∧ (c = 46#8 ∨ c = t) ∧
      Begins (.star c :: is) text' := by
  have hunroll : (Item.star c).language = 1 + starred c * (Item.star c).language :=
    Language.one_add_self_mul_kstar_eq_kstar (starred c) |>.symm
  have hprod : (((Item.star c) :: is).map Item.language).prod =
      (is.map Item.language).prod +
        starred c * (((Item.star c) :: is).map Item.language).prod := by
    rw [List.map_cons, List.prod_cons]
    conv_lhs => rw [hunroll, add_mul, one_mul, mul_assoc]
  constructor
  · rintro ⟨word, rest, rfl, hword, hrest⟩
    rw [hprod, Language.mem_add] at hword
    rcases hword with hword | hword
    · exact .inl ⟨word, rest, rfl, hword, fun h => hrest (.tail _ h)⟩
    · obtain ⟨_, hone, word, hmore, rfl⟩ := Language.mem_mul.mp hword
      obtain ⟨t, rfl, ht⟩ := mem_starred.mp hone
      exact .inr ⟨t, word ++ rest, rfl, ht, word, rest, rfl, hmore, hrest⟩
  · rintro (⟨word, rest, rfl, hword, hrest⟩ | ⟨t, _, rfl, ht, word, rest, rfl, hword, hrest⟩)
    · refine ⟨word, rest, rfl, ?_, fun h => hrest (List.mem_of_ne_of_mem (by rintro ⟨⟩) h)⟩
      rw [hprod, Language.mem_add]
      exact .inl hword
    · refine ⟨t :: word, rest, rfl, ?_, hrest⟩
      rw [hprod, Language.mem_add]
      exact .inr (Language.mem_mul.mpr ⟨[t], mem_starred.mpr ⟨t, rfl, ht⟩, word, hword, rfl⟩)

/-! ## The matcher -/

/-- `matchstar`, when `matchhere` is right about what follows: the loop goes on as long as
there are characters that the star may stand for. -/
theorem matchstar_iff {re : List Byte} (hre : ∀ text, matchhere re text = true ↔ Begins is text) :
    matchstar c re text = true ↔ Begins (.star c :: is) text := by
  induction text with
  | nil =>
    rw [matchstar, begins_star, Bool.or_eq_true, hre]
    refine or_congr_right (iff_of_false Bool.false_ne_true ?_)
    rintro ⟨t, text', ⟨⟩, -⟩
  | cons t text ih =>
    rw [matchstar, begins_star, Bool.or_eq_true, hre, Bool.and_eq_true, decide_eq_true_iff, ih]
    refine or_congr_right ⟨?_, ?_⟩
    · rintro ⟨ht, h⟩
      exact ⟨t, text, rfl, ht.symm.imp_right Eq.symm, h⟩
    · rintro ⟨_, _, ⟨⟩, ht, h⟩
      exact ⟨ht.symm.imp_left Eq.symm, h⟩

/-- A character that is neither starred nor the final `$`. -/
theorem matchhere_char {re : List Byte} (hstar : re.head? ≠ some 42#8)
    (hend : ¬ (c = 36#8 ∧ re = [])) :
    matchhere (c :: re) text = true ↔
      ∃ t text', text = t :: text' ∧ (c = 46#8 ∨ c = t) ∧ matchhere re text' = true := by
  rw [matchhere.eq_def]
  simp only [if_neg hstar, if_neg hend]
  cases text with
  | nil =>
    refine iff_of_false Bool.false_ne_true ?_
    rintro ⟨t, text', ⟨⟩, -⟩
  | cons t text =>
    rw [Bool.and_eq_true, decide_eq_true_iff]
    constructor
    · rintro ⟨ht, h⟩
      exact ⟨t, text, rfl, ht, h⟩
    · rintro ⟨_, _, ⟨⟩, ht, h⟩
      exact ⟨ht, h⟩

/-- `matchhere` finds the words of the pattern at the beginning of the text. -/
theorem matchhere_iff (re text : List Byte) :
    matchhere re text = true ↔ Begins (items re) text := by
  induction re using items.induct generalizing text with
  | case1 => exact iff_of_true (by rw [matchhere]) begins_nil
  | case2 =>
    rw [matchhere.eq_def, show items [36#8] = [.eot] from rfl, begins_eot]
    exact List.isEmpty_iff
  | case3 c hend =>
    rw [items, if_neg hend, begins_char, matchhere_char (by decide) fun h => hend h.1]
    simp only [matchhere, begins_nil]
  | case4 c re ih =>
    rw [items, if_pos rfl, matchhere.eq_def]
    exact matchstar_iff ih
  | case5 c d re hstar ih =>
    have hhead : (d :: re).head? ≠ some 42#8 := fun h => hstar (Option.some.inj h)
    rw [items, if_neg hstar, begins_char,
      matchhere_char hhead fun h => absurd h.2 (List.cons_ne_nil d re)]
    simp only [ih]

/-- The loop of `match` looks at every suffix. -/
theorem matchLoop_iff (re text : List Byte) :
    matchLoop re text = true ↔ ∃ before after, text = before ++ after ∧ Begins (items re) after := by
  induction text with
  | nil =>
    rw [matchLoop, matchhere_iff]
    constructor
    · intro h
      exact ⟨[], [], rfl, h⟩
    · rintro ⟨before, after, heq, h⟩
      obtain ⟨-, rfl⟩ := List.append_eq_nil_iff.mp heq.symm
      exact h
  | cons t text ih =>
    rw [matchLoop, Bool.or_eq_true, matchhere_iff, ih]
    constructor
    · rintro (h | ⟨before, after, rfl, h⟩)
      · exact ⟨[], t :: text, rfl, h⟩
      · exact ⟨t :: before, after, rfl, h⟩
    · rintro ⟨before, after, heq, h⟩
      cases before with
      | nil => exact .inl (heq ▸ h)
      | cons b before =>
        obtain ⟨rfl, rfl⟩ := List.cons.inj heq
        exact .inr ⟨before, after, rfl, h⟩

/-- **The matcher is correct**: `match` returns 1 exactly if the text has a part that is in
the language of the pattern. It is at the beginning of the text if the pattern begins with
`^`, and at its end if it ends with `$`. -/
theorem match_correct (re text : List Byte) :
    matchText re text = true ↔
      if re.head? = some 94#8 then Begins (items re.tail) text
      else ∃ before after, text = before ++ after ∧ Begins (items re) after := by
  unfold matchText
  split
  · exact matchhere_iff ..
  · exact matchLoop_iff ..

-- `a*` then the end; a `$` with a star, and one that is not at the end, are characters
example : items [97#8, 42#8, 36#8] = [.star 97#8, .eot] := by decide
example : items [36#8, 42#8, 36#8, 97#8] = [.star 36#8, .lit 36#8, .lit 97#8] := by decide

end StrideXv6.Grep
