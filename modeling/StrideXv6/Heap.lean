import StrideXv6.Run
import StrideXv6.Loop
import StrideXv6.Extents
import Mathlib.Algebra.Group.Nat.Defs
import Mathlib.Algebra.Group.Int.Defs

/-!
# The allocator of user programs (`umalloc.c`)

The memory is looked at as headers, eight bytes each, under the addresses they are read
at: a block is a header and what comes behind it, and `size` counts both in units of a
header. Addresses and sizes are 32-bit numbers, and what the code computes with them
wraps. The free blocks are in a circular list that begins with `base`, a header without
any room.

`sbrk` is part of the environment: `os` says what it returns, from the calls made before
and the number of bytes asked for. The calls are written down in `sbrks`, the latest
first. The loops of the source take as many turns as `fuel` says.
-/

namespace StrideXv6.Umalloc

open Extents Extents.Extent

/-- `union header` -/
structure Header where
  ptr : ℕ
  size : ℕ
  deriving DecidableEq

/-- `sizeof(Header)` -/
def UNIT : ℕ := 8

structure Heap where
  header : ℕ → Header
  /-- `0` until `malloc` is called for the first time -/
  freep : ℕ
  sbrks : List (ℤ × Option ℕ)

namespace Heap

/-- `p->s.ptr = v` -/
def setPtr (h : Heap) (p v : ℕ) : Heap :=
  { h with header := Function.update h.header p { h.header p with ptr := v } }

/-- `p->s.size = v` -/
def setSize (h : Heap) (p v : ℕ) : Heap :=
  { h with header := Function.update h.header p { h.header p with size := v } }

end Heap

@[simp] theorem freep_setPtr (h : Heap) (p v : ℕ) : (h.setPtr p v).freep = h.freep := rfl

@[simp] theorem freep_setSize (h : Heap) (p v : ℕ) : (h.setSize p v).freep = h.freep := rfl

@[simp] theorem sbrks_setPtr (h : Heap) (p v : ℕ) : (h.setPtr p v).sbrks = h.sbrks := rfl

@[simp] theorem sbrks_setSize (h : Heap) (p v : ℕ) : (h.setSize p v).sbrks = h.sbrks := rfl

@[simp] theorem header_setPtr_self (h : Heap) (p v : ℕ) :
    (h.setPtr p v).header p = { h.header p with ptr := v } := Function.update_self ..

@[simp] theorem header_setSize_self (h : Heap) (p v : ℕ) :
    (h.setSize p v).header p = { h.header p with size := v } := Function.update_self ..

@[simp] theorem header_setPtr_of_ne {h : Heap} {p q v : ℕ} (hne : q ≠ p) :
    (h.setPtr p v).header q = h.header q := Function.update_of_ne hne ..

@[simp] theorem header_setSize_of_ne {h : Heap} {p q v : ℕ} (hne : q ≠ p) :
    (h.setSize p v).header q = h.header q := Function.update_of_ne hne ..

/-- `p + n`, for a pointer to headers -/
def behind (p n : ℕ) : ℕ := (p + UNIT * n) % 2 ^ 32

/-- The loop of `free`, which looks for the place of `bp`. -/
def findStep (h : Heap) (bp p : ℕ) : Option (ℕ ⊕ ℕ) :=
  if bp > p ∧ bp < (h.header p).ptr then some (.inr p)
  else if p ≥ (h.header p).ptr ∧ (bp > p ∨ bp < (h.header p).ptr) then some (.inr p)
  else some (.inl (h.header p).ptr)

/-- The first half of `free`: join `bp` to the block behind it. -/
def joinNext (h : Heap) (bp p : ℕ) : Heap :=
  if behind bp (h.header bp).size = (h.header p).ptr then
    let h := h.setSize bp (((h.header bp).size + (h.header (h.header p).ptr).size) % 2 ^ 32)
    h.setPtr bp (h.header (h.header p).ptr).ptr
  else h.setPtr bp (h.header p).ptr

/-- The second half: join `bp` to the block before it. -/
def joinPrev (h : Heap) (bp p : ℕ) : Heap :=
  if behind p (h.header p).size = bp then
    let h := h.setSize p (((h.header p).size + (h.header bp).size) % 2 ^ 32)
    h.setPtr p (h.header bp).ptr
  else h.setPtr p bp

def free (fuel : ℕ) (h : Heap) (ap : ℕ) : Option Heap := do
  let bp := (ap + 2 ^ 32 - UNIT) % 2 ^ 32
  let p ← Loop.run (findStep h bp) fuel h.freep
  return { joinPrev (joinNext h bp p) bp p with freep := p }

/-- An unsigned number as an `int` -/
def asInt (n : ℕ) : ℤ := if n < 2 ^ 31 then n else (n : ℤ) - 2 ^ 32

section

variable (base : ℕ) (os : List (ℤ × Option ℕ) → ℤ → Option ℕ)

/-- Put more memory on the free list; `none` for the null pointer. -/
def morecore (fuel : ℕ) (h : Heap) (nu : ℕ) : Option (Option ℕ × Heap) := do
  let nu := if nu < 4096 then 4096 else nu
  let n := asInt (nu * UNIT % 2 ^ 32)
  let answer := os h.sbrks n
  let h := { h with sbrks := (n, answer) :: h.sbrks }
  match answer with
  | none => return (none, h)
  | some p =>
    let h ← free fuel (h.setSize p nu) (behind p 1)
    return (some h.freep, h)

/-- The loop of `malloc`, at `prevp` and `p`: it leaves with the pointer to return. -/
def mallocStep (fuel nunits : ℕ) : Heap × ℕ × ℕ → Option ((Heap × ℕ × ℕ) ⊕ (ℕ × Heap))
  | (h, prevp, p) =>
    if (h.header p).size ≥ nunits then
      if (h.header p).size = nunits then
        some (.inr (behind p 1, { h.setPtr prevp (h.header p).ptr with freep := prevp }))
      else
        let h := h.setSize p ((h.header p).size - nunits)
        let p := behind p (h.header p).size
        let h := h.setSize p nunits
        some (.inr (behind p 1, { h with freep := prevp }))
    else if p = h.freep then do
      let (more, h) ← morecore os fuel h nunits
      match more with
      | none => return .inr (0, h)
      | some p => return .inl (h, p, (h.header p).ptr)
    else some (.inl (h, p, (h.header p).ptr))

/-- How many units `malloc` looks for. -/
def unitsOf (nbytes : ℕ) : ℕ := (nbytes + UNIT - 1) % 2 ^ 32 / UNIT + 1

/-- The first lines of `malloc`: there is a list from the first call on. -/
def setUp (h : Heap) : Heap :=
  if h.freep = 0 then { (h.setPtr base base).setSize base 0 with freep := base } else h

def malloc (fuel nbytes : ℕ) (h : Heap) : Option (ℕ × Heap) :=
  let h := setUp base h
  Loop.run (mallocStep os fuel (unitsOf nbytes)) fuel (h, h.freep, (h.header h.freep).ptr)

end

/-! ## The list in memory -/

variable {base : ℕ} {os : List (ℤ × Option ℕ) → ℤ → Option ℕ} {h h' : Heap}
  {m m' : ℕ → Header} {stop : ℕ} {a b g p q : Extent} {l r x y pre post : List Extent}

/-- Where a list of blocks begins, if `stop` comes behind it. -/
def first (stop : ℕ) : List Extent → ℕ
  | [] => stop
  | a :: _ => a.start

/-- The headers of the blocks are linked in their order, and the last one to `stop`. -/
def Links (m : ℕ → Header) (stop : ℕ) : List Extent → Prop
  | [] => True
  | a :: l => (m a.start).ptr = first stop l ∧ UNIT * (m a.start).size = a.len ∧ Links m stop l

theorem first_append : first stop (l ++ r) = first (first stop r) l := by
  cases l <;> rfl

theorem links_append : Links m stop (l ++ r) ↔ Links m (first stop r) l ∧ Links m stop r := by
  induction l with
  | nil => simp only [List.nil_append, Links, true_and]
  | cons a l ih =>
    simp only [List.cons_append, Links, ih, first_append, and_assoc]

/-- Only the headers of the blocks matter. -/
theorem Links.congr (hl : Links m stop l) (h : ∀ a ∈ l, m' a.start = m a.start) :
    Links m' stop l := by
  induction l with
  | nil => trivial
  | cons a l ih =>
    obtain ⟨hptr, hsize, hrest⟩ := hl
    refine ⟨?_, ?_, ih hrest fun b hb => h b (List.mem_cons_of_mem _ hb)⟩
    · rw [h a (List.mem_cons_self ..), hptr]
    · rw [h a (List.mem_cons_self ..), hsize]

theorem Links.size (hl : Links m stop l) (ha : a ∈ l) : UNIT * (m a.start).size = a.len := by
  induction l with
  | nil => cases ha
  | cons b l ih =>
    rcases List.mem_cons.mp ha with rfl | ha
    · exact hl.2.1
    · exact ih hl.2.2 ha

/-- The header that the list begins with. -/
def sentinel (base : ℕ) : Extent := ⟨base, 0⟩

/-- A block is a range of whole units behind `base`. -/
structure Block (base : ℕ) (b : Extent) : Prop where
  pos : 0 < b.len
  aligned : b.start % UNIT = 0
  above : base + UNIT ≤ b.start
  fits : b.finish < 2 ^ 32

/-- The free blocks are `l`. -/
structure Linked (base : ℕ) (h : Heap) (l : List Extent) : Prop where
  base_pos : 0 < base
  links : Links h.header base (sentinel base :: l)
  apart : Extents.Apart (sentinel base :: l)
  freep : ∃ a ∈ sentinel base :: l, a.start = h.freep
  blocks : ∀ b ∈ l, Block base b

theorem Block.start_lt (hb : Block base b) : b.start < b.finish := Nat.lt_add_of_pos_right hb.pos

/-- The headers of a sorted list are all different. -/
theorem start_lt_of_apart (h : Extents.Apart (x ++ a :: y)) (hb : b ∈ y) : a.start < b.start := by
  have := (apart_cons.mp (apart_append.mp h).2.1).1 b hb
  have ha : a.start ≤ a.finish := Nat.le_add_right ..
  omega

theorem start_ne_of_apart (h : Extents.Apart (x ++ a :: y)) (hb : b ∈ x ++ y) : b.start ≠ a.start := by
  rcases List.mem_append.mp hb with hb | hb
  · have := (apart_append.mp h).2.2 b hb a (List.mem_cons_self ..)
    have hbb : b.start ≤ b.finish := Nat.le_add_right ..
    omega
  · exact (start_lt_of_apart h hb).ne'

/-- What comes behind a header of the list is a block of it. -/
theorem mem_of_split (heq : sentinel base :: l = pre ++ q :: x) (ha : a ∈ x) : a ∈ l := by
  cases pre with
  | nil => exact (List.cons_eq_cons.mp heq).2 ▸ ha
  | cons e pre => exact (List.cons_eq_cons.mp heq).2 ▸ by simp [ha]

/-! ## `free` -/

section

variable {bp : ℕ}

/-- From a block below `bp` the loop goes up to the last one below it. -/
theorem run_find_below (hl : Links h.header base (q :: post)) (ha : Extents.Apart (q :: post))
    (hbase : base ≤ q.start) (hq : q.start < bp) (hne : ∀ a ∈ post, a.start ≠ bp) :
    ∃ x p y, q :: post = x ++ p :: y ∧ p.start < bp ∧ (∀ c ∈ y, bp < c.start) ∧
      ∀ n, Loop.run (findStep h bp) (x.length + (n + 1)) q.start = some p.start := by
  induction post generalizing q with
  | nil =>
    refine ⟨[], q, [], rfl, hq, fun c hc => (nomatch hc), fun n => ?_⟩
    rw [List.length_nil, Nat.zero_add]
    refine Loop.run_succ_inr ?_
    have hptr : (h.header q.start).ptr = base := hl.1
    rw [findStep, hptr, if_neg (by omega), if_pos (by omega)]
  | cons c post ih =>
    have hptr : (h.header q.start).ptr = c.start := hl.1
    have hqc := start_lt_of_apart (x := []) ha (List.mem_cons_self ..)
    have hcne := hne c (List.mem_cons_self ..)
    by_cases hc : bp < c.start
    · refine ⟨[], q, c :: post, rfl, hq, fun e he => ?_, fun n => ?_⟩
      · rcases List.mem_cons.mp he with rfl | he
        · exact hc
        · exact hc.trans (start_lt_of_apart (x := [q]) ha he)
      · rw [List.length_nil, Nat.zero_add]
        refine Loop.run_succ_inr ?_
        rw [findStep, hptr, if_pos ⟨hq, hc⟩]
    · obtain ⟨x, p, y, heq, hp, hy, hrun⟩ := ih hl.2.2 (apart_cons.mp ha).2 (by omega) (by omega)
        fun e he => hne e (List.mem_cons_of_mem _ he)
      refine ⟨q :: x, p, y, by rw [heq, List.cons_append], hp, hy, fun n => ?_⟩
      rw [List.length_cons, Nat.add_right_comm]
      refine (Loop.run_succ_inl ?_).trans (hrun n)
      rw [findStep, hptr, if_neg (by omega), if_neg (by omega)]

/-- From a block above `bp` it goes to the end of the list and begins again. -/
theorem run_find_above (hl : Links h.header base (q :: post)) (ha : Extents.Apart (q :: post))
    (hbase : base < bp) (hq : bp < q.start) (n : ℕ) :
    Loop.run (findStep h bp) ((q :: post).length + n) q.start =
      Loop.run (findStep h bp) n base := by
  induction post generalizing q with
  | nil =>
    have hptr : (h.header q.start).ptr = base := hl.1
    rw [List.length_singleton, Nat.add_comm]
    refine Loop.run_succ_inl ?_
    rw [findStep, hptr, if_neg (by omega), if_neg (by omega)]
  | cons c post ih =>
    have hptr : (h.header q.start).ptr = c.start := hl.1
    have hqc := start_lt_of_apart (x := []) ha (List.mem_cons_self ..)
    rw [List.length_cons, Nat.add_right_comm]
    refine (Loop.run_succ_inl ?_).trans (ih hl.2.2 (apart_cons.mp ha).2 (by omega))
    rw [findStep, hptr, if_neg (by omega), if_neg (by omega)]

/-- Wherever it begins, the loop ends at the last block below `bp`. -/
theorem Linked.run_find (hl : Linked base h l) (hbp : base < bp) (hne : ∀ a ∈ l, a.start ≠ bp) :
    ∃ x p y n, sentinel base :: l = x ++ p :: y ∧ p.start < bp ∧ (∀ c ∈ y, bp < c.start) ∧
      ∀ fuel > n, Loop.run (findStep h bp) fuel h.freep = some p.start := by
  obtain ⟨f, hf, hfreep⟩ := hl.freep
  obtain ⟨u, v, huv⟩ := List.append_of_mem hf
  have hlinks := hl.links
  have hapart := hl.apart
  rw [← hfreep]
  -- the walk from the beginning of the list
  obtain ⟨x, p, y, heq, hp, hy, hrun⟩ := run_find_below hlinks hapart le_rfl hbp hne
  have hnodes : ∀ a ∈ sentinel base :: l, a.start ≠ bp := fun a ha => by
    rcases List.mem_cons.mp ha with rfl | ha
    · exact hbp.ne
    · exact hne a ha
  rw [huv] at hlinks hapart
  have hlf := (links_append.mp hlinks).2
  have haf := (apart_append.mp hapart).2.1
  rcases Nat.lt_or_gt_of_ne (hnodes f hf) with hlt | hgt
  · have hbf : base ≤ f.start := by
      rcases List.mem_cons.mp hf with rfl | hf
      · exact le_rfl
      · exact (Nat.le_add_right ..).trans (hl.blocks f hf).above
    have hnev : ∀ a ∈ v, a.start ≠ bp := fun a ha => hnodes a (by rw [huv]; simp [ha])
    obtain ⟨x', p', y', heq', hp', hy', hrun'⟩ := run_find_below hlf haf hbf hlt hnev
    refine ⟨u ++ x', p', y', x'.length, ?_, hp', hy', fun fuel hfuel => Loop.run_of_le hrun' hfuel⟩
    rw [huv, heq', List.append_assoc]
  · refine ⟨x, p, y, (f :: v).length + x.length, heq, hp, hy, fun fuel hfuel => ?_⟩
    refine Loop.run_of_le (fun n => ?_) hfuel
    rw [Nat.add_assoc, run_find_above hlf haf hbp hgt]
    exact hrun n

end

theorem behind_eq {n : ℕ} (hn : UNIT * n = b.len) : behind b.start n = b.finish % 2 ^ 32 := by
  rw [behind, hn, finish]

/-- Two blocks touch if the code finds so. -/
theorem behind_eq_iff {n s : ℕ} (hn : UNIT * n = b.len) (hb : b.finish < 2 ^ 32) :
    behind b.start n = s ↔ b.finish = s := by
  rw [behind_eq hn, Nat.mod_eq_of_lt hb]

/-- The first half of `free` links `b`, joined with what is right behind it, to the rest. -/
theorem links_joinNext (hb : Block base b)
    (hsize : UNIT * (h.header b.start).size = b.len) (hl : Links h.header base (p :: post))
    (hne : ∀ c ∈ p :: post, c.start ≠ b.start) (hpost : ∀ c ∈ post, Block base c) :
    Links (joinNext h b.start p.start).header base
      ((joinRight b post).1 :: (joinRight b post).2) := by
  obtain ⟨hptr, -, hrest⟩ := hl
  have hlt := hb.start_lt
  have habove := hb.above
  have hfits := hb.fits
  cases post with
  | nil =>
    have hptr : (h.header p.start).ptr = base := hptr
    have hno : ¬ behind b.start (h.header b.start).size = (h.header p.start).ptr := by
      rw [hptr, behind_eq_iff hsize hfits]
      omega
    rw [joinNext, if_neg hno, hptr]
    exact ⟨by simp [joinRight, first], by simpa [joinRight] using hsize, trivial⟩
  | cons c r =>
    have hptr : (h.header p.start).ptr = c.start := hptr
    have hc := hpost c (List.mem_cons_self ..)
    have hcne : c.start ≠ b.start := hne c (by simp)
    have hiff : behind b.start (h.header b.start).size = (h.header p.start).ptr ↔
        b.finish = c.start := by
      rw [hptr, behind_eq_iff hsize hfits]
    have hpb : p.start ≠ b.start := hne p (List.mem_cons_self ..)
    by_cases heq : b.finish = c.start
    · rw [joinNext, if_pos (hiff.mpr heq)]
      simp only [joinRight, if_pos heq]
      obtain ⟨hcptr, hcsize, hr⟩ := hrest
      have hsum : UNIT * ((h.header b.start).size + (h.header c.start).size) = (b.join c).len := by
        rw [Nat.mul_add, hsize, hcsize]
        rfl
      have hsmall : (h.header b.start).size + (h.header c.start).size < 2 ^ 32 := by
        have hj : (b.join c).finish < 2 ^ 32 := (finish_join heq).trans_lt hc.fits
        have hpos := hb.pos
        unfold UNIT at hsum
        simp only [finish] at hj
        omega
      refine ⟨?_, ?_, hr.congr fun e he => ?_⟩
      · rw [start_join, header_setPtr_self, header_setSize_of_ne hpb, hptr,
          header_setSize_of_ne hcne]
        exact hcptr
      · rw [start_join, header_setPtr_self, header_setSize_self, hptr, Nat.mod_eq_of_lt hsmall]
        exact hsum
      · have hene : e.start ≠ b.start := hne e (by simp [he])
        rw [header_setPtr_of_ne hene, header_setSize_of_ne hene]
    · rw [joinNext, if_neg (fun hyes => heq (hiff.mp hyes)), hptr]
      simp only [joinRight, if_neg heq]
      refine ⟨by rw [header_setPtr_self]; rfl, by rw [header_setPtr_self]; exact hsize, ?_⟩
      exact hrest.congr fun e he => header_setPtr_of_ne (hne e (List.mem_cons_of_mem _ he))

/-- The first half changes the header of `b` only. -/
theorem header_joinNext {bp s e : ℕ} (hne : e ≠ bp) :
    (joinNext h bp s).header e = h.header e := by
  unfold joinNext
  split
  · rw [header_setPtr_of_ne hne, header_setSize_of_ne hne]
  · exact header_setPtr_of_ne hne

/-- The second half changes the header of `p` only. -/
theorem header_joinPrev {bp s e : ℕ} (hne : e ≠ s) :
    (joinPrev h bp s).header e = h.header e := by
  unfold joinPrev
  split
  · rw [header_setPtr_of_ne hne, header_setSize_of_ne hne]
  · exact header_setPtr_of_ne hne

@[simp] theorem sbrks_joinNext {bp s : ℕ} : (joinNext h bp s).sbrks = h.sbrks := by
  unfold joinNext
  split <;> rfl

@[simp] theorem sbrks_joinPrev {bp s : ℕ} : (joinPrev h bp s).sbrks = h.sbrks := by
  unfold joinPrev
  split <;> rfl

/-- The second half links `p`, joined with `b` if that is right behind it. -/
theorem links_joinPrev (hpb : p.start < b.start) (hpf : p.finish ≤ b.start)
    (hbf : b.start < b.finish) (hfits : b.finish < 2 ^ 32)
    (hsize : UNIT * (h.header p.start).size = p.len) (hl : Links h.header base (b :: post))
    (hne : ∀ c ∈ post, c.start ≠ p.start) :
    Links (joinPrev h b.start p.start).header base (joinLeft p b post) := by
  obtain ⟨hptr, hbsize, hrest⟩ := hl
  have hiff : behind p.start (h.header p.start).size = b.start ↔ p.finish = b.start :=
    behind_eq_iff hsize (by omega)
  by_cases heq : p.finish = b.start
  · rw [joinPrev, if_pos (hiff.mpr heq), joinLeft, if_pos heq]
    have hsum : UNIT * ((h.header p.start).size + (h.header b.start).size) = (p.join b).len := by
      rw [Nat.mul_add, hsize, hbsize]
      rfl
    have hsmall : (h.header p.start).size + (h.header b.start).size < 2 ^ 32 := by
      have hj : (p.join b).finish < 2 ^ 32 := (finish_join heq).trans_lt hfits
      unfold UNIT at hsum
      simp only [finish] at hj hbf
      omega
    refine ⟨?_, ?_, hrest.congr fun e he => ?_⟩
    · rw [start_join, header_setPtr_self, header_setSize_of_ne hpb.ne']
      exact hptr
    · rw [start_join, header_setPtr_self, header_setSize_self, Nat.mod_eq_of_lt hsmall]
      exact hsum
    · rw [header_setPtr_of_ne (hne e he), header_setSize_of_ne (hne e he)]
  · rw [joinPrev, if_neg (fun hyes => heq (hiff.mp hyes)), joinLeft, if_neg heq]
    have hb : (h.setPtr p.start b.start).header b.start = h.header b.start :=
      header_setPtr_of_ne hpb.ne'
    refine ⟨by rw [header_setPtr_self]; rfl, by rw [header_setPtr_self]; exact hsize, ?_, ?_, ?_⟩
    · rw [hb]
      exact hptr
    · rw [hb]
      exact hbsize
    · exact hrest.congr fun e he => header_setPtr_of_ne (hne e he)

theorem Block.join (ha : Block base a) (hb : Block base b) (h : a.finish = b.start) :
    Block base (a.join b) where
  pos := Nat.add_pos_left ha.pos _
  aligned := ha.aligned
  above := ha.above
  fits := (finish_join h).trans_lt hb.fits

theorem Block.joinRight (hb : Block base b) (hpost : ∀ c ∈ post, Block base c) :
    Block base (joinRight b post).1 := by
  cases post with
  | nil => exact hb
  | cons c r =>
    simp only [Extents.joinRight]
    split
    · next heq => exact hb.join (hpost c (List.mem_cons_self ..)) heq
    · exact hb

theorem len_joinRight : b.len ≤ (joinRight b post).1.len := by
  cases post with
  | nil => exact le_rfl
  | cons c r =>
    simp only [joinRight]
    split
    · exact Nat.le_add_right ..
    · exact le_rfl

theorem first_place : first stop (place p b post) = p.start := by
  rw [place, joinLeft]
  split <;> rfl

/-- Behind the sentinel nothing is joined with it. -/
theorem place_sentinel (hb : Block base b) :
    place (sentinel base) b post = sentinel base :: (joinRight b post).1 :: (joinRight b post).2 := by
  rw [place, joinLeft, if_neg]
  rw [start_joinRight]
  have := hb.above
  unfold UNIT at this
  simp only [finish, sentinel]
  omega

theorem block_place (hp : Block base p) (hb : Block base b) (hpost : ∀ c ∈ post, Block base c)
    (h : a ∈ place p b post) : Block base a := by
  have hright := hb.joinRight hpost
  rw [place, joinLeft] at h
  split at h
  · next heq =>
    rcases List.mem_cons.mp h with rfl | h
    · exact hp.join hright heq
    · exact hpost a (mem_joinRight h)
  · rcases List.mem_cons.mp h with rfl | h
    · exact hp
    · rcases List.mem_cons.mp h with rfl | h
      · exact hright
      · exact hpost a (mem_joinRight h)

/-- There is a block now that is at least as large as the one added. -/
theorem exists_len_place : ∃ g ∈ place p b post, b.len ≤ g.len := by
  have hlen : b.len ≤ (joinRight b post).1.len := len_joinRight
  rw [place, joinLeft]
  split
  · exact ⟨_, List.mem_cons_self .., hlen.trans (Nat.le_add_left ..)⟩
  · exact ⟨_, List.mem_cons_of_mem _ (List.mem_cons_self ..), hlen⟩

/-- What `free` does to the list. -/
structure Freed (base : ℕ) (h : Heap) (l : List Extent) (b : Extent) (h' : Heap)
    (l' : List Extent) : Prop where
  linked : Linked base h' l'
  cover : ∀ x, cover x l' = cover x (b :: l)
  frame : ∀ e, e ≠ b.start → (∀ a ∈ sentinel base :: l, e ≠ a.start) → h'.header e = h.header e
  sbrks : h'.sbrks = h.sbrks
  large : ∃ g ∈ l', b.len ≤ g.len

/-- The blocks of the list, after `b` is placed behind `p`. -/
theorem exists_placed (hb : Block base b) (hl : ∀ c ∈ l, Block base c)
    (heq : sentinel base :: l = pre ++ p :: post) :
    ∃ l', pre ++ place p b post = sentinel base :: l' ∧ (∀ c ∈ l', Block base c) ∧
      (∀ x, cover x l' = cover x (b :: l)) ∧ ∃ g ∈ l', b.len ≤ g.len := by
  have hcover : ∀ x l', pre ++ place p b post = sentinel base :: l' →
      cover x l' = cover x (b :: l) := fun x l' h => by
    have hl' : cover x (sentinel base :: l') = cover x l' := cover_cons_empty rfl
    have hl : cover x (sentinel base :: l) = cover x l := cover_cons_empty rfl
    rw [heq] at hl
    simp only [cover_append, cover_cons] at hl
    rw [← hl', ← h, cover_append, cover_place]
    simp only [cover_cons]
    omega
  cases pre with
  | nil =>
    obtain ⟨rfl, rfl⟩ := List.cons_eq_cons.mp heq
    refine ⟨_, place_sentinel hb, fun c hc => ?_, fun x => hcover x _ (place_sentinel hb), ?_⟩
    · rcases List.mem_cons.mp hc with rfl | hc
      · exact hb.joinRight hl
      · exact hl c (mem_joinRight hc)
    · exact ⟨_, List.mem_cons_self .., len_joinRight⟩
  | cons c pre =>
    obtain ⟨rfl, rfl⟩ := List.cons_eq_cons.mp heq
    have hpost : ∀ c ∈ post, Block base c := fun c hc => hl c (by simp [hc])
    refine ⟨pre ++ place p b post, rfl, fun c hc => ?_, fun x => hcover x _ rfl, ?_⟩
    · rcases List.mem_append.mp hc with hc | hc
      · exact hl c (List.mem_append_left _ hc)
      · exact block_place (hl p (by simp)) hb hpost hc
    · obtain ⟨g, hg, hlen⟩ : ∃ g ∈ place p b post, b.len ≤ g.len := exists_len_place
      exact ⟨g, List.mem_append_right _ hg, hlen⟩

/-- **`free`** puts a block on the list that has nothing in common with those there. -/
theorem Linked.free (hl : Linked base h l) (hb : Block base b)
    (hsize : UNIT * (h.header b.start).size = b.len)
    (hdisj : ∀ a ∈ l, a.finish ≤ b.start ∨ b.finish ≤ a.start) :
    ∃ h' l' n, (∀ fuel > n, free fuel h (b.start + UNIT) = some h') ∧ Freed base h l b h' l' := by
  have hlt := hb.start_lt
  have habove : base < b.start := by
    have := hb.above
    unfold UNIT at this
    omega
  have hne : ∀ a ∈ l, a.start ≠ b.start := fun a ha => by
    have := (hl.blocks a ha).start_lt
    have := hdisj a ha
    omega
  obtain ⟨pre, p, post, n, heq, hp, hpost, hrun⟩ := hl.run_find habove hne
  obtain ⟨l', hl', hblocks, hcover, hlarge⟩ := exists_placed hb hl.blocks heq
  have hlinks := hl.links
  have hapart := hl.apart
  rw [heq] at hlinks hapart
  obtain ⟨hlpre, hlp⟩ := links_append.mp hlinks
  have hnodes : ∀ a ∈ pre ++ p :: post, a.start ≠ b.start := fun a ha => by
    rw [← heq] at ha
    rcases List.mem_cons.mp ha with rfl | ha
    · exact habove.ne
    · exact hne a ha
  have hpl : p = sentinel base ∨ p ∈ l := List.mem_cons.mp (heq ▸ by simp)
  have hmem : ∀ c ∈ post, c ∈ l := fun c hc => mem_of_split heq hc
  have hpf : p.finish ≤ b.start := by
    rcases hpl with rfl | hpl
    · exact habove.le
    · have := (hl.blocks p hpl).start_lt
      have := hdisj p hpl
      omega
  have hbf : ∀ c ∈ post, b.finish ≤ c.start := fun c hc => by
    have := (hl.blocks c (hmem c hc)).start_lt
    have := hdisj c (hmem c hc)
    have := hpost c hc
    omega
  have hpostb : ∀ c ∈ post, Block base c := fun c hc => hl.blocks c (hmem c hc)
  have hright := hb.joinRight hpostb
  have hstart : (joinRight b post).1.start = b.start := start_joinRight
  -- the two halves, one after the other
  have hnext := links_joinNext hb hsize hlp
    (fun c hc => hnodes c (List.mem_append_right _ hc)) hpostb
  have hpsize : UNIT * ((joinNext h b.start p.start).header p.start).size = p.len := by
    rw [header_joinNext hp.ne]
    exact hlp.2.1
  have hprev := links_joinPrev (hstart ▸ hp) (hstart ▸ hpf) hright.start_lt hright.fits hpsize hnext
    fun c hc => (start_lt_of_apart hapart (mem_joinRight hc)).ne'
  rw [hstart] at hprev
  have hbp : (b.start + UNIT + 2 ^ 32 - UNIT) % 2 ^ 32 = b.start := by
    have := hb.fits
    unfold UNIT
    omega
  refine ⟨{ joinPrev (joinNext h b.start p.start) b.start p.start with freep := p.start }, l', n,
    fun fuel hfuel => ?_, ⟨hl.base_pos, ?_, ?_, ?_, hblocks⟩, hcover, fun e heb hen => ?_, ?_, hlarge⟩
  · rw [Umalloc.free, hbp, hrun fuel hfuel]
    rfl
  · rw [← hl']
    refine links_append.mpr ⟨?_, hprev⟩
    rw [first_place]
    refine hlpre.congr fun c hc => ?_
    have hcp := start_ne_of_apart hapart (List.mem_append_left _ hc)
    have hcb := hnodes c (List.mem_append_left _ hc)
    exact (header_joinPrev hcp).trans (header_joinNext hcb)
  · rw [← hl']
    exact apart_place hapart hpf hbf
  · rw [← hl', place, joinLeft]
    split
    · exact ⟨_, List.mem_append_right _ (List.mem_cons_self ..), rfl⟩
    · exact ⟨_, List.mem_append_right _ (List.mem_cons_self ..), rfl⟩
  · have hep : e ≠ p.start := hen p (heq ▸ by simp)
    exact (header_joinPrev hep).trans (header_joinNext heb)
  · exact sbrks_joinPrev.trans sbrks_joinNext

/-! ## The whole heap -/

/-- What `sbrk` has given so far. -/
def regions (sbrks : List (ℤ × Option ℕ)) : List Extent :=
  sbrks.filterMap fun (n, answer) => answer.map fun p => ⟨p, n.toNat⟩

/-- `sbrk` fails or gives memory that is new, behind the variables of the program. -/
def Fresh (base : ℕ) (os : List (ℤ × Option ℕ) → ℤ → Option ℕ) : Prop :=
  ∀ sbrks n p, 0 < n → os sbrks n = some p →
    p % UNIT = 0 ∧ base + UNIT ≤ p ∧ p + n.toNat < 2 ^ 32 ∧
      ∀ r ∈ regions sbrks, r.finish ≤ p ∨ p + n.toNat ≤ r.start

/-- The free blocks `l` and the live blocks share out what `sbrk` has given. -/
structure Sound (base : ℕ) (h : Heap) (l live : List Extent) : Prop where
  linked : Linked base h l
  blocks : ∀ b ∈ live, Block base b
  sizes : ∀ b ∈ live, UNIT * (h.header b.start).size = b.len
  cover : ∀ x, Extents.cover x (live ++ l) = Extents.cover x (regions h.sbrks)
  once : ∀ x, Extents.cover x (regions h.sbrks) ≤ 1

variable {live live' : List Extent}

/-- Any two blocks have nothing in common. -/
theorem Sound.disjoint (hs : Sound base h l live) (hperm : (live ++ l).Perm (b :: r)) (ha : a ∈ r) :
    a.finish ≤ b.start ∨ b.finish ≤ a.start := by
  have hblock : ∀ c ∈ live ++ l, Block base c := fun c hc => by
    rcases List.mem_append.mp hc with hc | hc
    · exact hs.blocks c hc
    · exact hs.linked.blocks c hc
  have hone : ∀ x, Extents.cover x (b :: r) ≤ 1 := fun x => by
    rw [← cover_perm hperm, hs.cover]
    exact hs.once x
  refine disjoint_of_cover hone ha ?_ ?_
  · exact (hblock a (hperm.mem_iff.mpr (List.mem_cons_of_mem _ ha))).pos
  · exact (hblock b (hperm.mem_iff.mpr (List.mem_cons_self ..))).pos

/-- The header of a live block is none of the list. -/
theorem Sound.live_ne (hs : Sound base h l live) (hb : b ∈ live) (ha : a ∈ sentinel base :: l) :
    b.start ≠ a.start := by
  have hblock := hs.blocks b hb
  have hlt := hblock.start_lt
  have habove := hblock.above
  rcases List.mem_cons.mp ha with rfl | ha
  · unfold UNIT at habove
    simp only [sentinel]
    omega
  · obtain ⟨r, hperm⟩ : ∃ r, (live ++ l).Perm (b :: (r ++ l)) :=
      ⟨live.erase b, (List.perm_cons_erase hb).append_right l⟩
    have := hs.disjoint hperm (List.mem_append_right _ ha)
    have := (hs.linked.blocks a ha).start_lt
    omega

/-- **`free`** gives a live block back. -/
theorem Sound.free (hs : Sound base h l live) (hperm : live.Perm (b :: live')) :
    ∃ h' l' n, (∀ fuel > n, Umalloc.free fuel h (b.start + UNIT) = some h') ∧
      Sound base h' l' live' ∧ h'.sbrks = h.sbrks ∧ ∃ g ∈ l', b.len ≤ g.len := by
  have hb : b ∈ live := hperm.mem_iff.mpr (List.mem_cons_self ..)
  have hblock := hs.blocks b hb
  have hall : (live ++ l).Perm (b :: (live' ++ l)) := hperm.append_right l
  obtain ⟨h', l', n, hrun, hfreed⟩ := hs.linked.free hblock (hs.sizes b hb)
    fun a ha => hs.disjoint hall (List.mem_append_right _ ha)
  have hmem : ∀ c ∈ live', c ∈ live := fun c hc => hperm.mem_iff.mpr (List.mem_cons_of_mem _ hc)
  refine ⟨h', l', n, hrun, ⟨hfreed.linked, fun c hc => hs.blocks c (hmem c hc), fun c hc => ?_,
    fun x => ?_, fun x => ?_⟩, hfreed.sbrks, hfreed.large⟩
  · have hcb : c.start ≠ b.start := by
      have := hs.disjoint hall (List.mem_append_left _ hc)
      have := (hs.blocks c (hmem c hc)).start_lt
      have := hblock.start_lt
      omega
    rw [hfreed.frame _ hcb fun a ha => hs.live_ne (hmem c hc) ha]
    exact hs.sizes c (hmem c hc)
  · rw [hfreed.sbrks, ← hs.cover, cover_append, hfreed.cover, cover_perm hall, cover_cons,
      cover_cons, cover_append]
    omega
  · rw [hfreed.sbrks]
    exact hs.once x

end StrideXv6.Umalloc
