import StrideXv6.Paging
import StrideXv6.Placement

/-!
# Who has a page

Every allocatable page is on the free list or in the hands of somebody. The code
in `vm.c` works on one address space at a time, so a `Place` here is one in the
part of memory such code has to do with: the free list, a page it just got
(`mem`), a kernel stack, the page directory, the page tables it refers to and the
user pages they refer to. `Env` tells where these start.

`Works` says what all functions of `vm.c` have in common: pages are moved around
between these places, the others are left alone, and a page is lost only where
`mappages` could not have a page table. How the functions do it is in the next
module; here are the single moves.
-/

namespace StrideXv6

open Bytes Effect Placement

/-! ## Entries -/

theorem isPresent_mkPte {g perm : ℕ} : isPresent (mkPte g (perm ||| PTE_P)) = true := by
  have hodd : (perm ||| 1) % 2 = 1 := by
    rw [Nat.or_mod_two_eq_one]
    exact Or.inr rfl
  unfold isPresent mkPte PTE_P
  rw [beq_iff_eq]
  omega

theorem pteAddr_mkPte {g perm : ℕ} (h : perm < 4096) : pteAddr (mkPte g perm) = g := by
  unfold pteAddr mkPte
  omega

theorem or_present_lt {perm : ℕ} (h : perm < 4096) : perm ||| PTE_P < 4096 :=
  Nat.or_lt_two_pow (n := 12) h (by decide)

theorem mkPte_lt {g perm : ℕ} (hg : g < NPAGE) (h : perm < 4096) : mkPte g perm < 4294967296 := by
  unfold mkPte
  unfold NPAGE at hg
  omega

namespace Phys

variable {m m' : Phys} {t t' j j' g x : ℕ} {b : ℕ → Byte}

@[simp] theorem byte_setPage_self : (m.setPage g b).byte g = b := Function.update_self _ _ _

theorem byte_setPage_ne (h : t ≠ g) : (m.setPage g b).byte t = m.byte t :=
  Function.update_of_ne h _ _

theorem pte_congr (h : m'.byte t = m.byte t) : m'.pte t j = m.pte t j := by
  unfold pte
  rw [h]

theorem pte_lt : m.pte t j < 4294967296 := word_lt

theorem pte_setPte_self (hx : x < 4294967296) : (m.setPte t j x).pte t j = x := by
  unfold pte setPte store
  rw [byte_setPage_self]
  exact (word_eq fun k hk => splice_inside hk).trans (Nat.mod_eq_of_lt hx)

theorem pte_setPte_ne (h : t ≠ t' ∨ j ≠ j') : (m.setPte t' j' x).pte t j = m.pte t j := by
  by_cases ht : t = t'
  · subst ht
    have hj := h.resolve_left fun h => h rfl
    unfold pte setPte store
    rw [byte_setPage_self]
    exact word_congr fun k hk => splice_outside (by omega)
  · exact pte_congr (byte_setPage_ne ht)

theorem pte_fill_zero : (m.fill g 0#8).pte g j = 0 := by
  unfold pte fill
  rw [byte_setPage_self]
  rfl

/-- The page an entry refers to. -/
def entry (m : Phys) (t j : ℕ) : Option ℕ :=
  if isPresent (m.pte t j) then some (pteAddr (m.pte t j)) else none

theorem entry_congr (h : m'.pte t j = m.pte t j) : m'.entry t j = m.entry t j := by
  unfold entry
  rw [h]

theorem entry_of_present (h : isPresent (m.pte t j) = true) :
    m.entry t j = some (pteAddr (m.pte t j)) := if_pos h

theorem entry_of_absent (h : isPresent (m.pte t j) = false) : m.entry t j = none := by
  unfold entry
  rw [h]
  rfl

/-- The page table entry for a virtual page. -/
def walk (m : Phys) (d v : ℕ) : Option ℕ :=
  (m.entry d (v / NPTENTRIES)).map fun t => m.pte t (v % NPTENTRIES)

/-- The page mapped at a virtual page. -/
def mapped (m : Phys) (d v : ℕ) : Option ℕ :=
  (m.entry d (v / NPTENTRIES)).bind fun t => m.entry t (v % NPTENTRIES)

end Phys

/-! ## Places -/

/-- Where a page can be. -/
inductive Place : Type where
  /-- on the free list, counted from its end -/
  | free (n : ℕ)
  /-- just allocated -/
  | mem
  /-- a kernel stack -/
  | stack
  /-- a page directory -/
  | dir
  /-- the page table of an entry of the page directory -/
  | table (i : ℕ)
  /-- mapped at a user page -/
  | user (v : ℕ)
  deriving DecidableEq

/-- Where the places start. -/
structure Env : Type where
  dir : Option ℕ := none
  stack : Option ℕ := none
  mem : Option ℕ := none
  /-- page tables before this one do not count any more -/
  low : ℕ := 0

/-- What is where on the free list. -/
def freeAt (free : List ℕ) (n : ℕ) : Option ℕ := free.reverse[n]?

namespace Phys

/-- What is at the places. -/
def place (m : Phys) (e : Env) : Place → Option ℕ
  | .free n => freeAt m.free n
  | .mem => e.mem
  | .stack => e.stack
  | .dir => e.dir
  | .table i => if e.low ≤ i ∧ i < NPTENTRIES then e.dir.bind (m.entry · i) else none
  | .user v =>
    if e.low ≤ v / NPTENTRIES ∧ v < KERNPAGE then e.dir.bind (m.mapped · v) else none

/-- How many pages were lost. -/
def lost (m : Phys) : ℕ := m.notes.countP fun e => match e with
  | .starved _ => true
  | _ => false

end Phys

theorem freeAt_cons {g n : ℕ} {free : List ℕ} :
    freeAt (g :: free) n = if n = free.length then some g else freeAt free n := by
  unfold freeAt
  rw [List.reverse_cons]
  by_cases hlt : n < free.length
  · rw [if_neg (Nat.ne_of_lt hlt), List.getElem?_append_left (by rwa [List.length_reverse])]
  · rw [List.getElem?_append_right (by rw [List.length_reverse]; omega), List.length_reverse]
    by_cases heq : n = free.length
    · rw [if_pos heq, heq, Nat.sub_self]
      rfl
    · rw [if_neg heq, List.getElem?_eq_none (by simp only [List.length_singleton]; omega),
        List.getElem?_eq_none (by rw [List.length_reverse]; omega)]

theorem freeAt_length {free : List ℕ} : freeAt free free.length = none :=
  List.getElem?_eq_none (by rw [List.length_reverse])

theorem freeAt_holds {free : List ℕ} {g : ℕ} : (∃ n, freeAt free n = some g) ↔ g ∈ free := by
  unfold freeAt
  rw [← List.mem_iff_getElem?, List.mem_reverse]

/-- No page is at two places, and all of them may be allocated. -/
structure Owned (L : Layout) (m : Phys) (e : Env) : Prop where
  apart : Separate (m.place e)
  ranged : ∀ g, Holds (m.place e) g → L.first ≤ g ∧ g < PHYSTOP

/-- What the functions of `vm.c` do to memory. -/
structure Works (L : Layout) (m m' : Phys) (e e' : Env) : Prop where
  shift : Shift (m.place e) (m'.place e')
  /-- the other pages are left alone -/
  frame : ∀ g, L.first ≤ g → ¬Holds (m.place e) g → m'.byte g = m.byte g
  /-- the history goes on -/
  notes : m.notes <+: m'.notes
  /-- a page is lost where there was no page for a page table -/
  keeps : m'.lost = m.lost ↔ Keeps (m.place e) (m'.place e')

theorem lost_le {m m' : Phys} (h : m.notes <+: m'.notes) : m.lost ≤ m'.lost := h.sublist.countP_le

theorem Owned.works {L : Layout} {m m' : Phys} {e e' : Env} (h : Owned L m e)
    (hw : Works L m m' e e') : Owned L m' e' :=
  ⟨hw.shift.apart h.apart, fun g hg => h.ranged g (hw.shift.holds g hg)⟩

namespace Works

variable {L : Layout} {m m' m'' : Phys} {e e' e'' : Env}

theorem refl : Works L m m e e :=
  ⟨Shift.refl _, fun _ _ _ => rfl, List.prefix_refl _, iff_of_true rfl (Keeps.refl _)⟩

theorem trans (h : Works L m m' e e') (h' : Works L m' m'' e' e'') : Works L m m'' e e'' := by
  refine ⟨h.shift.trans h'.shift, ?_, h.notes.trans h'.notes, ?_⟩
  · intro g hg hn
    rw [h'.frame g hg fun hh => hn (h.shift.holds g hh), h.frame g hg hn]
  · rw [h.shift.keeps_trans_iff h'.shift, ← h.keeps, ← h'.keeps]
    have h1 := lost_le h.notes
    have h2 := lost_le h'.notes
    omega

/-- A page is moved from one place to another one that was empty. -/
theorem move {a b : Place} (hb : m.place e b = none) (hgb : m'.place e' b = m.place e a)
    (hga : m'.place e' a = none) (hother : ∀ x, x ≠ a → x ≠ b → m'.place e' x = m.place e x)
    (hframe : ∀ g, L.first ≤ g → ¬Holds (m.place e) g → m'.byte g = m.byte g)
    (hnotes : m'.notes = m.notes) : Works L m m' e e' where
  shift := Shift.move hgb hga fun x hxa hxb => Or.inr (hother x hxa hxb)
  frame := hframe
  notes := hnotes ▸ List.prefix_refl _
  keeps := by
    refine iff_of_true (by unfold Phys.lost; rw [hnotes]) ?_
    exact Keeps.move hb hgb fun x hxa hxb => Or.inr (hother x hxa hxb)

/-- Nothing is moved. -/
theorem same (hplace : m'.place e' = m.place e)
    (hframe : ∀ g, L.first ≤ g → ¬Holds (m.place e) g → m'.byte g = m.byte g)
    (hnotes : m.notes <+: m'.notes) (hlost : m'.lost = m.lost) : Works L m m' e e' where
  shift := by
    rw [hplace]
    exact Shift.refl _
  frame := hframe
  notes := hnotes
  keeps := by
    rw [hplace]
    exact iff_of_true hlost (Keeps.refl _)

end Works

/-! ## What the places depend on -/

namespace Phys

variable {m m' : Phys} {e e' : Env} {x : Place} {i j v g t d : ℕ} {b : ℕ → Byte}

/-- The page directory and the page tables. -/
def TablePage (m : Phys) (e : Env) (g : ℕ) : Prop :=
  e.dir = some g ∨ ∃ i, m.place e (.table i) = some g

/-- Every user page is found through a page table that counts. -/
theorem place_user : m.place e (.user v) = if v < KERNPAGE then
    (m.place e (.table (v / NPTENTRIES))).bind (m.entry · (v % NPTENTRIES)) else none := by
  by_cases hv : v < KERNPAGE
  · have hi : v / NPTENTRIES < NPTENTRIES := by
      unfold NPTENTRIES KERNPAGE at *
      omega
    rw [if_pos hv]
    simp only [place, hv, hi, and_true]
    split
    · cases e.dir <;> rfl
    · rfl
  · rw [if_neg hv]
    exact if_neg fun h => hv h.2

theorem place_table_of_dir (hd : e.dir = some d) (hlow : e.low ≤ i) (hi : i < NPTENTRIES) :
    m.place e (.table i) = m.entry d i := by
  simp only [place, hlow, hi, hd, and_self, if_true, Option.bind_some]

theorem place_user_of_dir (hd : e.dir = some d) (hlow : e.low = 0) (hv : v < KERNPAGE) :
    m.place e (.user v) = m.mapped d v := by
  simp only [place, hlow, hv, hd, Nat.zero_le, and_self, if_true, Option.bind_some]

theorem space_congr (hdir : e'.dir = e.dir) (hlow : e'.low = e.low)
    (h : ∀ g, m.TablePage e g → m'.byte g = m.byte g) :
    (∀ i, m'.place e' (.table i) = m.place e (.table i)) ∧
      ∀ v, m'.place e' (.user v) = m.place e (.user v) := by
  have htable : ∀ i, m'.place e' (.table i) = m.place e (.table i) := by
    intro i
    simp only [place, hdir, hlow]
    split
    · cases hd : e.dir with
      | none => rfl
      | some d => exact entry_congr (pte_congr (h d (Or.inl hd)))
    · rfl
  refine ⟨htable, fun v => ?_⟩
  rw [place_user, place_user, htable]
  split
  · cases ht : m.place e (.table (v / NPTENTRIES)) with
    | none => rfl
    | some t => exact entry_congr (pte_congr (h t (Or.inr ⟨_, ht⟩)))
  · rfl

/-- Pages at other places are no page tables. -/
theorem not_tablePage (hm : Separate (m.place e)) (hx : m.place e x = some g) (hdir : x ≠ .dir)
    (htable : ∀ i, x ≠ .table i) : ¬m.TablePage e g := by
  rintro (hd | ⟨i, hi⟩)
  · exact hdir (hm hx (y := .dir) hd)
  · exact htable i (hm hx hi)

theorem tablePage_holds (h : m.TablePage e g) : Holds (m.place e) g := by
  rcases h with hd | ⟨i, hi⟩
  · exact ⟨.dir, hd⟩
  · exact ⟨_, hi⟩

theorem place_setPage (hg : ¬m.TablePage e g) : (m.setPage g b).place e = m.place e := by
  have hbyte : ∀ p, m.TablePage e p → (m.setPage g b).byte p = m.byte p := by
    intro p hp
    exact byte_setPage_ne fun h => hg (h ▸ hp)
  obtain ⟨htable, huser⟩ := space_congr rfl rfl hbyte
  funext x
  cases x with
  | table i => exact htable i
  | user v => exact huser v
  | _ => rfl

/-- Writing an entry of the page directory changes one page table. -/
theorem place_setPde (hm : Separate (m.place e)) (hd : e.dir = some d) (hx : x ≠ .table i)
    (hxu : ∀ v, v / NPTENTRIES = i → x ≠ .user v) {w : ℕ} :
    (m.setPte d i w).place e x = m.place e x := by
  have htable : ∀ i', i' ≠ i → (m.setPte d i w).place e (.table i') = m.place e (.table i') := by
    intro i' hi'
    simp only [place, hd, Option.bind_some]
    rw [entry_congr (pte_setPte_ne (Or.inr hi'))]
  cases x with
  | table i' => exact htable i' fun h => hx (h ▸ rfl)
  | user v =>
    rw [place_user, place_user, htable _ fun h => hxu v h rfl]
    split
    · cases ht : m.place e (.table (v / NPTENTRIES)) with
      | none => rfl
      | some t =>
        refine entry_congr (pte_setPte_ne (Or.inl ?_))
        exact hm.ne ht (y := .dir) hd nofun
    · rfl
  | _ => rfl

/-- Writing an entry of a page table changes one user page. -/
theorem place_setPte (hm : Separate (m.place e)) (ht : m.place e (.table i) = some t)
    (hx : x ≠ .user (i * NPTENTRIES + j)) {w : ℕ} :
    (m.setPte t j w).place e x = m.place e x := by
  have htable : ∀ i', (m.setPte t j w).place e (.table i') = m.place e (.table i') := by
    intro i'
    simp only [place]
    split
    · cases hd : e.dir with
      | none => rfl
      | some d =>
        refine entry_congr (pte_setPte_ne (Or.inl ?_))
        exact hm.ne (x := .dir) hd ht nofun
    · rfl
  cases x with
  | table i' => exact htable i'
  | user v =>
    rw [place_user, place_user, htable]
    split
    · cases ht' : m.place e (.table (v / NPTENTRIES)) with
      | none => rfl
      | some t' =>
        refine entry_congr (pte_setPte_ne ?_)
        by_cases hi : v / NPTENTRIES = i
        · right
          rintro rfl
          refine hx ?_
          rw [← hi, Nat.div_add_mod']
        · left
          exact hm.ne ht' ht fun h => hi (Place.table.inj h)
    · rfl
  | _ => rfl

end Phys

/-! ## The moves -/

namespace Owned

variable {L : Layout} {m : Phys} {e e' : Env} {x : Place} {i j v g t d : ℕ} {b : ℕ → Byte}
  {free : List ℕ}

/-- A store that does not hit a page table. -/
theorem setPage (hg : ¬m.TablePage e g) (hin : Holds (m.place e) g ∨ g < L.first) :
    Works L m (m.setPage g b) e e := by
  refine Works.same (Phys.place_setPage hg) (fun p hp hn => ?_) (List.prefix_refl _) rfl
  refine Phys.byte_setPage_ne ?_
  rintro rfl
  rcases hin with hh | hlt
  · exact hn hh
  · omega

/-- A page is taken from the free list. -/
theorem take (hfree : m.free = g :: free) (hxfree : ∀ n, x ≠ .free n) (hx : m.place e x = none)
    (hx' : m.place e' x = some g) (hother : ∀ y, y ≠ x → m.place e' y = m.place e y) :
    Works L m (m.setFree free) e e' := by
  have hplace : ∀ y, (∀ n, y ≠ .free n) → (m.setFree free).place e' y = m.place e' y := by
    intro y hy
    cases y with
    | free n => exact absurd rfl (hy n)
    | _ => rfl
  have hlast : m.place e (.free free.length) = some g := by
    simp only [Phys.place, hfree, freeAt_cons, if_true]
  refine Works.move (a := .free free.length) (b := x) hx ?_ freeAt_length ?_ (fun _ _ _ => rfl) rfl
  · rw [hplace x hxfree, hx', hlast]
  · intro y hya hyb
    by_cases hy : ∃ n, y = .free n
    · obtain ⟨n, rfl⟩ := hy
      have hn : n ≠ free.length := fun h => hya (h ▸ rfl)
      simp only [Phys.place, hfree, freeAt_cons, if_neg hn]
      rfl
    · rw [hplace y (not_exists.mp hy), hother y hyb]

theorem takeMem (hfree : m.free = g :: free) (hmem : e.mem = none) :
    Works L m (m.setFree free) e { e with mem := some g } := by
  refine take (x := .mem) hfree nofun hmem rfl fun y hy => ?_
  cases y with
  | mem => exact absurd rfl hy
  | _ => rfl

theorem takeStack (hfree : m.free = g :: free) (hstack : e.stack = none) :
    Works L m (m.setFree free) e { e with stack := some g } := by
  refine take (x := .stack) hfree nofun hstack rfl fun y hy => ?_
  cases y with
  | stack => exact absurd rfl hy
  | _ => rfl

/-- The memory after `kfree`. -/
def freed (m : Phys) (g : ℕ) : Phys := (m.fill g 1#8).setFree (g :: m.free)

/-- Where a page is given back from `x`, the other places do not notice that it is
filled with junk. -/
theorem place_freed (h : Owned L m e) (hx : m.place e x = some g) (hx' : m.place e' x = none)
    (hother : ∀ y, y ≠ x → m.place e' y = m.place e y) {y : Place} (hy : ∀ n, y ≠ .free n) :
    (freed m g).place e' y = m.place e' y := by
  have hgone : ∀ y, m.place e' y ≠ some g := by
    intro y hy
    have hyx : y ≠ x := by
      rintro rfl
      rw [hx'] at hy
      cases hy
    exact hyx (h.apart ((hother y hyx).symm.trans hy) hx)
  have htable : ¬m.TablePage e' g := by
    rintro (hd | ⟨i, hi⟩)
    · exact hgone .dir hd
    · exact hgone _ hi
  have hfill : (freed m g).place e' y = (m.fill g 1#8).place e' y := by
    cases y with
    | free n => exact absurd rfl (hy n)
    | _ => rfl
  rw [hfill, Phys.fill, Phys.place_setPage htable]

/-- A page is given back. -/
theorem give (h : Owned L m e) (hx : m.place e x = some g) (hxfree : ∀ n, x ≠ .free n)
    (hx' : m.place e' x = none) (hother : ∀ y, y ≠ x → m.place e' y = m.place e y) :
    Works L m (freed m g) e e' := by
  refine Works.move (a := x) (b := .free m.free.length) freeAt_length ?_ ?_ ?_ ?_ rfl
  · rw [hx]
    exact freeAt_cons.trans (if_pos rfl)
  · rw [h.place_freed hx hx' hother hxfree, hx']
  · intro y hyx hyb
    by_cases hy : ∃ n, y = .free n
    · obtain ⟨n, rfl⟩ := hy
      exact freeAt_cons.trans (if_neg fun hn : n = m.free.length => hyb (hn ▸ rfl))
    · rw [h.place_freed hx hx' hother (not_exists.mp hy), hother y hyx]
  · intro p hp hn
    refine Phys.byte_setPage_ne ?_
    rintro rfl
    exact hn ⟨x, hx⟩

theorem giveMem (h : Owned L m e) (hmem : e.mem = some g) :
    Works L m (freed m g) e { e with mem := none } := by
  refine h.give (x := .mem) hmem nofun rfl fun y hy => ?_
  cases y with
  | mem => exact absurd rfl hy
  | _ => rfl

theorem giveStack (h : Owned L m e) (hstack : e.stack = some g) :
    Works L m (freed m g) e { e with stack := none } := by
  refine h.give (x := .stack) hstack nofun rfl fun y hy => ?_
  cases y with
  | stack => exact absurd rfl hy
  | _ => rfl

/-- A page becomes an empty page directory. -/
theorem takeDir (h : Owned L m e) (hfree : m.free = d :: free) (hdir : e.dir = none) :
    Works L m ((m.setFree free).fill d 0#8) e { e with dir := some d } := by
  have hat : m.place e (.free free.length) = some d := by
    simp only [Phys.place, hfree, freeAt_cons, if_true]
  have hdata := Phys.not_tablePage h.apart hat nofun nofun
  have hfill : Works L m (m.fill d 0#8) e e := setPage hdata (Or.inl ⟨_, hat⟩)
  refine hfill.trans (take (x := .dir) hfree nofun hdir rfl fun y hy => ?_)
  have hnone : ∀ i, (m.fill d 0#8).entry d i = none := fun i =>
    Phys.entry_of_absent (by rw [Phys.pte_fill_zero]; rfl)
  cases y with
  | dir => exact absurd rfl hy
  | table i => simp only [Phys.place, hdir, hnone, Option.bind_some, Option.bind_none]
  | user v =>
    simp only [Phys.place, hdir, Phys.mapped, hnone, Option.bind_some, Option.bind_none]
  | _ => rfl

/-- A page becomes an empty page table. -/
theorem takeTable (h : Owned L m e) (hfree : m.free = t :: free) (hd : e.dir = some d)
    (hlow : e.low ≤ i) (hi : i < NPTENTRIES) (hnone : m.entry d i = none) (ht : t < NPAGE) :
    Works L m (((m.setFree free).fill t 0#8).setPte d i (mkPte t (PTE_P + PTE_W + PTE_U))) e e := by
  have hat : m.place e (.free free.length) = some t := by
    simp only [Phys.place, hfree, freeAt_cons, if_true]
  have hdata := Phys.not_tablePage h.apart hat nofun nofun
  -- the page is taken from the list and cleared
  set m1 := (m.setFree free).fill t 0#8 with hm1
  have hdrop : ∀ y, y ≠ .free free.length → m1.place e y = m.place e y := by
    intro y hy
    have hset : m1.place e y = (m.fill t 0#8).place e y := by
      cases y with
      | free n =>
        have hn : n ≠ free.length := fun h => hy (h ▸ rfl)
        exact ((congrArg (freeAt · n) hfree).trans (freeAt_cons.trans (if_neg hn))).symm
      | _ => rfl
    rw [hset, Phys.fill, Phys.place_setPage hdata]
  have hempty : m1.place e (.free free.length) = none := freeAt_length
  have hapart : Separate (m1.place e) := by
    refine (Shift.of_le fun y => ?_).apart h.apart
    by_cases hy : y = .free free.length
    · exact Or.inl (hy ▸ hempty)
    · exact Or.inr (hdrop y hy)
  have hdt : d ≠ t := h.apart.ne (x := .dir) hd hat nofun
  -- it is entered into the page directory
  have hpte : (m1.setPte d i (mkPte t (PTE_P + PTE_W + PTE_U))).pte d i =
      mkPte t (PTE_P + PTE_W + PTE_U) :=
    Phys.pte_setPte_self (mkPte_lt ht (by decide))
  have hentry : (m1.setPte d i (mkPte t (PTE_P + PTE_W + PTE_U))).entry d i = some t := by
    rw [Phys.entry_of_present, hpte, pteAddr_mkPte (by decide)]
    rw [hpte]
    change isPresent (mkPte t (7 ||| PTE_P)) = true
    exact isPresent_mkPte
  have htable := Phys.place_table_of_dir hd hlow hi (m := m)
  have htable' := Phys.place_table_of_dir hd hlow hi
    (m := m1.setPte d i (mkPte t (PTE_P + PTE_W + PTE_U)))
  refine Works.move (a := .free free.length) (b := .table i) (htable.trans hnone) ?_ ?_ ?_ ?_ rfl
  · rw [htable', hentry, hat]
  · exact hempty
  · intro y hya hyb
    by_cases hy : ∃ v, v / NPTENTRIES = i ∧ y = .user v
    · obtain ⟨v, hv, rfl⟩ := hy
      have hzero : (m1.setPte d i (mkPte t (PTE_P + PTE_W + PTE_U))).entry t (v % NPTENTRIES) =
          none := by
        refine Phys.entry_of_absent ?_
        rw [Phys.pte_setPte_ne (Or.inl hdt.symm), hm1, Phys.pte_fill_zero]
        rfl
      rw [Phys.place_user, Phys.place_user, hv, htable, htable', hnone, hentry]
      simp only [Option.bind_some, Option.bind_none, hzero]
    · rw [Phys.place_setPde hapart hd hyb fun v hv hyv => hy ⟨v, hv, hyv⟩, hdrop y hya]
  · intro p hp hn
    have hpd : p ≠ d := by
      rintro rfl
      exact hn ⟨.dir, hd⟩
    have hpt : p ≠ t := by
      rintro rfl
      exact hn ⟨_, hat⟩
    exact (Phys.byte_setPage_ne hpd).trans (Phys.byte_setPage_ne hpt)

/-- A store that hits one page table is a frame for the others. -/
theorem frame_setPte (ht : m.place e x = some t) {w p : ℕ} (hn : ¬Holds (m.place e) p) :
    (m.setPte t j w).byte p = m.byte p := by
  refine Phys.byte_setPage_ne ?_
  rintro rfl
  exact hn ⟨x, ht⟩

theorem place_user_at (ht : m.place e (.table i) = some t) (hj : j < NPTENTRIES)
    (hv : i * NPTENTRIES + j < KERNPAGE) :
    m.place e (.user (i * NPTENTRIES + j)) = m.entry t j := by
  have hdiv : (i * NPTENTRIES + j) / NPTENTRIES = i := by
    unfold NPTENTRIES at *
    omega
  have hmod : (i * NPTENTRIES + j) % NPTENTRIES = j := by
    unfold NPTENTRIES at *
    omega
  rw [Phys.place_user, if_pos hv, hdiv, hmod, ht, Option.bind_some]

/-- The user page after its entry was written. -/
theorem place_user_setPte (h : Owned L m e) (ht : m.place e (.table i) = some t)
    (hj : j < NPTENTRIES) (hv : i * NPTENTRIES + j < KERNPAGE) {w : ℕ} :
    (m.setPte t j w).place e (.user (i * NPTENTRIES + j)) = (m.setPte t j w).entry t j := by
  refine place_user_at ?_ hj hv
  rw [Phys.place_setPte (x := .table i) h.apart ht nofun, ht]

/-- An entry of a page table is written, and the page in hand changes accordingly. -/
theorem exchange (h : Owned L m e) (ht : m.place e (.table i) = some t) (hj : j < NPTENTRIES)
    (hv : i * NPTENTRIES + j < KERNPAGE) {w : ℕ} {mem : Option ℕ}
    (hswap : (m.entry t j = none ∧ mem = none ∧ (m.setPte t j w).entry t j = e.mem) ∨
      (e.mem = none ∧ mem = m.entry t j ∧ (m.setPte t j w).entry t j = none)) :
    Works L m (m.setPte t j w) e { e with mem := mem } := by
  have hat := place_user_at ht hj hv
  have hat' := h.place_user_setPte ht hj hv (w := w)
  have henv : ∀ y, y ≠ .mem →
      (m.setPte t j w).place { e with mem := mem } y = (m.setPte t j w).place e y := by
    intro y hy
    cases y with
    | mem => exact absurd rfl hy
    | _ => rfl
  have hother : ∀ y, y ≠ .mem → y ≠ .user (i * NPTENTRIES + j) →
      (m.setPte t j w).place { e with mem := mem } y = m.place e y := by
    intro y hy hyu
    rw [henv y hy, Phys.place_setPte h.apart ht hyu]
  rcases hswap with ⟨hnone, hmem, hnew⟩ | ⟨hmem, hold, hnew⟩
  · refine Works.move (a := .mem) (b := .user (i * NPTENTRIES + j)) (hat.trans hnone) ?_ hmem hother
      (fun p _ hn => frame_setPte ht hn) rfl
    rw [henv (.user _) nofun, hat', hnew]
    rfl
  · refine Works.move (a := .user (i * NPTENTRIES + j)) (b := .mem) hmem (hold.trans hat.symm) ?_
      (fun y hyu hy => hother y hy hyu) (fun p _ hn => frame_setPte ht hn) rfl
    rw [henv (.user _) nofun, hat', hnew]

theorem entry_setPte {w : ℕ} (hw : w < 4294967296) :
    (m.setPte t j w).entry t j = if isPresent w then some (pteAddr w) else none := by
  unfold Phys.entry
  rw [Phys.pte_setPte_self hw]

theorem entry_mkPte {perm : ℕ} (hperm : perm < 4096) (hg : g < NPAGE) :
    (m.setPte t j (mkPte g (perm ||| PTE_P))).entry t j = some g := by
  have hlt := or_present_lt hperm
  rw [entry_setPte (mkPte_lt hg hlt), if_pos isPresent_mkPte, pteAddr_mkPte hlt]

/-- The page in hand is mapped. -/
theorem map (h : Owned L m e) (hmem : e.mem = some g) (ht : m.place e (.table i) = some t)
    (hj : j < NPTENTRIES) (hv : i * NPTENTRIES + j < KERNPAGE) (hnone : m.entry t j = none)
    {perm : ℕ} (hperm : perm < 4096) (hg : g < NPAGE) :
    Works L m (m.setPte t j (mkPte g (perm ||| PTE_P))) e { e with mem := none } := by
  refine h.exchange ht hj hv (Or.inl ⟨hnone, rfl, ?_⟩)
  rw [entry_mkPte hperm hg, hmem]

/-- The source gives a page back before it clears the entry. -/
theorem freed_setPte (hne : g ≠ t) {w : ℕ} :
    (freed m g).setPte t j w = freed (m.setPte t j w) g := by
  unfold freed Phys.fill Phys.setPte Phys.store Phys.setPage Phys.setFree
  simp only [Function.update_comm hne, Function.update_of_ne hne.symm]

theorem ne_of_entry (h : Owned L m e) (ht : m.place e (.table i) = some t) (hj : j < NPTENTRIES)
    (hv : i * NPTENTRIES + j < KERNPAGE) (hg : m.entry t j = some g) : g ≠ t :=
  h.apart.ne ((place_user_at ht hj hv).trans hg) ht nofun

/-- A user page is taken out of its page table. -/
theorem unmap (h : Owned L m e) (hmem : e.mem = none) (ht : m.place e (.table i) = some t)
    (hj : j < NPTENTRIES) (hv : i * NPTENTRIES + j < KERNPAGE) (hg : m.entry t j = some g) :
    Works L m (m.setPte t j 0) e { e with mem := some g } := by
  refine h.exchange ht hj hv (Or.inr ⟨hmem, hg.symm, ?_⟩)
  rw [entry_setPte (by decide)]
  rfl

/-- An entry that is not for a user page may be anything. -/
theorem setKernelPte (h : Owned L m e) (ht : m.place e (.table i) = some t)
    (hi : KERNPAGE ≤ i * NPTENTRIES) {w : ℕ} : Works L m (m.setPte t j w) e e := by
  refine Works.same (funext fun y => ?_) (fun p _ hn => frame_setPte ht hn) (List.prefix_refl _) rfl
  by_cases hy : y = .user (i * NPTENTRIES + j)
  · subst hy
    have hv : ¬i * NPTENTRIES + j < KERNPAGE := by omega
    rw [Phys.place_user, Phys.place_user, if_neg hv, if_neg hv]
  · exact Phys.place_setPte h.apart ht hy

/-- Without its first page table. -/
theorem place_nextTable (hnone : ∀ v, m.place e (.user v) = none) (y : Place)
    (hy : y ≠ .table e.low) : m.place { e with low := e.low + 1 } y = m.place e y := by
  cases y with
  | table i =>
    have hi : i ≠ e.low := fun h => hy (h ▸ rfl)
    have hiff : (e.low + 1 ≤ i ∧ i < NPTENTRIES) ↔ (e.low ≤ i ∧ i < NPTENTRIES) := by omega
    simp only [Phys.place, hiff]
  | user v =>
    rw [hnone]
    have hv := hnone v
    simp only [Phys.place] at hv ⊢
    split
    · next hin => rwa [if_pos ⟨by omega, hin.2⟩] at hv
    · rfl
  | _ => rfl

theorem place_nextTable_self : m.place { e with low := e.low + 1 } (.table e.low) = none :=
  if_neg fun h => absurd h.1 (by dsimp only; omega)

/-- A page table is given back without being taken out of the page directory. -/
theorem giveTable (h : Owned L m e) (ht : m.place e (.table e.low) = some t)
    (hnone : ∀ v, m.place e (.user v) = none) :
    Works L m (freed m t) e { e with low := e.low + 1 } ∧
      ∀ v, (freed m t).place { e with low := e.low + 1 } (.user v) = none := by
  have hother := place_nextTable hnone
  refine ⟨h.give ht nofun place_nextTable_self hother, fun v => ?_⟩
  rw [h.place_freed ht place_nextTable_self hother (y := .user v) nofun, hother (.user v) nofun, hnone]

/-- The next page table is not there. -/
theorem skipTable (hn : m.place e (.table e.low) = none) (hnone : ∀ v, m.place e (.user v) = none) :
    m.place { e with low := e.low + 1 } = m.place e := by
  funext y
  by_cases hy : y = .table e.low
  · rw [hy, hn, place_nextTable_self]
  · exact place_nextTable hnone y hy

/-- The page directory is given back when all its page tables are. -/
theorem giveDir (h : Owned L m e) (hd : e.dir = some d) (hlow : NPTENTRIES ≤ e.low) :
    Works L m (freed m d) e { e with dir := none, low := 0 } := by
  refine h.give (x := .dir) hd nofun rfl fun y hy => ?_
  have htable : ∀ i, m.place e (.table i) = none := fun i => if_neg (by omega)
  cases y with
  | dir => exact absurd rfl hy
  | table i =>
    rw [htable]
    exact ite_self _
  | user v =>
    rw [Phys.place_user (e := e), htable, Option.bind_none, ite_self]
    exact ite_self _
  | _ => rfl

/-- The page at a place is forgotten because there was no page table. -/
theorem lose (h : Owned L m e) (hx : m.place e x = some g) (hx' : m.place e' x = none)
    (hother : ∀ y, y ≠ x → m.place e' y = none ∨ m.place e' y = m.place e y) (v : ℕ) :
    Works L m (m.note (.starved v)) e e' where
  shift := by
    refine Shift.of_le fun y => ?_
    by_cases hy : y = x
    · exact Or.inl (hy ▸ hx')
    · exact hother y hy
  frame _ _ _ := rfl
  notes := List.prefix_append _ _
  keeps := by
    refine iff_of_false ?_ (not_keeps_of_drop hx fun y hy => ?_)
    · unfold Phys.lost Phys.note
      rw [List.countP_append]
      exact Nat.succ_ne_self _
    · change m.place e' y = some g at hy
      have hyx : y ≠ x := by
        rintro rfl
        rw [hx'] at hy
        cases hy
      rcases hother y hyx with hn | he
      · rw [hn] at hy
        cases hy
      · exact hyx (h.apart (he.symm.trans hy) hx)

/-- The page in hand is forgotten. -/
theorem loseMem (h : Owned L m e) (hmem : e.mem = some g) (v : ℕ) :
    Works L m (m.note (.starved v)) e { e with mem := none } := by
  refine h.lose (x := .mem) hmem rfl (fun y hy => Or.inr ?_) v
  cases y with
  | mem => exact absurd rfl hy
  | _ => rfl

/-- An address space is forgotten. -/
theorem loseDir (h : Owned L m e) (hd : e.dir = some d) (v : ℕ) :
    Works L m (m.note (.starved v)) e { e with dir := none } := by
  refine h.lose (x := .dir) hd rfl (fun y hy => ?_) v
  cases y with
  | dir => exact absurd rfl hy
  | table i => exact Or.inl (ite_self _)
  | user v => exact Or.inl (ite_self _)
  | _ => exact Or.inr rfl

end Owned

end StrideXv6
