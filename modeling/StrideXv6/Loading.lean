import StrideXv6.Courses
import StrideXv6.Rations

/-!
# What `exec` does to memory

The lemmas follow the functions of `exec.c`. `Building` is what holds of an address
space while `exec` fills it: the pages below its size are mapped to the pages that
were allocated for them, except those that were lost for want of a page table, and
nothing is mapped above. `Course` is what holds of its history.

Two things can go wrong with memory. `loaduvm` comes to a page outside of the image
(`Wild`), or `copyout` comes to a page without a page table (`Nulled`); nothing is
known of the pages of the machine then.
-/

namespace StrideXv6

open Bytes Effect Placement Memory

section

variable {L : Layout} {m m' : Phys} {e : Env} {d v g cur : ℕ} {img : Image}
  {E : VmPanic → Phys → Prop}

/-! ## Reading and storing -/

/-- `readi` does not answer `-1` for what is typed. -/
def Memory.Image.Answers (img : Image) (input : List (List Byte × Bool)) : Prop :=
  img.type ≠ .dev ∨ (img.major = CONSOLE ∧ ∃ line rest, input = (line, false) :: rest)

/-- What `readi` returns is what the file has; only a device may answer otherwise, and takes
the answer from the input. -/
theorem gives_readi {Q : Reading → Phys → Prop} {off n : ℕ}
    (h : ∀ r input, (img.type ≠ .dev → r = img.fileRead off n) →
      (img.type = .dev → (r.ret = none ↔ ¬img.Answers m.input)) → Q r (m.setInput input)) :
    Gives (img.readi off n) m Q E := by
  unfold Image.readi
  split
  · next hdev =>
    -- what is typed, if the device is the console
    have hanswers : img.Answers m.input ↔
        img.major = CONSOLE ∧ ∃ line rest, m.input = (line, false) :: rest :=
      or_iff_right (not_not.mpr hdev)
    split
    · next hmajor =>
      rw [gives_bind, gives_get]
      split
      · next hinput =>
        rw [gives_pure]
        refine h _ m.input (fun hne => absurd hdev hne) fun _ => iff_of_true rfl ?_
        rw [hanswers, hinput]
        rintro ⟨-, line, rest, hnil⟩
        cases hnil
      · next line killed input hinput =>
        rw [gives_bind, gives_modify, gives_pure]
        refine h _ _ (fun hne => absurd hdev hne) fun _ => ?_
        rw [hanswers, hinput]
        cases killed with
        | true =>
          refine iff_of_true rfl ?_
          rintro ⟨-, line', rest, heq⟩
          cases heq
        | false => exact iff_of_false nofun (not_not.mpr ⟨hmajor, line, input, rfl⟩)
    · next hmajor =>
      rw [gives_pure]
      refine h _ m.input (fun hne => absurd hdev hne) fun _ => iff_of_true rfl ?_
      rw [hanswers]
      exact fun h => hmajor h.1
  · next hdev =>
    rw [gives_pure]
    exact h _ m.input (fun _ => rfl) fun h => absurd h hdev

/-- A store to a page that may be allocated, or in low memory, hits that page. -/
theorem gives_storeAt {Q : Unit → Phys → Prop} {o n : ℕ} {f : ℕ → Byte}
    (hg : (L.first ≤ g ∧ g < PHYSTOP) ∨ g < EXTMEM) :
    Gives (storeAt L cur (p2v g) o n f) m Q E ↔ Q () (m.store g o n f) := by
  have hle := L.le
  have hv : p2v g = KERNPAGE + g := by
    unfold p2v KERNPAGE NPAGE PHYSTOP EXTMEM at *
    omega
  unfold storeAt
  rw [hv, if_neg (by omega), if_pos, gives_modify, Nat.add_sub_cancel_left]
  · unfold EXTMEM PHYSTOP at *
    omega

theorem Works.setInput {input : List (List Byte × Bool)} : Works L m (m.setInput input) e e :=
  Works.same rfl (fun _ _ _ => rfl) (List.prefix_refl _) rfl

/-- Entries of user pages that are not present are zero. -/
def Phys.Zeroed (m : Phys) (d : ℕ) : Prop :=
  ∀ v, v < KERNPAGE → ∀ x, m.walk d v = some x → isPresent x = true ∨ x = 0

/-- One turn of the loop of `loaduvm`, at a user page. -/
theorem Owned.loadPage (h : Owned L m e) (hd : e.dir = some d) (hlow : e.low = 0)
    (hzero : m.Zeroed d) (hv : v < KERNPAGE) {off n : ℕ} :
    Gives (loadPage L cur d img v off n) m
      (fun _ m' => Works L m m' e e ∧ (∀ v', v' < NPAGE → m'.walk d v' = m.walk d v') ∧
        m'.free = m.free ∧
        ∃ x, m.walk d v = some x ∧ m'.notes = m.notes ++ [.reach v, .load v (pteAddr x)])
      fun p m' => p = .addressShouldExist ∧ m.walk d v = none ∧
        m'.notes = m.notes ++ [.reach v] := by
  unfold Memory.loadPage
  rw [gives_bind, gives_modify, gives_bind, gives_walkpgdir]
  have hsame : (m.note (.reach v)).entry d (v / NPTENTRIES) = m.entry d (v / NPTENTRIES) := rfl
  rw [hsame]
  cases hentry : m.entry d (v / NPTENTRIES) with
  | none =>
    change Gives (throw VmPanic.addressShouldExist) _ _ _
    rw [gives_throw]
    exact ⟨rfl, walk_eq_none.mpr hentry, rfl⟩
  | some t =>
    simp only [Option.map_some]
    rw [gives_bind, gives_get]
    have hwalk := Phys.walk_of_entry hentry
    have hpte : (m.note (.reach v)).pte t (v % NPTENTRIES) = m.pte t (v % NPTENTRIES) := rfl
    rw [hpte]
    set x := m.pte t (v % NPTENTRIES) with hx
    rw [gives_bind, gives_modify, gives_bind]
    refine gives_readi fun r input _ _ => ?_
    have hbefore : Works L m (((m.note (.reach v)).note (.load v (pteAddr x))).setInput input) e e :=
      (Works.note (n := .reach v) nofun).trans
        ((Works.note (n := .load v _) nofun).trans Works.setInput)
    have hnotes : (((m.note (.reach v)).note (.load v (pteAddr x))).setInput input).notes =
        m.notes ++ [.reach v, .load v (pteAddr x)] := List.append_assoc _ _ _
    rw [gives_bind]
    split
    · rw [gives_pure, gives_pure]
      exact ⟨hbefore, fun _ _ => rfl, rfl, x, hwalk, hnotes⟩
    · -- the page that is hit is a user page, or page 0
      have hpage : ¬m.TablePage e (pteAddr x) ∧
          (Holds (m.place e) (pteAddr x) ∨ pteAddr x < L.first) ∧
          ((L.first ≤ pteAddr x ∧ pteAddr x < PHYSTOP) ∨ pteAddr x < EXTMEM) := by
        rcases hzero v hv x hwalk with hp | hz
        · have hat : m.place e (.user v) = some (pteAddr x) := by
            rw [Phys.place_user_of_dir hd hlow hv, Phys.mapped_of_entry hentry,
              Phys.entry_of_present hp]
          exact ⟨Phys.not_tablePage h.apart hat nofun nofun, Or.inl ⟨_, hat⟩,
            Or.inl (h.ranged _ ⟨_, hat⟩)⟩
        · have hfirst : 0 < L.first := by
            have := L.text
            have := L.le
            omega
          rw [hz]
          refine ⟨fun ht => ?_, Or.inr hfirst, Or.inr (by decide)⟩
          have := (h.ranged _ (Phys.tablePage_holds ht)).1
          have hzero : pteAddr 0 = 0 := rfl
          omega
      obtain ⟨hdata, hin, hrange⟩ := hpage
      rw [gives_storeAt hrange, gives_pure]
      refine ⟨hbefore.trans (Owned.setPage hdata hin), fun v' hv' => ?_, rfl, x, hwalk, hnotes⟩
      exact Owned.walk_setPage (m := ((m.note (.reach v)).note (.load v (pteAddr x))).setInput input)
        hd hlow hdata hv'

/-- The same at any page: nothing is known about the store then. -/
theorem gives_loadPage {off n : ℕ} : Gives (loadPage L cur d img v off n) m
    (fun _ m' => ∃ x, m.walk d v = some x ∧
      m'.notes = m.notes ++ [.reach v, .load v (pteAddr x)])
    fun p m' => (p = .addressShouldExist ∧ m.walk d v = none ∧ m'.notes = m.notes ++ [.reach v]) ∨
      ∃ x, m.walk d v = some x ∧ m'.notes = m.notes ++ [.reach v, .load v (pteAddr x)] := by
  unfold Memory.loadPage
  rw [gives_bind, gives_modify, gives_bind, gives_walkpgdir]
  have hsame : (m.note (.reach v)).entry d (v / NPTENTRIES) = m.entry d (v / NPTENTRIES) := rfl
  rw [hsame]
  cases hentry : m.entry d (v / NPTENTRIES) with
  | none =>
    change Gives (throw VmPanic.addressShouldExist) _ _ _
    rw [gives_throw]
    exact Or.inl ⟨rfl, walk_eq_none.mpr hentry, rfl⟩
  | some t =>
    simp only [Option.map_some]
    rw [gives_bind, gives_get, gives_bind, gives_modify, gives_bind]
    have hwalk := Phys.walk_of_entry hentry
    refine gives_readi fun r input _ _ => ?_
    -- the store adds nothing to the history
    have hrest : Always (Adds fun _ => False) Memory.Quiet
        ((if r.len = 0 then pure () else
          storeAt L cur (p2v (pteAddr (m.pte t (v % NPTENTRIES)))) 0 r.len r.byte) >>=
          fun _ => (pure (r.ret == some n) : Vm Bool)) :=
      (Always.ite (Always.pure _) adds_storeAt).bind fun _ => Always.pure _
    have hnotes : ∀ m', Adds (fun _ => False) (((m.note (.reach v)).note
        (.load v (pteAddr (m.pte t (v % NPTENTRIES))))).setInput input) m' →
        m'.notes = m.notes ++ [.reach v, .load v (pteAddr (m.pte t (v % NPTENTRIES)))] := by
      rintro m' ⟨l, hl, hnone⟩
      obtain rfl : l = [] := List.eq_nil_iff_forall_not_mem.mpr hnone
      rw [hl, List.append_nil]
      exact List.append_assoc _ _ _
    exact (hrest.gives _).mono (fun _ m' h => ⟨_, hwalk, hnotes m' h⟩)
      fun _ m' h => Or.inr ⟨_, hwalk, hnotes m' h.1⟩

/-! ## An address space that is filled -/

/-- The page `v` is mapped to the page that was allocated for it, or that one is lost. -/
def Backed (m : Phys) (d : ℕ) (l : List Note) (v : ℕ) : Prop :=
  (∃ g, .grown v g ∈ l ∧ .starved v ∉ l ∧ m.mapped d v = some g) ∨
    (.starved v ∈ l ∧ m.mapped d v = none)

/-- Notes about other pages do not matter. -/
theorem Backed.append {l l' : List Note} (h : Backed m d l v) (hm : m'.mapped d v = m.mapped d v)
    (hs : .starved v ∉ l') : Backed m' d (l ++ l') v ∧ Backed m' d (l' ++ l) v := by
  unfold Backed at *
  simp only [List.mem_append, hs, or_false, false_or, hm]
  constructor <;>
  · refine h.imp_left ?_
    rintro ⟨g, hg, hrest⟩
    exact ⟨g, by simp only [hg, true_or, or_true], hrest⟩

/-- `exec` has come from `m₀` to `m`, with `l` recorded, and the image has size `sz`. -/
structure Building (L : Layout) (m₀ m : Phys) (e₀ e : Env) (d sz : ℕ) (l : List Note) : Prop where
  works : Works L m₀ m e₀ e
  notes : m.notes = m₀.notes ++ l
  noUser : m.NoUser d
  zeroed : m.Zeroed d
  sz_lt : sz < KERNBASE
  above : ∀ v, pgroundup sz ≤ v → v < KERNPAGE → m.mapped d v = none
  below : ∀ v, v < pgroundup sz → Backed m d l v
  starved : ∀ v, .starved v ∈ l → v < pgroundup sz

namespace Building

variable {m₀ : Phys} {e₀ : Env} {sz : ℕ} {l : List Note}

/-- Where no page was lost, everything is mapped. -/
theorem mapped (h : Building L m₀ m e₀ e d sz l) (hlost : m.lost = m₀.lost)
    (hv : v < pgroundup sz) : m.mapped d v ≠ none := by
  rcases h.below v hv with ⟨g, -, -, hg⟩ | ⟨hs, -⟩
  · rw [hg]
    nofun
  · unfold Phys.lost at hlost
    rw [h.notes, List.countP_append, Nat.add_eq_left, List.countP_eq_zero] at hlost
    exact absurd rfl (hlost _ hs)

/-- Nothing is changed in the address space. -/
theorem same (h : Building L m₀ m e₀ e d sz l) (hwork : Works L m m' e e)
    (hwalk : ∀ v, v < NPAGE → m'.walk d v = m.walk d v) {l' : List Note}
    (hnotes : m'.notes = m.notes ++ l') (hl' : ∀ v, .starved v ∉ l') :
    Building L m₀ m' e₀ e d sz (l ++ l') := by
  have hnpage : KERNPAGE < NPAGE := by decide
  have hpages := pgroundup_le h.sz_lt.le
  have hmapped : ∀ v, v < KERNPAGE → m'.mapped d v = m.mapped d v := by
    intro v hv
    rw [Phys.mapped_eq, hwalk v (by omega), Phys.mapped_eq]
  refine ⟨h.works.trans hwork, by rw [hnotes, h.notes, List.append_assoc], ?_, ?_, h.sz_lt, ?_, ?_,
    ?_⟩
  · intro v hlo hhi x hx
    rw [hwalk v hhi] at hx
    exact h.noUser v hlo hhi x hx
  · intro v hv x hx
    rw [hwalk v (by omega)] at hx
    exact h.zeroed v hv x hx
  · intro v hlo hhi
    rw [hmapped v hhi]
    exact h.above v hlo hhi
  · intro v hv
    exact ((h.below v hv).append (hmapped v (by omega)) (hl' v)).1
  · intro v hv
    exact h.starved v ((List.mem_append.mp hv).resolve_right (hl' v))

/-- Something else was recorded. -/
theorem note (h : Building L m₀ m e₀ e d sz l) {n : Note} (hn : ∀ v, n ≠ .starved v) :
    Building L m₀ (m.note n) e₀ e d sz (l ++ [n]) :=
  h.same (Works.note hn) (fun _ _ => rfl) rfl fun v hv => hn v (List.mem_singleton.mp hv).symm

/-- A line was read from the console. -/
theorem setInput (h : Building L m₀ m e₀ e d sz l) {input : List (List Byte × Bool)} :
    Building L m₀ (m.setInput input) e₀ e d sz l := by
  have hwork : Works L m (m.setInput input) e e := Works.setInput
  have hnotes : (m.setInput input).notes = m.notes ++ [] := (List.append_nil _).symm
  have hsame := h.same hwork (fun _ _ => rfl) hnotes nofun
  rwa [List.append_nil] at hsame

/-- Only the number of pages matters. -/
theorem resize (h : Building L m₀ m e₀ e d sz l) {sz' : ℕ} (hsz : pgroundup sz' = pgroundup sz)
    (hlt : sz' < KERNBASE) : Building L m₀ m e₀ e d sz' l where
  works := h.works
  notes := h.notes
  noUser := h.noUser
  zeroed := h.zeroed
  sz_lt := hlt
  above := hsz ▸ h.above
  below := hsz ▸ h.below
  starved := hsz ▸ h.starved

theorem pageOf_mkPte : pageOf (some (mkPte g (PTE_W + PTE_U ||| PTE_P))) = some g :=
  StrideXv6.pageOf_mkPte (by decide)

theorem pageOf_absent {x : Option ℕ} (h : x = none ∨ x = some 0) : pageOf x = none := by
  rcases h with rfl | rfl <;> rfl

/-- A page that `allocuvm` has given is a page that `exec` may write to. -/
theorem backed_of_grownAt (h : GrownAt m d l v) : Backed m d l v := by
  unfold Backed
  rw [Phys.mapped_eq]
  rcases h with ⟨g, hg, hs, hwalk⟩ | ⟨hs, hnone⟩
  · exact Or.inl ⟨g, hg, hs, by rw [hwalk, pageOf_mkPte]⟩
  · exact Or.inr ⟨hs, pageOf_absent hnone⟩

/-- More memory was allocated. -/
theorem alloc (h : Building L m₀ m e₀ e d sz l) (hwork : Works L m m' e e) {newsz r : ℕ}
    {l' : List Note} (hnotes : m'.notes = m.notes ++ l')
    (hat : ∀ n ∈ l', n.Within L.first (pgroundup sz) (pgroundup newsz))
    (ha : Allocated m m' d sz newsz l' r) (hr : r ≠ 0) :
    Building L m₀ m' e₀ e d r (l ++ l') := by
  have hnpage : KERNPAGE < NPAGE := by decide
  cases ha with
  | failed => exact absurd rfl hr
  | nothing hlt heq =>
    subst heq
    have hl' : l' = [] := List.self_eq_append_right.mp hnotes
    rw [hl', List.append_nil]
    exact h
  | grown hle hnew hgrown =>
    have hpages := pgroundup_le hnew.le
    have htouch := hgrown.touches
    have hle' : pgroundup sz ≤ pgroundup newsz := by
      unfold pgroundup
      omega
    refine ⟨h.works.trans hwork, by rw [hnotes, h.notes, List.append_assoc], ?_, ?_, hnew, ?_, ?_, ?_⟩
    · intro v hlo hhi x hx
      rw [htouch.kernel v hlo hhi] at hx
      exact h.noUser v hlo hhi x hx
    · intro v hv x hx
      by_cases hin : pgroundup sz ≤ v ∧ v < pgroundup newsz
      · rcases hgrown.pages v hin.1 hin.2 with ⟨g, -, -, hw⟩ | ⟨-, hw | hw⟩
        · rw [hw] at hx
          obtain rfl := Option.some.inj hx
          exact Or.inl isPresent_mkPte
        · rw [hw] at hx
          cases hx
        · rw [hw] at hx
          exact Or.inr (Option.some.inj hx).symm
      · rcases htouch.users v hv hin with hw | ⟨-, hw⟩
        · rw [hw] at hx
          exact h.zeroed v hv x hx
        · rw [hw] at hx
          exact Or.inr (Option.some.inj hx).symm
    · intro v hlo hhi
      rw [htouch.mapped hhi fun hin => by have := hin.2; omega]
      exact h.above v (by omega) hhi
    · intro v hv
      by_cases hlt : v < pgroundup sz
      · have hs' : Note.starved v ∉ l' := fun hs => by
          have := (hat _ hs).1
          omega
        refine ((h.below v hlt).append (htouch.mapped (by omega) fun hin => ?_) hs').1
        have := hin.1
        omega
      · have hs : Note.starved v ∉ l := fun hs => hlt (h.starved v hs)
        exact ((backed_of_grownAt (hgrown.pages v (by omega) hv)).append rfl hs).2
    · intro v hv
      rcases List.mem_append.mp hv with hs | hs
      · have := h.starved v hs
        omega
      · exact (hat _ hs).2

/-- There is nothing mapped where `allocuvm` works. -/
theorem no_remap (h : Building L m₀ m e₀ e d sz l) {newsz : ℕ} (hnew : newsz < KERNBASE) :
    ¬∃ v, pgroundup sz ≤ v ∧ v < pgroundup newsz ∧ m.mapped d v ≠ none := by
  rintro ⟨v, hlo, hhi, hv⟩
  have := pgroundup_le hnew.le
  exact hv (h.above v hlo (by omega))

end Building

/-! ## Copying out -/

theorem Works.extends {e' : Env} (h : Works L m m' e e') : Extends m m' := by
  obtain ⟨l, hl⟩ := h.notes
  exact ⟨l, hl.symm, fun _ _ => trivial⟩

/-- `uva2ka` took a page table entry from address 0. -/
def Nulled (m m' : Phys) : Prop := ∃ l, m'.notes = m.notes ++ l ∧ ∃ v, Note.null v ∈ l

theorem Nulled.extends {m'' : Phys} (h : Nulled m m') (h' : Extends m' m'') : Nulled m m'' := by
  obtain ⟨l, hl, v, hv⟩ := h
  obtain ⟨l', hl', -⟩ := h'
  exact ⟨l ++ l', by rw [hl', hl, List.append_assoc], v, List.mem_append_left _ hv⟩

theorem Nulled.of_extends {m'' : Phys} (h : Extends m m') (h' : Nulled m' m'') : Nulled m m'' := by
  obtain ⟨l, hl, -⟩ := h
  obtain ⟨l', hl', v, hv⟩ := h'
  exact ⟨l ++ l', by rw [hl', hl, List.append_assoc], v, List.mem_append_right _ hv⟩

theorem nulled_note : Nulled m (m.note (.null v)) :=
  ⟨[.null v], rfl, v, List.mem_singleton_self _⟩

/-- Once it happened it stays so, whatever is done. -/
theorem Nulled.gives {α : Type} {c : Vm α} {F : VmPanic → Prop} (h : Nulled m m')
    (hc : Always Extends F c) : Gives c m' (fun _ m'' => Nulled m m'') fun _ m'' => Nulled m m'' :=
  (hc.gives m').mono (fun _ _ h' => h.extends h') fun _ _ h' => h.extends h'.1

/-- `uva2ka`, where there is a page table. -/
theorem gives_uva2ka_some {x : ℕ} {Q : Option ℕ → Phys → Prop} (h : m.walk d v = some x) :
    Gives (uva2ka cur d v) m Q E ↔
      Q (if isPresent x ∧ isUser x then some (pteAddr x) else none) m := by
  obtain ⟨t, hentry, hx⟩ := Option.map_eq_some_iff.mp h
  unfold uva2ka
  rw [gives_bind, gives_walkpgdir, gives_bind, hentry]
  simp only [Option.map_some, loadPte]
  rw [gives_bind, gives_get, gives_pure, hx]
  split <;> exact gives_pure

/-- `uva2ka`, where there is none. -/
theorem gives_uva2ka_none {Q : Option ℕ → Phys → Prop} (h : m.walk d v = none)
    (hcur : m.mapped cur 0 = some g) :
    Gives (uva2ka cur d v) m Q E ↔
      Q (if isPresent (word (m.byte g) 0) ∧ isUser (word (m.byte g) 0) then
        some (pteAddr (word (m.byte g) 0)) else none) (m.note (.null v)) := by
  have hentry := Option.map_eq_none_iff.mp h
  unfold uva2ka
  rw [gives_bind, gives_walkpgdir, gives_bind, hentry]
  simp only [Option.map_none, loadPte]
  rw [gives_bind, gives_modify, gives_bind, gives_get]
  have hcur' : (m.note (.null v)).mapped cur 0 = some g := hcur
  have hbyte : (m.note (.null v)).byte = m.byte := rfl
  simp only [hcur', hbyte]
  rw [gives_pure]
  split <;> exact gives_pure

/-- Whatever is at address 0, that there is none is recorded. -/
theorem gives_uva2ka_null (h : m.walk d v = none) :
    Gives (uva2ka cur d v) m (fun _ m' => m' = m.note (.null v)) fun _ m' =>
      m' = m.note (.null v) := by
  cases hcur : m.mapped cur 0 with
  | some g => exact (gives_uva2ka_none h hcur).mpr rfl
  | none =>
    unfold uva2ka
    rw [gives_bind, gives_walkpgdir, gives_bind, Option.map_eq_none_iff.mp h]
    simp only [Option.map_none, loadPte]
    rw [gives_bind, gives_modify, gives_bind, gives_get]
    have hcur' : (m.note (.null v)).mapped cur 0 = none := hcur
    simp only [hcur']
    exact gives_throw.mpr rfl

/-- The page that `uva2ka` finds is a user page. -/
theorem gives_uva2ka (hno : m.NoUser d) (hv : v < NPAGE) :
    Gives (uva2ka cur d v) m
      (fun r m' => (m' = m.note (.null v) ∧ m.walk d v = none) ∨
        (m' = m ∧ ∀ g, r = some g → v < KERNPAGE ∧ m.mapped d v = some g))
      fun _ m' => m' = m.note (.null v) ∧ m.walk d v = none := by
  cases hwalk : m.walk d v with
  | none =>
    exact (gives_uva2ka_null hwalk).mono (fun _ _ h => Or.inl ⟨h, rfl⟩) fun _ _ h => ⟨h, rfl⟩
  | some x =>
    rw [gives_uva2ka_some hwalk]
    refine Or.inr ⟨rfl, fun g hg => ?_⟩
    split at hg
    · next hbits =>
      refine ⟨?_, ?_⟩
      · by_contra hge
        have huser := hno v (by omega) hv _ hwalk
        rw [hbits.2] at huser
        cases huser
      · rw [Phys.mapped_eq, hwalk, ← Option.some.inj hg]
        exact if_pos hbits.1
    · cases hg

/-- What storing in user pages does. -/
structure Stored (L : Layout) (m m' : Phys) (e : Env) (d : ℕ) : Prop where
  works : Works L m m' e e
  walk : ∀ v, v < NPAGE → m'.walk d v = m.walk d v
  notes : m'.notes = m.notes

theorem Stored.refl : Stored L m m e d := ⟨Works.refl, fun _ _ => rfl, rfl⟩

theorem Stored.trans {m'' : Phys} (h : Stored L m m' e d) (h' : Stored L m' m'' e d) :
    Stored L m m'' e d :=
  ⟨h.works.trans h'.works, fun v hv => (h'.walk v hv).trans (h.walk v hv), h'.notes.trans h.notes⟩

/-- Stores into pages map nothing. -/
theorem Stored.noUser (h : Stored L m m' e d) (hno : m.NoUser d) : m'.NoUser d := by
  intro v hlo hhi x hx
  rw [h.walk v hhi] at hx
  exact hno v hlo hhi x hx

/-- A store in a mapped user page. -/
theorem Owned.stored (h : Owned L m e) (hd : e.dir = some d) (hlow : e.low = 0) (hv : v < KERNPAGE)
    (hg : m.mapped d v = some g) {b : ℕ → Byte} : Stored L m (m.setPage g b) e d := by
  have hat := (Phys.place_user_of_dir hd hlow hv).trans hg
  have hdata := Phys.not_tablePage h.apart hat nofun nofun
  exact ⟨Owned.setPage hdata (Or.inl ⟨_, hat⟩), fun v' hv' => Owned.walk_setPage hd hlow hdata hv',
    rfl⟩

/-- The first `top` pages are mapped. -/
def Phys.Covers (m : Phys) (d top : ℕ) : Prop := ∀ v, v < top → m.mapped d v ≠ none

theorem Stored.covers (h : Stored L m m' e d) {top : ℕ} (htop : top ≤ KERNPAGE)
    (hc : m.Covers d top) : m'.Covers d top := by
  intro v hv
  rw [Phys.mapped_eq, h.walk v (by unfold KERNPAGE NPAGE at *; omega), ← Phys.mapped_eq]
  exact hc v hv

/-- The loop of `copyout`, by induction on its fuel. It uses address 0 only where there is no
page table for what is copied. -/
theorem Owned.copyoutLoop (hd : e.dir = some d) (hlow : e.low = 0) {top : ℕ} (htop : top ≤ KERNPAGE)
    (fuel : ℕ) : ∀ {m : Phys} {va : ℕ} {buf : ℕ → Byte} {len : ℕ}, Owned L m e → m.NoUser d →
      va < 4294967296 →
      Gives (copyoutLoop L cur d va buf len fuel) m
        (fun _ m' => (Nulled m m' ∧ ¬(m.Covers d top ∧ va + len ≤ top * 4096)) ∨ Stored L m m' e d)
        fun _ m' => Nulled m m' ∧ ¬(m.Covers d top ∧ va + len ≤ top * 4096) := by
  induction fuel with
  | zero =>
    intro m va buf len h hno hva
    rw [Memory.copyoutLoop, gives_pure]
    exact Or.inr Stored.refl
  | succ fuel ih =>
    intro m va buf len h hno hva
    rw [Memory.copyoutLoop]
    split
    · next hpos =>
      have houtside : m.walk d (va / 4096) = none →
          ¬(m.Covers d top ∧ va + len ≤ top * 4096) := by
        rintro hnone ⟨hcov, hend⟩
        refine hcov (va / 4096) (by omega) ?_
        rw [Phys.mapped_eq, hnone]
        rfl
      refine (gives_uva2ka (v := va / 4096) hno (by unfold NPAGE; omega)).bind ?_ ?_
      · rintro r m1 (⟨rfl, hnone⟩ | ⟨rfl, hr⟩)
        · refine (nulled_note.gives (F := Memory.Quiet) ?_).mono
            (fun _ _ h => Or.inl ⟨h, houtside hnone⟩) fun _ _ h => ⟨h, houtside hnone⟩
          cases r with
          | none => exact Always.pure _
          | some g => exact adds_storeAt.bind fun _ => adds_copyoutLoop fun _ => trivial
        · cases r with
          | none => exact gives_pure.mpr (Or.inr Stored.refl)
          | some g =>
            obtain ⟨hlt, hg⟩ := hr g rfl
            have hrange := h.ranged g ⟨_, (Phys.place_user_of_dir hd hlow hlt).trans hg⟩
            dsimp only
            rw [gives_bind, gives_storeAt (Or.inl hrange)]
            have hstore : Stored L m1 (m1.store g (va % 4096) (min (4096 - va % 4096) len) buf) e d :=
              h.stored hd hlow hlt hg
            -- what is left to copy ends at the same place
            have hrest : m1.Covers d top ∧ va + len ≤ top * 4096 →
                (m1.store g (va % 4096) (min (4096 - va % 4096) len) buf).Covers d top ∧
                (va / 4096 * 4096 + 4096) % 4294967296 + (len - min (4096 - va % 4096) len) ≤
                  top * 4096 := by
              rintro ⟨hcov, hend⟩
              refine ⟨hstore.covers htop hcov, ?_⟩
              unfold KERNPAGE at htop
              omega
            refine (ih (h.works hstore.works) (hstore.noUser hno) (Nat.mod_lt _ (by decide))).mono
              ?_ ?_
            · rintro _ m' (⟨hnull, hout⟩ | hdone)
              · exact Or.inl ⟨hnull.of_extends hstore.works.extends, fun hin => hout (hrest hin)⟩
              · exact Or.inr (hstore.trans hdone)
            · rintro _ m' ⟨hnull, hout⟩
              exact ⟨hnull.of_extends hstore.works.extends, fun hin => hout (hrest hin)⟩
      · rintro _ _ ⟨rfl, hnone⟩
        exact ⟨nulled_note, houtside hnone⟩
    · exact gives_pure.mpr (Or.inr Stored.refl)

theorem uint_div_lt (z : ℤ) : uint z / 4 * 4 < 4294967296 := by
  have := uint_lt z
  omega

/-- The bytes that the argument strings take on the stack. -/
def Memory.argBytes (argv : List Arg) : ℕ := (argv.map fun arg => (arg.len + 4) / 4 * 4).sum

/-- The bytes that the stack of a new program has: the strings, and `ustack`. -/
def Memory.stackBytes (argv : List Arg) : ℕ := argBytes argv + (3 + argv.length + 1) * 4

theorem argBytes_cons {arg : Arg} {argv : List Arg} :
    argBytes (arg :: argv) = (arg.len + 4) / 4 * 4 + argBytes argv := List.sum_cons

theorem uint_natCast {n : ℕ} (h : n < 4294967296) : uint n = n := by
  unfold uint
  omega

/-- The stack pointer for the next string, where there is room for it. -/
theorem uint_pushed {sp len : ℕ} (hsp : sp % 4 = 0) (hlt : sp < 4294967296)
    (hlen : (len + 4) / 4 * 4 ≤ sp) :
    uint (sp - (len + 1)) / 4 * 4 = sp - (len + 4) / 4 * 4 := by
  rw [show ((sp : ℤ) - (len + 1)) = ((sp - (len + 1) : ℕ) : ℤ) by omega, uint_natCast (by omega)]
  omega

/-- The arguments are pushed. -/
theorem Owned.pushArgs (hd : e.dir = some d) (hlow : e.low = 0) {top : ℕ} (htop : top ≤ KERNPAGE)
    (argv : List Arg) : ∀ {m : Phys} {sp : ℕ} {ustack : List ℕ}, Owned L m e → m.NoUser d →
      let Fits := m.Covers d top ∧ sp ≤ top * 4096 ∧ sp % 4 = 0 ∧ argBytes argv ≤ sp
      Gives (pushArgs L cur d argv sp ustack) m
        (fun r m' => (Nulled m m' ∧ ¬Fits) ∨ (Stored L m m' e d ∧ ∀ sp' args, r = some (sp', args) →
          Fits → sp' = sp - argBytes argv ∧ args.length = ustack.length + argv.length))
        fun _ m' => Nulled m m' ∧ ¬Fits := by
  induction argv with
  | nil =>
    intro m sp ustack h hno
    rw [Memory.pushArgs, gives_pure]
    refine Or.inr ⟨Stored.refl, fun sp' args hr _ => ?_⟩
    cases hr
    exact ⟨rfl, rfl⟩
  | cons arg argv ih =>
    intro m sp ustack h hno Fits
    rw [Memory.pushArgs]
    split
    · exact gives_pure.mpr (Or.inr ⟨Stored.refl, fun _ _ hr => by cases hr⟩)
    · have hsp : Fits → uint (sp - (arg.len + 1)) / 4 * 4 = sp - (arg.len + 4) / 4 * 4 ∧
          (arg.len + 4) / 4 * 4 + argBytes argv ≤ sp := by
        rintro ⟨-, hle, hmod, hargs⟩
        rw [argBytes_cons] at hargs
        unfold KERNPAGE at htop
        exact ⟨uint_pushed hmod (by omega) (by omega), hargs⟩
      have hhere : Fits → m.Covers d top ∧
          uint (sp - (arg.len + 1)) / 4 * 4 + (arg.len + 1) ≤ top * 4096 := by
        intro hfits
        obtain ⟨heq, hargs⟩ := hsp hfits
        obtain ⟨hcov, hle, -⟩ := hfits
        rw [heq]
        exact ⟨hcov, by omega⟩
      refine (Owned.copyoutLoop hd hlow htop _ h hno (uint_div_lt _)).bind ?_
        fun _ _ h => ⟨h.1, fun hfits => h.2 (hhere hfits)⟩
      rintro ok m1 (⟨hnull, hout⟩ | hstore)
      · refine (hnull.gives (F := Memory.Quiet) ?_).mono
          (fun _ _ h => Or.inl ⟨h, fun hfits => hout (hhere hfits)⟩)
          fun _ _ h => ⟨h, fun hfits => hout (hhere hfits)⟩
        exact Always.ite (adds_pushArgs fun _ => trivial) (Always.pure _)
      · have hnext : Fits → m1.Covers d top ∧
            uint (sp - (arg.len + 1)) / 4 * 4 ≤ top * 4096 ∧
            uint (sp - (arg.len + 1)) / 4 * 4 % 4 = 0 ∧
            argBytes argv ≤ uint (sp - (arg.len + 1)) / 4 * 4 := by
          intro hfits
          obtain ⟨heq, hargs⟩ := hsp hfits
          obtain ⟨hcov, hle, hmod, -⟩ := hfits
          rw [heq]
          exact ⟨hstore.covers htop hcov, by omega, by omega, by omega⟩
        split
        · refine (ih (h.works hstore.works) (hstore.noUser hno)).mono ?_ ?_
          · rintro r m' (⟨hnull, hout⟩ | ⟨hrest, hr⟩)
            · exact Or.inl ⟨hnull.of_extends hstore.works.extends, fun hfits => hout (hnext hfits)⟩
            · refine Or.inr ⟨hstore.trans hrest, fun sp' args heq hfits => ?_⟩
              obtain ⟨rfl, hlen⟩ := hr sp' args heq (hnext hfits)
              obtain ⟨heq, hargs⟩ := hsp hfits
              rw [heq, argBytes_cons, hlen, List.length_append, List.length_singleton,
                List.length_cons]
              omega
          · rintro _ m' ⟨hnull, hout⟩
            exact ⟨hnull.of_extends hstore.works.extends, fun hfits => hout (hnext hfits)⟩
        · exact gives_pure.mpr (Or.inr ⟨hstore, fun _ _ hr => by cases hr⟩)

/-- The stack is prepared; its first page has a page table. -/
theorem Owned.setupStack (h : Owned L m e) (hd : e.dir = some d) (hlow : e.low = 0)
    (hno : m.NoUser d) {argv : List Arg} {sz top : ℕ} (hsz : sz < KERNBASE) (htop : sz = top * 4096)
    (hguard : m.walk d (sz / 4096 - 2) ≠ none) :
    Gives (setupStack L cur d argv sz) m
      (fun _ m' => (Nulled m m' ∧ ¬(m.Covers d top ∧ stackBytes argv ≤ sz)) ∨
        (Works L m m' e e ∧ m'.notes = m.notes ∧ ∀ v, v < KERNPAGE → m'.mapped d v = m.mapped d v))
      fun _ m' => Nulled m m' ∧ ¬(m.Covers d top ∧ stackBytes argv ≤ sz) := by
  have hnpage : KERNPAGE < NPAGE := by decide
  have hlt : sz / 4096 - 2 < KERNPAGE := by
    unfold KERNBASE KERNPAGE at *
    omega
  have htop' : top ≤ KERNPAGE := by
    unfold KERNBASE KERNPAGE at *
    omega
  unfold Memory.setupStack
  refine (h.clearpteu hd hlow hlt).bind ?_ fun _ _ hp => absurd hp.2.2 hguard
  rintro _ m1 ⟨hwork, hnotes, hself, hother⟩
  have hmapped : ∀ v, v < KERNPAGE → m1.mapped d v = m.mapped d v := by
    intro v hv
    by_cases heq : v = sz / 4096 - 2
    · rw [heq, hself]
    · rw [Phys.mapped_eq, hother v (by omega) heq, Phys.mapped_eq]
  have hno1 : m1.NoUser d := by
    intro v hlo hhi x hx
    rw [hother v hhi (by omega)] at hx
    exact hno v hlo hhi x hx
  have h1 := h.works hwork
  have hdone : ∀ m', Stored L m1 m' e d → Works L m m' e e ∧ m'.notes = m.notes ∧
      ∀ v, v < KERNPAGE → m'.mapped d v = m.mapped d v := by
    intro m' hstore
    refine ⟨hwork.trans hstore.works, hstore.notes.trans hnotes, fun v hv => ?_⟩
    rw [Phys.mapped_eq, hstore.walk v (by omega), ← Phys.mapped_eq, hmapped v hv]
  have hfits : m.Covers d top ∧ stackBytes argv ≤ sz →
      m1.Covers d top ∧ sz ≤ top * 4096 ∧ sz % 4 = 0 ∧ argBytes argv ≤ sz := by
    rintro ⟨hcov, hargs⟩
    refine ⟨fun v hv => ?_, by omega, by omega, by unfold stackBytes at hargs; omega⟩
    rw [hmapped v (by omega)]
    exact hcov v hv
  refine (Owned.pushArgs hd hlow htop' argv h1 hno1).bind ?_ fun _ _ hnull =>
    ⟨hnull.1.of_extends hwork.extends, fun hin => hnull.2 (hfits hin)⟩
  rintro r m2 (⟨hnull, hout⟩ | ⟨hstore, hr⟩)
  · refine ((hnull.of_extends hwork.extends).gives (F := Memory.Quiet) ?_).mono
      (fun _ _ h => Or.inl ⟨h, fun hin => hout (hfits hin)⟩) fun _ _ h => ⟨h, fun hin => hout (hfits hin)⟩
    cases r with
    | none => exact Always.pure _
    | some r => exact adds_copyoutLoop fun _ => trivial
  · cases r with
    | none => exact gives_pure.mpr (Or.inr (hdone m2 hstore))
    | some r =>
      obtain ⟨sp, args⟩ := r
      have hlast : m.Covers d top ∧ stackBytes argv ≤ sz → m2.Covers d top ∧
          uint (sp - (3 + args.length + 1) * 4) + (3 + args.length + 1) * 4 ≤ top * 4096 := by
        intro hin
        obtain ⟨rfl, hlen⟩ := hr sp args rfl (hfits hin)
        have hargs := hin.2
        rw [List.length_nil, Nat.zero_add] at hlen
        unfold stackBytes at hargs
        refine ⟨hstore.covers htop' (hfits hin).1, ?_⟩
        rw [hlen, show (((sz - argBytes argv : ℕ) : ℤ) - (3 + argv.length + 1) * 4) =
          ((sz - argBytes argv - (3 + argv.length + 1) * 4 : ℕ) : ℤ) by omega,
          uint_natCast (by unfold KERNBASE at hsz; omega)]
        omega
      refine (Owned.copyoutLoop hd hlow htop' _ (h1.works hstore.works) (hstore.noUser hno1)
        (uint_lt _)).mono ?_ fun _ _ hnull =>
          ⟨(hnull.1.of_extends hstore.works.extends).of_extends hwork.extends,
            fun hin => hnull.2 (hlast hin)⟩
      rintro _ m' (⟨hnull, hout⟩ | hrest)
      · exact Or.inl ⟨(hnull.of_extends hstore.works.extends).of_extends hwork.extends,
          fun hin => hout (hlast hin)⟩
      · exact Or.inr (hdone m' (hstore.trans hrest))

/-! ## Loading segments -/

/-- The history tells whether everything went well, and it did if no page was lost. -/
def Memory.Sane (l : List Note) : Prop :=
  (LoadsOwn l ↔ Proper l) ∧ ((∀ v, .starved v ∉ l) → Proper l)

/-- What holds of the history while segments are loaded. -/
structure Course (L : Layout) (sz : ℕ) (l : List Note) : Prop where
  size : imageSize 0 l = sz
  reached : ∀ v, .reach v ∈ l → v < pgroundup sz
  grown : ∀ v g, .grown v g ∈ l → L.first ≤ g
  verdict : Sane l

/-- `loaduvm` read into a page for an address outside of the image. -/
def Wild (m m' : Phys) : Prop := ∃ l, m'.notes = m.notes ++ l ∧ ¬Inside 0 l ∧ ¬LoadsOwn l

theorem Wild.extends {m'' : Phys} (h : Wild m m') (h' : Extends m' m'') : Wild m m'' := by
  obtain ⟨l, hl, hin, hown⟩ := h
  obtain ⟨l', hl', -⟩ := h'
  exact ⟨l ++ l', by rw [hl', hl, List.append_assoc], fun h => hin (inside_append.mp h).1,
    fun h => hown h.of_append⟩

/-- Once a store went astray it stays on record, whatever comes after it. -/
theorem Wild.gives {α : Type} {c : Vm α} {F : VmPanic → Prop} (h : Wild m m')
    (hc : Always Extends F c) : Gives c m' (fun _ m'' => Wild m m'') fun _ m'' => Wild m m'' :=
  (hc.gives m').mono (fun _ _ h' => h.extends h') fun _ _ h' => h.extends h'.1

section

variable {m₀ : Phys} {e₀ : Env} {sz : ℕ} {l l' : List Note}

theorem Course.verdict_append (h : Course L sz l) (hl' : ∀ n ∈ l', Aside n)
    (hs : ∀ v, .starved v ∈ l' → pgroundup sz ≤ v) : Sane (l ++ l') := by
  have hfed : ∀ v, .starved v ∈ l' → .reach v ∉ l := by
    intro v hv hr
    have := hs v hv
    have := h.reached v hr
    omega
  refine ⟨?_, fun hnone => (proper_append hl' hfed).mpr (h.verdict.2 fun v hv => ?_)⟩
  · rw [loadsOwn_append fun v g hm => (hl' _ hm).2.2 v g rfl, proper_append hl' hfed, h.verdict.1]
  · exact hnone v (List.mem_append_left _ hv)

theorem Note.Within.aside {first a last : ℕ} {n : Note} (h : n.Within first a last) : Aside n := by
  unfold Note.Within at h
  split at h
  · exact ⟨nofun, nofun, nofun⟩
  · exact ⟨nofun, nofun, nofun⟩
  · cases h

/-- What `allocuvm` records. -/
theorem Course.within (h : Course L sz l) {newsz : ℕ}
    (hat : ∀ n ∈ l', n.Within L.first (pgroundup sz) (pgroundup newsz)) : Sane (l ++ l') :=
  h.verdict_append (fun n hn => (hat n hn).aside) fun _ hv => (hat _ hv).1

/-- The image has room for a segment now. -/
theorem Course.segment (h : Course L sz l) {newsz r : ℕ} {ph : Proghdr}
    (hat : ∀ n ∈ l', n.Within L.first (pgroundup sz) (pgroundup newsz))
    (hle : pgroundup sz ≤ pgroundup r) (halign : ph.vaddr % 4096 = 0) :
    Course L r (l ++ l' ++ [.segment ph r]) := by
  have hmem : ∀ {n}, n ∈ l ++ l' ++ [.segment ph r] → (∀ ph sz, n ≠ .segment ph sz) →
      n ∈ l ∨ n ∈ l' := by
    intro n hn hne
    rcases List.mem_append.mp hn with hn | hn
    · exact List.mem_append.mp hn
    · exact absurd (List.mem_singleton.mp hn) (hne ph r)
  refine ⟨?_, fun v hv => ?_, fun v g hg => ?_, ?_⟩
  · rw [imageSize_append]
    rfl
  · rcases hmem hv nofun with hv | hv
    · have := h.reached v hv
      omega
    · exact absurd rfl ((hat _ hv).aside.2.1 v)
  · rcases hmem hg nofun with hg | hg
    · exact h.grown v g hg
    · exact (hat _ hg).2.2
  · obtain ⟨hiff, hproper⟩ := h.within hat
    refine ⟨?_, fun hnone => proper_segment.mpr ⟨hproper fun v hv => ?_, halign⟩⟩
    · rw [loadsOwn_append (by simp), proper_segment, hiff, and_iff_left halign]
    · exact hnone v (List.mem_append_left _ hv)

/-- Page 0 is not allocated. -/
theorem Course.no_zero (h : Course L sz l) : .grown v 0 ∉ l := by
  intro hg
  have hfirst := h.grown v 0 hg
  have := L.text
  have := L.le
  omega

/-- One turn of the loop of `loaduvm` inside the image. -/
theorem Course.turn (h : Course L sz l) (hb : Building L m₀ m e₀ e d sz l) (hv : v < pgroundup sz)
    {x : ℕ} (hx : m.walk d v = some x) : Course L sz (l ++ [.reach v, .load v (pteAddr x)]) := by
  have hpages := pgroundup_le hb.sz_lt.le
  have hmem : ∀ {n}, n ∈ l ++ [.reach v, .load v (pteAddr x)] → n ∈ l ∨ n = .reach v ∨
      n = .load v (pteAddr x) := by
    intro n hn
    rcases List.mem_append.mp hn with hn | hn
    · exact Or.inl hn
    · exact Or.inr (by simpa using hn)
  refine ⟨?_, fun v' hv' => ?_, fun v' g hg => ?_, ?_⟩
  · rw [imageSize_append, h.size]
    rfl
  · rcases hmem hv' with hv' | hv' | hv'
    · exact h.reached v' hv'
    · rwa [Note.reach.inj hv']
    · cases hv'
  · rcases hmem hg with hg | hg | hg
    · exact h.grown v' g hg
    · cases hg
    · cases hg
  · refine ⟨?_, fun hnone => proper_turn.mpr ⟨h.verdict.2 fun v' hv' => ?_, h.size ▸ hv, ?_⟩⟩
    rotate_left
    · exact hnone v' (List.mem_append_left _ hv')
    · exact fun hv' => hnone v (List.mem_append_left _ hv')
    rw [loadsOwn_turn, proper_turn, h.verdict.1, h.size]
    refine and_congr_right fun _ => ?_
    rcases hb.below v hv with ⟨g, hg, hs, hmapped⟩ | ⟨hs, hnone⟩
    · rw [Phys.mapped_eq, hx] at hmapped
      have hpage : pteAddr x = g := by
        unfold pageOf at hmapped
        rw [Option.bind_some] at hmapped
        split at hmapped
        · exact Option.some.inj hmapped
        · cases hmapped
      rw [hpage]
      exact iff_of_true ⟨by omega, hg⟩ ⟨hv, hs⟩
    · -- the entry is 0, and that is no page that was allocated
      refine iff_of_false (fun hown => ?_) fun hs' => hs'.2 hs
      have hzero : x = 0 := by
        refine (hb.zeroed v (by omega) x hx).resolve_left fun hp => ?_
        rw [Phys.mapped_eq, hx, pageOf, Option.bind_some, if_pos hp] at hnone
        cases hnone
      rw [hzero] at hown
      exact h.no_zero hown.2

/-- `loaduvm` comes to a page outside of the image, and there is a page table. -/
theorem Course.wild (h : Course L sz l) (hb : Building L m₀ m e₀ e d sz l) (hv : ¬v < pgroundup sz)
    {x : ℕ} (hx : m.walk d v = some x) (hnotes : m'.notes = m.notes ++ [.reach v, .load v (pteAddr x)]) :
    Wild m₀ m' := by
  refine ⟨l ++ [.reach v, .load v (pteAddr x)], by rw [hnotes, hb.notes, List.append_assoc],
    fun hin => ?_, fun hown => ?_⟩
  · rw [inside_append, h.size] at hin
    exact hv hin.2.1
  · obtain ⟨-, hlt, hg⟩ := loadsOwn_turn.mp hown
    have hnone := hb.above v (by omega) hlt
    have hzero : x = 0 := by
      refine (hb.zeroed v hlt x hx).resolve_left fun hp => ?_
      rw [Phys.mapped_eq, hx, pageOf, Option.bind_some, if_pos hp] at hnone
      cases hnone
    rw [hzero] at hg
    exact h.no_zero hg

/-- The history shows that something was wrong with the file or with memory. -/
def Improper (m m' : Phys) : Prop := ∃ l, m'.notes = m.notes ++ l ∧ ¬Proper l

/-- How loading a file ends in a panic. -/
def Misled (m m' : Phys) (p : VmPanic) : Prop :=
  Wild m m' ∨ ((p = .notAligned ∨ p = .addressShouldExist) ∧ Improper m m')

/-- The loop of `loaduvm`. -/
theorem Building.loadLoop (hd : e.dir = some d) (hlow : e.low = 0) {off fsz : ℕ} (n : ℕ) :
    ∀ {m : Phys} {l : List Note} {i : ℕ}, Owned L m e → Building L m₀ m e₀ e d sz l →
      Course L sz l →
      Gives (loadLoop L cur d img v off fsz i n) m
        (fun _ m' => (Wild m₀ m' ∧ ¬v + (i + n) ≤ pgroundup sz) ∨
          (Owned L m' e ∧ (Rationed m₀ m d sz → Rationed m₀ m' d sz) ∧
            ∃ l', Building L m₀ m' e₀ e d sz l' ∧ Course L sz l'))
        fun p m' => (Wild m₀ m' ∨ (p = .addressShouldExist ∧ Improper m₀ m')) ∧
          (v + (i + n) ≤ pgroundup sz → m.lost ≠ m₀.lost) := by
  induction n with
  | zero =>
    intro m l i h hb hc
    rw [Memory.loadLoop, gives_pure]
    exact Or.inr ⟨h, id, l, hb, hc⟩
  | succ n ih =>
    intro m l i h hb hc
    have hpages := pgroundup_le hb.sz_lt.le
    have hnpage : KERNPAGE < NPAGE := by decide
    rw [Memory.loadLoop]
    by_cases hv : (v + i) % NPAGE < pgroundup sz
    · refine (h.loadPage hd hlow hb.zeroed (by omega)).bind ?_ ?_
      · rintro ok m1 ⟨hwork, hwalk, hfree, x, hx, hnotes⟩
        have h1 := h.works hwork
        have hlost : m1.lost = m.lost := by
          unfold Phys.lost
          rw [hnotes, List.countP_append]
          rfl
        have hration : Rationed m₀ m d sz → Rationed m₀ m1 d sz := fun hr =>
          hr.congr hwalk hfree hlost
        have hb1 := hb.same hwork hwalk hnotes (by simp)
        have hc1 := hc.turn hb hv hx
        split
        · refine (ih h1 hb1 hc1).mono ?_ fun _ _ h => ⟨h.1, fun hn => hlost ▸ h.2 (by omega)⟩
          rintro _ m' (⟨hwild, hn⟩ | ⟨h2, hration2, hgood⟩)
          · exact Or.inl ⟨hwild, by omega⟩
          · exact Or.inr ⟨h2, fun hr => hration2 (hration hr), hgood⟩
        · exact gives_pure.mpr (Or.inr ⟨h1, hration, _, hb1, hc1⟩)
      · rintro p m1 ⟨rfl, hnone, hnotes⟩
        have hunmapped : m.mapped d ((v + i) % NPAGE) = none := by
          rw [Phys.mapped_eq, hnone]
          rfl
        refine ⟨Or.inr ⟨rfl, l ++ [.reach _], by rw [hnotes, hb.notes, List.append_assoc], ?_⟩,
          fun _ hlost => hb.mapped hlost hv hunmapped⟩
        rw [proper_reach]
        rintro ⟨-, -, hs⟩
        rcases hb.below _ hv with ⟨g, -, -, hmapped⟩ | ⟨hs', -⟩
        · rw [hunmapped] at hmapped
          cases hmapped
        · exact hs hs'
    · have hn : ¬v + (i + (n + 1)) ≤ pgroundup sz := by
        intro hle
        refine hv ?_
        rw [Nat.mod_eq_of_lt (by omega)]
        omega
      refine gives_loadPage.bind ?_ ?_
      · rintro ok m1 ⟨x, hx, hnotes⟩
        refine ((hc.wild hb hv hx hnotes).gives (F := fun _ => True) ?_).mono
          (fun _ _ hw => Or.inl ⟨hw, hn⟩) fun _ _ hw => ⟨Or.inl hw, fun hle => absurd hle hn⟩
        exact Always.ite (adds_loadLoop fun _ _ => trivial) (Always.pure _)
      · refine fun p m1 hcase => ⟨?_, fun hle => absurd hle hn⟩
        rcases hcase with ⟨rfl, -, hnotes⟩ | ⟨x, hx, hnotes⟩
        · refine Or.inr ⟨rfl, l ++ [.reach _], by rw [hnotes, hb.notes, List.append_assoc], ?_⟩
          rw [proper_reach, hc.size]
          exact fun hp => hv hp.2.1
        · exact Or.inl (hc.wild hb hv hx hnotes)

/-! ## Files whose segments are page-aligned and do not wrap -/

/-- The program header at `off`, if the file has one there, is for a segment that starts
at a page and ends before the addresses do. -/
def TameAt (img : Image) (off : ℕ) : Prop :=
  let ph := proghdr fun j => img.data (off + j)
  off + sizeofProghdr ≤ img.size → ph.type = ELF_PROG_LOAD →
    ph.vaddr % 4096 = 0 ∧ ph.vaddr + ph.memsz < 4294967296

/-- A file, not a device, whose segments are all like this. -/
structure Tame (img : Image) : Prop where
  file : img.type ≠ .dev
  segments : ∀ i, i < elfPhnum img.data →
    TameAt img ((elfPhoff img.data + sizeofProghdr * i) % 4294967296)

/-- The pages of an image up to the end of the segment whose program header is at `off`. -/
def Memory.Image.pagesAt (img : Image) (off : ℕ) : ℕ :=
  let ph := proghdr fun j => img.data (off + j)
  if off + sizeofProghdr ≤ img.size ∧ ph.type = ELF_PROG_LOAD then
    pgroundup ((ph.vaddr + ph.memsz) % 4294967296) else 0

/-- The pages for the segments of the `n` program headers from `off` on. -/
def Memory.Image.pagesFrom (img : Image) : (off n : ℕ) → ℕ
  | _, 0 => 0
  | off, n + 1 =>
    max (img.pagesAt off) (img.pagesFrom ((off + sizeofProghdr) % 4294967296) n)

/-- The pages that `exec` allocates for a file: those of its segments, and two for the stack. -/
def Memory.Image.pages (img : Image) : ℕ :=
  img.pagesFrom (elfPhoff img.data) (elfPhnum img.data) + 2

/-- A read that returns is within the file, and gives its bytes from `off` on. -/
theorem fileRead_ret {off n k : ℕ} (h : (img.fileRead off n).ret = some k) :
    k ≤ n ∧ off + k ≤ img.size ∧ (img.fileRead off n).len = k ∧
      (img.fileRead off n).byte = fun j => img.data (off + j) := by
  unfold Image.fileRead at h ⊢
  split at h
  · cases h
  · next hoff =>
    rw [if_neg hoff]
    obtain rfl := Option.some.inj h
    refine ⟨?_, ?_, rfl, rfl⟩
    · split <;> omega
    · split <;> omega

/-- How far an image reaches after `allocuvm`. -/
theorem Building.le_of_alloc (hb : Building L m₀ m e₀ e d sz l) {newsz r : ℕ}
    (ha : Allocated m m' d sz newsz l' r) (hr : r ≠ 0) :
    newsz ≤ r ∧ sz ≤ r ∧ r < KERNBASE := by
  cases ha with
  | failed => exact absurd rfl hr
  | nothing hlt => exact ⟨hlt.le, le_rfl, hb.sz_lt⟩
  | grown hle hnew => exact ⟨le_rfl, hle, hnew⟩

/-- The history shows whether everything went well. -/
def Told (m m' : Phys) : Prop := ∃ l, m'.notes = m.notes ++ l ∧ Sane l

/-- Nothing more is recorded. -/
theorem Told.same {m'' : Phys} (h : Told m m') (h' : Adds (fun _ => False) m' m'') : Told m m'' := by
  obtain ⟨l, hl, hverdict⟩ := h
  obtain ⟨l', hl', hnone⟩ := h'
  obtain rfl : l' = [] := List.eq_nil_iff_forall_not_mem.mpr hnone
  exact ⟨l, by rw [hl', hl, List.append_nil], hverdict⟩

/-- What the segments of an image lead to, whose headers ask for `n` pages if it is a file. -/
structure Segmented (L : Layout) (m₀ m' : Phys) (e₀ e : Env) (d : ℕ) (img : Image) (n : ℕ)
    (r : Option ℕ) : Prop where
  works : Works L m₀ m' e₀ e
  told : Told m₀ m'
  lost : img.type ≠ .dev → m'.lost = m₀.lost ∨ Scarce m₀.free.length n
  image : ∀ sz, r = some sz → (∃ l, Building L m₀ m' e₀ e d sz l ∧ Course L sz l) ∧
    Rationed m₀ m' d sz ∧ (img.type ≠ .dev → pgroundup sz = n)

/-- Only for a file is it known how many pages there are. -/
theorem Segmented.congr {n n' : ℕ} {r : Option ℕ} (h : Segmented L m₀ m' e₀ e d img n r)
    (hn : img.type ≠ .dev → n = n') : Segmented L m₀ m' e₀ e d img n' r := by
  refine ⟨h.works, h.told, fun hfile => hn hfile ▸ h.lost hfile, fun sz hsz => ?_⟩
  obtain ⟨hb, hr, hpages⟩ := h.image sz hsz
  exact ⟨hb, hr, fun hfile => hn hfile ▸ hpages hfile⟩

/-- How many pages there are after `allocuvm`. -/
theorem Allocated.pages {newsz r : ℕ} (ha : Allocated m m' d sz newsz l' r) (hr : r ≠ 0) :
    pgroundup r = max (pgroundup sz) (pgroundup newsz) := by
  have hmono : ∀ {a b : ℕ}, a ≤ b → pgroundup a ≤ pgroundup b := by
    intro a b hab
    unfold pgroundup
    omega
  cases ha with
  | failed => exact absurd rfl hr
  | nothing hlt => exact (max_eq_left (hmono hlt.le)).symm
  | grown hle => exact (max_eq_right (hmono hle)).symm

/-- Loading the segments of a file. -/
theorem Building.loadSegments (hmem : e.mem = none) (hd : e.dir = some d) (hlow : e.low = 0)
    (n : ℕ) : ∀ {m : Phys} {l : List Note} {off sz : ℕ}, Owned L m e →
      Building L m₀ m e₀ e d sz l → Course L sz l → Rationed m₀ m d sz → off < 4294967296 →
      Gives (loadSegments L cur d img off n sz) m
        (fun r m' => (Wild m₀ m' ∧ (img.type ≠ .dev →
            ¬∀ i, i < n → TameAt img ((off + sizeofProghdr * i) % 4294967296))) ∨
          Segmented L m₀ m' e₀ e d img (max (pgroundup sz) (img.pagesFrom off n)) r)
        fun p m' => Misled m₀ m' p ∧ (img.type ≠ .dev →
          (∀ i, i < n → TameAt img ((off + sizeofProghdr * i) % 4294967296)) →
          Scarce m₀.free.length (max (pgroundup sz) (img.pagesFrom off n))) := by
  induction n with
  | zero =>
    intro m l off sz h hb hc hration _
    rw [Memory.loadSegments, gives_pure, Memory.Image.pagesFrom, Nat.max_zero]
    refine Or.inr ⟨hb.works, ⟨l, hb.notes, hc.verdict⟩, fun _ => hration.lost, fun sz' hsz => ?_⟩
    obtain rfl := Option.some.inj hsz
    exact ⟨⟨l, hb, hc⟩, hration, fun _ => rfl⟩
  | succ n ih =>
    intro m l off sz h hb hc hration hoff
    have hnext : (∀ i, i < n + 1 → TameAt img ((off + sizeofProghdr * i) % 4294967296)) →
        ∀ i, i < n → TameAt img
          (((off + sizeofProghdr) % 4294967296 + sizeofProghdr * i) % 4294967296) := by
      intro htame i hi
      have hi' := htame (i + 1) (by omega)
      rwa [show ((off + sizeofProghdr) % 4294967296 + sizeofProghdr * i) % 4294967296 =
        (off + sizeofProghdr * (i + 1)) % 4294967296 by unfold sizeofProghdr; omega]
    -- the rest of the loop, where nothing is wrong yet
    have hrest : ∀ {m : Phys} {l : List Note} {sz' : ℕ}, Owned L m e →
        Building L m₀ m e₀ e d sz' l → Course L sz' l → Rationed m₀ m d sz' →
        (img.type ≠ .dev → pgroundup sz' = max (pgroundup sz) (img.pagesAt off)) →
        Gives (Memory.loadSegments L cur d img ((off + sizeofProghdr) % 4294967296) n sz') m
          (fun r m' => (Wild m₀ m' ∧ (img.type ≠ .dev →
              ¬∀ i, i < n + 1 → TameAt img ((off + sizeofProghdr * i) % 4294967296))) ∨
            Segmented L m₀ m' e₀ e d img (max (pgroundup sz) (img.pagesFrom off (n + 1))) r)
          fun p m' => Misled m₀ m' p ∧ (img.type ≠ .dev →
            (∀ i, i < n + 1 → TameAt img ((off + sizeofProghdr * i) % 4294967296)) →
            Scarce m₀.free.length (max (pgroundup sz) (img.pagesFrom off (n + 1)))) := by
      intro m l sz' h hb hc hration hsz
      have hmax : img.type ≠ .dev →
          max (pgroundup sz') (img.pagesFrom ((off + sizeofProghdr) % 4294967296) n) =
            max (pgroundup sz) (img.pagesFrom off (n + 1)) := by
        intro hfile
        rw [hsz hfile, Memory.Image.pagesFrom, max_assoc]
      refine (ih h hb hc hration (Nat.mod_lt _ (by decide))).mono ?_ fun _ _ h =>
        ⟨h.1, fun hfile htame => hmax hfile ▸ h.2 hfile (hnext htame)⟩
      rintro r m' (⟨hwild, huntame⟩ | hgood)
      · exact Or.inl ⟨hwild, fun hfile htame => huntame hfile (hnext htame)⟩
      · exact Or.inr (hgood.congr hmax)
    rw [Memory.loadSegments, gives_bind]
    refine gives_readi fun r input hfile _ => ?_
    have hb' : Building L m₀ (m.setInput input) e₀ e d sz l := hb.setInput
    have h' : Owned L (m.setInput input) e := h.works Works.setInput
    have hration' : Rationed m₀ (m.setInput input) d sz := hration.congr (fun _ _ => rfl) rfl rfl
    have hpages : max (pgroundup sz) (img.pagesAt off) ≤
        max (pgroundup sz) (img.pagesFrom off (n + 1)) :=
      max_le_max le_rfl (le_max_left _ _)
    have hbad : ∀ {m' : Phys} {l' : List Note}, Works L m₀ m' e₀ e → m'.notes = m₀.notes ++ l' →
        Sane l' → (img.type ≠ .dev → m'.lost = m₀.lost ∨
          Scarce m₀.free.length (max (pgroundup sz) (img.pagesAt off))) →
        Segmented L m₀ m' e₀ e d img (max (pgroundup sz) (img.pagesFrom off (n + 1))) none :=
      fun hw hl hv hlost => ⟨hw, ⟨_, hl, hv⟩,
        fun hfile => (hlost hfile).imp_right fun hs => hs.mono hpages, nofun⟩
    have hlost : ∀ {m' : Phys} {sz' : ℕ}, Rationed m₀ m' d sz' →
        (img.type ≠ .dev → pgroundup sz' = max (pgroundup sz) (img.pagesAt off)) →
        img.type ≠ .dev → m'.lost = m₀.lost ∨
          Scarce m₀.free.length (max (pgroundup sz) (img.pagesAt off)) :=
      fun hr hsz hfile => hsz hfile ▸ hr.lost
    have hlost0 : img.type ≠ .dev → (m.setInput input).lost = m₀.lost ∨
        Scarce m₀.free.length (max (pgroundup sz) (img.pagesAt off)) :=
      fun _ => hration'.lost.imp_right fun hs => hs.mono (le_max_left _ _)
    split
    · next hret =>
      dsimp only
      split
      · next hload =>
        split
        · exact gives_pure.mpr (Or.inr (hbad hb'.works hb'.notes hc.verdict hlost0))
        · next hmemsz =>
          -- for a file, the header is the one at `off`
          have hat0 : img.type ≠ .dev → img.pagesAt off =
              pgroundup (((proghdr r.byte).vaddr + (proghdr r.byte).memsz) % 4294967296) := by
            intro hdev
            have hr := hfile hdev
            rw [hr] at hret
            obtain ⟨-, hin, -, hbyte⟩ := fileRead_ret hret
            rw [hr, hbyte] at hload ⊢
            exact if_pos ⟨hin, hload⟩
          refine ((h'.allocuvm hmem hd hlow).and (h'.allocuvm_rationed hmem hd hlow hration')).bind ?_
            fun _ _ hp => absurd hp.1.2.2 (hb'.no_remap hp.1.2.1)
          rintro sz1 m1 ⟨⟨hwork, l1, hnotes, hat, ha⟩, hration1, hlost1, -⟩
          have hnotes' : m1.notes = m₀.notes ++ (l ++ l1) := by
            rw [hnotes, hb'.notes, List.append_assoc]
          split
          · exact gives_pure.mpr (Or.inr (hbad (hb'.works.trans hwork) hnotes' (hc.within hat)
              fun hdev => hat0 hdev ▸ hlost1))
          · next hr =>
            have hb1 := hb'.alloc hwork hnotes hat ha hr
            obtain ⟨hle, hge, hlt⟩ := hb'.le_of_alloc ha hr
            have hpage : pgroundup sz ≤ pgroundup sz1 := by
              unfold pgroundup
              omega
            have hr1 : Rationed m₀ m1 d sz1 := hration1 hr hpage (by unfold pgroundup; omega)
            have hsz1 : img.type ≠ .dev → pgroundup sz1 = max (pgroundup sz) (img.pagesAt off) :=
              fun hdev => hat0 hdev ▸ ha.pages hr
            rw [gives_bind, gives_modify, gives_bind]
            set ph := proghdr r.byte with hph
            have hb2 := hb1.note (n := .segment ph sz1) nofun
            have h2 := (h'.works hwork).works (Works.note (n := .segment ph sz1) nofun)
            have hr2 : Rationed m₀ (m1.note (.segment ph sz1)) d sz1 :=
              hr1.congr (fun _ _ => rfl) rfl (Phys.lost_note nofun)
            -- a header of a tame file is for a segment that does not wrap around
            have hhdr : img.type ≠ .dev →
                (∀ i, i < n + 1 → TameAt img ((off + sizeofProghdr * i) % 4294967296)) →
                ph.vaddr % 4096 = 0 ∧ ph.vaddr + ph.memsz < 4294967296 := by
              intro hdev htame
              have hr := hfile hdev
              rw [hr] at hret
              obtain ⟨-, hin, -, hbyte⟩ := fileRead_ret hret
              have htame0 := htame 0 (by omega)
              rw [Nat.mul_zero, Nat.add_zero, Nat.mod_eq_of_lt hoff] at htame0
              have hsame : ph = proghdr fun j => img.data (off + j) := by
                rw [hph, hr, hbyte]
              have hgood := htame0 hin (by rw [← hsame]; exact hload)
              rwa [← hsame] at hgood
            have hinside : img.type ≠ .dev →
                (∀ i, i < n + 1 → TameAt img ((off + sizeofProghdr * i) % 4294967296)) →
                ph.vaddr / 4096 + (0 + pgroundup ph.filesz) ≤ pgroundup sz1 := by
              intro hdev htame
              obtain ⟨halign, hwrap⟩ := hhdr hdev htame
              rw [Nat.mod_eq_of_lt hwrap] at hle
              unfold pgroundup
              omega
            unfold Memory.loaduvm
            split
            · next halign =>
              -- the kernel panics
              rw [gives_throw]
              refine ⟨Or.inr ⟨Or.inl rfl, _, hb2.notes, ?_⟩, fun hdev htame =>
                absurd (hhdr hdev htame).1 halign⟩
              rw [proper_segment]
              exact fun hp => halign hp.2
            · next halign =>
              have hc2 := hc.segment hat hpage (not_not.mp halign)
              refine (Building.loadLoop hd hlow _ h2 hb2 hc2).mono ?_ ?_
              · rintro ok m3 (⟨hwild, hn⟩ | ⟨h3, hr3, l3, hb3, hc3⟩)
                · refine (hwild.gives (F := fun _ => True) ?_).mono
                    (fun _ _ hw => Or.inl ⟨hw, fun hdev htame => hn (hinside hdev htame)⟩)
                    fun _ _ hw => ⟨Or.inl hw, fun hdev htame => absurd (hinside hdev htame) hn⟩
                  exact Always.ite (adds_loadSegments fun _ _ => trivial) (Always.pure _)
                · split
                  · exact hrest h3 hb3 hc3 (hr3 hr2) hsz1
                  · exact gives_pure.mpr (Or.inr (hbad hb3.works hb3.notes hc3.verdict
                      (hlost (hr3 hr2) hsz1)))
              · rintro p m3 ⟨hcase, hlost3⟩
                refine ⟨hcase.imp_right fun ⟨hp, himp⟩ => ⟨Or.inr hp, himp⟩, fun hdev htame => ?_⟩
                have hscarce := hr2.lost.resolve_left (hlost3 (hinside hdev htame))
                rw [hsz1 hdev] at hscarce
                exact hscarce.mono hpages
      · next hload =>
        refine hrest h' hb' hc hration' fun hdev => ?_
        have hzero : img.pagesAt off = 0 := by
          have hr := hfile hdev
          rw [hr] at hret
          obtain ⟨-, -, -, hbyte⟩ := fileRead_ret hret
          rw [hr, hbyte] at hload
          exact if_neg fun hin => hload hin.2
        rw [hzero, Nat.max_zero]
    · exact gives_pure.mpr (Or.inr (hbad hb'.works hb'.notes hc.verdict hlost0))

/-- The first page of the stack is mapped: where a page is lost, the next one is not
allocated. -/
theorem Allocated.guard {newsz r : ℕ} (ha : Allocated m m' d sz newsz l' r) (hr : r ≠ 0)
    (hnew : newsz = sz + 2 * 4096) (hsz : sz % 4096 = 0) : m'.walk d (r / 4096 - 2) ≠ none := by
  cases ha with
  | failed => exact absurd rfl hr
  | nothing hlt => omega
  | grown hle _ hgrown =>
    have hfirst : newsz / 4096 - 2 = pgroundup sz := by
      unfold pgroundup
      omega
    have hlast : pgroundup newsz = pgroundup sz + 2 := by
      unfold pgroundup
      omega
    rw [hfirst]
    rcases hgrown.pages (pgroundup sz) le_rfl (by omega) with ⟨g, -, -, hwalk⟩ | ⟨hs, -⟩
    · rw [hwalk]
      nofun
    · have := hgrown.starved _ hs
      omega

theorem Allocated.lt {newsz r : ℕ} (ha : Allocated m m' d sz newsz l' r) (hr : r ≠ 0)
    (hle : sz ≤ newsz) : newsz < KERNBASE := by
  cases ha with
  | failed => exact absurd rfl hr
  | nothing hlt => omega
  | grown _ hnew => exact hnew

/-- If the call did not refuse, then the pages up to the new size were gone through. -/
theorem Allocated.grows {newsz r : ℕ} (ha : Allocated m m' d sz newsz l' r) (hr : r ≠ 0)
    (hle : sz ≤ newsz) : Grown m m' d (pgroundup sz) (pgroundup newsz) l' := by
  cases ha with
  | failed => exact absurd rfl hr
  | nothing hlt => omega
  | grown _ _ hgrown => exact hgrown

theorem Allocated.eq {newsz r : ℕ} (ha : Allocated m m' d sz newsz l' r) (hr : r ≠ 0)
    (hle : sz ≤ newsz) : r = newsz := by
  cases ha with
  | failed => exact absurd rfl hr
  | nothing hlt => omega
  | grown => rfl

/-- `copyout` and `freevm` lose no page. -/
theorem lost_of_adds {S : Note → Prop} (h : Adds S m m') (hS : ∀ v, ¬S (.starved v)) :
    m'.lost = m.lost := by
  obtain ⟨l', hl', hall⟩ := h
  unfold Phys.lost
  rw [hl', List.countP_append, Nat.add_eq_left, List.countP_eq_zero]
  intro n hn
  cases n with
  | starved v => exact absurd (hall _ hn) (hS v)
  | _ => exact Bool.false_ne_true

/-- For an image of `n` pages, with the stack: its last page gets a page table, and the
arguments fit into it. -/
structure Memory.Suits (free n : ℕ) (argv : List Arg) : Prop where
  tabled : ¬Short free n
  fits : stackBytes argv ≤ n * 4096

/-- What is left to do when the segments are loaded. -/
theorem Building.finishImage (hmem : e.mem = none) (hd : e.dir = some d) (hlow : e.low = 0)
    (h : Owned L m e) (hb : Building L m₀ m e₀ e d sz l) (hc : Course L sz l)
    (hration : Rationed m₀ m d sz) {argv : List Arg} :
    Gives (finishImage L cur d argv sz) m
      (fun r m' => Told m₀ m' ∧
        (m'.lost = m₀.lost ∨ Scarce m₀.free.length (pgroundup sz + 2)) ∧
        ((Nulled m₀ m' ∧ ¬Suits m₀.free.length (pgroundup sz + 2) argv) ∨
          (Works L m₀ m' e₀ e ∧ ∀ sz', r = some sz' → sz' < KERNBASE ∧
            (Suits m₀.free.length (pgroundup sz + 2) argv →
              ∀ v, v < pgroundup sz' → m'.mapped d v ≠ none))))
      fun p m' => Memory.Quiet p ∧ Told m₀ m' ∧
        (m'.lost = m₀.lost ∨ Scarce m₀.free.length (pgroundup sz + 2)) ∧ Nulled m₀ m' ∧
        ¬Suits m₀.free.length (pgroundup sz + 2) argv := by
  -- the size is rounded up, so nothing changes
  have hround : pgroundup (pgroundup sz * 4096) = pgroundup sz := by
    unfold pgroundup
    omega
  have hlast : pgroundup (pgroundup sz * 4096 + 2 * 4096) = pgroundup sz + 2 := by
    unfold pgroundup
    omega
  unfold Memory.finishImage
  refine ((h.allocuvm hmem hd hlow).and (h.allocuvm_rationed hmem hd hlow
    (hration.resize hround))).bind ?_ fun _ _ hp => ?_
  rintro r m2 ⟨⟨hwork, l2, hnotes, hat, ha⟩, -, hlost2, hshort⟩
  rw [hround] at hat
  rw [hround, hlast, max_eq_right (Nat.le_add_right _ _)] at hlost2
  rw [hround, hlast] at hshort
  have hnotes' : m2.notes = m₀.notes ++ (l ++ l2) := by
    rw [hnotes, hb.notes, List.append_assoc]
  split
  · exact gives_pure.mpr ⟨⟨_, hnotes', hc.within hat⟩, hlost2,
      Or.inr ⟨hb.works.trans hwork, nofun⟩⟩
  · next hr =>
    have hlt : pgroundup sz * 4096 < KERNBASE :=
      Nat.lt_of_le_of_lt (Nat.le_add_right _ _) (ha.lt hr (Nat.le_add_right _ _))
    have hb2 := (hb.resize hround hlt).alloc hwork hnotes (by rwa [hround]) ha hr
    have hguard := ha.guard hr rfl (Nat.mul_mod_left _ _)
    have hend : r = (pgroundup sz + 2) * 4096 := by
      rw [ha.eq hr (Nat.le_add_right _ _), Nat.add_mul]
    -- where the last page has a page table, everything is mapped
    have hcovers : Suits m₀.free.length (pgroundup sz + 2) argv →
        m2.Covers d (pgroundup sz + 2) ∧ stackBytes argv ≤ r := by
      intro hsuits
      refine ⟨fun v hv => hb2.mapped ?_ ?_, hend ▸ hsuits.fits⟩
      · exact (hshort hr (Nat.lt_add_of_pos_right (by decide))).resolve_right hsuits.tabled
      · unfold pgroundup at *
        omega
    -- only address 0 can be recorded from now on
    have halways : Always (Adds fun n => ∃ v, n = .null v) Memory.Quiet (Memory.setupStack L cur d argv r) :=
      adds_setupStack fun v => ⟨v, rfl⟩
    have hadds := halways.gives m2
    have htold : ∀ m', Adds (fun n => ∃ v, n = .null v) m2 m' → Told m₀ m' ∧
        (m'.lost = m₀.lost ∨ Scarce m₀.free.length (pgroundup sz + 2)) := by
      intro m' hadd
      rw [lost_of_adds hadd (by rintro v ⟨_, ⟨⟩⟩)]
      refine ⟨?_, hlost2⟩
      obtain ⟨l3, hl3, hnull⟩ := hadd
      refine ⟨l ++ (l2 ++ l3), by rw [hl3, hnotes', List.append_assoc, List.append_assoc],
        hc.verdict_append (fun n hn => ?_) fun v hv => ?_⟩
      · rcases List.mem_append.mp hn with hn | hn
        · exact (hat n hn).aside
        · obtain ⟨v, rfl⟩ := hnull n hn
          exact ⟨nofun, nofun, nofun⟩
      · rcases List.mem_append.mp hv with hv | hv
        · exact (hat _ hv).1
        · obtain ⟨v', heq⟩ := hnull _ hv
          cases heq
    refine (((h.works hwork).setupStack hd hlow hb2.noUser hb2.sz_lt hend hguard).and hadds).bind
      ?_ ?_
    · rintro ok m3 ⟨⟨hnull, hout⟩ | ⟨hwork3, hnotes3, hmapped3⟩, hadd⟩
      · have hdone := (hnull.of_extends hwork.extends).of_extends hb.works.extends
        have hunsuited := fun hsuits => hout (hcovers hsuits)
        split
        · exact gives_pure.mpr ⟨(htold m3 hadd).1, (htold m3 hadd).2, Or.inl ⟨hdone, hunsuited⟩⟩
        · exact gives_pure.mpr ⟨(htold m3 hadd).1, (htold m3 hadd).2, Or.inl ⟨hdone, hunsuited⟩⟩
      · have hdone := hb.works.trans (hwork.trans hwork3)
        split
        · refine gives_pure.mpr ⟨(htold m3 hadd).1, (htold m3 hadd).2,
            Or.inr ⟨hdone, fun sz' hsz' => ?_⟩⟩
          obtain rfl := Option.some.inj hsz'
          refine ⟨hb2.sz_lt, fun hsuits v hv => ?_⟩
          have hpages := pgroundup_le hb2.sz_lt.le
          rw [hmapped3 v (by omega)]
          refine (hcovers hsuits).1 v ?_
          unfold pgroundup at *
          omega
        · exact gives_pure.mpr ⟨(htold m3 hadd).1, (htold m3 hadd).2, Or.inr ⟨hdone, nofun⟩⟩
    · rintro p m3 ⟨⟨hnull, hout⟩, hadd, hquiet⟩
      exact ⟨hquiet, (htold m3 hadd).1, (htold m3 hadd).2, (hnull.of_extends hwork.extends).of_extends hb.works.extends,
        fun hsuits => hout (hcovers hsuits)⟩
  · refine absurd hp.1.2.2 ((hb.resize hround ?_).no_remap hp.1.2.1)
    exact Nat.lt_of_le_of_lt (Nat.le_add_right _ _) hp.1.2.1

/-- A file for which there is a last page table and that the arguments fit into, when its headers
ask for `n` pages. -/
def Memory.Image.Suits (img : Image) (free n : ℕ) (argv : List Arg) : Prop :=
  img.type ≠ .dev ∧ Memory.Suits free n argv

/-- Filling a new address space. -/
theorem Building.loadImage (hmem : e.mem = none) (hd : e.dir = some d) (hlow : e.low = 0)
    (h : Owned L m₀ e₀) (hb : Building L m₀ m e₀ e d 0 l) (hc : Course L 0 l)
    (hration : Rationed m₀ m d 0) {elf : ℕ → Byte} {argv : List Arg} {n : ℕ}
    (hn : n = img.pagesFrom (elfPhoff elf) (elfPhnum elf) + 2) :
    Gives (loadImage L cur d img elf argv) m
      (fun r m' => (Wild m₀ m' ∧ (img.type ≠ .dev → ¬∀ i, i < elfPhnum elf →
          TameAt img ((elfPhoff elf + sizeofProghdr * i) % 4294967296))) ∨
        (Told m₀ m' ∧ (img.type ≠ .dev → m'.lost = m₀.lost ∨ Scarce m₀.free.length n) ∧
          ((Nulled m₀ m' ∧ ¬img.Suits m₀.free.length n argv) ∨
            (Works L m₀ m' e₀ e ∧ ∀ sz, r = some sz → sz < KERNBASE ∧
              (img.Suits m₀.free.length n argv → ∀ v, v < pgroundup sz → m'.mapped d v ≠ none)))))
      fun p m' => (Misled m₀ m' p ∧ (img.type ≠ .dev → (∀ i, i < elfPhnum elf →
          TameAt img ((elfPhoff elf + sizeofProghdr * i) % 4294967296)) →
          Scarce m₀.free.length n)) ∨
        (Memory.Quiet p ∧ Told m₀ m' ∧
          (img.type ≠ .dev → m'.lost = m₀.lost ∨ Scarce m₀.free.length n) ∧
          Nulled m₀ m' ∧ ¬img.Suits m₀.free.length n argv) := by
  have hle : max (pgroundup 0) (img.pagesFrom (elfPhoff elf) (elfPhnum elf)) ≤ n :=
    max_le (Nat.zero_le _) (by omega)
  unfold Memory.loadImage
  refine (Building.loadSegments hmem hd hlow _ (h.works hb.works) hb hc hration word_lt).bind ?_
    fun _ _ hp => Or.inl ⟨hp.1, fun hfile htame => (hp.2 hfile htame).mono hle⟩
  rintro r m1 (⟨hwild, huntame⟩ | hseg)
  · refine (hwild.gives (F := fun _ => True) ?_).mono (fun _ _ hw => Or.inl ⟨hw, huntame⟩)
      fun _ _ hw => Or.inl ⟨Or.inl hw, fun hfile htame => absurd htame (huntame hfile)⟩
    cases r with
    | none => exact Always.pure _
    | some sz => exact (adds_finishImage fun _ _ => trivial).any
  · have hpages : max (pgroundup 0) (img.pagesFrom (elfPhoff elf) (elfPhnum elf)) =
        img.pagesFrom (elfPhoff elf) (elfPhnum elf) := max_eq_right (Nat.zero_le _)
    replace hseg := hseg.congr fun _ => hpages
    cases r with
    | none =>
      exact gives_pure.mpr (Or.inr ⟨hseg.told,
        fun hfile => (hseg.lost hfile).imp_right fun hs => hs.mono (by omega),
        Or.inr ⟨hseg.works, nofun⟩⟩)
    | some sz =>
      obtain ⟨⟨l1, hb1, hc1⟩, hr1, hsz⟩ := hseg.image sz rfl
      have heq : img.type ≠ .dev → pgroundup sz + 2 = n := fun hfile => by rw [hn, hsz hfile]
      have hsuits : img.Suits m₀.free.length n argv →
          Memory.Suits m₀.free.length (pgroundup sz + 2) argv := fun hs => heq hs.1 ▸ hs.2
      refine (Building.finishImage hmem hd hlow (h.works hseg.works) hb1 hc1 hr1).mono ?_ ?_
      · rintro r m' ⟨htold, hlost, hend⟩
        refine Or.inr ⟨htold, fun hfile => heq hfile ▸ hlost, hend.imp ?_ ?_⟩
        · exact fun ⟨hnull, hout⟩ => ⟨hnull, fun hs => hout (hsuits hs)⟩
        · exact fun ⟨hw, hall⟩ => ⟨hw, fun sz' hsz' => ⟨(hall sz' hsz').1,
            fun hs => (hall sz' hsz').2 (hsuits hs)⟩⟩
      · rintro p m' ⟨hquiet, htold, hlost, hnull, hout⟩
        exact Or.inr ⟨hquiet, htold, fun hfile => heq hfile ▸ hlost, hnull, fun hs => hout (hsuits hs)⟩

/-- The header is what the first bytes of the file say, if they were all read. -/
theorem elf_of_read (junk : ℕ → Byte) {k : ℕ}
    (h : (img.fileRead 0 sizeofElfhdr).ret = some k) (hk : ¬k < sizeofElfhdr) :
    let elf := splice junk 0 (img.fileRead 0 sizeofElfhdr).len (img.fileRead 0 sizeofElfhdr).byte
    elfPhoff elf = elfPhoff img.data ∧ elfPhnum elf = elfPhnum img.data ∧
      elfMagic elf = elfMagic img.data := by
  obtain ⟨hle, -, hlen, hbyte⟩ := fileRead_ret h
  intro elf
  have helf : ∀ j, j < 52 → elf j = img.data j := by
    intro j hj
    have hin := splice_inside (d := junk) (o := 0) (n := k) (f := fun j => img.data (0 + j)) (k := j)
      (by unfold sizeofElfhdr at hk; omega)
    rw [Nat.zero_add] at hin
    change splice junk 0 _ _ j = _
    rw [hlen, hbyte, hin]
  exact ⟨word_congr fun j hj => helf _ (by omega), half_congr fun j hj => helf _ (by omega),
    word_congr fun j hj => helf _ (by omega)⟩

/-- What `exec` leads to, up to the point where it commits; `suits` if the file and the arguments
suit. -/
inductive Built (L : Layout) (m m' : Phys) (e : Env) (suits : Prop) : Option (ℕ × ℕ) → Prop where
  /-- address 0 was used as a page table entry -/
  | nulled {r : Option (ℕ × ℕ)} : Nulled m m' → ¬suits → Built L m m' e suits r
  /-- nothing is left behind -/
  | bad : Works L m m' e e → Built L m m' e suits none
  /-- there is a new address space -/
  | image {d sz : ℕ} : Works L m m' e { e with dir := some d } → sz < KERNBASE →
      (suits → ∀ v, v < pgroundup sz → m'.mapped d v ≠ none) →
      Built L m m' e suits (some (d, sz))

theorem Built.mono {suits suits' : Prop} {r : Option (ℕ × ℕ)} (h : Built L m m' e suits r)
    (hs : suits' → suits) : Built L m m' e suits' r := by
  cases h with
  | nulled hnull hunsuited => exact .nulled hnull fun h => hunsuited (hs h)
  | bad hwork => exact .bad hwork
  | image hwork hsz hmapped => exact .image hwork hsz fun h => hmapped (hs h)

/-- Nothing that matters was recorded yet. -/
theorem Course.start (hl : ∀ n ∈ l, n = .unread) : Course L 0 l := by
  have haside : ∀ n ∈ l, Aside n := by
    intro n hn
    rw [hl n hn]
    exact ⟨nofun, nofun, nofun⟩
  have hproper : Proper l := ⟨fun ph sz hm => (by cases hl _ hm), (aside_image haside).2,
    fun v hm => (by cases hl _ hm)⟩
  refine ⟨(aside_image haside).1, fun v hv => ?_, fun v g hg => ?_,
    iff_of_true ?_ hproper, fun _ => hproper⟩
  · cases hl _ hv
  · cases hl _ hg
  · rintro a v g b rfl
    cases hl (.load v g) (List.mem_append_right _ (List.mem_cons_self ..))

/-- `exec` with a header, up to its commit. -/
theorem Owned.buildFrom (h : Owned L m₀ e) (hmem : e.mem = none) (hdir : e.dir = none)
    (hlow : e.low = 0) (hwork : Works L m₀ m e e) (hnotes : m.notes = m₀.notes ++ l)
    (hl : ∀ n ∈ l, n = .unread) (hfree : m.free = m₀.free) {elf : ℕ → Byte} {argv : List Arg} {n : ℕ}
    (hn : n = img.pagesFrom (elfPhoff elf) (elfPhnum elf) + 2) :
    Gives (buildFrom L cur img elf argv) m
      (fun r m' => (Wild m₀ m' ∧ (img.type ≠ .dev → ¬∀ i, i < elfPhnum elf →
          TameAt img ((elfPhoff elf + sizeofProghdr * i) % 4294967296))) ∨
        (Told m₀ m' ∧ (img.type ≠ .dev → Ample m₀.free.length n → m'.lost = m₀.lost) ∧
          Built L m₀ m' e (img.Suits m₀.free.length n argv) r))
      fun p m' => (Misled m₀ m' p ∧ (img.type ≠ .dev → (∀ i, i < elfPhnum elf →
          TameAt img ((elfPhoff elf + sizeofProghdr * i) % 4294967296)) →
          ¬Ample m₀.free.length n)) ∨
        (Memory.Quiet p ∧ Told m₀ m' ∧
          (img.type ≠ .dev → Ample m₀.free.length n → m'.lost = m₀.lost) ∧
          Nulled m₀ m' ∧ ¬img.Suits m₀.free.length n argv) := by
  have hc : Course L 0 l := Course.start hl
  have h1 := h.works hwork
  have hlost : m.lost = m₀.lost :=
    lost_of_adds (S := (· = .unread)) ⟨l, hnotes, hl⟩ fun v hv => by cases hv
  unfold Memory.buildFrom
  split
  · exact gives_pure.mpr (Or.inr ⟨⟨l, hnotes, hc.verdict⟩, fun _ _ => hlost, .bad hwork⟩)
  · have hadds := (adds_setupkvm (L := L) (S := fun n => ∃ v, n = .starved v)
      fun v => ⟨v, rfl⟩).gives m
    refine (((h1.setupkvm hdir hlow).and (h1.setupkvm_tabled hdir hlow)).and hadds).bind ?_
      fun _ _ h => h.1.1.elim
    rintro r m1 ⟨⟨⟨rfl, hfail⟩ | ⟨d, rfl, hnew, hsame, hempty, hno⟩, hfew, htables⟩, hadd⟩
    · -- nobody has loaded anything yet
      obtain ⟨l1, hl1, hstarved⟩ := hadd
      have htold : Told m₀ m1 := by
        refine ⟨l ++ l1, by rw [hl1, hnotes, List.append_assoc], hc.verdict_append ?_ ?_⟩
        · intro n hn
          obtain ⟨v, rfl⟩ := hstarved n hn
          exact ⟨nofun, nofun, nofun⟩
        · exact fun v _ => Nat.zero_le _
      obtain ⟨hlt, hiff⟩ := hfew rfl
      refine gives_pure.mpr (Or.inr ⟨htold, fun _ hample => ?_, .bad (hwork.trans hfail)⟩)
      rw [hfree] at hlt hiff
      rw [← hlost, hiff, ← List.length_eq_zero_iff]
      exact hample.resolve_right fun hmany => absurd hlt (not_lt.mpr hmany.1)
    · have hdone := hwork.trans hnew
      have hb : Building L m₀ m1 e { e with dir := some d } d 0 l := by
        refine ⟨hdone, by rw [hsame, hnotes], hno, fun v hv x hx => ?_, by decide, fun v _ hv => ?_,
          fun v hv => ?_, fun v hv => ?_⟩
        · rw [hempty v hv] at hx
          cases hx
        · rw [Phys.mapped_eq, hempty v hv]
          rfl
        · exact absurd hv (Nat.not_lt_zero v)
        · cases hl _ hv
      have henv : ({ e with dir := none } : Env) = e := by
        rw [← hdir]
      obtain ⟨hlen, hentries⟩ := htables d rfl
      have hration : Rationed m₀ m1 d 0 := by
        refine Or.inl ⟨(congrArg (List.countP _) hsame).trans hlost, ?_⟩
        rw [← hfree]
        exact Phys.Fed.start hlen hentries
      have hample : ∀ {m' : Phys}, (img.type ≠ .dev → m'.lost = m₀.lost ∨
          Scarce m₀.free.length n) → img.type ≠ .dev → Ample m₀.free.length n →
          m'.lost = m₀.lost := fun hl hfile ha =>
        (hl hfile).resolve_right (ha.not_scarce (by rw [← hfree]; omega))
      have hmany : 65 ≤ m₀.free.length := by
        rw [← hfree]
        omega
      refine (Building.loadImage (e := { e with dir := some d }) hmem rfl hlow h hb hc hration hn).bind
        ?_ fun _ _ hp => hp.imp
          (fun hq => ⟨hq.1, fun hfile htame ha => ha.not_scarce hmany (hq.2 hfile htame)⟩)
          fun ⟨hquiet, htold, hlost, hrest⟩ => ⟨hquiet, htold, hample hlost, hrest⟩
      rintro r m2 (⟨hwild, huntame⟩ | ⟨htold, hlost2, hend⟩)
      · refine (hwild.gives (F := Memory.Quiet) ?_).mono (fun _ _ hw => Or.inl ⟨hw, huntame⟩)
          fun _ _ hw => Or.inl ⟨Or.inl hw, fun hfile htame => absurd htame (huntame hfile)⟩
        cases r with
        | none => exact adds_freevm.bind fun _ => Always.pure _
        | some sz => exact Always.pure _
      · cases r with
        | none =>
          -- nothing is recorded by `freevm`
          have hnothing := (adds_freevm (L := L) (d := d) (S := fun _ => False)).gives m2
          have hsame3 : ∀ {m3 : Phys}, Adds (fun _ => False) m2 m3 →
              img.type ≠ .dev → Ample m₀.free.length n → m3.lost = m₀.lost := by
            intro m3 hadd hfile ha
            rw [lost_of_adds hadd fun _ => id]
            exact hample hlost2 hfile ha
          rcases hend with ⟨hnull, hunsuited⟩ | ⟨hwork2, -⟩
          · refine ((hnull.gives (F := Memory.Quiet) adds_freevm).and hnothing).bind ?_ ?_
            · rintro _ m3 ⟨hnull', hadd⟩
              exact gives_pure.mpr (Or.inr ⟨htold.same hadd, hsame3 hadd, .nulled hnull' hunsuited⟩)
            · rintro p m3 ⟨hnull', hadd, hquiet⟩
              exact Or.inr ⟨hquiet, htold.same hadd, hsame3 hadd, hnull', hunsuited⟩
          · refine (((h.works hwork2).freevm hmem rfl hlow).and hnothing).bind ?_ fun _ _ h => h.1.elim
            rintro _ m3 ⟨⟨hfreed, -⟩, hadd⟩
            exact gives_pure.mpr (Or.inr ⟨htold.same hadd, hsame3 hadd,
              .bad (hwork2.trans (henv ▸ hfreed))⟩)
        | some sz =>
          refine gives_pure.mpr (Or.inr ⟨htold, hample hlost2, ?_⟩)
          rcases hend with ⟨hnull, hunsuited⟩ | ⟨hwork2, hsz⟩
          · exact .nulled hnull hunsuited
          · obtain ⟨hlt, hmapped⟩ := hsz sz rfl
            exact .image hwork2 hlt hmapped

/-- `exec` up to its commit. -/
theorem Owned.buildImage (h : Owned L m e) (hmem : e.mem = none) (hdir : e.dir = none)
    (hlow : e.low = 0) {junk : ℕ → Byte} {argv : List Arg} :
    Gives (buildImage L cur img junk argv) m
      (fun r m' => (Wild m m' ∧ ¬Tame img) ∨
        (Told m m' ∧ (img.type ≠ .dev → Ample m.free.length img.pages → m'.lost = m.lost) ∧
          Built L m m' e (img.Suits m.free.length img.pages argv) r))
      fun p m' => (Misled m m' p ∧ (Tame img → ¬Ample m.free.length img.pages)) ∨
        (Memory.Quiet p ∧ Told m m' ∧
          (img.type ≠ .dev → Ample m.free.length img.pages → m'.lost = m.lost) ∧ Nulled m m' ∧
          ¬img.Suits m.free.length img.pages argv) := by
  unfold Memory.buildImage
  rw [gives_bind]
  refine gives_readi fun r input hfile _ => ?_
  have hinput : Works L m (m.setInput input) e e := Works.setInput
  have hnone : ∀ n ∈ ([] : List Note), n = .unread := fun n hn => absurd hn List.not_mem_nil
  have hnotes : (m.setInput input).notes = m.notes ++ [] := (List.append_nil _).symm
  split
  · exact gives_pure.mpr (Or.inr ⟨⟨[], hnotes, (Course.start (L := L) hnone).verdict⟩,
      fun _ _ => rfl, .bad hinput⟩)
  · next hread =>
    rw [gives_bind]
    split
    · next hret =>
      -- a file can be read from its start, so this is a device
      have hdev : ¬img.type ≠ .dev := by
        intro hne
        rw [hfile hne] at hret
        unfold Image.fileRead sizeofElfhdr at hret
        rw [if_neg (by omega)] at hret
        cases hret
      rw [gives_modify]
      refine (h.buildFrom hmem hdir hlow (hinput.trans (Works.note (n := .unread) nofun))
        (l := [.unread]) rfl (fun n hn => List.mem_singleton.mp hn) rfl rfl).mono ?_ ?_
      · rintro r' m' (⟨hwild, -⟩ | ⟨htold, -, hbuilt⟩)
        · exact Or.inl ⟨hwild, fun ht => hdev ht.file⟩
        · exact Or.inr ⟨htold, fun hne => absurd hne hdev, hbuilt.mono fun hs => (hdev hs.1).elim⟩
      · exact fun _ _ hp => hp.imp (fun hq => ⟨hq.1, fun ht => absurd ht.file hdev⟩)
          fun ⟨hquiet, htold, _, hnull, _⟩ => ⟨hquiet, htold, fun hne => absurd hne hdev, hnull,
            fun hs => hdev hs.1⟩
    · next hret =>
      rw [gives_pure]
      -- the header of a file is where it starts
      have hhdr : img.type ≠ .dev → elfPhoff (splice junk 0 r.len r.byte) = elfPhoff img.data ∧
          elfPhnum (splice junk 0 r.len r.byte) = elfPhnum img.data := by
        intro hne
        obtain ⟨k, hk⟩ := Option.ne_none_iff_exists'.mp hret
        rw [hk] at hread
        have hr := hfile hne
        rw [hr] at hk
        obtain ⟨hphoff, hphnum, -⟩ := elf_of_read junk hk (by simpa using hread)
        rw [hr]
        exact ⟨hphoff, hphnum⟩
      have hpages : img.type ≠ .dev → img.pagesFrom (elfPhoff (splice junk 0 r.len r.byte))
          (elfPhnum (splice junk 0 r.len r.byte)) + 2 = img.pages := by
        intro hne
        rw [(hhdr hne).1, (hhdr hne).2]
        rfl
      have hsuits : img.Suits m.free.length img.pages argv → img.Suits m.free.length
          (img.pagesFrom (elfPhoff (splice junk 0 r.len r.byte))
            (elfPhnum (splice junk 0 r.len r.byte)) + 2) argv := fun hs => (hpages hs.1).symm ▸ hs
      refine (h.buildFrom hmem hdir hlow hinput hnotes hnone rfl rfl).mono ?_ ?_
      · rintro r' m' (⟨hwild, huntame⟩ | ⟨htold, hlost, hbuilt⟩)
        · refine Or.inl ⟨hwild, fun ht => huntame ht.file ?_⟩
          rw [(hhdr ht.file).1, (hhdr ht.file).2]
          exact ht.segments
        · exact Or.inr ⟨htold, fun hne ha => hlost hne ((hpages hne).symm ▸ ha), hbuilt.mono hsuits⟩
      · intro _ _ hp
        refine hp.imp (fun hq => ⟨hq.1, fun ht => ?_⟩)
          fun ⟨hquiet, htold, hlost, hnull, hout⟩ => ⟨hquiet, htold,
            fun hne ha => hlost hne ((hpages hne).symm ▸ ha), hnull, fun hs => hout (hsuits hs)⟩
        have hample := hq.2 ht.file
        rw [(hhdr ht.file).1, (hhdr ht.file).2] at hample
        exact hample ht.segments

end

end

end StrideXv6
