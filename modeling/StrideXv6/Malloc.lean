import StrideXv6.Heap

/-!
# `malloc`

`malloc` looks for the first block behind `freep` that is large enough and gives away its
last units, or the whole block. If there is none, `morecore` puts what it gets from `sbrk`
on the list, and then there is one.
-/

namespace StrideXv6.Umalloc

open Extents Extents.Extent

variable {base : ℕ} {os : List (ℤ × Option ℕ) → ℤ → Option ℕ} {h h' : Heap} {stop nunits : ℕ}
  {a b g q : Extent} {l x y pre post live : List Extent}

/-- The last block that was passed, if there was one. -/
def passed (prevp : ℕ) (x : List Extent) : ℕ := x.foldl (fun _ a => a.start) prevp

theorem passed_concat (prevp : ℕ) : passed prevp (x ++ [q]) = q.start := by
  rw [passed, List.foldl_append]
  rfl

/-- The loop passes over blocks that are too small. -/
theorem run_pass (os : List (ℤ × Option ℕ) → ℤ → Option ℕ) (fuel : ℕ)
    (hl : Links h.header stop x)
    (hx : ∀ a ∈ x, (h.header a.start).size < nunits ∧ a.start ≠ h.freep) (n prevp : ℕ) :
    Loop.run (mallocStep os fuel nunits) (x.length + n) (h, prevp, first stop x) =
      Loop.run (mallocStep os fuel nunits) n (h, passed prevp x, stop) := by
  induction x generalizing prevp with
  | nil =>
    rw [List.length_nil, Nat.zero_add]
    rfl
  | cons a x ih =>
    obtain ⟨hptr, -, hrest⟩ := hl
    obtain ⟨hsmall, hne⟩ := hx a (List.mem_cons_self ..)
    have hstep : mallocStep os fuel nunits (h, prevp, a.start) =
        some (.inl (h, a.start, first stop x)) := by
      rw [mallocStep, if_neg (Nat.not_le.mpr hsmall), if_neg hne, hptr]
    rw [List.length_cons, Nat.add_right_comm]
    exact (Loop.run_succ_inl hstep).trans
      (ih hrest (fun c hc => hx c (List.mem_cons_of_mem _ hc)) a.start)

/-- A list has a first element with a property, or none. -/
theorem exists_first_large (m : ℕ → Header) (nunits : ℕ) (l : List Extent) :
    (∀ a ∈ l, (m a.start).size < nunits) ∨
      ∃ x g y, l = x ++ g :: y ∧ nunits ≤ (m g.start).size ∧
        ∀ a ∈ x, (m a.start).size < nunits := by
  cases hfind : l.find? fun a => nunits ≤ (m a.start).size with
  | none =>
    left
    intro a ha
    have := List.find?_eq_none.mp hfind a ha
    simpa using this
  | some g =>
    obtain ⟨hg, x, y, heq, hx⟩ := List.find?_eq_some_iff_append.mp hfind
    refine .inr ⟨x, g, y, heq, of_decide_eq_true hg, fun a ha => ?_⟩
    simpa using hx a ha

/-- The loop, from the block behind `freep` on, comes to a block that is large enough,
right behind `prevp`, or to `freep` itself, if there is none. -/
theorem Linked.run_search (os : List (ℤ × Option ℕ) → ℤ → Option ℕ) (hl : Linked base h l) (hn : 0 < nunits) :
    (∃ pre q g post k, sentinel base :: l = pre ++ q :: g :: post ∧
        nunits ≤ (h.header g.start).size ∧
        ∀ fuel n, Loop.run (mallocStep os fuel nunits) (k + n)
          (h, h.freep, (h.header h.freep).ptr) =
          Loop.run (mallocStep os fuel nunits) n (h, q.start, g.start)) ∨
      (∀ a ∈ sentinel base :: l, (h.header a.start).size < nunits) ∧
        ∃ k prevp, ∀ fuel n,
          Loop.run (mallocStep os fuel nunits) (k + n) (h, h.freep, (h.header h.freep).ptr) =
            Loop.run (mallocStep os fuel nunits) n (h, prevp, h.freep) := by
  obtain ⟨f, hf, hfreep⟩ := hl.freep
  obtain ⟨u, v, huv⟩ := List.append_of_mem hf
  have hlinks := hl.links
  have hapart := hl.apart
  rw [huv] at hlinks hapart
  obtain ⟨hlu, hlf, -, hlv⟩ := links_append.mp hlinks
  have hptr : (h.header h.freep).ptr = first base v := hfreep ▸ hlf
  have hnev : ∀ a ∈ v, a.start ≠ h.freep := fun a ha =>
    hfreep ▸ start_ne_of_apart hapart (List.mem_append_right _ ha)
  have hneu : ∀ a ∈ u, a.start ≠ h.freep := fun a ha =>
    hfreep ▸ start_ne_of_apart hapart (List.mem_append_left _ ha)
  rw [hptr]
  rcases exists_first_large h.header nunits v with hv | ⟨x, g, y, rfl, hg, hx⟩
  · -- nothing behind `freep`: go on at the beginning
    have hfirst : first base (u ++ [f]) = base := by
      cases u with
      | nil => rw [← (List.cons_eq_cons.mp huv).1]; rfl
      | cons c u => rw [← (List.cons_eq_cons.mp huv).1]; rfl
    have hbegin : ∀ fuel n, Loop.run (mallocStep os fuel nunits) (v.length + n)
        (h, h.freep, first base v) =
        Loop.run (mallocStep os fuel nunits) n (h, passed h.freep v, base) :=
      fun fuel n => run_pass os fuel hlv (fun a ha => ⟨hv a ha, hnev a ha⟩) n _
    have hsentinel : (h.header base).size < nunits := by
      have : UNIT * (h.header base).size = 0 := hl.links.2.1
      unfold UNIT at this
      omega
    rcases exists_first_large h.header nunits (u ++ [f]) with hu | ⟨x, g, y, heq, hg, hx⟩
    · refine .inr ⟨fun a ha => ?_, v.length + u.length, passed (passed h.freep v) u,
        fun fuel n => ?_⟩
      · rw [huv, List.append_cons] at ha
        rcases List.mem_append.mp ha with ha | ha
        · exact hu a ha
        · exact hv a ha
      · have hsmall : ∀ a ∈ u, (h.header a.start).size < nunits ∧ a.start ≠ h.freep :=
          fun a ha => ⟨hu a (List.mem_append_left _ ha), hneu a ha⟩
        have hpass := run_pass os fuel hlu hsmall n (passed h.freep v)
        have hf : first base (f :: v) = h.freep := hfreep
        have hu' : first h.freep u = base := by
          rw [← hfreep]
          exact first_append.symm.trans hfirst
        rw [hf, hu'] at hpass
        rw [Nat.add_assoc, hbegin, hpass]
    · have hx' : x ≠ [] := by
        rintro rfl
        rw [heq] at hfirst
        have hgb : g.start = base := hfirst
        rw [hgb] at hg
        omega
      obtain ⟨pre, q, rfl⟩ := (List.eq_nil_or_concat' x).resolve_left hx'
      have hall : u ++ f :: v = (pre ++ [q]) ++ g :: (y ++ v) := by
        rw [List.append_cons, heq, List.append_assoc, List.cons_append]
      have hfg : f ∈ g :: y := by
        have hlast : (u ++ [f]).getLast? = some f := List.getLast?_concat
        rw [heq, List.getLast?_append_of_ne_nil _ (List.cons_ne_nil g y)] at hlast
        exact List.mem_of_getLast? hlast
      rw [hall] at hlinks hapart
      have hsmall : ∀ a ∈ pre ++ [q], (h.header a.start).size < nunits ∧ a.start ≠ h.freep :=
        fun a ha => by
          refine ⟨hx a ha, ?_⟩
          have hlt := (apart_append.mp hapart).2.2 a ha f (by
            rcases List.mem_cons.mp hfg with rfl | hf
            · exact List.mem_cons_self ..
            · exact List.mem_cons_of_mem _ (List.mem_append_left _ hf))
          have haa : a.start ≤ a.finish := Nat.le_add_right ..
          omega
      have hpass := fun fuel n c => run_pass os fuel (links_append.mp hlinks).1 hsmall n c
      refine .inl ⟨pre, q, g, y ++ v, v.length + (pre ++ [q]).length, ?_, hg, fun fuel n => ?_⟩
      · rw [huv, hall, List.append_assoc]
        rfl
      · rw [heq, first_append] at hfirst
        rw [Nat.add_assoc, hbegin, ← hfirst]
        exact (hpass fuel n _).trans (by rw [passed_concat]; rfl)
  · have hsmall : ∀ a ∈ x, (h.header a.start).size < nunits ∧ a.start ≠ h.freep :=
      fun a ha => ⟨hx a ha, hnev a (List.mem_append_left _ ha)⟩
    have hpass := fun fuel n => run_pass os fuel (links_append.mp hlv).1 hsmall n h.freep
    rw [first_append]
    rcases List.eq_nil_or_concat' x with rfl | ⟨pre, q, rfl⟩
    · refine .inl ⟨u, f, g, y, 0, huv, hg, fun fuel n => ?_⟩
      rw [Nat.zero_add, hfreep]
      rfl
    · refine .inl ⟨u ++ f :: pre, q, g, y, (pre ++ [q]).length, ?_, hg, fun fuel n => ?_⟩
      · rw [huv]
        simp only [List.append_assoc, List.cons_append, List.nil_append]
      · exact (hpass fuel n).trans (by rw [passed_concat]; rfl)

/-- What comes behind `q` may be replaced. -/
theorem exists_replaced (heq : sentinel base :: l = pre ++ q :: x) (y : List Extent) :
    ∃ l', pre ++ q :: y = sentinel base :: l' ∧ ∀ c ∈ l', c ∈ l ∨ c ∈ y := by
  cases pre with
  | nil =>
    obtain ⟨rfl, rfl⟩ := List.cons_eq_cons.mp heq
    exact ⟨y, rfl, fun c hc => .inr hc⟩
  | cons e pre =>
    obtain ⟨rfl, rfl⟩ := List.cons_eq_cons.mp heq
    refine ⟨pre ++ q :: y, rfl, fun c hc => ?_⟩
    rcases List.mem_append.mp hc with hc | hc
    · exact .inl (List.mem_append_left _ hc)
    · rcases List.mem_cons.mp hc with rfl | hc
      · exact .inl (by simp)
      · exact .inr hc

/-- A block that is taken as a whole leaves the list. -/
theorem Sound.take (hs : Sound base h l live)
    (heq : sentinel base :: l = pre ++ q :: g :: post) :
    ∃ l', Sound base { h.setPtr q.start (h.header g.start).ptr with freep := q.start } l'
      (g :: live) := by
  obtain ⟨l', hl', hmem⟩ := exists_replaced heq post
  have hlinks := hs.linked.links
  have hapart := hs.linked.apart
  rw [heq] at hlinks hapart
  obtain ⟨hlpre, hlq, hlqs, hlg, hlgs, hlpost⟩ := links_append.mp hlinks
  have hg : g ∈ l := mem_of_split heq (List.mem_cons_self ..)
  have hgq : g.start ≠ q.start := start_ne_of_apart hapart (by simp)
  have hcover : ∀ x, Extents.cover x l = Extents.cover x (g :: l') := fun x => by
    have hc := congrArg (Extents.cover x) heq
    have hc' := congrArg (Extents.cover x) hl'
    rw [cover_cons_empty rfl] at hc hc'
    simp only [cover_append, cover_cons] at hc hc' ⊢
    omega
  refine ⟨l', ⟨⟨hs.linked.base_pos, ?_, ?_, ?_, ?_⟩, ?_, ?_, ?_, hs.once⟩⟩
  · rw [← hl']
    refine links_append.mpr ⟨hlpre.congr fun c hc => header_setPtr_of_ne
      (start_ne_of_apart hapart (List.mem_append_left _ hc)), ?_, ?_, hlpost.congr fun c hc =>
        header_setPtr_of_ne (start_ne_of_apart hapart (by simp [hc]))⟩
    · change ((h.setPtr q.start _).header q.start).ptr = _
      rw [header_setPtr_self]
      exact hlg
    · change UNIT * ((h.setPtr q.start _).header q.start).size = _
      rw [header_setPtr_self]
      exact hlqs
  · rw [← hl']
    exact hapart.sublist ((List.sublist_cons_self g post).cons_cons q |>.append_left pre)
  · exact ⟨q, by rw [← hl']; simp, rfl⟩
  · intro c hc
    rcases hmem c hc with hc | hc
    · exact hs.linked.blocks c hc
    · exact hs.linked.blocks c (mem_of_split heq (List.mem_cons_of_mem _ hc))
  · intro c hc
    rcases List.mem_cons.mp hc with rfl | hc
    · exact hs.linked.blocks c hg
    · exact hs.blocks c hc
  · intro c hc
    change UNIT * ((h.setPtr q.start _).header c.start).size = _
    rcases List.mem_cons.mp hc with rfl | hc
    · rw [header_setPtr_of_ne hgq]
      exact hlgs
    · rw [header_setPtr_of_ne (hs.live_ne hc (by rw [heq]; simp))]
      exact hs.sizes c hc
  · intro x
    have hold := hs.cover x
    rw [cover_append, hcover] at hold
    rw [cover_append]
    simp only [cover_cons] at hold ⊢
    change _ = Extents.cover x (regions h.sbrks)
    omega

/-- A block may end earlier. -/
theorem apart_shorten (h : Extents.Apart (x ++ g :: y)) (hstart : a.start = g.start)
    (hfinish : a.finish ≤ g.finish) : Extents.Apart (x ++ a :: y) := by
  obtain ⟨hx, hy, hxy⟩ := apart_append.mp h
  obtain ⟨hg, hy⟩ := apart_cons.mp hy
  refine apart_append.mpr ⟨hx, apart_cons.mpr ⟨fun c hc => hfinish.trans_lt (hg c hc), hy⟩,
    fun c hc e he => ?_⟩
  rcases List.mem_cons.mp he with rfl | he
  · rw [hstart]
    exact hxy c hc g (List.mem_cons_self ..)
  · exact hxy c hc e (List.mem_cons_of_mem _ he)

/-- A block that is too large gives its last units. -/
theorem Sound.split (hs : Sound base h l live)
    (heq : sentinel base :: l = pre ++ q :: g :: post) (hn : 0 < nunits)
    (hlt : nunits < (h.header g.start).size) :
    ∃ b l', b.len = UNIT * nunits ∧
      b.start = behind g.start ((h.header g.start).size - nunits) ∧
      Sound base { (h.setSize g.start ((h.header g.start).size - nunits)).setSize
        b.start nunits with freep := q.start } l' (b :: live) := by
  have hlinks := hs.linked.links
  have hapart := hs.linked.apart
  rw [heq] at hlinks hapart
  have hgl : g ∈ l := mem_of_split heq (List.mem_cons_self ..)
  have hg := hs.linked.blocks g hgl
  have hsize := hs.linked.links.size (List.mem_cons_of_mem _ hgl)
  obtain ⟨s, hs'⟩ : ∃ s, (h.header g.start).size = s := ⟨_, rfl⟩
  rw [hs'] at hsize hlt
  obtain ⟨b, hb⟩ : ∃ b : Extent, b = ⟨g.start + UNIT * (s - nunits), UNIT * nunits⟩ := ⟨_, rfl⟩
  obtain ⟨rest, hrest⟩ : ∃ rest : Extent, rest = ⟨g.start, UNIT * (s - nunits)⟩ := ⟨_, rfl⟩
  have hfits := hg.fits
  have habove := hg.above
  have haligned := hg.aligned
  -- the block is the rest and what is given away
  have hjoin : rest.join b = g := by
    rw [hb, hrest, Extent.join, ← Nat.mul_add, Nat.sub_add_cancel hlt.le, hsize]
  have htouch : rest.finish = b.start := by rw [hb, hrest]; rfl
  have hbfin : b.finish = g.finish := by rw [← hjoin, finish_join htouch]
  have hbstart : b.start = g.start + UNIT * (s - nunits) := by rw [hb]
  have hblen : b.len = UNIT * nunits := by rw [hb]
  have hrlen : rest.len = UNIT * (s - nunits) := by rw [hrest]
  have hrstart : rest.start = g.start := by rw [hrest]
  have hgfin : g.finish = g.start + g.len := rfl
  unfold UNIT at hsize hbstart hblen hrlen habove haligned
  have hbgt : g.start < b.start := by omega
  have hblt : b.start < g.finish := by omega
  have hbblock : Block base b := ⟨by omega, by unfold UNIT; omega, by unfold UNIT; omega, by omega⟩
  have hrblock : Block base rest :=
    ⟨by omega, by unfold UNIT; omega, by unfold UNIT; omega, by omega⟩
  have hbehind : b.start = behind g.start (s - nunits) := by
    rw [behind, Nat.mod_eq_of_lt (by unfold UNIT; omega)]
    exact hbstart
  obtain ⟨l', hl', hmem⟩ := exists_replaced heq (rest :: post)
  -- other headers are not inside the block
  have hother : ∀ c ∈ (pre ++ [q]) ++ post, c.start ≠ g.start ∧ c.start ≠ b.start := by
    intro c hc
    have hapart' : Extents.Apart ((pre ++ [q]) ++ g :: post) := by rwa [List.append_assoc]
    refine ⟨start_ne_of_apart hapart' hc, ?_⟩
    rcases List.mem_append.mp hc with hc | hc
    · have := (apart_append.mp hapart').2.2 c hc g (List.mem_cons_self ..)
      have hcc : c.start ≤ c.finish := Nat.le_add_right ..
      omega
    · have := (apart_cons.mp (apart_append.mp hapart').2.1).1 c hc
      omega
  have hkept : ∀ c, c ≠ g.start → c ≠ b.start →
      ((h.setSize g.start (s - nunits)).setSize b.start nunits).header c = h.header c :=
    fun c hcg hcb => by rw [header_setSize_of_ne hcb, header_setSize_of_ne hcg]
  have hgb : ((h.setSize g.start (s - nunits)).setSize b.start nunits).header g.start =
      { h.header g.start with size := s - nunits } := by
    rw [header_setSize_of_ne hbgt.ne, header_setSize_self]
  refine ⟨b, l', by rw [hb], by rw [hs', hbehind], ?_⟩
  rw [hs']
  obtain ⟨hlpre, hlq, hlqs, hlg, -, hlpost⟩ := links_append.mp hlinks
  refine ⟨⟨hs.linked.base_pos, ?_, ?_, ?_, ?_⟩, ?_, ?_, ?_, hs.once⟩
  · rw [← hl']
    refine links_append.mpr ⟨hlpre.congr fun c hc => ?_, ?_, ?_, ?_, ?_, hlpost.congr fun c hc => ?_⟩
    · exact hkept _ (hother c (by simp [hc])).1 (hother c (by simp [hc])).2
    · change (((h.setSize _ _).setSize _ _).header q.start).ptr = rest.start
      rw [hkept _ (hother q (by simp)).1 (hother q (by simp)).2, hrstart]
      exact hlq
    · change UNIT * (((h.setSize _ _).setSize _ _).header q.start).size = _
      rw [hkept _ (hother q (by simp)).1 (hother q (by simp)).2]
      exact hlqs
    · change (((h.setSize _ _).setSize _ _).header rest.start).ptr = _
      rw [hrstart, hgb]
      exact hlg
    · change UNIT * (((h.setSize _ _).setSize _ _).header rest.start).size = _
      rw [hrstart, hgb, hrlen]
      rfl
    · exact hkept _ (hother c (by simp [hc])).1 (hother c (by simp [hc])).2
  · rw [← hl']
    have hapart' : Extents.Apart ((pre ++ [q]) ++ g :: post) := by rwa [List.append_assoc]
    have hshort := apart_shorten hapart' hrstart (by omega)
    rwa [List.append_assoc] at hshort
  · exact ⟨q, by rw [← hl']; simp, rfl⟩
  · intro c hc
    rcases hmem c hc with hc | hc
    · exact hs.linked.blocks c hc
    · rcases List.mem_cons.mp hc with rfl | hc
      · exact hrblock
      · exact hs.linked.blocks c (mem_of_split heq (List.mem_cons_of_mem _ hc))
  · intro c hc
    rcases List.mem_cons.mp hc with rfl | hc
    · exact hbblock
    · exact hs.blocks c hc
  · intro c hc
    change UNIT * (((h.setSize _ _).setSize _ _).header c.start).size = _
    rcases List.mem_cons.mp hc with rfl | hc
    · rw [header_setSize_self, hblen]
      rfl
    · -- a live block is not inside a free one
      have hcg : c.start ≠ g.start := hs.live_ne hc (List.mem_cons_of_mem _ hgl)
      have hperm : (live ++ l).Perm (g :: (live ++ l.erase g)) :=
        ((List.perm_cons_erase hgl).append_left live).trans List.perm_middle
      have hdisj := hs.disjoint hperm (List.mem_append_left _ hc)
      have hcc := (hs.blocks c hc).start_lt
      rw [hkept _ hcg (by omega)]
      exact hs.sizes c hc
  · intro x
    change Extents.cover x (b :: live ++ l') = Extents.cover x (regions h.sbrks)
    have hc := congrArg (Extents.cover x) heq
    have hc' := congrArg (Extents.cover x) hl'
    have hgc : Extents.cover x (g :: post) = Extents.cover x (rest :: b :: post) := by
      rw [← hjoin]
      exact cover_cons_join htouch
    rw [cover_cons_empty rfl] at hc hc'
    rw [← hs.cover x]
    simp only [cover_append, List.cons_append, cover_cons] at hc hc' hgc ⊢
    omega

/-- The loop ends at a block that is large enough. -/
theorem Sound.carve (os : List (ℤ × Option ℕ) → ℤ → Option ℕ) (hs : Sound base h l live)
    (heq : sentinel base :: l = pre ++ q :: g :: post) (hn : 0 < nunits)
    (hle : nunits ≤ (h.header g.start).size) :
    ∃ b h' l', (∀ fuel, mallocStep os fuel nunits (h, q.start, g.start) =
        some (.inr (b.start + UNIT, h'))) ∧
      b.len = UNIT * nunits ∧ Sound base h' l' (b :: live) ∧ h'.sbrks = h.sbrks := by
  have hreturn : ∀ b, Block base b → b.len = UNIT * nunits → behind b.start 1 = b.start + UNIT := by
    intro b hb hlen
    have hfits := hb.fits
    unfold UNIT at hlen
    rw [behind, Nat.mul_one, Nat.mod_eq_of_lt]
    simp only [finish] at hfits
    unfold UNIT
    omega
  by_cases hfull : (h.header g.start).size = nunits
  · obtain ⟨l', hs'⟩ := hs.take heq
    have hlen : g.len = UNIT * nunits := by
      rw [← hfull]
      have hg : g ∈ l := mem_of_split heq (List.mem_cons_self ..)
      exact (hs.linked.links.size (List.mem_cons_of_mem _ hg)).symm
    refine ⟨g, _, l', fun fuel => ?_, hlen, hs', rfl⟩
    rw [mallocStep, if_pos hle, if_pos hfull, hreturn g (hs'.blocks g (List.mem_cons_self ..)) hlen]
  · obtain ⟨b, l', hlen, hstart, hs'⟩ := hs.split heq hn (Nat.lt_of_le_of_ne hle (Ne.symm hfull))
    refine ⟨b, _, l', fun fuel => ?_, hlen, hs', rfl⟩
    rw [mallocStep, if_pos hle, if_neg hfull]
    simp only [header_setSize_self]
    rw [← hstart, hreturn b (hs'.blocks b (List.mem_cons_self ..)) hlen]

theorem regions_cons_some {sbrks : List (ℤ × Option ℕ)} {n : ℤ} {s : ℕ} :
    regions ((n, some s) :: sbrks) = ⟨s, n.toNat⟩ :: regions sbrks := rfl

theorem regions_cons_none {sbrks : List (ℤ × Option ℕ)} {n : ℤ} :
    regions ((n, none) :: sbrks) = regions sbrks := rfl

/-- What the heap looks like depends on the headers and on what `sbrk` has given. -/
theorem Sound.of_regions (hs : Sound base h l live) {sbrks : List (ℤ × Option ℕ)}
    (hr : regions sbrks = regions h.sbrks) : Sound base { h with sbrks := sbrks } l live where
  linked := ⟨hs.linked.base_pos, hs.linked.links, hs.linked.apart, hs.linked.freep,
    hs.linked.blocks⟩
  blocks := hs.blocks
  sizes := hs.sizes
  cover x := by rw [hs.cover, ← hr]
  once x := by rw [hr]; exact hs.once x

/-- A new region begins nowhere where a block does. -/
theorem Sound.start_ne (hs : Sound base h l live) (ha : a ∈ live ++ l) (hpos : 0 < b.len)
    (hb : ∀ r ∈ regions h.sbrks, r.finish ≤ b.start ∨ b.finish ≤ r.start) :
    a.start ≠ b.start := by
  intro heq
  have hblock : Block base a := by
    rcases List.mem_append.mp ha with ha | ha
    · exact hs.blocks a ha
    · exact hs.linked.blocks a ha
  have hcovered : 0 < Extents.cover a.start (regions h.sbrks) := by
    rw [← hs.cover]
    exact List.countP_pos_iff.mpr ⟨a, ha, by simpa using hblock.start_lt⟩
  obtain ⟨r, hr, hin⟩ := List.countP_pos_iff.mp hcovered
  have hin := of_decide_eq_true hin
  have := hb r hr
  simp only [finish] at this hin
  omega

/-- A new region is, at first, like a live block. -/
theorem Sound.region (hs : Sound base h l live) (hb : Block base b) {nu : ℕ} {n : ℤ}
    (hnu : UNIT * nu = b.len) (hn : n.toNat = b.len)
    (hdisj : ∀ r ∈ regions h.sbrks, r.finish ≤ b.start ∨ b.finish ≤ r.start) :
    Sound base (({ h with sbrks := (n, some b.start) :: h.sbrks } : Heap).setSize b.start nu) l
      (b :: live) := by
  have hne : ∀ a ∈ live ++ l, a.start ≠ b.start := fun a ha => hs.start_ne ha hb.pos hdisj
  have hregions : regions ((n, some b.start) :: h.sbrks) = b :: regions h.sbrks := by
    rw [regions_cons_some, hn]
  have hlinks : Links (({ h with sbrks := (n, some b.start) :: h.sbrks } : Heap).setSize
      b.start nu).header base (sentinel base :: l) := by
    refine hs.linked.links.congr fun a ha => header_setSize_of_ne ?_
    rcases List.mem_cons.mp ha with rfl | ha
    · have := hb.above
      unfold UNIT at this
      simp only [sentinel]
      omega
    · exact hne a (List.mem_append_right _ ha)
  refine ⟨⟨hs.linked.base_pos, hlinks, hs.linked.apart, hs.linked.freep, hs.linked.blocks⟩,
    fun c hc => ?_, fun c hc => ?_, fun x => ?_, fun x => ?_⟩
  · rcases List.mem_cons.mp hc with rfl | hc
    · exact hb
    · exact hs.blocks c hc
  · rcases List.mem_cons.mp hc with rfl | hc
    · rw [header_setSize_self]
      exact hnu
    · rw [header_setSize_of_ne (hne c (List.mem_append_left _ hc))]
      exact hs.sizes c hc
  · rw [sbrks_setSize, hregions, List.cons_append, cover_cons, cover_cons, hs.cover]
  · rw [sbrks_setSize, hregions, cover_cons]
    split
    · next hin =>
      have hzero : Extents.cover x (regions h.sbrks) = 0 := by
        refine List.countP_eq_zero.mpr fun r hr => ?_
        have := hdisj r hr
        simp only [decide_eq_true_eq]
        omega
      rw [hzero]
    · exact hs.once x

theorem asInt_of_lt {n : ℕ} (h : n < 2 ^ 31) : asInt n = n := if_pos h

/-- How many bytes `morecore` asks for, if that is a positive number. -/
def moreBytes (nunits : ℕ) : ℕ := UNIT * if nunits < 4096 then 4096 else nunits

theorem asInt_moreBytes (hsmall : UNIT * nunits < 2 ^ 31) :
    asInt ((if nunits < 4096 then 4096 else nunits) * UNIT % 2 ^ 32) = moreBytes nunits := by
  have hlt : moreBytes nunits < 2 ^ 31 := by
    unfold moreBytes
    split
    · decide
    · exact hsmall
  rw [Nat.mul_comm]
  change asInt (moreBytes nunits % 2 ^ 32) = _
  rw [Nat.mod_eq_of_lt (hlt.trans (by decide)), asInt_of_lt hlt]

theorem moreBytes_pos : 0 < moreBytes nunits := by
  unfold moreBytes UNIT
  split <;> omega

theorem le_moreBytes : UNIT * nunits ≤ moreBytes nunits := by
  unfold moreBytes
  exact Nat.mul_le_mul_left _ (by split <;> omega)

/-- The calls of `sbrk`, with the one that `morecore` makes. -/
def asked (os : List (ℤ × Option ℕ) → ℤ → Option ℕ) (nunits : ℕ)
    (sbrks : List (ℤ × Option ℕ)) : List (ℤ × Option ℕ) :=
  ((moreBytes nunits : ℤ), os sbrks (moreBytes nunits)) :: sbrks

/-- **`morecore`** fails, if `sbrk` does, or there is a block on the list that is large
enough. -/
theorem Sound.morecore (hs : Sound base h l live) (hos : Fresh base os)
    (hsmall : UNIT * nunits < 2 ^ 31) :
    os h.sbrks (moreBytes nunits) = none ∧
        (∀ fuel, morecore os fuel h nunits =
          some (none, { h with sbrks := asked os nunits h.sbrks })) ∧
        Sound base { h with sbrks := asked os nunits h.sbrks } l live ∨
      ∃ h' l' n, (∀ fuel > n, morecore os fuel h nunits = some (some h'.freep, h')) ∧
        Sound base h' l' live ∧ h'.sbrks = asked os nunits h.sbrks ∧
        ∃ g ∈ l', UNIT * nunits ≤ g.len := by
  have hbytes := asInt_moreBytes hsmall
  have hpos : (0 : ℤ) < moreBytes nunits := Int.natCast_pos.mpr moreBytes_pos
  unfold asked
  cases hanswer : os h.sbrks (moreBytes nunits) with
  | none =>
    refine .inl ⟨rfl, fun fuel => ?_, hs.of_regions regions_cons_none⟩
    simp only [Umalloc.morecore, hbytes, hanswer]
    rfl
  | some s =>
    obtain ⟨haligned, habove, hfits, hdisj⟩ := hos _ _ _ hpos hanswer
    rw [Int.toNat_natCast] at hfits hdisj
    obtain ⟨b, hb⟩ : ∃ b : Extent, b = ⟨s, moreBytes nunits⟩ := ⟨_, rfl⟩
    have hstart : b.start = s := by rw [hb]
    have hlen : b.len = moreBytes nunits := by rw [hb]
    have hfinish : b.finish = s + moreBytes nunits := by rw [hb]; rfl
    have hblock : Block base b :=
      ⟨hlen ▸ moreBytes_pos, hstart ▸ haligned, hstart ▸ habove, hfinish ▸ hfits⟩
    have hs₁ := hs.region hblock hlen.symm (by rw [hlen, Int.toNat_natCast])
      (by rw [hfinish, hstart]; exact hdisj)
    obtain ⟨h', l', n, hrun, hs', hsbrks, g, hg, hlarge⟩ := hs₁.free (List.Perm.refl _)
    rw [hstart] at hrun hsbrks
    have hbehind : behind s 1 = s + UNIT := by
      rw [behind, Nat.mul_one, Nat.mod_eq_of_lt]
      have hunit : UNIT ≤ moreBytes nunits := by
        unfold moreBytes UNIT
        split <;> omega
      omega
    refine .inr ⟨h', l', n, fun fuel hfuel => ?_, hs', hsbrks, g, hg, ?_⟩
    · simp only [Umalloc.morecore, hbytes, hanswer, hbehind]
      rw [hrun fuel hfuel]
      rfl
    · rw [hlen] at hlarge
      exact le_moreBytes.trans hlarge

/-- What comes out of `malloc`: nothing, if `sbrk` failed, or a block. -/
inductive Allocated (base : ℕ) (os : List (ℤ × Option ℕ) → ℤ → Option ℕ) (nunits : ℕ)
    (sbrks : List (ℤ × Option ℕ)) (live : List Extent) : ℕ → Heap → Prop
  | null {h' l'} : os sbrks (moreBytes nunits) = none → h'.sbrks = asked os nunits sbrks →
    Sound base h' l' live → Allocated base os nunits sbrks live 0 h'
  | block {h' l' b} : h'.sbrks = sbrks ∨ h'.sbrks = asked os nunits sbrks →
    b.len = UNIT * nunits → Sound base h' l' (b :: live) →
    Allocated base os nunits sbrks live (b.start + UNIT) h'

/-- **The loop of `malloc`** ends. -/
theorem Sound.run_malloc (hs : Sound base h l live) (hos : Fresh base os) (hn : 0 < nunits)
    (hsmall : UNIT * nunits < 2 ^ 31) :
    ∃ r h' n, (∀ fuel > n, Loop.run (mallocStep os fuel nunits) fuel
        (h, h.freep, (h.header h.freep).ptr) = some (r, h')) ∧
      Allocated base os nunits h.sbrks live r h' := by
  rcases hs.linked.run_search os hn with
    ⟨pre, q, g, post, k, heq, hle, hrun⟩ | ⟨hnone, k, prevp, hrun⟩
  · obtain ⟨b, h', l', hstep, hlen, hs', hsbrks⟩ := hs.carve os heq hn hle
    refine ⟨_, h', k, fun fuel hfuel => Loop.run_of_le (fun n => ?_) hfuel,
      .block (.inl hsbrks) hlen hs'⟩
    rw [hrun]
    exact Loop.run_succ_inr (hstep fuel)
  · -- the list has to grow
    obtain ⟨f, hf, hfreep⟩ := hs.linked.freep
    have hsmallf : ¬ (h.header h.freep).size ≥ nunits := by
      rw [← hfreep]
      exact Nat.not_le.mpr (hnone f hf)
    obtain ⟨hanswer, hmore, hs'⟩ | ⟨h', l', n, hmore, hs', hsbrks, g, hg, hlarge⟩ :=
      hs.morecore hos hsmall
    · refine ⟨0, _, k, fun fuel hfuel => Loop.run_of_le (fun n => ?_) hfuel,
        .null hanswer rfl hs'⟩
      rw [hrun]
      refine Loop.run_succ_inr ?_
      rw [mallocStep, if_neg hsmallf, if_pos rfl, hmore]
      rfl
    · -- the second time there is a block
      rcases hs'.linked.run_search os hn with
        ⟨pre, q, g', post, k', heq, hle, hrun'⟩ | ⟨hnone', -⟩
      · obtain ⟨b, h'', l'', hstep, hlen, hs'', hsbrks'⟩ := hs'.carve os heq hn hle
        refine ⟨_, h'', n + (k + 1 + k'), fun fuel hfuel => ?_,
          .block (.inr (hsbrks'.trans hsbrks)) hlen hs''⟩
        have hfuel' : k + 1 + k' < fuel := by omega
        refine Loop.run_of_le (fun m => ?_) hfuel'
        rw [Nat.add_assoc, Nat.add_assoc, hrun, Nat.add_comm 1]
        refine (Loop.run_succ_inl (t := (h', h'.freep, (h'.header h'.freep).ptr)) ?_).trans ?_
        · rw [mallocStep, if_neg hsmallf, if_pos rfl, hmore fuel (by omega)]
          rfl
        · rw [hrun']
          exact Loop.run_succ_inr (hstep fuel)
      · have hsize := hs'.linked.links.size (List.mem_cons_of_mem _ hg)
        have hlt := hnone' g (List.mem_cons_of_mem _ hg)
        unfold UNIT at hsize hlarge
        omega

/-- A heap on which only `malloc` and `free` have worked: nothing was called yet, or the
blocks are in order. -/
def Valid (base : ℕ) (h : Heap) (live : List Extent) : Prop :=
  h.freep = 0 ∧ h.sbrks = [] ∧ live = [] ∨ ∃ l, Sound base h l live

theorem Valid.setUp (hv : Valid base h live) (hbase : 0 < base) :
    (setUp base h).sbrks = h.sbrks ∧ ∃ l, Sound base (setUp base h) l live := by
  rcases hv with ⟨hfreep, hsbrks, rfl⟩ | ⟨l, hs⟩
  · have heq : Umalloc.setUp base h =
        { (h.setPtr base base).setSize base 0 with freep := base } := if_pos hfreep
    have hheader : ((h.setPtr base base).setSize base 0).header base = ⟨base, 0⟩ := by
      rw [header_setSize_self, header_setPtr_self]
    rw [heq]
    refine ⟨rfl, [], ⟨hbase, ⟨?_, ?_, trivial⟩, List.pairwise_singleton .., ?_, ?_⟩, ?_, ?_, ?_, ?_⟩
    · exact congrArg Header.ptr hheader
    · change UNIT * (((h.setPtr base base).setSize base 0).header base).size = 0
      rw [hheader]
      exact Nat.mul_zero UNIT
    · exact ⟨sentinel base, List.mem_cons_self .., rfl⟩
    · exact fun b hb => (nomatch hb)
    · exact fun b hb => (nomatch hb)
    · exact fun b hb => (nomatch hb)
    · intro x
      change _ = Extents.cover x (regions h.sbrks)
      rw [hsbrks]
      rfl
    · intro x
      change Extents.cover x (regions h.sbrks) ≤ 1
      rw [hsbrks]
      exact Nat.zero_le 1
  · have hne : h.freep ≠ 0 := by
      obtain ⟨a, ha, hfreep⟩ := hs.linked.freep
      rw [← hfreep]
      rcases List.mem_cons.mp ha with rfl | ha
      · exact hbase.ne'
      · have := (hs.linked.blocks a ha).above
        omega
    have heq : Umalloc.setUp base h = h := if_neg hne
    rw [heq]
    exact ⟨rfl, l, hs⟩

theorem unitsOf_pos {nbytes : ℕ} : 0 < unitsOf nbytes := Nat.succ_pos _

/-- **`malloc`** ends, with a block or without one. -/
theorem Valid.malloc (hv : Valid base h live) (hbase : 0 < base) (hos : Fresh base os) {nbytes : ℕ}
    (hsmall : UNIT * unitsOf nbytes < 2 ^ 31) :
    ∃ r h' n, (∀ fuel > n, malloc base os fuel nbytes h = some (r, h')) ∧
      Allocated base os (unitsOf nbytes) h.sbrks live r h' := by
  obtain ⟨hsbrks, l, hs⟩ := hv.setUp hbase
  obtain ⟨r, h', n, hrun, hout⟩ := hs.run_malloc hos unitsOf_pos hsmall
  rw [hsbrks] at hout
  exact ⟨r, h', n, hrun, hout⟩

/-! ## Programs -/

/-- A program has a heap and pointers into it: those that `malloc` returned and that were
not given back, with the number of bytes asked for. -/
structure Session where
  heap : Heap
  live : List (ℕ × ℕ)

inductive Call where
  | malloc (nbytes : ℕ)
  | free (p : ℕ)
  /-- The program writes into its memory. -/
  | store (p : ℕ) (v : Header)

/-- Before the first call. -/
def Session.start (header : ℕ → Header) : Session := ⟨⟨header, 0, []⟩, []⟩

/-- One call of a program. -/
def Session.step (base : ℕ) (os : List (ℤ × Option ℕ) → ℤ → Option ℕ) (fuel : ℕ) (s : Session) :
    Call → Option Session
  | .malloc nbytes =>
    (Umalloc.malloc base os fuel nbytes s.heap).map fun (p, h) =>
      ⟨h, if p = 0 then s.live else (p, nbytes) :: s.live⟩
  | .free p => (Umalloc.free fuel s.heap p).map fun h => ⟨h, s.live.eraseP (·.1 = p)⟩
  | .store p v =>
    some { s with heap := { s.heap with header := Function.update s.heap.header p v } }

/-- What a program may do: ask for less than two gigabytes, free what it has, write into
what it has. -/
def Session.Legal (s : Session) : Call → Prop
  | .malloc nbytes => UNIT * ((nbytes + UNIT - 1) / UNIT + 1) < 2 ^ 31
  | .free p => ∃ nbytes, (p, nbytes) ∈ s.live
  | .store p _ => ∃ q nbytes, (q, nbytes) ∈ s.live ∧ q ≤ p ∧ p < q + nbytes

/-- The pointer `p.1` is to the inside of the block, where there are `p.2` bytes. -/
def Inside (b : Extent) (p : ℕ × ℕ) : Prop := p.1 = b.start + UNIT ∧ p.2 + UNIT ≤ b.len

/-- The call returns, if its loops may take as many turns as they need, and leaves the
program in the state `s'`. -/
def Session.Returns (base : ℕ) (os : List (ℤ × Option ℕ) → ℤ → Option ℕ) (s : Session)
    (call : Call) (s' : Session) : Prop :=
  ∃ n, ∀ fuel > n, s.step base os fuel call = some s'

/-- The states that a program can come to. -/
inductive Session.Reached (base : ℕ) (os : List (ℤ × Option ℕ) → ℤ → Option ℕ)
    (header : ℕ → Header) : Session → Prop
  | start : Session.Reached base os header (.start header)
  | call {s s' : Session} {call : Call} : Session.Reached base os header s → s.Legal call →
    s.Returns base os call s' → Session.Reached base os header s'

/-- The heap is in order, and the pointers of the program are those to the live blocks. -/
def Session.Intact (base : ℕ) (s : Session) : Prop :=
  ∃ live, Valid base s.heap live ∧ List.Forall₂ Inside live s.live

variable {s : Session}

theorem units_eq {nbytes : ℕ} (h : UNIT * ((nbytes + UNIT - 1) / UNIT + 1) < 2 ^ 31) :
    UNIT * unitsOf nbytes < 2 ^ 31 ∧ nbytes + UNIT ≤ UNIT * unitsOf nbytes := by
  unfold unitsOf
  unfold UNIT at h ⊢
  omega

theorem Intact.malloc (hs : s.Intact base) (hbase : 0 < base) (hos : Fresh base os) {nbytes : ℕ}
    (h : UNIT * ((nbytes + UNIT - 1) / UNIT + 1) < 2 ^ 31) :
    ∃ s', s.Returns base os (.malloc nbytes) s' ∧ s'.Intact base := by
  obtain ⟨live, hv, hlive⟩ := hs
  obtain ⟨hsmall, hle⟩ := units_eq h
  obtain ⟨r, h', n, hrun, hout⟩ := hv.malloc hbase hos hsmall
  refine ⟨⟨h', if r = 0 then s.live else (r, nbytes) :: s.live⟩, ⟨n, fun fuel hfuel => ?_⟩, ?_⟩
  · rw [Session.step, hrun fuel hfuel]
    rfl
  · cases hout with
    | null _ _ hs' => exact ⟨live, .inr ⟨_, hs'⟩, hlive⟩
    | @block _ _ b _ hlen hs' =>
      refine ⟨b :: live, .inr ⟨_, hs'⟩, ?_⟩
      have hne : b.start + UNIT ≠ 0 := Nat.succ_ne_zero _
      rw [if_neg hne]
      exact .cons ⟨rfl, hlen ▸ hle⟩ hlive

/-- Taking out the first element of each of two lists. -/
theorem forall₂_eraseP {ps : List (ℕ × ℕ)} (h : List.Forall₂ Inside live ps) (p : ℕ) :
    List.Forall₂ Inside (live.eraseP (·.start + UNIT = p)) (ps.eraseP (·.1 = p)) := by
  induction h with
  | nil => exact .nil
  | @cons b q live ps hbq _ ih =>
    by_cases hq : q.1 = p
    · rw [List.eraseP_cons_of_pos (by simpa [← hbq.1]), List.eraseP_cons_of_pos (by simpa)]
      assumption
    · rw [List.eraseP_cons_of_neg (by simpa [← hbq.1]), List.eraseP_cons_of_neg (by simpa)]
      exact .cons hbq ih

/-- Every pointer is into a live block. -/
theorem exists_inside {ps : List (ℕ × ℕ)} (h : List.Forall₂ Inside live ps) {p : ℕ × ℕ}
    (hp : p ∈ ps) : ∃ b ∈ live, Inside b p := by
  induction h with
  | nil => cases hp
  | cons hbq _ ih =>
    rcases List.mem_cons.mp hp with rfl | hp
    · exact ⟨_, List.mem_cons_self .., hbq⟩
    · obtain ⟨b, hb, hin⟩ := ih hp
      exact ⟨b, List.mem_cons_of_mem _ hb, hin⟩

/-- A heap with live blocks has been used. -/
theorem Valid.sound (hv : Valid base h live) (hb : b ∈ live) : ∃ l, Sound base h l live := by
  rcases hv with ⟨-, -, rfl⟩ | hs
  · cases hb
  · exact hs

theorem Intact.free (hs : s.Intact base) {p nbytes : ℕ} (hp : (p, nbytes) ∈ s.live) :
    ∃ s', s.Returns base os (.free p) s' ∧ s'.Intact base := by
  obtain ⟨live, hv, hlive⟩ := hs
  obtain ⟨c, hc, hin, -⟩ := exists_inside hlive hp
  obtain ⟨l, hs⟩ := hv.sound hc
  obtain ⟨b, x, y, -, hb, rfl, herase⟩ := List.exists_of_eraseP hc
    (p := fun b => decide (b.start + UNIT = p)) (by simpa using hin.symm)
  have hb : b.start + UNIT = p := of_decide_eq_true hb
  have hperm : (x ++ b :: y).Perm (b :: (x ++ y)) := List.perm_middle
  obtain ⟨h', l', n, hrun, hs', -⟩ := hs.free hperm
  refine ⟨⟨h', s.live.eraseP (·.1 = p)⟩, ⟨n, fun fuel hfuel => ?_⟩, x ++ y, .inr ⟨l', hs'⟩, ?_⟩
  · rw [Session.step, ← hb, hrun fuel hfuel]
    rfl
  · have herased := forall₂_eraseP hlive p
    rwa [herase] at herased

/-- No header is inside a live block. -/
theorem Sound.header_ne (hs : Sound base h l live) (hb : b ∈ live) {p : ℕ}
    (hp : b.start + UNIT ≤ p) (hp' : p < b.finish) (ha : a ∈ (sentinel base :: l) ++ live) :
    a.start ≠ p := by
  have hblock := hs.blocks b hb
  have habove := hblock.above
  unfold UNIT at hp habove
  have hother : ∀ a, Block base a → a ∈ live.erase b ++ l → a.start ≠ p := fun a hablock ha => by
    have hperm : (live ++ l).Perm (b :: (live.erase b ++ l)) :=
      (List.perm_cons_erase hb).append_right l
    have := hs.disjoint hperm ha
    have := hablock.start_lt
    omega
  rcases List.mem_append.mp ha with ha | ha
  · rcases List.mem_cons.mp ha with rfl | ha
    · simp only [sentinel]
      omega
    · exact hother a (hs.linked.blocks a ha) (List.mem_append_right _ ha)
  · by_cases hab : a = b
    · subst hab
      omega
    · exact hother a (hs.blocks a ha) (List.mem_append_left _ ((List.mem_erase_of_ne hab).mpr ha))

theorem Intact.store (hs : s.Intact base) {p q nbytes : ℕ} (v : Header)
    (hq : (q, nbytes) ∈ s.live) (hqp : q ≤ p) (hp : p < q + nbytes) :
    ∃ s', s.Returns base os (.store p v) s' ∧ s'.Intact base := by
  obtain ⟨live, hv, hlive⟩ := hs
  obtain ⟨b, hb, hin, hbytes⟩ := exists_inside hlive hq
  obtain ⟨l, hs⟩ := hv.sound hb
  have hp' : p < b.finish := by
    unfold finish
    simp only at hin hbytes
    omega
  have hkept : ∀ a ∈ (sentinel base :: l) ++ live,
      Function.update s.heap.header p v a.start = s.heap.header a.start := fun a ha =>
    Function.update_of_ne (hs.header_ne hb (hin ▸ hqp) hp' ha) ..
  refine ⟨_, ⟨0, fun _ _ => rfl⟩, live, .inr ⟨l, ⟨hs.linked.base_pos, ?_, hs.linked.apart, hs.linked.freep,
    hs.linked.blocks⟩, hs.blocks, fun c hc => ?_, hs.cover, hs.once⟩, hlive⟩
  · exact hs.linked.links.congr fun a ha => hkept a (List.mem_append_left _ ha)
  · change UNIT * (Function.update s.heap.header p v c.start).size = c.len
    rw [hkept c (List.mem_append_right _ hc)]
    exact hs.sizes c hc

/-- Every call that a program may make returns, and the heap is in order then. -/
theorem Intact.step (hs : s.Intact base) (hbase : 0 < base) (hos : Fresh base os) {call : Call}
    (hlegal : s.Legal call) : ∃ s', s.Returns base os call s' ∧ s'.Intact base := by
  cases call with
  | malloc nbytes => exact Intact.malloc hs hbase hos hlegal
  | free p =>
    obtain ⟨nbytes, hp⟩ := hlegal
    exact Intact.free hs hp
  | store p v =>
    obtain ⟨q, nbytes, hq, hqp, hp⟩ := hlegal
    exact Intact.store hs v hq hqp hp

/-- A call has one result at most. -/
theorem Session.Returns.unique {call : Call} {s₁ s₂ : Session} (h₁ : s.Returns base os call s₁)
    (h₂ : s.Returns base os call s₂) : s₁ = s₂ := by
  obtain ⟨n₁, h₁⟩ := h₁
  obtain ⟨n₂, h₂⟩ := h₂
  have := (h₁ (n₁ + n₂ + 1) (by omega)).symm.trans (h₂ (n₁ + n₂ + 1) (by omega))
  exact Option.some.inj this

theorem intact_start (header : ℕ → Header) : (Session.start header).Intact base :=
  ⟨[], .inl ⟨rfl, rfl, rfl⟩, .nil⟩

/-- **The heap stays in order**, whatever a program does that it may do, and every such
call returns. -/
theorem heap_integrity {header : ℕ → Header} (hbase : 0 < base) (hos : Fresh base os)
    (hs : s.Reached base os header) :
    s.Intact base ∧
      ∀ call, s.Legal call → ∃ s', s.Returns base os call s' ∧ s'.Intact base := by
  have hintact : s.Intact base := by
    induction hs with
    | start => exact intact_start header
    | call _ hlegal hreturns ih =>
      obtain ⟨s', hs', hintact⟩ := Intact.step ih hbase hos hlegal
      rwa [hreturns.unique hs']
  exact ⟨hintact, fun call hlegal => Intact.step hintact hbase hos hlegal⟩

/-- An environment that gives one region. -/
def oneRegion (s : ℕ) (sbrks : List (ℤ × Option ℕ)) (n : ℤ) : Option ℕ :=
  if sbrks = [] ∧ n ≤ 32768 then some s else none

theorem fresh_oneRegion {s : ℕ} (haligned : s % UNIT = 0) (habove : base + UNIT ≤ s)
    (hfits : s + 32768 < 2 ^ 32) : Fresh base (oneRegion s) := by
  intro sbrks n p hn hp
  unfold oneRegion at hp
  split at hp
  · next hcond =>
    obtain ⟨rfl, hle⟩ := hcond
    cases hp
    refine ⟨haligned, habove, ?_, fun r hr => (nomatch hr)⟩
    omega
  · cases hp

/-- The first ten bytes are at the end of the region. -/
theorem live_ten_bytes (n : ℕ) : ((Session.start fun _ => ⟨0, 0⟩).step 4096 (oneRegion 8192) (n + 3)
    (.malloc 10)).map (·.live) = some [(40944, 10)] := by
  rfl

/-- Ten bytes, which are freed again. -/
theorem heap_integrity_ten_bytes : ∃ s s' : Session,
    s.Reached 4096 (oneRegion 8192) (fun _ => ⟨0, 0⟩) ∧ s.live = [(40944, 10)] ∧
      s.Returns 4096 (oneRegion 8192) (.free 40944) s' ∧ s'.Intact 4096 := by
  have hos : Fresh 4096 (oneRegion 8192) := fresh_oneRegion (by decide) (by decide) (by decide)
  have hlegal : (Session.start fun _ => ⟨0, 0⟩).Legal (.malloc 10) := by
    unfold Session.Legal
    decide
  obtain ⟨s, hs, -⟩ := (heap_integrity (by decide) hos .start).2 _ hlegal
  have hlive : s.live = [(40944, 10)] := by
    obtain ⟨n, hn⟩ := hs
    have hstep := live_ten_bytes n
    rw [hn (n + 3) (by omega)] at hstep
    exact Option.some.inj hstep
  have hreached := Session.Reached.call .start hlegal hs
  obtain ⟨s', hs', hintact⟩ := (heap_integrity (by decide) hos hreached).2 (.free 40944)
    ⟨10, by rw [hlive]; exact List.mem_singleton_self _⟩
  exact ⟨s, s', hreached, hlive, hs', hintact⟩

/-! ## Requests of any size -/

/-- `malloc` asks `sbrk` for nothing but more memory, and what it returns is a block, with
the number of bytes that were asked for, in memory that the process has. -/
def SafeMalloc (base : ℕ) (os : List (ℤ × Option ℕ) → ℤ → Option ℕ) (nbytes : ℕ) (h : Heap) :
    Prop :=
  ∃ r h' calls n, (∀ fuel > n, malloc base os fuel nbytes h = some (r, h')) ∧
    h'.sbrks = calls ++ h.sbrks ∧ (∀ call ∈ calls, 0 < call.1) ∧
    (r = 0 ∨ ∃ b : Extent, r = b.start + UNIT ∧ b.len = UNIT * (h'.header b.start).size ∧
      nbytes + UNIT ≤ b.len ∧ ∀ x, b.start ≤ x → x < b.finish → 0 < cover x (regions h'.sbrks))

theorem Sound.covered (hs : Sound base h l live) (hb : b ∈ live) {x : ℕ} (hx : b.start ≤ x)
    (hx' : x < b.finish) : 0 < Extents.cover x (regions h.sbrks) := by
  rw [← hs.cover]
  exact List.countP_pos_iff.mpr ⟨b, List.mem_append_left _ hb, by simp [hx, hx']⟩

theorem safeMalloc_of_small (hv : Valid base h live) (hbase : 0 < base) (hos : Fresh base os)
    {nbytes : ℕ} (hsmall : nbytes ≤ 2 ^ 31 - 16) : SafeMalloc base os nbytes h := by
  have hlegal : UNIT * ((nbytes + UNIT - 1) / UNIT + 1) < 2 ^ 31 := by
    unfold UNIT
    omega
  obtain ⟨hunits, hle⟩ := units_eq hlegal
  obtain ⟨r, h', n, hrun, hout⟩ := hv.malloc hbase hos hunits
  have hpos : ∀ call ∈ [((moreBytes (unitsOf nbytes) : ℤ),
      os h.sbrks (moreBytes (unitsOf nbytes)))], 0 < call.1 := fun call hcall => by
    rw [List.mem_singleton.mp hcall]
    exact Int.natCast_pos.mpr moreBytes_pos
  cases hout with
  | null _ hsbrks _ => exact ⟨0, h', _, n, hrun, hsbrks, hpos, .inl rfl⟩
  | @block _ _ b hsbrks hlen hs' =>
    have hb : b ∈ b :: live := List.mem_cons_self ..
    have hout : ∃ c : Extent, b.start + UNIT = c.start + UNIT ∧
        c.len = UNIT * (h'.header c.start).size ∧ nbytes + UNIT ≤ c.len ∧
        ∀ x, c.start ≤ x → x < c.finish → 0 < cover x (regions h'.sbrks) :=
      ⟨b, rfl, (hs'.sizes b hb).symm, hlen ▸ hle, fun x hx hx' => hs'.covered hb hx hx'⟩
    rcases hsbrks with hsbrks | hsbrks
    · exact ⟨_, h', [], n, hrun, hsbrks, fun _ hc => (nomatch hc), .inr hout⟩
    · exact ⟨_, h', _, n, hrun, hsbrks, hpos, .inr hout⟩

/-- The first call of a program that gets no memory. -/
theorem malloc_start {nbytes : ℕ} (fuel : ℕ) :
    malloc base (fun _ _ => none) (fuel + 1) nbytes (Session.start fun _ => ⟨0, 0⟩).heap =
      some (0, { setUp base (Session.start fun _ => ⟨0, 0⟩).heap with
        sbrks := [(asInt ((if unitsOf nbytes < 4096 then 4096 else unitsOf nbytes) * UNIT % 2 ^ 32),
          none)] }) := by
  have hsetUp : setUp base (Session.start fun _ => ⟨0, 0⟩).heap =
      { ((Session.start fun _ => ⟨0, 0⟩).heap.setPtr base base).setSize base 0 with
        freep := base } := if_pos rfl
  have hheader : (setUp base (Session.start fun _ => ⟨0, 0⟩).heap).header base = ⟨base, 0⟩ := by
    rw [hsetUp]
    change (((Session.start fun _ => ⟨0, 0⟩).heap.setPtr base base).setSize base 0).header base = _
    rw [header_setSize_self, header_setPtr_self]
  have hfreep : (setUp base (Session.start fun _ => ⟨0, 0⟩).heap).freep = base := by rw [hsetUp]
  have hsbrks : (setUp base (Session.start fun _ => ⟨0, 0⟩).heap).sbrks = [] := by rw [hsetUp]; rfl
  unfold malloc
  refine Loop.run_succ_inr ?_
  rw [hfreep, hheader, mallocStep, hheader, if_neg (Nat.not_le.mpr unitsOf_pos), if_pos hfreep.symm,
    morecore, hsbrks]
  rfl

theorem valid_start : Valid base (Session.start fun _ => ⟨0, 0⟩).heap [] := .inl ⟨rfl, rfl, rfl⟩

theorem fresh_none : Fresh base (fun _ _ => none) := fun _ _ _ _ h => (nomatch h)

/-- From two gigabytes on the number of bytes for `sbrk` is not positive any more. -/
theorem not_safeMalloc_of_large {nbytes : ℕ} (hlarge : 2 ^ 31 - 16 < nbytes)
    (hwrap : nbytes + UNIT - 1 < 2 ^ 32) :
    ¬ SafeMalloc base (fun _ _ => none) nbytes (Session.start fun _ => ⟨0, 0⟩).heap := by
  rintro ⟨r, h', calls, n, hrun, hsbrks, hpos, -⟩
  have hheap := congrArg Prod.snd
    (Option.some.inj ((hrun (n + 1) (Nat.lt_succ_self n)).symm.trans (malloc_start n)))
  have hcalls : calls = [(asInt ((if unitsOf nbytes < 4096 then 4096 else unitsOf nbytes) *
      UNIT % 2 ^ 32), none)] := by
    have hnil : calls ++ [] = h'.sbrks := hsbrks.symm
    rw [List.append_nil] at hnil
    rw [hnil]
    exact congrArg Heap.sbrks hheap
  have hasked := hpos _ (by rw [hcalls]; exact List.mem_cons_self ..)
  have hunits : unitsOf nbytes = (nbytes + UNIT - 1) / UNIT + 1 := by
    rw [unitsOf, Nat.mod_eq_of_lt hwrap]
  unfold UNIT at hasked hunits hwrap
  rw [if_neg (by omega)] at hasked
  unfold asInt at hasked
  split at hasked <;> omega

/-- At the very end of the range one unit, without any room, is taken for enough. -/
theorem not_safeMalloc_of_wrap (hbase : 0 < base) (hbase' : base < 2 ^ 31) {nbytes : ℕ}
    (hn : nbytes < 2 ^ 32) (hwrap : 2 ^ 32 ≤ nbytes + UNIT - 1) :
    ∃ os, Fresh base os ∧ ¬ SafeMalloc base os nbytes (Session.start fun _ => ⟨0, 0⟩).heap := by
  have hunits : unitsOf nbytes = 1 := by
    unfold unitsOf
    unfold UNIT at hwrap ⊢
    omega
  have hfresh : Fresh base (oneRegion ((base / UNIT + 2) * UNIT)) := by
    refine fresh_oneRegion (Nat.mul_mod_left ..) ?_ ?_
    · unfold UNIT
      omega
    · unfold UNIT
      omega
  refine ⟨_, hfresh, ?_⟩
  rintro ⟨r, h', calls, n, hrun, -, -, hr⟩
  have hsmall : UNIT * unitsOf nbytes < 2 ^ 31 := by
    rw [hunits]
    decide
  obtain ⟨r₂, h₂, n₂, hrun₂, hout⟩ := valid_start.malloc hbase hfresh hsmall
  have heq := (hrun (n + n₂ + 1) (by omega)).symm.trans (hrun₂ (n + n₂ + 1) (by omega))
  cases heq
  rw [hunits] at hout
  cases hout with
  | null hanswer => cases hanswer
  | @block _ _ b _ hlen hs =>
    rcases hr with hr | ⟨c, hstart, hclen, hle, -⟩
    · cases hr
    · have hsize := hs.sizes b (List.mem_cons_self ..)
      rw [← Nat.add_right_cancel hstart, hsize, hlen] at hclen
      unfold UNIT at hclen hle hwrap
      omega

/-- **`malloc` is safe** for requests that are smaller than two gigabytes, with what comes
before a block, and for no others. -/
theorem malloc_safe_iff (hbase : 0 < base) (hbase' : base < 2 ^ 31) {nbytes : ℕ}
    (hn : nbytes < 2 ^ 32) :
    (∀ os h live, Fresh base os → Valid base h live → SafeMalloc base os nbytes h) ↔
      nbytes ≤ 2 ^ 31 - 16 := by
  constructor
  · intro hall
    by_contra hlarge
    by_cases hwrap : nbytes + UNIT - 1 < 2 ^ 32
    · exact not_safeMalloc_of_large (Nat.not_le.mp hlarge) hwrap
        (hall _ _ _ fresh_none valid_start)
    · obtain ⟨os, hos, hnot⟩ := not_safeMalloc_of_wrap hbase hbase' hn (Nat.not_lt.mp hwrap)
      exact hnot (hall _ _ _ hos valid_start)
  · intro hsmall os h live hos hv
    exact safeMalloc_of_small hv hbase hos hsmall

theorem malloc_safe_megabyte :
    SafeMalloc 4096 (oneRegion 8192) 1048576 (Session.start fun _ => ⟨0, 0⟩).heap :=
  (malloc_safe_iff (by decide) (by decide) (by decide)).mpr (by decide) _ _ []
    (fresh_oneRegion (by decide) (by decide) (by decide)) valid_start

/-- A request for two gigabytes asks `sbrk` to take memory away. -/
theorem malloc_shrinks :
    (∃ h', malloc 4096 (fun _ _ => none) 1 (2 ^ 31) (Session.start fun _ => ⟨0, 0⟩).heap =
        some (0, h') ∧ h'.sbrks = [(-2147483640, none)]) ∧
      ¬ SafeMalloc 4096 (fun _ _ => none) (2 ^ 31) (Session.start fun _ => ⟨0, 0⟩).heap :=
  ⟨⟨_, malloc_start 0, by decide⟩, not_safeMalloc_of_large (by decide) (by decide)⟩

end StrideXv6.Umalloc
