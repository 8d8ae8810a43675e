import StrideXv6.Buffer

/-!
# The buffer cache from above

What the users of the cache need to know of it, for one device: every block has
contents `v`, which reads give and writes change; the disk has contents `d`,
which differ from `v` only where a dirty buffer is in between (`Rep`). The
operations of `bio.c` are then operations on `v`, `d` and the list of buffers
that are held:

* `bread` adds a held buffer and changes nothing else — evicting a clean buffer
  forgets nothing (`bread_spec`);
* filling a held buffer and writing it changes both `v` and `d` at its block
  (`overwrite_spec`);
* `brelse` gives it back (`brelse_spec`).

Whatever makes them stop, the disk is as before.
-/

namespace StrideXv6

open Crash

/-- The buffer is for block `b` of device `dv`. -/
def Buf.IsFor (B : Buf) (dv b : ℕ) : Prop := B.dev = dv ∧ B.blockno = b

instance (B : Buf) (dv b : ℕ) : Decidable (B.IsFor dv b) :=
  inferInstanceAs (Decidable (B.dev = dv ∧ B.blockno = b))

/-- The store holds the contents `v` and `d` of device `dv`; `held` are the
buffers in use, with their blocks; `l` is the log in memory and `w` the record of
writes. -/
structure Rep (dv : ℕ) (v d : ℕ → Block) (held : List (Fin NBUF × ℕ)) (l : Log)
    (w : List DiskWrite) (s : Store) : Prop where
  /-- every buffer is on the list -/
  listed : ∀ i, i ∈ s.order
  /-- no block has two buffers -/
  unique : ∀ i j b, (s.buf i).IsFor dv b → (s.buf j).IsFor dv b → i = j
  /-- a buffer has the contents of its block -/
  cached : ∀ i b, (s.buf i).IsFor dv b → (s.buf i).valid = true ∧ (s.buf i).data = v b
  /-- so has the disk, unless the buffer is dirty -/
  clean : ∀ b, (∀ i, (s.buf i).IsFor dv b → (s.buf i).dirty = false) → d b = v b
  /-- the buffers in use are busy -/
  busy : ∀ i, (s.buf i).busy = true ↔ ∃ b, (i, b) ∈ held
  /-- and are for their blocks -/
  holds : ∀ i b, (i, b) ∈ held → (s.buf i).IsFor dv b
  disk : s.disk (dv % 2) = d
  log : s.log = l
  writes : s.writes = w

/-- A condition on the disk and the record of writes. -/
def CrashAt (dv : ℕ) (C : (ℕ → Block) → List DiskWrite → Prop) (s : Store) : Prop :=
  C (s.disk (dv % 2)) s.writes

section Specs

variable {dv : ℕ} {v d : ℕ → Block} {held : List (Fin NBUF × ℕ)} {l : Log}
  {w : List DiskWrite} {C : (ℕ → Block) → List DiskWrite → Prop}

theorem Rep.crash {s : Store} (h : Rep dv v d held l w s) (hC : C d w) : CrashAt dv C s := by
  unfold CrashAt
  rw [h.disk, h.writes]
  exact hC

/-- The buffer of a held block is the one that is held. -/
theorem Rep.held_iff {s : Store} (h : Rep dv v d held l w s) {i : Fin NBUF} {b : ℕ}
    (hi : (s.buf i).IsFor dv b) : (s.buf i).busy = true ↔ (i, b) ∈ held := by
  rw [h.busy]
  constructor
  · rintro ⟨c, hc⟩
    have hc' := h.holds i c hc
    rwa [hi.2.symm.trans hc'.2]
  · exact fun hb => ⟨b, hb⟩

/-- The order of the buffers in use does not matter. -/
theorem Rep.perm {s : Store} {held' : List (Fin NBUF × ℕ)} (h : Rep dv v d held l w s)
    (hmem : ∀ x, x ∈ held' ↔ x ∈ held) : Rep dv v d held' l w s := by
  refine ⟨h.listed, h.unique, h.cached, h.clean, fun i => ?_, fun i b hb => ?_, h.disk, h.log,
    h.writes⟩
  · rw [h.busy]
    constructor
    · rintro ⟨b, hb⟩
      exact ⟨b, (hmem _).mpr hb⟩
    · rintro ⟨b, hb⟩
      exact ⟨b, (hmem _).mp hb⟩
  · exact h.holds i b ((hmem _).mp hb)

/-- Different blocks are in different buffers. -/
theorem Rep.ne {s : Store} (h : Rep dv v d held l w s) {i j : Fin NBUF} {a b : ℕ}
    (hi : (i, a) ∈ held) (hj : (j, b) ∈ held) (hab : a ≠ b) : i ≠ j := by
  rintro rfl
  exact hab ((h.holds i a hi).2.symm.trans (h.holds i b hj).2)

/-! ## Reading -/

theorem lookup_eq_some {s : Store} {b : ℕ} {i : Fin NBUF} (h : s.lookup dv b = some i) :
    (s.buf i).IsFor dv b := by
  have hfound := List.find?_some h
  exact of_decide_eq_true hfound

theorem Rep.lookup_eq_none {s : Store} (h : Rep dv v d held l w s) {b : ℕ}
    (hl : s.lookup dv b = none) (i : Fin NBUF) : ¬ (s.buf i).IsFor dv b := by
  have := List.find?_eq_none.mp hl i (h.listed i)
  exact fun hi => this (decide_eq_true hi)

theorem victim_eq_some {s : Store} {i : Fin NBUF} (h : s.victim = some i) :
    (s.buf i).busy = false ∧ (s.buf i).dirty = false := by
  have hfound := List.find?_some h
  exact of_decide_eq_true hfound

/-- What `bget` gives: the buffer of the block, or one to recycle. -/
theorem bget_eq_done {dev b : ℕ} {s s' : Store} {i : Fin NBUF} (h : bget dev b s = .done i s') :
    (s.lookup dev b = some i ∧ (s.buf i).busy = false ∧
        s' = s.setBuf i { s.buf i with busy := true }) ∨
      (s.lookup dev b = none ∧ s.victim = some i ∧
        s' = s.setBuf i { s.buf i with
          dev := dev, blockno := b, busy := true, valid := false, dirty := false }) := by
  cases hl : s.lookup dev b with
  | some j =>
    simp only [bget, get_bind_apply, hl] at h
    split at h
    · cases h
    · next hbusy =>
      cases h
      exact Or.inl ⟨rfl, Bool.not_eq_true _ ▸ hbusy, rfl⟩
  | none =>
    cases hv : s.victim with
    | some j =>
      simp only [bget, get_bind_apply, hl, hv] at h
      cases h
      exact Or.inr ⟨rfl, rfl, rfl⟩
    | none =>
      simp only [bget, get_bind_apply, hl, hv] at h
      cases h

/-- One more buffer in use. -/
theorem mem_cons_pair_iff {i j : Fin NBUF} {b : ℕ} (h : j ≠ i) :
    (∃ c, (j, c) ∈ (i, b) :: held) ↔ ∃ c, (j, c) ∈ held := by
  constructor
  · rintro ⟨c, hc⟩
    rcases List.mem_cons.mp hc with heq | hc
    · exact absurd (Prod.mk.inj heq).1 h
    · exact ⟨c, hc⟩
  · rintro ⟨c, hc⟩
    exact ⟨c, List.mem_cons_of_mem _ hc⟩

/-- The block is in the cache: its buffer is now held. -/
theorem Rep.hit {s : Store} (h : Rep dv v d held l w s) {b : ℕ} {i : Fin NBUF}
    (hi : (s.buf i).IsFor dv b) :
    Rep dv v d ((i, b) :: held) l w (s.setBuf i { s.buf i with busy := true }) := by
  have hfor : ∀ j c, ((s.setBuf i { s.buf i with busy := true }).buf j).IsFor dv c ↔
      (s.buf j).IsFor dv c := by
    intro j c
    rw [Store.setBuf_buf]
    split
    · next hj =>
      subst hj
      exact Iff.rfl
    · exact Iff.rfl
  refine ⟨h.listed, ?_, ?_, ?_, ?_, ?_, h.disk, h.log, h.writes⟩
  · intro j k c hj hk
    exact h.unique j k c ((hfor j c).mp hj) ((hfor k c).mp hk)
  · intro j c hj
    have hold := h.cached j c ((hfor j c).mp hj)
    rw [Store.setBuf_buf]
    split
    · next hji =>
      subst hji
      exact hold
    · exact hold
  · intro c hc
    refine h.clean c fun j hj => ?_
    have hnew := hc j ((hfor j c).mpr hj)
    rw [Store.setBuf_buf] at hnew
    split at hnew
    · next hji =>
      subst hji
      exact hnew
    · exact hnew
  · intro j
    rw [Store.setBuf_buf]
    by_cases hj : j = i
    · subst hj
      rw [if_pos rfl]
      exact ⟨fun _ => ⟨b, List.mem_cons_self⟩, fun _ => rfl⟩
    · rw [if_neg hj, h.busy j, mem_cons_pair_iff hj]
  · intro j c hc
    rw [hfor]
    rcases List.mem_cons.mp hc with heq | hc
    · obtain ⟨rfl, rfl⟩ := Prod.mk.inj heq
      exact hi
    · exact h.holds j c hc

/-- The block is not in the cache: a clean buffer is recycled for it, and what
was in that buffer is on the disk. -/
theorem Rep.miss {s : Store} (h : Rep dv v d held l w s) {b : ℕ} {i : Fin NBUF}
    (hnone : ∀ j, ¬ (s.buf j).IsFor dv b) (hbusy : (s.buf i).busy = false)
    (hdirty : (s.buf i).dirty = false) {B : Buf} (hB : B = { s.buf i with
      dev := dv, blockno := b, busy := true, valid := true, dirty := false, data := d b }) :
    Rep dv v d ((i, b) :: held) l w (s.setBuf i B) := by
  have hself : B.IsFor dv b := by
    rw [hB]
    exact ⟨rfl, rfl⟩
  have hvb : d b = v b := h.clean b fun j hj => absurd hj (hnone j)
  have hother : ∀ j c, ((s.setBuf i B).buf j).IsFor dv c →
      (j = i ∧ c = b) ∨ (j ≠ i ∧ (s.buf j).IsFor dv c) := by
    intro j c hj
    rw [Store.setBuf_buf] at hj
    split at hj
    · next hji => exact Or.inl ⟨hji, hj.2.symm.trans hself.2⟩
    · next hji => exact Or.inr ⟨hji, hj⟩
  refine ⟨h.listed, ?_, ?_, ?_, ?_, ?_, h.disk, h.log, h.writes⟩
  · intro j k c hj hk
    rcases hother j c hj with ⟨rfl, rfl⟩ | ⟨-, hj'⟩ <;>
      rcases hother k _ hk with ⟨rfl, hc⟩ | ⟨-, hk'⟩
    · rfl
    · exact absurd hk' (hnone k)
    · exact absurd (hc ▸ hj') (hnone j)
    · exact h.unique j k c hj' hk'
  · intro j c hj
    rcases hother j c hj with ⟨rfl, rfl⟩ | ⟨hji, hj'⟩
    · rw [Store.setBuf_buf, if_pos rfl, hB]
      exact ⟨rfl, hvb⟩
    · rw [Store.setBuf_buf, if_neg hji]
      exact h.cached j c hj'
  · -- the block the buffer was for before is no longer in the cache
    intro c hc
    by_cases hold : (s.buf i).IsFor dv c
    · exact h.clean c fun j hj => by rw [h.unique j i c hj hold]; exact hdirty
    · refine h.clean c fun j hj => ?_
      have hji : j ≠ i := fun he => hold (he ▸ hj)
      have hnew := hc j (by rw [Store.setBuf_buf, if_neg hji]; exact hj)
      rwa [Store.setBuf_buf, if_neg hji] at hnew
  · intro j
    rw [Store.setBuf_buf]
    by_cases hj : j = i
    · subst hj
      rw [if_pos rfl, hB]
      exact ⟨fun _ => ⟨b, List.mem_cons_self⟩, fun _ => rfl⟩
    · rw [if_neg hj, h.busy j, mem_cons_pair_iff hj]
  · intro j c hc
    rcases List.mem_cons.mp hc with heq | hmem
    · obtain ⟨rfl, rfl⟩ := Prod.mk.inj heq
      rw [Store.setBuf_buf, if_pos rfl]
      exact hself
    · -- the recycled buffer was not in use
      have hji : j ≠ i := by
        rintro rfl
        rw [(h.busy j).mpr ⟨c, hmem⟩] at hbusy
        cases hbusy
      rw [Store.setBuf_buf, if_neg hji]
      exact h.holds j c hmem

/-- **`bread`** of a block nobody holds: one more buffer in use, nothing else
changes. -/
theorem bread_spec {b : ℕ} (hC : C d w) (hb : ∀ i, (i, b) ∉ held) :
    Triple (Rep dv v d held l w) (bread dv b) (fun i => Rep dv v d ((i, b) :: held) l w)
      (CrashAt dv C) := by
  intro s h
  have hcrash := h.crash hC
  rcases hl : s.lookup dv b with _ | i
  · have hnone := h.lookup_eq_none hl
    rcases hv : s.victim with _ | i
    · have hget : bget dv b s = .halt (.panic "bget: no buffers") s := by
        simp [bget, hl, hv]
      rw [bread, bind_of_halt s hget]
      exact hcrash
    · obtain ⟨hbusy, hdirty⟩ := victim_eq_some hv
      have hget : bget dv b s = .done i (s.setBuf i { s.buf i with
          dev := dv, blockno := b, busy := true, valid := false, dirty := false }) := by
        simp [bget, hl, hv]
      rw [bread, bind_of_done s hget, get_bind_apply]
      generalize hs' : s.setBuf i _ = s'
      have hbuf : s'.buf i = { s.buf i with
          dev := dv, blockno := b, busy := true, valid := false, dirty := false } := by
        rw [← hs', Store.setBuf_buf, if_pos rfl]
      rw [if_pos (by rw [hbuf])]
      by_cases hsize : FSSIZE ≤ b
      · have hide : iderw i s' = .halt (.panic "incorrect blockno") s' := by
          simp [iderw, hbuf, hsize]
        rw [bind_of_halt s' hide]
        have : CrashAt dv C s' := by
          rw [← hs']
          exact hcrash
        exact this
      · have hide : iderw i s' = .done () (s'.setBuf i { s'.buf i with
            valid := true, data := s'.home (s'.buf i) }) := by
          simp [iderw, hbuf, hsize]
        rw [bind_of_done s' hide]
        have heq : s'.setBuf i { s'.buf i with valid := true, data := s'.home (s'.buf i) } =
            s.setBuf i { s.buf i with dev := dv, blockno := b, busy := true, valid := true
                                      dirty := false, data := d b } := by
          have hhome : s'.home (s'.buf i) = d b := by
            rw [hbuf, ← hs']
            exact congrFun h.disk b
          rw [hhome, hbuf, ← hs']
          simp [Store.setBuf]
        rw [heq]
        exact h.miss hnone hbusy hdirty rfl
  · have hi := lookup_eq_some hl
    have hbusy : (s.buf i).busy = false := by
      rw [Bool.eq_false_iff, Ne, h.held_iff hi]
      exact hb i
    have hget : bget dv b s = .done i (s.setBuf i { s.buf i with busy := true }) := by
      simp [bget, hl, hbusy]
    rw [bread, bind_of_done s hget, get_bind_apply, if_neg]
    · exact h.hit hi
    · rw [Store.setBuf_buf, if_pos rfl, (h.cached i b hi).1]
      simp

/-! ## Writing and releasing -/

/-- The state after a held buffer was filled with `x` and written. -/
theorem Rep.written {s : Store} (h : Rep dv v d held l w s) {i : Fin NBUF} {b : ℕ} {x : Block}
    (hi : (i, b) ∈ held) {B : Buf} (hB : B = { s.buf i with data := x, dirty := true }) :
    Rep dv (Function.update v b x) (Function.update d b x) held l (⟨dv, b, x⟩ :: w)
      ((s.write B).setBuf i { B with valid := true, dirty := false }) := by
  have hfor := h.holds i b hi
  have hBfor : B.IsFor dv b := by
    rw [hB]
    exact hfor
  have hbuf : ∀ j, ((s.write B).setBuf i { B with valid := true, dirty := false }).buf j =
      if j = i then { s.buf i with data := x, valid := true, dirty := false } else s.buf j := by
    intro j
    rw [Store.setBuf_buf, hB]
    rfl
  have hkey : ∀ j c, (((s.write B).setBuf i { B with valid := true, dirty := false }).buf j).IsFor
      dv c ↔ (s.buf j).IsFor dv c := by
    intro j c
    rw [hbuf]
    split
    · next hj =>
      subst hj
      exact Iff.rfl
    · exact Iff.rfl
  refine ⟨h.listed, ?_, ?_, ?_, ?_, ?_, ?_, h.log, ?_⟩
  · intro j k c hj hk
    exact h.unique j k c ((hkey j c).mp hj) ((hkey k c).mp hk)
  · intro j c hj
    rw [hkey] at hj
    rw [hbuf]
    by_cases hji : j = i
    · subst hji
      obtain rfl : b = c := hfor.2.symm.trans hj.2
      rw [if_pos rfl, Function.update_self]
      exact ⟨rfl, rfl⟩
    · have hcb : c ≠ b := fun he => hji (h.unique j i b (he ▸ hj) hfor)
      rw [if_neg hji, Function.update_of_ne hcb]
      exact h.cached j c hj
  · intro c hc
    by_cases hcb : c = b
    · subst hcb
      rw [Function.update_self, Function.update_self]
    · rw [Function.update_of_ne hcb, Function.update_of_ne hcb]
      refine h.clean c fun j hj => ?_
      have hji : j ≠ i := fun he => hcb ((he ▸ hj).2.symm.trans hfor.2)
      have hnew := hc j ((hkey j c).mpr hj)
      rwa [hbuf, if_neg hji] at hnew
  · intro j
    rw [hbuf]
    split
    · next hj =>
      subst hj
      exact h.busy j
    · exact h.busy j
  · intro j c hc
    rw [hkey]
    exact h.holds j c hc
  · change Function.update s.disk (B.dev % 2)
      (Function.update (s.disk (B.dev % 2)) B.blockno B.data) (dv % 2) = _
    rw [hBfor.1, hBfor.2, Function.update_self, h.disk, hB]
  · change ⟨B.dev, B.blockno, B.data⟩ :: s.writes = _
    rw [hBfor.1, hBfor.2, h.writes, hB]

/-- Filling a held buffer and writing it. -/
theorem overwrite_spec {i : Fin NBUF} {b : ℕ} {fill : Kern Unit} {x : Block} (hC : C d w)
    (hi : (i, b) ∈ held)
    (hfill : ∀ s, Rep dv v d held l w s → fill s = .done () (s.setBuf i { s.buf i with data := x })) :
    Triple (Rep dv v d held l w) (do fill; bwrite i)
      (fun _ => Rep dv (Function.update v b x) (Function.update d b x) held l (⟨dv, b, x⟩ :: w))
      (CrashAt dv C) := by
  intro s h
  have hcrash := h.crash hC
  have hbusy : (s.buf i).busy = true := (h.busy i).mpr ⟨b, hi⟩
  have hblock : (s.buf i).blockno = b := (h.holds i b hi).2
  rw [bind_of_done s (hfill s h)]
  -- the buffer on its way to the disk
  generalize hB : ({ s.buf i with data := x, dirty := true } : Buf) = B
  have hwrite : bwrite i (s.setBuf i { s.buf i with data := x }) = iderw i (s.setBuf i B) := by
    simp only [bwrite, get_bind_apply, modify_bind_apply, Store.setBuf_buf, if_true, hbusy,
      Bool.true_eq_false, if_false, ← hB]
    simp [Store.setBuf]
  have hbuf : (s.setBuf i B).buf i = B := by rw [Store.setBuf_buf, if_pos rfl]
  have hBbusy : B.busy = true := by
    rw [← hB]
    exact hbusy
  have hBdirty : B.dirty = true := by rw [← hB]
  have hBblock : B.blockno = b := by
    rw [← hB]
    exact hblock
  have hstop : CrashAt dv C (s.setBuf i B) := hcrash
  rw [hwrite]
  by_cases hsize : FSSIZE ≤ b
  · have hide : iderw i (s.setBuf i B) = .halt (.panic "incorrect blockno") (s.setBuf i B) := by
      simp [iderw, hBbusy, hBdirty, hBblock, hsize]
    rw [hide]
    exact hstop
  · by_cases hpower : s.budget = 0
    · have hide : iderw i (s.setBuf i B) = .halt .power (s.setBuf i B) := by
        simp only [iderw, get_bind_apply, hbuf, hBbusy, hBdirty, hBblock]
        simp [hsize, Store.setBuf, hpower]
      rw [hide]
      exact hstop
    · have hide : iderw i (s.setBuf i B) =
          .done () ((s.write B).setBuf i { B with valid := true, dirty := false }) := by
        simp only [iderw, get_bind_apply, hbuf, hBbusy, hBdirty, hBblock]
        simp [hsize, Store.setBuf, hpower, Store.write]
      rw [hide]
      exact h.written hi hB.symm

theorem brelse_spec {i : Fin NBUF} {b : ℕ} (hb : ∀ c, (i, c) ∉ held) :
    Triple (Rep dv v d ((i, b) :: held) l w) (brelse i) (fun _ => Rep dv v d held l w)
      (CrashAt dv C) := by
  intro s h
  have hbusy : (s.buf i).busy = true := (h.busy i).mpr ⟨b, List.mem_cons_self⟩
  have hrel : brelse i s = .done ()
      { s.setBuf i { s.buf i with busy := false } with order := i :: s.order.erase i } := by
    simp [brelse, hbusy]
  rw [hrel]
  have hkey : ∀ j c, ((s.setBuf i { s.buf i with busy := false }).buf j).IsFor dv c ↔
      (s.buf j).IsFor dv c := by
    intro j c
    rw [Store.setBuf_buf]
    split
    · next hj =>
      subst hj
      exact Iff.rfl
    · exact Iff.rfl
  have hsame : ∀ j, ((s.setBuf i { s.buf i with busy := false }).buf j).valid = (s.buf j).valid ∧
      ((s.setBuf i { s.buf i with busy := false }).buf j).dirty = (s.buf j).dirty ∧
      ((s.setBuf i { s.buf i with busy := false }).buf j).data = (s.buf j).data := by
    intro j
    rw [Store.setBuf_buf]
    split
    · next hj =>
      subst hj
      exact ⟨rfl, rfl, rfl⟩
    · exact ⟨rfl, rfl, rfl⟩
  refine ⟨?_, ?_, ?_, ?_, ?_, ?_, h.disk, h.log, h.writes⟩
  · intro j
    by_cases hj : j = i
    · subst hj
      exact List.mem_cons_self
    · exact List.mem_cons_of_mem _ ((List.mem_erase_of_ne hj).mpr (h.listed j))
  · intro j k c hj hk
    exact h.unique j k c ((hkey j c).mp hj) ((hkey k c).mp hk)
  · intro j c hj
    change ((s.setBuf i { s.buf i with busy := false }).buf j).valid = true ∧
      ((s.setBuf i { s.buf i with busy := false }).buf j).data = v c
    rw [(hsame j).1, (hsame j).2.2]
    exact h.cached j c ((hkey j c).mp hj)
  · intro c hc
    refine h.clean c fun j hj => ?_
    rw [← (hsame j).2.1]
    exact hc j ((hkey j c).mpr hj)
  · intro j
    change ((s.setBuf i { s.buf i with busy := false }).buf j).busy = true ↔ _
    rw [Store.setBuf_buf]
    by_cases hj : j = i
    · subst hj
      rw [if_pos rfl]
      exact iff_of_false (by simp) fun ⟨c, hc⟩ => hb c hc
    · rw [if_neg hj, h.busy j, mem_cons_pair_iff hj]
  · intro j c hc
    exact (hkey j c).mpr (h.holds j c (List.mem_cons_of_mem _ hc))

/-- Releasing the only buffer in use. -/
theorem brelse_last {i : Fin NBUF} {b : ℕ} :
    Triple (Rep dv v d [(i, b)] l w) (brelse i) (fun _ => Rep dv v d [] l w) (CrashAt dv C) :=
  brelse_spec fun _ h => by cases h

/-- `memmove` between two held buffers, as a way to fill one. -/
theorem copyData_fill {i j : Fin NBUF} {c : ℕ} (hj : (j, c) ∈ held) (s : Store)
    (h : Rep dv v d held l w s) :
    copyData i j s = .done () (s.setBuf i { s.buf i with data := v c }) := by
  rw [copyData, modify_apply, (h.cached j c (h.holds j c hj)).2]

/-- Changing part of a held buffer, as a way to fill it. -/
theorem setData_fill {i : Fin NBUF} {b : ℕ} {f : Block → Block} (hi : (i, b) ∈ held) (s : Store)
    (h : Rep dv v d held l w s) :
    setData i f s = .done () (s.setBuf i { s.buf i with data := f (v b) }) := by
  rw [setData, modify_apply, (h.cached i b (h.holds i b hi)).2]

end Specs

end StrideXv6
