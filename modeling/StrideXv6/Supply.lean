import StrideXv6.Loading

/-!
# With enough free pages

Where there is a free page for every page table that is missing (`Phys.Room`), `allocuvm`
does not fail. How many free pages there are is what the functions of `vm.c` change in
one direction only.
-/

namespace StrideXv6

open Bytes Effect Placement

/-! ## `allocuvm` -/

section

variable {L : Layout} {m m' : Phys} {e : Env} {d v g k : ℕ} {T : Finset ℕ}

/-- Pages were allocated, and nothing else was recorded. -/
def OnlyGrown (m m' : Phys) : Prop :=
  ∃ l, m'.notes = m.notes ++ l ∧ ∀ n ∈ l, ∃ v g, n = .grown v g

/-- The loop of `allocuvm`, by induction on the pages that are left. -/
theorem Owned.allocLoop_room {oldsz newsz : ℕ} (hmem : e.mem = none) (hd : e.dir = some d)
    (hlow : e.low = 0) (n : ℕ) : ∀ {m : Phys} {a : ℕ}, Owned L m e → a + n ≤ KERNPAGE →
      m.Room d T (k + n) → (∀ v', a ≤ v' → v' < a + n → v' / NPTENTRIES ∈ T) →
      Gives (StrideXv6.allocLoop L d oldsz newsz a n) m
        (fun r m' => r = newsz ∧ Supplied m m' d T k ∧ OnlyGrown m m') fun _ _ => True := by
  have hnpage : KERNPAGE < NPAGE := by decide
  induction n with
  | zero =>
    intro m a _ _ hroom _
    rw [StrideXv6.allocLoop, gives_pure]
    exact ⟨rfl, Supplied.refl hroom, [], (List.append_nil _).symm, fun _ hn => absurd hn List.not_mem_nil⟩
  | succ n ih =>
    intro m a h ha hroom hT
    rw [StrideXv6.allocLoop, gives_bind, gives_kalloc]
    refine ⟨fun hnil => ?_, fun mem free hcons => ?_⟩
    · have := hroom.le
      rw [hnil, List.length_nil] at this
      omega
    · dsimp only
      rw [gives_bind, gives_modify, gives_bind, gives_modify]
      have htake := Owned.takeMem (L := L) hcons hmem
      have h1 := (h.works htake).works (Works.note (n := .grown a mem) (by rintro _ ⟨⟩))
      obtain ⟨hfill, hsame⟩ := h1.setMem rfl hd hlow (b := fun _ => 0#8)
      have h2 := h1.works hfill
      have hdir : ∀ i, (((m.setFree free).note (.grown a mem)).fill mem 0#8).entry d i =
          m.entry d i := h.entry_taken hd hmem hcons fun _ => rfl
      have hless : m.free.length + (k + n) ≤ free.length + (k + (n + 1)) := by
        rw [hcons, List.length_cons]
        omega
      have hsup := Supplied.of_congr hroom hdir hless
      have henv : ({ e with mem := none } : Env) = e := by
        rw [← hmem]
      refine ((h2.mappages_user (d := d) hd hlow rfl (v := a) (by omega)
        (by decide : PTE_W + PTE_U < 4096)).and (h2.mappages_room hd hlow 1 (Or.inr le_rfl)
        (by omega) hsup.room fun v' hlo hhi => hT v' hlo (by omega))).bind ?_ fun _ _ _ => trivial
      rintro ok m3 ⟨⟨hmap, -, -, hres⟩, rfl, hsup'⟩
      have hnotes : m3.notes = m.notes ++ [.grown a mem] := by
        rcases hres with ⟨-, -, hnotes⟩ | ⟨hf, -⟩
        · exact hnotes
        · cases hf
      dsimp only at hmap
      rw [henv] at hmap
      have h3 : Owned L m3 e := h2.works hmap
      refine (ih h3 (by omega) hsup'.room fun v' hlo hhi => hT v' (by omega) (by omega)).mono ?_
        fun _ _ h => h
      rintro r m' ⟨rfl, hrest, l, hl, hgrown⟩
      refine ⟨rfl, hsup.trans (hsup'.trans hrest), .grown a mem :: l, ?_, ?_⟩
      · rw [hl, hnotes, List.append_assoc]
        rfl
      · rw [List.forall_mem_cons]
        exact ⟨⟨a, mem, rfl⟩, hgrown⟩

theorem Owned.allocuvm_room (h : Owned L m e) (hmem : e.mem = none) (hd : e.dir = some d)
    (hlow : e.low = 0) {oldsz newsz : ℕ} (hle : oldsz ≤ newsz) (hnew : newsz < KERNBASE)
    (hroom : m.Room d T (k + (pgroundup newsz - pgroundup oldsz)))
    (hT : ∀ v, pgroundup oldsz ≤ v → v < pgroundup newsz → v / NPTENTRIES ∈ T) :
    Gives (StrideXv6.allocuvm L d oldsz newsz) m
      (fun r m' => r = newsz ∧ Supplied m m' d T k ∧ OnlyGrown m m') fun _ _ => True := by
  have hpages := pgroundup_le hnew.le
  have hmono : pgroundup oldsz ≤ pgroundup newsz := by
    unfold pgroundup
    omega
  unfold StrideXv6.allocuvm
  rw [if_neg (by omega), if_neg (by omega)]
  exact Owned.allocLoop_room hmem hd hlow _ h (by omega) hroom fun v hlo hhi => hT v hlo (by omega)

end

/-! ## How many free pages there are -/

/-- There are at least as many free pages as before. -/
def Gains (m m' : Phys) : Prop := m.free.length ≤ m'.free.length

instance : Std.Refl Gains := ⟨fun _ => le_rfl⟩

instance : IsTrans Phys Gains := ⟨fun _ _ _ h h' => le_trans h h'⟩

/-- There are at most as many free pages as before. -/
def Sheds (m m' : Phys) : Prop := m'.free.length ≤ m.free.length

instance : Std.Refl Sheds := ⟨fun _ => le_rfl⟩

instance : IsTrans Phys Sheds := ⟨fun _ _ _ h h' => le_trans h' h⟩

section

variable {L : Layout} {d g n : ℕ}

theorem gains_kfree : Always Gains (fun _ => True) (kfree L g) :=
  Always.ite (Always.throw trivial) (Always.bind (Always.modify fun _ => le_rfl) fun _ =>
    Always.modify fun _ => Nat.le_succ _)

theorem gains_deallocLoop {last : ℕ} :
    ∀ {a : ℕ}, Always Gains (fun _ => True) (deallocLoop L d last a n) := by
  induction n with
  | zero => exact Always.pure _
  | succ n ih =>
    intro a
    have hwalk : Always Gains (fun _ => True) (walkpgdir d a false) :=
      ⟨fun _ => gives_walkpgdir.mpr le_rfl⟩
    unfold deallocLoop
    refine Always.ite (hwalk.bind fun r => ?_) (Always.pure _)
    split
    · exact ih
    · refine Always.bind ?_ fun _ => ih
      exact Always.get.bind fun m => Always.ite
        (gains_kfree.bind fun _ => Always.modify fun _ => le_rfl) (Always.pure _)

theorem gains_deallocuvm {oldsz newsz : ℕ} :
    Always Gains (fun _ => True) (deallocuvm L d oldsz newsz) :=
  Always.ite (Always.pure _) (gains_deallocLoop.bind fun _ => Always.pure _)

theorem sheds_kalloc : Always Sheds (fun _ => True) kalloc := by
  refine ⟨fun m => gives_kalloc.mpr ⟨fun _ => le_rfl, fun g free hfree => ?_⟩⟩
  unfold Sheds
  rw [hfree]
  exact Nat.le_succ _

theorem sheds_mappages :
    ∀ {v g perm : ℕ}, Always Sheds (fun _ => True) (mappages d v n g perm) := by
  induction n with
  | zero => exact Always.pure _
  | succ n ih =>
    intro v g perm
    have hsame : ∀ {f : Phys → Phys}, (∀ m, (f m).free = m.free) →
        Always Sheds (fun _ => True) (modify f : Vm PUnit) :=
      fun h => Always.modify fun m => (congrArg List.length (h m)).le
    have hwalk : Always Sheds (fun _ => True) (walkpgdir d v true) := by
      unfold walkpgdir
      refine Always.get.bind fun m => Always.ite (Always.pure _) (Always.ite ?_ (Always.pure _))
      refine sheds_kalloc.bind fun r => ?_
      split
      · exact Always.pure _
      · exact Always.bind (hsame fun _ => rfl) fun _ => Always.bind (hsame fun _ => rfl) fun _ =>
          Always.pure _
    unfold mappages
    refine hwalk.bind fun r => ?_
    split
    · exact Always.bind (hsame fun _ => rfl) fun _ => Always.pure _
    · exact Always.get.bind fun m => Always.ite (Always.throw trivial)
        (Always.bind (hsame fun _ => rfl) fun _ => ih)

/-- Every page that `allocuvm` allocates comes from the free list. -/
theorem gives_allocLoop_free {oldsz newsz : ℕ} : ∀ {m : Phys} {a : ℕ},
    Gives (allocLoop L d oldsz newsz a n) m
      (fun r m' => r = 0 ∨ m'.free.length + n ≤ m.free.length) fun _ _ => True := by
  induction n with
  | zero =>
    intro m a
    rw [allocLoop, gives_pure]
    exact Or.inr le_rfl
  | succ n ih =>
    intro m a
    rw [allocLoop, gives_bind, gives_kalloc]
    refine ⟨fun _ => ?_, fun g free hfree => ?_⟩
    · exact (gains_deallocuvm.gives m).bind (fun _ _ _ => gives_pure.mpr (Or.inl rfl))
        fun _ _ _ => trivial
    · dsimp only
      rw [gives_bind, gives_modify, gives_bind, gives_modify]
      refine (sheds_mappages.gives _).bind (fun _ m1 hshed => ih.mono ?_ fun _ _ _ => trivial)
        fun _ _ _ => trivial
      rintro r m' (hr | hlen)
      · exact Or.inl hr
      · right
        change m1.free.length ≤ free.length at hshed
        rw [hfree, List.length_cons]
        omega

theorem gives_allocuvm_free {m : Phys} {oldsz newsz : ℕ} (hle : oldsz ≤ newsz)
    (hnew : newsz < KERNBASE) : Gives (allocuvm L d oldsz newsz) m
      (fun r m' => r = 0 ∨ m'.free.length + (pgroundup newsz - pgroundup oldsz) ≤ m.free.length)
      fun _ _ => True := by
  unfold allocuvm
  rw [if_neg (by omega), if_neg (by omega)]
  exact gives_allocLoop_free

end

end StrideXv6
