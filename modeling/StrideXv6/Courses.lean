import StrideXv6.Exec

/-!
# What is recorded of `exec`

Two readings of the history of a call. `LoadsOwn` is what it should look like:
`loaduvm` reads into pages only that `allocuvm` allocated for this user page before.
`Proper` is about the file and about memory running out: segments start at a page,
`loaduvm` stays inside the image, and it does not come to a page that could not be
mapped. That both come to the same is shown in the next modules.
-/

namespace StrideXv6

namespace Memory

/-- `loaduvm` reads into pages that were allocated for the user page. -/
def LoadsOwn (l : List Note) : Prop :=
  ∀ a v g b, l = a ++ .load v g :: b → v < KERNPAGE ∧ .grown v g ∈ a

/-- The size of the image, if it was `sz` at first. -/
def imageSize : (sz : ℕ) → List Note → ℕ
  | sz, [] => sz
  | _, .segment _ sz :: l => imageSize sz l
  | sz, _ :: l => imageSize sz l

/-- `loaduvm` stays inside the image, whose size was `sz` at first. -/
def Inside : (sz : ℕ) → List Note → Prop
  | _, [] => True
  | _, .segment _ sz :: l => Inside sz l
  | sz, .reach v :: l => v < pgroundup sz ∧ Inside sz l
  | sz, _ :: l => Inside sz l

/-- Nothing is wrong with the segments, and memory did not run out in a bad moment. -/
structure Proper (l : List Note) : Prop where
  aligned : ∀ ph sz, .segment ph sz ∈ l → ph.vaddr % 4096 = 0
  inside : Inside 0 l
  fed : ∀ v, .reach v ∈ l → .starved v ∉ l

/-- Notes that are not about loading. -/
def Aside (n : Note) : Prop :=
  (∀ ph sz, n ≠ .segment ph sz) ∧ (∀ v, n ≠ .reach v) ∧ ∀ v g, n ≠ .load v g

variable {l l' : List Note} {n : Note} {v g sz : ℕ}

theorem LoadsOwn.of_append (h : LoadsOwn (l ++ l')) : LoadsOwn l := by
  rintro a v g b rfl
  exact h a v g (b ++ l') (by rw [List.append_assoc, List.cons_append])

theorem loadsOwn_append (h : ∀ v g, .load v g ∉ l') : LoadsOwn (l ++ l') ↔ LoadsOwn l := by
  refine ⟨LoadsOwn.of_append, fun hl a v g b heq => ?_⟩
  rcases List.append_eq_append_iff.mp heq with ⟨c, -, hl'⟩ | ⟨c, hla, hl'⟩
  · refine absurd ?_ (h v g)
    rw [hl']
    exact List.mem_append_right _ (List.mem_cons_self ..)
  · cases c with
    | nil =>
      refine absurd ?_ (h v g)
      rw [List.nil_append] at hl'
      rw [← hl']
      exact List.mem_cons_self ..
    | cons x c =>
      obtain ⟨rfl, -⟩ := List.cons.inj hl'
      exact hl a v g c hla

theorem loadsOwn_load :
    LoadsOwn (l ++ [.load v g]) ↔ LoadsOwn l ∧ v < KERNPAGE ∧ .grown v g ∈ l := by
  refine ⟨fun h => ⟨h.of_append, h l v g [] rfl⟩, ?_⟩
  rintro ⟨hl, hv, hg⟩ a v' g' b heq
  rcases List.eq_nil_or_concat b with rfl | ⟨b, x, rfl⟩
  · obtain ⟨rfl, hlast⟩ := List.append_inj' heq rfl
    obtain ⟨rfl, rfl⟩ := Note.load.inj (List.cons.inj hlast).1
    exact ⟨hv, hg⟩
  · rw [List.concat_eq_append, ← List.cons_append, ← List.append_assoc] at heq
    exact hl a v' g' b (List.append_inj' heq rfl).1

theorem imageSize_append : imageSize sz (l ++ l') = imageSize (imageSize sz l) l' := by
  induction l generalizing sz with
  | nil => rfl
  | cons n l ih => cases n <;> exact ih

theorem inside_append : Inside sz (l ++ l') ↔ Inside sz l ∧ Inside (imageSize sz l) l' := by
  induction l generalizing sz with
  | nil => exact ⟨fun h => ⟨trivial, h⟩, fun h => h.2⟩
  | cons n l ih =>
    cases n with
    | reach v =>
      change v < pgroundup sz ∧ Inside sz (l ++ l') ↔ (v < pgroundup sz ∧ Inside sz l) ∧ _
      rw [ih, and_assoc]
      rfl
    | _ => exact ih

theorem aside_image (h : ∀ n ∈ l, Aside n) : imageSize sz l = sz ∧ Inside sz l := by
  induction l with
  | nil => exact ⟨rfl, trivial⟩
  | cons n l ih =>
    rw [List.forall_mem_cons] at h
    obtain ⟨⟨hsegment, hreach, -⟩, hl⟩ := h
    cases n with
    | segment ph sz => exact absurd rfl (hsegment ph sz)
    | reach v => exact absurd rfl (hreach v)
    | _ => exact ih hl

theorem Proper.of_append (h : Proper (l ++ l')) : Proper l :=
  ⟨fun ph sz hm => h.aligned ph sz (List.mem_append_left _ hm), (inside_append.mp h.inside).1,
    fun v hr hs => h.fed v (List.mem_append_left _ hr) (List.mem_append_left _ hs)⟩

/-- Notes about something else. -/
theorem proper_append (h : ∀ n ∈ l', Aside n) (hs : ∀ v, .starved v ∈ l' → .reach v ∉ l) :
    Proper (l ++ l') ↔ Proper l := by
  refine ⟨Proper.of_append, fun hp => ⟨fun ph sz hm => ?_, ?_, fun v hr hst => ?_⟩⟩
  · rcases List.mem_append.mp hm with hm | hm
    · exact hp.aligned ph sz hm
    · exact absurd rfl ((h _ hm).1 ph sz)
  · exact inside_append.mpr ⟨hp.inside, (aside_image h).2⟩
  · have hr' := (List.mem_append.mp hr).resolve_right fun hm => (h _ hm).2.1 v rfl
    rcases List.mem_append.mp hst with hst | hst
    · exact hp.fed v hr' hst
    · exact hs v hst hr'

theorem proper_segment {ph : Proghdr} :
    Proper (l ++ [.segment ph sz]) ↔ Proper l ∧ ph.vaddr % 4096 = 0 := by
  refine ⟨fun h => ⟨h.of_append, h.aligned ph sz ?_⟩, fun ⟨hp, halign⟩ => ⟨fun ph' sz' hm => ?_,
    inside_append.mpr ⟨hp.inside, trivial⟩, fun v hr hst => hp.fed v ?_ ?_⟩⟩
  · exact List.mem_append_right _ (List.mem_singleton_self _)
  · rcases List.mem_append.mp hm with hm | hm
    · exact hp.aligned ph' sz' hm
    · obtain ⟨rfl, -⟩ := Note.segment.inj (List.mem_singleton.mp hm)
      exact halign
  · exact (List.mem_append.mp hr).resolve_right fun hm => by cases List.mem_singleton.mp hm
  · exact (List.mem_append.mp hst).resolve_right fun hm => by cases List.mem_singleton.mp hm

theorem proper_reach :
    Proper (l ++ [.reach v]) ↔ Proper l ∧ v < pgroundup (imageSize 0 l) ∧ .starved v ∉ l := by
  refine ⟨fun h => ⟨h.of_append, (inside_append.mp h.inside).2.1, fun hst => ?_⟩,
    fun ⟨hp, hv, hst⟩ => ⟨fun ph sz hm => hp.aligned ph sz ?_,
      inside_append.mpr ⟨hp.inside, hv, trivial⟩, fun v' hr hst' => ?_⟩⟩
  · exact h.fed v (List.mem_append_right _ (List.mem_singleton_self _)) (List.mem_append_left _ hst)
  · exact (List.mem_append.mp hm).resolve_right fun hm => by cases List.mem_singleton.mp hm
  · have hst'' := (List.mem_append.mp hst').resolve_right fun hm => by
      cases List.mem_singleton.mp hm
    rcases List.mem_append.mp hr with hr | hr
    · exact hp.fed v' hr hst''
    · rw [Note.reach.inj (List.mem_singleton.mp hr)] at hst''
      exact hst hst''

theorem proper_load : Proper (l ++ [.load v g]) ↔ Proper l := by
  refine ⟨Proper.of_append, fun hp => ⟨fun ph sz hm => hp.aligned ph sz ?_,
    inside_append.mpr ⟨hp.inside, trivial⟩, fun v' hr hst => hp.fed v' ?_ ?_⟩⟩
  · exact (List.mem_append.mp hm).resolve_right fun hm => by cases List.mem_singleton.mp hm
  · exact (List.mem_append.mp hr).resolve_right fun hm => by cases List.mem_singleton.mp hm
  · exact (List.mem_append.mp hst).resolve_right fun hm => by cases List.mem_singleton.mp hm

/-- One turn of the loop of `loaduvm`, after `l` was recorded. -/
theorem proper_turn : Proper (l ++ [.reach v, .load v g]) ↔
    Proper l ∧ v < pgroundup (imageSize 0 l) ∧ .starved v ∉ l := by
  rw [show l ++ [.reach v, .load v g] = l ++ [.reach v] ++ [.load v g] by
    rw [List.append_assoc]; rfl, proper_load, proper_reach]

theorem loadsOwn_turn : LoadsOwn (l ++ [.reach v, .load v g]) ↔
    LoadsOwn l ∧ v < KERNPAGE ∧ .grown v g ∈ l := by
  rw [show l ++ [.reach v, .load v g] = l ++ [.reach v] ++ [.load v g] by
    rw [List.append_assoc]; rfl, loadsOwn_load, loadsOwn_append (by simp), List.mem_append]
  simp only [List.mem_singleton, reduceCtorEq, or_false]

end Memory

end StrideXv6
