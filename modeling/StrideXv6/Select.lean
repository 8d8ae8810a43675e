import Mathlib.Algebra.GroupWithZero.Nat
import Mathlib.Data.List.FinRange
import Mathlib.Order.Basic
import Mathlib.Order.Fin.Basic

/-!
# The running-minimum scan

The loop `for (p = tab; p < tab + N; p++) if (key p < key m && ok p) m = p`
over a table of `N` entries, with `m` started at a fixed entry. Its outcome is
the *leftmost minimum* of the entries it looks at: the start entry, whether or
not it passes the filter, and every entry that does.
-/

namespace Select

variable {N : ℕ} {κ : Type*} [LinearOrder κ]

/-- One turn of the loop: `p` replaces the minimum so far if it passes the
filter and its key is strictly smaller. -/
def keep (key : Fin N → κ) (ok : Fin N → Bool) (m p : Fin N) : Fin N :=
  if key p < key m ∧ ok p = true then p else m

/-- The whole loop over the table, started at `m`. -/
def scanMin (key : Fin N → κ) (ok : Fin N → Bool) (m : Fin N) : Fin N :=
  (List.finRange N).foldl (keep key ok) m

/-- `m` is the leftmost minimum of the candidates: a candidate that no
candidate beats, with strict comparison against the entries before it. -/
structure IsLeftmostMin (key : Fin N → κ) (cand : Fin N → Prop) (m : Fin N) : Prop where
  /-- the minimum is itself a candidate -/
  mem : cand m
  /-- no candidate has a smaller key -/
  le : ∀ q, cand q → key m ≤ key q
  /-- the candidates before it have strictly larger keys -/
  lt : ∀ q, cand q → q < m → key m < key q

instance IsLeftmostMin.decidable (key : Fin N → κ) (cand : Fin N → Prop) [DecidablePred cand]
    (m : Fin N) : Decidable (IsLeftmostMin key cand m) :=
  decidable_of_iff (cand m ∧ (∀ q, cand q → key m ≤ key q) ∧ ∀ q, cand q → q < m → key m < key q)
    ⟨fun h => ⟨h.1, h.2.1, h.2.2⟩, fun h => ⟨h.mem, h.le, h.lt⟩⟩

/-- There is only one leftmost minimum. -/
theorem IsLeftmostMin.unique {key : Fin N → κ} {cand : Fin N → Prop} {m m' : Fin N}
    (h : IsLeftmostMin key cand m) (h' : IsLeftmostMin key cand m') : m = m' := by
  rcases lt_trichotomy m m' with hlt | heq | hgt
  · exact absurd (h.le m' h'.mem) (not_le.mpr (h'.lt m h.mem hlt))
  · exact heq
  · exact absurd (h'.le m h.mem) (not_le.mpr (h.lt m' h'.mem hgt))

variable {key : Fin N → κ} {ok : Fin N → Bool}

/-- The scan of a sorted list, started at an entry no larger than the list's
entries: the outcome is the leftmost minimum of the start and of the listed
entries that pass the filter. -/
theorem foldl_keep_spec {l : List (Fin N)} :
    ∀ {m : Fin N}, l.Pairwise (· < ·) →
      (∀ p ∈ l, m ≤ p) →
      IsLeftmostMin key (fun q => q = m ∨ (q ∈ l ∧ ok q = true)) (l.foldl (keep key ok) m) := by
  induction l with
  | nil =>
    intro m _ _
    refine ⟨Or.inl rfl, ?_, ?_⟩
    · rintro q (rfl | ⟨hq, -⟩)
      · exact le_refl _
      · cases hq
    · rintro q (rfl | ⟨hq, -⟩) hlt
      · exact absurd hlt (lt_irrefl _)
      · cases hq
  | cons p l ih =>
    intro m hsorted hm
    obtain ⟨hp, hl⟩ := List.pairwise_cons.mp hsorted
    rw [List.foldl_cons]
    by_cases hkeep : key p < key m ∧ ok p = true
    · -- `p` takes over: `m` stays beaten by whatever the rest of the scan finds
      have hstep : keep key ok m p = p := if_pos hkeep
      have hrest := ih hl fun q hq => (hp q hq).le
      rw [hstep]
      refine ⟨?_, ?_, ?_⟩
      · rcases hrest.mem with h | ⟨h, hok⟩
        · exact Or.inr ⟨by rw [h]; exact List.mem_cons_self, by rw [h]; exact hkeep.2⟩
        · exact Or.inr ⟨List.mem_cons_of_mem _ h, hok⟩
      · rintro q (rfl | ⟨hq, hok⟩)
        · exact (hrest.le p (Or.inl rfl)).trans hkeep.1.le
        · rcases List.mem_cons.mp hq with rfl | hq
          · exact hrest.le q (Or.inl rfl)
          · exact hrest.le q (Or.inr ⟨hq, hok⟩)
      · rintro q (rfl | ⟨hq, hok⟩) hlt
        · exact (hrest.le p (Or.inl rfl)).trans_lt hkeep.1
        · rcases List.mem_cons.mp hq with rfl | hq
          · exact hrest.lt q (Or.inl rfl) hlt
          · exact hrest.lt q (Or.inr ⟨hq, hok⟩) hlt
    · -- `p` is passed over: either it is filtered out or `m` is at least as small
      have hstep : keep key ok m p = m := if_neg hkeep
      have hrest := ih hl fun q hq => hm q (List.mem_cons_of_mem _ hq)
      rw [hstep]
      have hmle : key (l.foldl (keep key ok) m) ≤ key m := hrest.le m (Or.inl rfl)
      refine ⟨?_, ?_, ?_⟩
      · rcases hrest.mem with h | ⟨h, hok⟩
        · exact Or.inl h
        · exact Or.inr ⟨List.mem_cons_of_mem _ h, hok⟩
      · rintro q (rfl | ⟨hq, hok⟩)
        · exact hmle
        · rcases List.mem_cons.mp hq with rfl | hq
          · exact hmle.trans (not_lt.mp fun hlt => hkeep ⟨hlt, hok⟩)
          · exact hrest.le q (Or.inr ⟨hq, hok⟩)
      · rintro q (rfl | ⟨hq, hok⟩) hlt
        · exact hrest.lt q (Or.inl rfl) hlt
        · rcases List.mem_cons.mp hq with rfl | hq
          · -- `q = p` lies before the outcome, so the outcome is not the start entry
            have hne : l.foldl (keep key ok) m ≠ m := by
              intro heq
              rw [heq] at hlt
              exact absurd (hm q List.mem_cons_self) (not_le.mpr hlt)
            have hlt' : m < l.foldl (keep key ok) m :=
              lt_of_le_of_lt (hm q List.mem_cons_self) hlt
            exact (hrest.lt m (Or.inl rfl) hlt').trans_le
              (not_lt.mp fun hlt => hkeep ⟨hlt, hok⟩)
          · exact hrest.lt q (Or.inr ⟨hq, hok⟩) hlt

/-- **What the scan finds**: started at the first entry, the leftmost minimum
among that entry and the entries that pass the filter. -/
theorem scanMin_spec [NeZero N] :
    IsLeftmostMin key (fun q => q = 0 ∨ ok q = true) (scanMin key ok 0) := by
  have hspec : IsLeftmostMin key (fun q => q = 0 ∨ (q ∈ List.finRange N ∧ ok q = true))
      (scanMin key ok 0) :=
    foldl_keep_spec (List.pairwise_lt_finRange N) fun p _ => Fin.zero_le p
  refine ⟨?_, ?_, ?_⟩
  · rcases hspec.mem with h | ⟨-, h⟩
    · exact Or.inl h
    · exact Or.inr h
  · rintro q (hq | hq)
    · exact hspec.le q (Or.inl hq)
    · exact hspec.le q (Or.inr ⟨List.mem_finRange q, hq⟩)
  · rintro q (hq | hq)
    · exact hspec.lt q (Or.inl hq)
    · exact hspec.lt q (Or.inr ⟨List.mem_finRange q, hq⟩)

end Select
