import Mathlib.Data.BitVec
import Mathlib.Logic.Function.Basic

/-!
# Ring buffers with free-running counters

A ring of `cap` cells and two counters of `w` bits, of what was ever read and of
what was ever written. The counters are not reduced to indices when they are
stepped; they wrap around with their width, and an index is a counter modulo
`cap`. That is right as long as `cap` divides `2 ^ w`: then the cell of a
position does not depend on how often the counters have wrapped.

The ring is full when the counters differ by `cap` and empty when they agree.
`contents` is the list of what is in the ring, oldest first; `contents_push` and
`contents_pop` say that the ring is a queue.
-/

universe u

/-- Cells, and the numbers of elements ever read and ever written. -/
structure CountedRing (w : ℕ) (α : Type u) : Type u where
  data : ℕ → α
  nread : BitVec w
  nwrite : BitVec w

namespace CountedRing

variable {w : ℕ} {α : Type u} {cap : ℕ} (r : CountedRing w α)

/-- How many elements the ring holds. -/
def count : ℕ := (r.nwrite - r.nread).toNat

/-- The elements from `nread` to `nwrite`. -/
def contents (cap : ℕ) : List α :=
  (List.range r.count).map fun j => r.data ((r.nread + BitVec.ofNat w j).toNat % cap)

/-- `nwrite == nread + cap`. -/
def Full (cap : ℕ) : Prop := r.nwrite = r.nread + BitVec.ofNat w cap

instance (cap : ℕ) : Decidable (r.Full cap) :=
  inferInstanceAs (Decidable (r.nwrite = r.nread + BitVec.ofNat w cap))

/-- `nread == nwrite`. -/
def Empty : Prop := r.nread = r.nwrite

instance : Decidable r.Empty := inferInstanceAs (Decidable (r.nread = r.nwrite))

/-- `data[nwrite++ % cap] = x`. -/
def push (cap : ℕ) (x : α) : CountedRing w α :=
  { r with data := Function.update r.data (r.nwrite.toNat % cap) x
           nwrite := r.nwrite + 1 }

/-- The element `data[nread % cap]`. -/
def front (cap : ℕ) : α := r.data (r.nread.toNat % cap)

/-- `nread++`. -/
def pop : CountedRing w α := { r with nread := r.nread + 1 }

variable {r}

@[simp] theorem length_contents : (r.contents cap).length = r.count := by simp [contents]

/-! ## The two tests -/

/-- The counters differ by `m` if that is their difference as numbers. -/
theorem count_eq_of_nwrite {m : ℕ} (hm : m < 2 ^ w) (h : r.nwrite = r.nread + BitVec.ofNat w m) :
    r.count = m := by
  unfold count
  rw [h, BitVec.add_comm, BitVec.add_sub_cancel, BitVec.toNat_ofNat, Nat.mod_eq_of_lt hm]

theorem nwrite_eq : r.nwrite = r.nread + BitVec.ofNat w r.count := by
  unfold count
  rw [BitVec.ofNat_toNat, BitVec.setWidth_eq, BitVec.add_comm, BitVec.sub_add_cancel]

theorem count_lt : r.count < 2 ^ w := BitVec.isLt _

theorem empty_iff : r.Empty ↔ r.count = 0 := by
  constructor
  · intro h
    refine count_eq_of_nwrite (Nat.two_pow_pos w) ?_
    rw [← h]
    exact (BitVec.add_zero _).symm
  · intro h
    have heq := r.nwrite_eq
    rw [h] at heq
    exact (heq.trans (BitVec.add_zero _)).symm

theorem full_iff (hcap : cap < 2 ^ w) : r.Full cap ↔ r.count = cap := by
  refine ⟨count_eq_of_nwrite hcap, fun h => ?_⟩
  unfold Full
  rw [← h]
  exact nwrite_eq

/-! ## A queue -/

/-- The cell of the position `j` places after `nread`. -/
theorem index_eq (hdvd : cap ∣ 2 ^ w) (x : BitVec w) (j : ℕ) :
    (x + BitVec.ofNat w j).toNat % cap = (x.toNat + j) % cap := by
  rw [BitVec.toNat_add, BitVec.toNat_ofNat, Nat.add_mod_mod, Nat.mod_mod_of_dvd _ hdvd]

theorem count_push (hroom : r.count + 1 < 2 ^ w) (x : α) :
    (r.push cap x).count = r.count + 1 := by
  refine count_eq_of_nwrite hroom ?_
  change r.nwrite + 1 = r.nread + BitVec.ofNat w (r.count + 1)
  rw [BitVec.ofNat_add, ← BitVec.add_assoc, ← nwrite_eq]
  rfl

theorem count_pop (hne : ¬ r.Empty) : r.count = r.pop.count + 1 := by
  have hpos : r.count ≠ 0 := fun h => hne (empty_iff.mpr h)
  have hlt := r.count_lt
  have hpop : r.pop.count = r.count - 1 := by
    refine count_eq_of_nwrite (by omega) ?_
    change r.nwrite = r.nread + 1 + BitVec.ofNat w (r.count - 1)
    have hsplit : BitVec.ofNat w r.count = 1 + BitVec.ofNat w (r.count - 1) := by
      conv_lhs => rw [show r.count = 1 + (r.count - 1) by omega, BitVec.ofNat_add]
      rfl
    rw [BitVec.add_assoc, ← hsplit]
    exact nwrite_eq
  omega

/-- Positions less than a round apart have different cells. -/
theorem cell_ne {b i j : ℕ} (hij : i < j) (hj : j < cap) : (b + i) % cap ≠ (b + j) % cap := by
  intro h
  have hmod : i ≡ j [MOD cap] := Nat.ModEq.add_left_cancel' b h
  exact absurd (hmod.eq_of_lt_of_lt (by omega) hj) hij.ne

/-- **Writing appends.** -/
theorem contents_push (hdvd : cap ∣ 2 ^ w) (hcap : cap < 2 ^ w) (hroom : r.count < cap) (x : α) :
    (r.push cap x).contents cap = r.contents cap ++ [x] := by
  have hnext : r.nwrite.toNat % cap = (r.nread.toNat + r.count) % cap := by
    rw [nwrite_eq, index_eq hdvd]
  unfold contents
  rw [count_push (by omega), List.range_succ, List.map_append, List.map_singleton]
  congr 1
  · refine List.map_congr_left fun j hj => ?_
    have hlt := List.mem_range.mp hj
    have hne : (r.nread + BitVec.ofNat w j).toNat % cap ≠ r.nwrite.toNat % cap := by
      rw [hnext, index_eq hdvd]
      exact cell_ne hlt hroom
    exact Function.update_of_ne hne _ _
  · change [Function.update r.data (r.nwrite.toNat % cap) x
      ((r.nread + BitVec.ofNat w r.count).toNat % cap)] = [x]
    rw [hnext, index_eq hdvd, Function.update_self]

/-- **Reading takes from the front.** -/
theorem contents_pop (hne : ¬ r.Empty) : r.contents cap = r.front cap :: r.pop.contents cap := by
  unfold contents
  rw [count_pop hne, List.range_succ_eq_map, List.map_cons, List.map_map]
  congr 1
  · rw [BitVec.add_zero]
    rfl
  · refine List.map_congr_left fun j _ => ?_
    change r.data ((r.nread + BitVec.ofNat w (j + 1)).toNat % cap) =
      r.data ((r.nread + 1 + BitVec.ofNat w j).toNat % cap)
    rw [Nat.add_comm j 1, BitVec.ofNat_add, BitVec.add_assoc]
    rfl

end CountedRing
