import StrideXv6.Syscall
import StrideXv6.Volume

/-!
# The state of the file system while one call runs

The inode that the kernel goes by is the cached one, once it was read (`Files.node`).
`Files.Consistent` is what the code of `fs.c` relies on: the disk is tidy with these
inodes, no inode is cached twice, and what is on disk of a cached inode is behind it at
most by blocks.

Calls run alone here, so that `Ends` with `Setting.alone` are the rules of pre- and
postconditions. Which errors must not come is left open: whoever wants to know that a
call returns excludes all, and then has to say that there is room for what is allocated.
-/

namespace StrideXv6

open Bracket Bytes

namespace Files

variable {ι : Type}

/-- The slot in which an inode is cached, and was read. -/
def cached (s : Files ι) (i : ℕ) : Option (Fin NINODE) :=
  (List.finRange NINODE).find? fun ip =>
    decide (0 < (s.icache ip).ref ∧ (s.icache ip).inum = i ∧ (s.icache ip).valid = true)

/-- The inode that the kernel goes by. -/
def node (s : Files ι) (i : ℕ) : Dinode :=
  match s.cached i with
  | some ip => (s.icache ip).copy
  | none => s.disk.node i

/-- What the code relies on. -/
structure Consistent (s : Files ι) : Prop where
  tidy : s.disk.Tidy s.node
  nonneg : ∀ ip, 0 ≤ (s.icache ip).ref
  unique : ∀ ip jp, 0 < (s.icache ip).ref → 0 < (s.icache jp).ref →
    (s.icache ip).inum = (s.icache jp).inum → ip = jp
  known : ∀ ip, 0 < (s.icache ip).ref →
    (s.icache ip).dev = ROOTDEV ∧ 0 < (s.icache ip).inum ∧ (s.icache ip).inum < s.disk.ninodes
  typed : ∀ ip, 0 < (s.icache ip).ref → (s.icache ip).valid = true → (s.icache ip).copy.type ≠ .free
  behind : ∀ ip, 0 < (s.icache ip).ref → (s.icache ip).valid = true →
    Disk.Behind (s.disk.node (s.icache ip).inum) (s.icache ip).copy

/-- An inode that was read and is in use. -/
structure Loaded (s : Files ι) (ip : Fin NINODE) : Prop where
  ref : 0 < (s.icache ip).ref
  valid : (s.icache ip).valid = true

/-- The disk and the copy of one inode change. -/
def revise (s : Files ι) (ip : Fin NINODE) (d : Disk) (x : Dinode) : Files ι :=
  { s with disk := d, icache := Function.update s.icache ip { s.icache ip with copy := x } }

variable {s : Files ι} {ip jp : Fin NINODE} {d d' : Disk} {x x' : Dinode} {i : ℕ}

theorem revise_self : s.revise ip s.disk (s.icache ip).copy = s := by
  unfold revise
  rw [Function.update_eq_self]

theorem revise_icache_self : (s.revise ip d x).icache ip = { s.icache ip with copy := x } :=
  Function.update_self ..

theorem revise_icache (h : jp ≠ ip) : (s.revise ip d x).icache jp = s.icache jp :=
  Function.update_of_ne h ..

theorem revise_ref : ((s.revise ip d x).icache jp).ref = (s.icache jp).ref := by
  by_cases h : jp = ip
  · rw [h, revise_icache_self]
  · rw [revise_icache h]

theorem revise_inum : ((s.revise ip d x).icache jp).inum = (s.icache jp).inum := by
  by_cases h : jp = ip
  · rw [h, revise_icache_self]
  · rw [revise_icache h]

theorem revise_dev : ((s.revise ip d x).icache jp).dev = (s.icache jp).dev := by
  by_cases h : jp = ip
  · rw [h, revise_icache_self]
  · rw [revise_icache h]

theorem revise_valid : ((s.revise ip d x).icache jp).valid = (s.icache jp).valid := by
  by_cases h : jp = ip
  · rw [h, revise_icache_self]
  · rw [revise_icache h]

theorem revise_cached : (s.revise ip d x).cached i = s.cached i := by
  simp only [cached, revise_ref, revise_inum, revise_valid]

theorem cached_eq_some (h : s.cached i = some ip) : s.Loaded ip ∧ (s.icache ip).inum = i := by
  have hfound := List.find?_some h
  obtain ⟨href, hinum, hvalid⟩ := of_decide_eq_true hfound
  exact ⟨⟨href, hvalid⟩, hinum⟩

namespace Consistent

variable (h : s.Consistent)
include h

theorem cached_of_loaded (hip : s.Loaded ip) : s.cached (s.icache ip).inum = some ip := by
  cases hc : s.cached (s.icache ip).inum with
  | none =>
    have := List.find?_eq_none.mp hc ip (List.mem_finRange ip)
    exact absurd (decide_eq_true ⟨hip.ref, rfl, hip.valid⟩) this
  | some jp =>
    obtain ⟨hjp, hinum⟩ := cached_eq_some hc
    rw [h.unique jp ip hjp.ref hip.ref hinum]

theorem node_of_loaded (hip : s.Loaded ip) : s.node (s.icache ip).inum = (s.icache ip).copy := by
  rw [node, h.cached_of_loaded hip]

theorem node_revise (hip : s.Loaded ip)
    (hd : ∀ j, j ≠ (s.icache ip).inum → d.node j = s.disk.node j) :
    (s.revise ip d x).node = Function.update s.node (s.icache ip).inum x := by
  funext j
  rw [Function.update_apply, node, revise_cached]
  by_cases hj : j = (s.icache ip).inum
  · rw [if_pos hj, hj, h.cached_of_loaded hip]
    simp only [revise_icache_self]
  · rw [if_neg hj, node]
    cases hc : s.cached j with
    | none => exact hd j hj
    | some jp =>
      have hne : jp ≠ ip := by
        rintro rfl
        exact hj (cached_eq_some hc).2.symm
      simp only [revise_icache hne]

theorem update_node (hip : s.Loaded ip) :
    Function.update s.node (s.icache ip).inum (s.icache ip).copy = s.node := by
  rw [← h.node_of_loaded hip, Function.update_eq_self]

theorem tidy_update (hip : s.Loaded ip) :
    s.disk.Tidy (Function.update s.node (s.icache ip).inum (s.icache ip).copy) := by
  rw [h.update_node hip]
  exact h.tidy

/-- One inode changes, in memory and perhaps on disk. -/
theorem revise (hip : s.Loaded ip) (hsb : d.superblock = s.disk.superblock)
    (htidy : d.Tidy (Function.update s.node (s.icache ip).inum x)) (ht : x.type ≠ .free)
    (hnode : ∀ j, j ≠ (s.icache ip).inum → d.node j = s.disk.node j)
    (hbehind : Disk.Behind (d.node (s.icache ip).inum) x) : (s.revise ip d x).Consistent where
  tidy := by
    rw [h.node_revise hip hnode]
    exact htidy
  nonneg jp := by
    rw [revise_ref]
    exact h.nonneg jp
  unique jp kp := by
    simp only [revise_ref, revise_inum]
    exact h.unique jp kp
  known jp := by
    have hn : d.ninodes = s.disk.ninodes := congrArg Superblock.ninodes hsb
    rw [revise_ref, revise_inum, revise_dev]
    change _ → _ ∧ _ ∧ _ < d.ninodes
    rw [hn]
    exact h.known jp
  typed jp := by
    rw [revise_ref, revise_valid]
    intro href hvalid
    by_cases hjp : jp = ip
    · rw [hjp, revise_icache_self]
      exact ht
    · rw [revise_icache hjp]
      exact h.typed jp href hvalid
  behind jp := by
    rw [revise_ref, revise_valid, revise_inum]
    intro href hvalid
    change Disk.Behind (d.node _) _
    by_cases hjp : jp = ip
    · rw [hjp, revise_icache_self]
      exact hbehind
    · have hne : (s.icache jp).inum ≠ (s.icache ip).inum := fun he =>
        hjp (h.unique jp ip href hip.ref he)
      rw [revise_icache hjp, hnode _ hne]
      exact h.behind jp href hvalid

end Consistent

end Files

/-! ## Rules -/

section Rules

variable {ι α β : Type} [DecidableEq ι] {p : ι} {bad : Halt → Prop} {s : Files ι}

/-- An operation whose answer is known. -/
theorem ends_op {o : FsOp ι} {f : o.Ret → FsCode ι β} {Q : β → Files ι → Prop} {r : o.Ret}
    {s' : Files ι} (hrun : ∀ n, o.run p n s = .ok (r, s'))
    (hf : Ends (.alone (fsRun p) bad) Q s' (f r)) :
    Ends (.alone (fsRun p) bad) Q s (ask o >>= f) := by
  refine ⟨fun n e he => ?_, fun r' s'' hr => ?_⟩
  · have := (hrun n).symm.trans he
    cases this
  · obtain ⟨n, hr⟩ := hr
    have := (hrun n).symm.trans hr
    cases this
    exact hf

/-- The same at the end of a program. -/
theorem ends_last {o : FsOp ι} {Q : o.Ret → Files ι → Prop} {r : o.Ret} {s' : Files ι}
    (hrun : ∀ n, o.run p n s = .ok (r, s')) (hQ : Q r s') :
    Ends (.alone (fsRun p) bad) Q s (ask o) :=
  ends_op (f := pure) hrun hQ

theorem ends_panics {Q : β → Files ι → Prop} {msg : String} (h : ¬ bad (.panic msg)) :
    Ends (.alone (fsRun p) bad) Q s (panic msg) := by
  refine ⟨fun n e he => ?_, fun r => nomatch r⟩
  cases he
  exact h

/-- What `balloc` says when there are no blocks. -/
def outOfBlocks : Halt := .panic "balloc: out of blocks"

theorem ends_balloc {Q : ℕ → Files ι → Prop} (hlow : s.disk.LowUsed)
    (hroom : bad outOfBlocks → 0 < s.disk.free)
    (hQ : ∀ b, s.disk.Found b → Q b { s with disk := s.disk.alloc b }) :
    Ends (.alone (fsRun p) bad) Q s balloc := by
  cases hfree : s.disk.firstFree s.disk.size s.disk.ninodes with
  | none =>
    have hmark : ∀ n, (FsOp.mark s.disk.size s.disk.ninodes).run p n s = .ok (none, s) := fun n => by
      simp only [FsOp.run, hfree]
    refine ends_op (fun _ => rfl) (ends_op hmark ?_)
    refine ends_panics fun hbad => ?_
    obtain ⟨b, hb⟩ := Disk.free_pos_iff.mp (hroom hbad)
    rw [hfree] at hb
    cases hb
  | some b =>
    have hmark : ∀ n, (FsOp.mark s.disk.size s.disk.ninodes).run p n s =
        .ok (some b, { s with disk := s.disk.mark s.disk.ninodes b }) := fun n => by
      simp only [FsOp.run, hfree]
    refine ends_op (fun _ => rfl) (ends_op hmark ?_)
    exact ends_op (fun _ => rfl) (ends_op (fun _ => rfl) (ends_op (fun _ => rfl)
      (hQ b (Disk.found_of_firstFree hlow hfree))))

end Rules

end StrideXv6
