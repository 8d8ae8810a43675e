import StrideXv6.Contents

/-!
# Writing to an open file (`filewrite`)

`filewrite` cuts what it has to write into pieces, each in a transaction of its own.
`Files.Progress` says how far it has come: the bytes up to there are in the file, and the
offset is behind them. If `writei` refuses a piece, what was written before it stays, and
`-1` is returned nevertheless.
-/

namespace StrideXv6

open Bracket Bytes

/-! ## Locks on inodes -/

section Locks

variable {ι : Type} {s : Files ι} {ip jp : Fin NINODE} {i : ℕ}

namespace Files

/-- After `ilock`: the inode was read. -/
def locked (s : Files ι) (ip : Fin NINODE) : Files ι :=
  s.setInode ip { s.icache ip with
    busy := true, valid := true, copy := s.node (s.icache ip).inum }

/-- After `iunlock`. -/
def unlocked (s : Files ι) (ip : Fin NINODE) : Files ι :=
  s.setInode ip { s.icache ip with busy := false }

theorem icache_setInode_self {y : Inode} : (s.setInode ip y).icache ip = y :=
  Function.update_self ..

theorem icache_setInode_of_ne {y : Inode} (h : jp ≠ ip) :
    (s.setInode ip y).icache jp = s.icache jp := Function.update_of_ne h ..

/-- An inode may be read into the cache, and marked as busy or not. -/
theorem Consistent.setInode (h : s.Consistent) {y : Inode} (href : 0 < (s.icache ip).ref)
    (hdev : y.dev = (s.icache ip).dev) (hinum : y.inum = (s.icache ip).inum)
    (hyref : y.ref = (s.icache ip).ref) (hvalid : y.valid = true)
    (hcopy : y.copy = s.node (s.icache ip).inum)
    (ht : (s.node (s.icache ip).inum).type ≠ .free) :
    (s.setInode ip y).Consistent ∧ (s.setInode ip y).node = s.node := by
  have hrefs : ∀ jp, ((s.setInode ip y).icache jp).ref = (s.icache jp).ref := fun jp => by
    by_cases hjp : jp = ip
    · rw [hjp, icache_setInode_self, hyref]
    · rw [icache_setInode_of_ne hjp]
  have hinums : ∀ jp, ((s.setInode ip y).icache jp).inum = (s.icache jp).inum := fun jp => by
    by_cases hjp : jp = ip
    · rw [hjp, icache_setInode_self, hinum]
    · rw [icache_setInode_of_ne hjp]
  have hnode : (s.setInode ip y).node = s.node := by
    funext j
    by_cases hj : j = (s.icache ip).inum
    · subst hj
      have hcached : (s.setInode ip y).cached (s.icache ip).inum = some ip := by
        cases hc : (s.setInode ip y).cached (s.icache ip).inum with
        | none =>
          have hno := List.find?_eq_none.mp hc ip (List.mem_finRange ip)
          refine absurd (decide_eq_true ⟨?_, ?_, ?_⟩) hno
          · rw [hrefs]
            exact href
          · exact hinums ip
          · rw [icache_setInode_self]
            exact hvalid
        | some kp =>
          obtain ⟨hkp, hkinum⟩ := cached_eq_some hc
          rw [hinums] at hkinum
          have hkref := hkp.ref
          rw [hrefs] at hkref
          rw [h.unique kp ip hkref href hkinum]
      rw [node, hcached]
      simp only [icache_setInode_self]
      exact hcopy
    · have hcached : (s.setInode ip y).cached j = s.cached j := by
        unfold cached
        congr 1
        funext kp
        by_cases hkp : kp = ip
        · subst hkp
          simp only [icache_setInode_self, hinum]
          have hne : ¬ (s.icache kp).inum = j := fun heq => hj heq.symm
          simp only [hne, false_and, and_false]
        · rw [icache_setInode_of_ne hkp]
      rw [node, node, hcached]
      cases hc : s.cached j with
      | none => rfl
      | some kp =>
        have hkp : kp ≠ ip := by
          rintro rfl
          exact hj (cached_eq_some hc).2.symm
        simp only [icache_setInode_of_ne hkp]
  refine ⟨⟨?_, fun jp => ?_, fun jp kp => ?_, fun jp => ?_, fun jp hjref hjvalid => ?_,
    fun jp hjref hjvalid => ?_⟩, hnode⟩
  · rw [hnode]
    exact h.tidy
  · rw [hrefs]
    exact h.nonneg jp
  · rw [hrefs, hrefs, hinums, hinums]
    exact h.unique jp kp
  · rw [hrefs, hinums]
    by_cases hjp : jp = ip
    · rw [hjp, icache_setInode_self, hdev]
      exact h.known ip
    · rw [icache_setInode_of_ne hjp]
      exact h.known jp
  · by_cases hjp : jp = ip
    · rw [hjp, icache_setInode_self, hcopy]
      exact ht
    · rw [icache_setInode_of_ne hjp] at hjref hjvalid ⊢
      exact h.typed jp hjref hjvalid
  · by_cases hjp : jp = ip
    · rw [hjp, icache_setInode_self, hinum, hcopy]
      change Disk.Behind (s.disk.node _) _
      cases hc : s.cached (s.icache ip).inum with
      | none =>
        rw [node, hc]
        exact .refl _
      | some kp =>
        obtain ⟨hkp, hkinum⟩ := cached_eq_some hc
        rw [node, hc]
        have := h.behind kp hkp.ref hkp.valid
        rwa [hkinum] at this
    · rw [icache_setInode_of_ne hjp] at hjref hjvalid ⊢
      exact h.behind jp hjref hjvalid

/-- A cached inode that was not read is what is on disk. -/
theorem Consistent.node_of_not_valid (h : s.Consistent) (href : 0 < (s.icache ip).ref)
    (hvalid : (s.icache ip).valid = false) :
    s.node (s.icache ip).inum = s.disk.dinode (s.icache ip).inum := by
  have hnone : s.cached (s.icache ip).inum = none := by
    cases hc : s.cached (s.icache ip).inum with
    | none => rfl
    | some kp =>
      obtain ⟨hkp, hkinum⟩ := cached_eq_some hc
      obtain rfl := h.unique kp ip hkp.ref href hkinum
      have hv := hkp.valid
      rw [hvalid] at hv
      cases hv
  obtain ⟨-, hpos, hlt⟩ := h.known ip href
  rw [node, hnone]
  exact if_pos ⟨hpos, hlt⟩

theorem icache_locked : (s.locked ip).icache ip = { s.icache ip with
    busy := true, valid := true, copy := s.node (s.icache ip).inum } := icache_setInode_self

theorem icache_unlocked : (s.unlocked ip).icache ip = { s.icache ip with busy := false } :=
  icache_setInode_self

/-- A lock changes nothing but what is cached. -/
theorem Consistent.locked (h : s.Consistent) (href : 0 < (s.icache ip).ref)
    (ht : (s.node (s.icache ip).inum).type ≠ .free) :
    (s.locked ip).Consistent ∧ (s.locked ip).node = s.node :=
  h.setInode href rfl rfl rfl rfl rfl ht

theorem Consistent.unlocked (h : s.Consistent) (hip : s.Loaded ip) :
    (s.unlocked ip).Consistent ∧ (s.unlocked ip).node = s.node := by
  refine h.setInode hip.ref rfl rfl rfl hip.valid (h.node_of_loaded hip).symm ?_
  rw [h.node_of_loaded hip]
  exact h.typed ip hip.ref hip.valid

theorem loaded_locked (href : 0 < (s.icache ip).ref) : (s.locked ip).Loaded ip :=
  ⟨by rw [icache_locked]; exact href, by rw [icache_locked]⟩

end Files

variable [DecidableEq ι] {β : Type} {p : ι} {bad : Halt → Prop}

/-- `ilock`, when nobody else has the lock. -/
theorem ends_ilock {Q : Unit → Files ι → Prop} (h : s.Consistent) (href : 0 < (s.icache ip).ref)
    (hbusy : (s.icache ip).busy = false) (ht : (s.node (s.icache ip).inum).type ≠ .free)
    (hQ : Q () (s.locked ip)) : Ends (.alone (fsRun p) bad) Q s (ilock ip) := by
  have hlock : ∀ n, (FsOp.lock ip).run p n s =
      .ok ((), s.setInode ip { s.icache ip with busy := true }) := fun n => by
    have hnot : ¬ (s.icache ip).ref < 1 := by omega
    simp only [FsOp.run, if_neg hnot, hbusy, Bool.false_eq_true, if_false]
  have hload : ∀ n, FsOp.run p n (s.setInode ip { s.icache ip with busy := true })
      (.load ip) = .ok ((), s.locked ip) := fun n => by
    unfold FsOp.run Files.locked
    dsimp only
    rw [Files.icache_setInode_self]
    dsimp only
    by_cases hvalid : (s.icache ip).valid = true
    · rw [if_pos hvalid, h.node_of_loaded ⟨href, hvalid⟩, ← hvalid]
    · rw [Bool.not_eq_true] at hvalid
      have hnode := h.node_of_not_valid href hvalid
      have htype : ¬ (s.disk.dinode (s.icache ip).inum).type = .free := by rwa [← hnode]
      rw [hvalid, if_neg Bool.false_ne_true]
      change (if (s.disk.dinode (s.icache ip).inum).type = .free then _ else _) = _
      rw [if_neg htype, hnode]
      simp only [Files.setInode, Function.update_idem]
  exact ends_op hlock (ends_last hload hQ)

theorem ends_iunlock {Q : Unit → Files ι → Prop} (href : 0 < (s.icache ip).ref)
    (hbusy : (s.icache ip).busy = true) (hQ : Q () (s.unlocked ip)) :
    Ends (.alone (fsRun p) bad) Q s (iunlock ip) := by
  have hnot : ¬ ((s.icache ip).busy = false ∨ (s.icache ip).ref < 1) := by
    rw [hbusy]
    rintro (h | h)
    · cases h
    · omega
  have hunlock : ∀ n, (FsOp.unlock ip).run p n s = .ok ((), s.unlocked ip) := fun n => by
    simp only [FsOp.run, if_neg hnot]
    rfl
  exact ends_last hunlock hQ

end Locks

/-! ## One piece -/

section Pieces

variable {ι : Type} [DecidableEq ι] {p : ι} {s s' s'' : Files ι} {ip : Fin NINODE} {f : Fin NFILE}
  {bad : Halt → Prop}

/-- `writei` of bytes. -/
theorem ends_writeBytes (h : s.Consistent) (hip : s.Loaded ip)
    (hdev : (s.icache ip).copy.type ≠ .dev) (off n : ℕ) (src : ℕ → Byte)
    (hroom : bad outOfBlocks → ¬ (s.icache ip).copy.RefusesWrite off n →
      s.disk.needs (s.icache ip).copy (blocksOf off n) ≤ s.disk.free) :
    Ends (.alone (fsRun p) bad) (fun r s' =>
      if (s.icache ip).copy.RefusesWrite off n then r = none ∧ s' = s
      else r = some n ∧ Written s s' ip off n src ∧
        (s'.node (s.icache ip).inum).type = (s.icache ip).copy.type) s
      (writei ip off n (writeSource src off n)) := by
  obtain ⟨-, hi, hin⟩ := h.known ip hip.ref
  have hends : Ends (.alone (fsRun p) bad) _ (s.revise ip s.disk (s.icache ip).copy)
      (writei ip off n (writeSource src off n)) :=
    ends_writei (fillsBy_writeSource src off n) (h.tidy_update hip) hi hin rfl
      (h.typed ip hip.ref hip.valid) hdev hroom
  rw [Files.revise_self] at hends
  refine hends.mono ?_
  rintro r _ ⟨d, x, rfl, hr⟩
  by_cases href : (s.icache ip).copy.RefusesWrite off n
  · rw [if_pos href] at hr ⊢
    obtain ⟨hr, rfl, rfl⟩ := hr
    exact ⟨hr, Files.revise_self⟩
  · rw [if_neg href] at hr ⊢
    have hother : ∀ j, j ≠ (s.icache ip).inum → d.node j = s.disk.node j := by
      intro j hj
      rw [hr.2.node]
      split
      · exact Function.update_of_ne hj ..
      · rfl
    refine ⟨hr.1, written_of_wrote h hip href hr.2, ?_⟩
    rw [h.node_revise hip hother, Function.update_self, hr.2.type]

/-- A regular file that is open, as `f`, and that nobody has locked. -/
structure Files.Open (s : Files ι) (f : Fin NFILE) (ip : Fin NINODE) : Prop where
  consistent : s.Consistent
  type : (s.ftable f).type = .inode
  inode : (s.ftable f).ip = ip
  ref : 0 < (s.icache ip).ref
  busy : (s.icache ip).busy = false
  regular : (s.node (s.icache ip).inum).type = .file

/-- The first `i` bytes of `src` were written, and nothing else was changed that a program
could see. -/
structure Files.Progress (s : Files ι) (f : Fin NFILE) (ip : Fin NINODE) (src : ℕ → Byte) (i : ℕ)
    (s' : Files ι) : Prop where
  open_ : s'.Open f ip
  inum : (s'.icache ip).inum = (s.icache ip).inum
  size : (s'.node (s.icache ip).inum).size =
    if i = 0 then (s.node (s.icache ip).inum).size
    else max (s.node (s.icache ip).inum).size ((s.ftable f).off + i)
  bytes : ∀ o, s'.bytes (s.icache ip).inum o =
    if (s.ftable f).off ≤ o ∧ o < (s.ftable f).off + i then src (o - (s.ftable f).off)
    else s.bytes (s.icache ip).inum o
  others : ∀ j, j ≠ (s.icache ip).inum → s'.node j = s.node j ∧ s'.bytes j = s.bytes j
  ftable : s'.ftable = Function.update s.ftable f { s.ftable f with off := (s.ftable f).off + i }
  pages : s'.pages = s.pages
  procs : s'.procs = s.procs

omit [DecidableEq ι] in
theorem Files.Progress.refl (h : s.Open f ip) (src : ℕ → Byte) : s.Progress f ip src 0 s where
  open_ := h
  inum := rfl
  size := by rw [if_pos rfl]
  bytes o := by rw [if_neg (by omega)]
  others _ _ := ⟨rfl, rfl⟩
  ftable := by rw [Nat.add_zero, Function.update_eq_self]
  pages := rfl
  procs := rfl

omit [DecidableEq ι] in
/-- The table of open files has nothing to do with inodes. -/
theorem Files.Consistent.setFile (h : s.Consistent) {x : File} : (s.setFile f x).Consistent :=
  ⟨h.tidy, h.nonneg, h.unique, h.known, h.typed, h.behind⟩

omit [DecidableEq ι] in
/-- First some bytes, then those behind them. -/
theorem Files.Progress.append {src : ℕ → Byte} {i n : ℕ} (h : s.Progress f ip src i s')
    (h' : s'.Progress f ip (fun k => src (i + k)) n s'') : s.Progress f ip src (i + n) s'' := by
  have hoff : (s'.ftable f).off = (s.ftable f).off + i := by
    rw [h.ftable, Function.update_self]
  have hsize := h'.size
  have hbytes := h'.bytes
  have hothers := h'.others
  have hinum := h'.inum
  rw [h.inum, hoff] at hsize
  rw [h.inum, hoff] at hbytes
  rw [h.inum] at hothers hinum
  refine ⟨h'.open_, hinum, ?_, fun o => ?_, fun j hj => ?_, ?_, h'.pages.trans h.pages,
    h'.procs.trans h.procs⟩
  · rw [hsize, h.size]
    split_ifs <;> omega
  · rw [hbytes o, h.bytes o]
    by_cases hin : (s.ftable f).off ≤ o ∧ o < (s.ftable f).off + (i + n)
    · rw [if_pos hin]
      by_cases hfirst : o < (s.ftable f).off + i
      · rw [if_neg (by omega), if_pos ⟨hin.1, hfirst⟩]
      · rw [if_pos (by omega)]
        congr 1
        omega
    · rw [if_neg hin, if_neg (by omega), if_neg (by omega)]
  · exact ⟨(hothers j hj).1.trans (h.others j hj).1, (hothers j hj).2.trans (h.others j hj).2⟩
  · rw [h'.ftable, hoff, h.ftable]
    simp only [Function.update_self, Function.update_idem, Nat.add_assoc]

omit [DecidableEq ι] in
theorem Files.bytes_congr (hd : s'.disk = s.disk) (hn : s'.node = s.node) : s'.bytes = s.bytes := by
  funext i
  rw [Files.bytes, Files.bytes, hd, hn]

omit [DecidableEq ι] in
/-- How far it has come may be seen before the inode is unlocked. -/
theorem Files.Progress.of_unlocked {src : ℕ → Byte} {i : ℕ} (h : s.Open f ip) (hs' : s'.Consistent)
    (hip : s'.Loaded ip) (hinum : (s'.icache ip).inum = (s.icache ip).inum)
    (hregular : (s'.node (s.icache ip).inum).type = .file)
    (hsize : (s'.node (s.icache ip).inum).size =
      if i = 0 then (s.node (s.icache ip).inum).size
      else max (s.node (s.icache ip).inum).size ((s.ftable f).off + i))
    (hbytes : ∀ o, s'.bytes (s.icache ip).inum o =
      if (s.ftable f).off ≤ o ∧ o < (s.ftable f).off + i then src (o - (s.ftable f).off)
      else s.bytes (s.icache ip).inum o)
    (hothers : ∀ j, j ≠ (s.icache ip).inum → s'.node j = s.node j ∧ s'.bytes j = s.bytes j)
    (hftable : s'.ftable = Function.update s.ftable f
      { s.ftable f with off := (s.ftable f).off + i })
    (hpages : s'.pages = s.pages) (hprocs : s'.procs = s.procs) :
    s.Progress f ip src i (s'.unlocked ip) := by
  obtain ⟨hcons, hnode⟩ := hs'.unlocked hip
  have hb : (s'.unlocked ip).bytes = s'.bytes := Files.bytes_congr rfl hnode
  have hfile : (s'.unlocked ip).ftable f = { s.ftable f with off := (s.ftable f).off + i } := by
    change s'.ftable f = _
    rw [hftable, Function.update_self]
  refine ⟨⟨hcons, ?_, ?_, ?_, ?_, ?_⟩, ?_, ?_, fun o => ?_, fun j hj => ?_, hftable, hpages,
    hprocs⟩
  · rw [hfile]
    exact h.type
  · rw [hfile]
    exact h.inode
  · rw [Files.icache_unlocked]
    exact hip.ref
  · rw [Files.icache_unlocked]
  · rw [Files.icache_unlocked, hnode]
    change (s'.node (s'.icache ip).inum).type = _
    rw [hinum]
    exact hregular
  · rw [Files.icache_unlocked]
    exact hinum
  · rw [hnode]
    exact hsize
  · rw [hb]
    exact hbytes o
  · rw [hnode, hb]
    exact hothers j hj

/-- If to run out of blocks is bad, there are blocks for `n` bytes at the offset. -/
def Files.Room (s : Files ι) (f : Fin NFILE) (ip : Fin NINODE) (bad : Halt → Prop) (n : ℕ) : Prop :=
  bad outOfBlocks → ¬ (s.node (s.icache ip).inum).RefusesWrite (s.ftable f).off n →
    s.disk.needs (s.node (s.icache ip).inum) (blocksOf (s.ftable f).off n) ≤ s.disk.free

/-- What one piece does, once the inode is locked. -/
theorem Files.Open.write (h : s.Open f ip) {n : ℕ} {src : ℕ → Byte} (hroom : s.Room f ip bad n) :
    Ends (.alone (fsRun p) bad) (fun r s' =>
        (0 < (s'.icache ip).ref ∧ (s'.icache ip).busy = true) ∧
        ((s.node (s.icache ip).inum).RefusesWrite (s.ftable f).off n → r = none ∧
          s.Progress f ip src 0 (s'.unlocked ip)) ∧
        (¬ (s.node (s.icache ip).inum).RefusesWrite (s.ftable f).off n → r = some n ∧
          s.Progress f ip src n
            ((s'.setFile f { s'.ftable f with off := (s'.ftable f).off + n }).unlocked ip)))
      (s.locked ip) (writei ip (s.ftable f).off n (writeSource src (s.ftable f).off n)) := by
  have ht : (s.node (s.icache ip).inum).type ≠ .free := by
    rw [h.regular]
    exact nofun
  obtain ⟨hlocked, hnode⟩ := h.consistent.locked h.ref ht
  have hloaded := Files.loaded_locked h.ref
  have hcopy : ((s.locked ip).icache ip).copy = s.node (s.icache ip).inum := by
    rw [Files.icache_locked]
  have hinum : ((s.locked ip).icache ip).inum = (s.icache ip).inum := by rw [Files.icache_locked]
  have hbytes : (s.locked ip).bytes = s.bytes := Files.bytes_congr rfl hnode
  have hdev : ((s.locked ip).icache ip).copy.type ≠ .dev := by
    rw [hcopy, h.regular]
    exact nofun
  have hroom' : bad outOfBlocks →
      ¬ ((s.locked ip).icache ip).copy.RefusesWrite (s.ftable f).off n →
      (s.locked ip).disk.needs ((s.locked ip).icache ip).copy (blocksOf (s.ftable f).off n) ≤
        (s.locked ip).disk.free := by
    rw [hcopy]
    exact hroom
  refine (ends_writeBytes hlocked hloaded hdev (s.ftable f).off n src hroom').mono fun r s' hr => ?_
  rw [hcopy] at hr
  have hheld : ∀ y, { (s.locked ip).icache ip with copy := y } = s'.icache ip →
      0 < (s'.icache ip).ref ∧ (s'.icache ip).busy = true := by
    intro y hy
    rw [← hy, Files.icache_locked]
    exact ⟨h.ref, rfl⟩
  by_cases href : (s.node (s.icache ip).inum).RefusesWrite (s.ftable f).off n
  · rw [if_pos href] at hr
    obtain ⟨hr, rfl⟩ := hr
    refine ⟨hheld _ rfl, fun _ => ⟨hr, ?_⟩, fun hnot => absurd href hnot⟩
    refine .of_unlocked h hlocked hloaded hinum ?_ ?_ (fun o => ?_) (fun j _ => ?_) ?_ rfl rfl
    · rw [hnode]
      exact h.regular
    · rw [if_pos rfl, hnode]
    · rw [if_neg (by omega), hbytes]
    · exact ⟨by rw [hnode], by rw [hbytes]⟩
    · rw [Nat.add_zero, Function.update_eq_self]
      rfl
  · rw [if_neg href] at hr
    obtain ⟨hr, hw, hwtype⟩ := hr
    rw [hinum] at hwtype
    have hwsize := hw.size
    have hwbytes := hw.bytes
    have hwothers := hw.others
    rw [hinum, hnode] at hwsize
    rw [hinum, hbytes] at hwbytes
    rw [hinum, hnode, hbytes] at hwothers
    have hself : s'.icache ip = { (s.locked ip).icache ip with copy := (s'.icache ip).copy } := by
      conv_lhs => rw [hw.rest]
      exact Files.revise_icache_self
    have hftable : s'.ftable = s.ftable := by
      rw [hw.rest]
      rfl
    have hloaded' : s'.Loaded ip := by
      refine ⟨?_, ?_⟩
      · rw [hself, Files.icache_locked]
        exact h.ref
      · rw [hself, Files.icache_locked]
    refine ⟨hheld _ hself.symm, fun hyes => absurd hyes href, fun _ => ⟨hr, ?_⟩⟩
    refine .of_unlocked h hw.consistent.setFile ⟨hloaded'.ref, hloaded'.valid⟩ ?_ ?_ ?_
      hwbytes hwothers ?_ ?_ ?_
    · change (s'.icache ip).inum = _
      rw [hself, hinum]
    · exact hwtype.trans h.regular
    · change (s'.node (s.icache ip).inum).size = _
      have hle : ¬ (s.node (s.icache ip).inum).size < (s.ftable f).off := fun hlt => href (.inl hlt)
      rw [hwsize]
      split_ifs <;> omega
    · change Function.update s'.ftable f _ = _
      rw [hftable]
    · change s'.pages = _
      rw [hw.rest]
      rfl
    · change s'.procs = _
      rw [hw.rest]
      rfl

/-- One piece of `filewrite`. -/
def writePiece (f : Fin NFILE) (ip : Fin NINODE) (src : ℕ → Byte) (piece : ℕ × ℕ) :
    KCode ι (Option Unit) := do
  beginOp
  fs (ilock ip)
  let y ← fs (ask (.file f))
  let r ← fs (writei ip y.off piece.2 fun bn b =>
    ask (.writeData b (overlay (fun k => src (piece.1 + k)) y.off piece.2 bn)))
  fs (ask (.setFile f fun x => { x with off := x.off + r.getD 0 }))
  fs (iunlock ip)
  endOp
  match r with
  | none => return some ()
  | some r => if r ≠ piece.2 then fs (panic "short filewrite") else return none

omit [DecidableEq ι] in
/-- `filewrite` for an inode goes from piece to piece. -/
theorem filewrite_eq (n : ℤ) (src : ℕ → Byte) : (filewrite f n src : KCode ι ℤ) =
    fs (ask (.file f)) >>= fun x =>
      if x.writable = false then return -1
      else match x.type with
        | .pipe => pipeio
        | .inode => do
          let short ← Code.firstSome (chunks n.toNat) (writePiece f x.ip src)
          return if short = none ∧ 0 ≤ n then n else -1
        | .none => fs (panic "filewrite") := rfl

omit [DecidableEq ι] in
theorem ends_beginOp {W : Setting (fsSig ι) (Files ι)} {Q : Unit → Files ι → Prop} (hQ : Q () s) :
    Ends W.bracket Q s beginOp := ⟨trivial, fun _ _ h => h ▸ hQ⟩

omit [DecidableEq ι] in
theorem ends_endOp' {W : Setting (fsSig ι) (Files ι)} {Q : Unit → Files ι → Prop} (hQ : Q () s) :
    Ends W.bracket Q s endOp := ⟨trivial, fun _ _ h => h ▸ hQ⟩

/-- **One piece**: it is refused, or it is written. -/
theorem Files.Open.piece (h : s.Open f ip) (src : ℕ → Byte) (i n : ℕ) (hroom : s.Room f ip bad n) :
    Ends (Setting.alone (fsRun p) bad).bracket (fun r s' =>
        ((s.node (s.icache ip).inum).RefusesWrite (s.ftable f).off n → r = some () ∧
          s.Progress f ip (fun k => src (i + k)) 0 s') ∧
        (¬ (s.node (s.icache ip).inum).RefusesWrite (s.ftable f).off n → r = none ∧
          s.Progress f ip (fun k => src (i + k)) n s'))
      s (writePiece f ip src (i, n)) := by
  have ht : (s.node (s.icache ip).inum).type ≠ .free := by
    rw [h.regular]
    exact nofun
  refine (ends_beginOp (Q := fun _ s' => s = s') rfl).bind ?_
  rintro _ _ rfl
  refine (ends_ilock (Q := fun _ s' => s.locked ip = s') h.consistent h.ref h.busy ht rfl).lift.bind ?_
  rintro _ _ rfl
  refine (ends_last (s := s.locked ip) (o := .file f)
    (Q := fun y s' => s.ftable f = y ∧ s.locked ip = s') (fun _ => rfl) ⟨rfl, rfl⟩).lift.bind ?_
  rintro _ _ ⟨rfl, rfl⟩
  refine (h.write (p := p) hroom).lift.bind ?_
  rintro r s₁ ⟨⟨href₁, hbusy₁⟩, hrefused, hwritten⟩
  obtain ⟨s₂, hs₂⟩ : ∃ s₂, s₁.setFile f
    { s₁.ftable f with off := (s₁.ftable f).off + r.getD 0 } = s₂ := ⟨_, rfl⟩
  refine (ends_last (s := s₁) (o := .setFile f fun x => { x with off := x.off + r.getD 0 })
    (Q := fun _ s' => s₂ = s') (fun _ => rfl) hs₂.symm).lift.bind ?_
  rintro _ _ rfl
  have href₂ : 0 < (s₂.icache ip).ref := by
    rw [← hs₂]
    exact href₁
  have hbusy₂ : (s₂.icache ip).busy = true := by
    rw [← hs₂]
    exact hbusy₁
  refine (ends_iunlock (Q := fun _ s' => s₂.unlocked ip = s') href₂ hbusy₂ rfl).lift.bind ?_
  rintro _ _ rfl
  refine (ends_endOp' (Q := fun _ s' => s₂.unlocked ip = s') rfl).bind ?_
  rintro _ _ rfl
  by_cases href : (s.node (s.icache ip).inum).RefusesWrite (s.ftable f).off n
  · obtain ⟨rfl, hprogress⟩ := hrefused href
    refine ⟨fun _ => ⟨rfl, ?_⟩, fun hnot => absurd href hnot⟩
    have hsame : s₁.setFile f { s₁.ftable f with off := (s₁.ftable f).off + Option.getD none 0 } =
        s₁ := by
      simp only [Option.getD_none, Nat.add_zero, Files.setFile, Function.update_eq_self]
    rw [← hs₂, hsame]
    exact hprogress
  · obtain ⟨rfl, hprogress⟩ := hwritten href
    dsimp only
    rw [if_neg (fun hne => hne rfl), ← hs₂]
    exact ⟨fun hyes => absurd hyes href, fun _ => ⟨rfl, hprogress⟩⟩

/-! ## All pieces -/

/-- The pieces from `i` to `n`. -/
def Pieces : ℕ → ℕ → List (ℕ × ℕ) → Prop
  | i, n, [] => i = n
  | i, n, (j, k) :: cs => j = i ∧ i < n ∧ k = min maxWrite (n - i) ∧ Pieces (i + k) n cs

theorem next_piece {k c n w : ℕ} (h : (k + (c + 1)) * w < n + w) :
    k * w < n ∧ min n ((k + 1) * w) = k * w + min w (n - k * w) := by
  have hsucc : (k + 1) * w = k * w + w := Nat.succ_mul ..
  have hle : (k + 1) * w ≤ (k + (c + 1)) * w := Nat.mul_le_mul_right _ (by omega)
  omega

theorem pieces_range' {n : ℕ} (c k : ℕ) (hc : (k + c) * maxWrite < n + maxWrite)
    (hn : n ≤ (k + c) * maxWrite) :
    Pieces (min n (k * maxWrite)) n ((List.range' k c).map fun k =>
      (k * maxWrite, min maxWrite (n - k * maxWrite))) := by
  induction c generalizing k with
  | zero =>
    rw [Nat.add_zero] at hn
    exact Nat.min_eq_left hn
  | succ c ih =>
    obtain ⟨hlt, heq⟩ := next_piece hc
    have hmin : min n (k * maxWrite) = k * maxWrite := Nat.min_eq_right hlt.le
    have hk : k + 1 + c = k + (c + 1) := Nat.succ_add_eq_add_succ k c
    have hnext := ih (k + 1) (by rw [hk]; exact hc) (by rw [hk]; exact hn)
    rw [heq] at hnext
    rw [List.range'_succ, List.map_cons, hmin]
    exact ⟨rfl, hlt, rfl, hnext⟩

theorem pieces_chunks (n : ℕ) : Pieces 0 n (chunks n) := by
  have hmax : maxWrite = 6656 := rfl
  have h := pieces_range' (n := n) ((n + maxWrite - 1) / maxWrite) 0 (by rw [hmax]; omega)
    (by rw [hmax]; omega)
  rw [Nat.zero_mul, Nat.min_zero, ← List.range_eq_range'] at h
  exact h

/-- All but a full disk is an error that does not come. -/
def NotFull (e : Halt) : Prop := e ≠ outOfBlocks

/-- It stopped at a piece that was refused, behind some that were written. -/
def Files.Stops (s : Files ι) (f : Fin NFILE) (ip : Fin NINODE) (src : ℕ → Byte) (n : ℕ)
    (s' : Files ι) : Prop :=
  ∃ i, i < n ∧ s.Progress f ip src i s' ∧
    (s'.node (s.icache ip).inum).RefusesWrite ((s.ftable f).off + i) (min maxWrite (n - i)) ∧
    (0 < i → ¬ (s.node (s.icache ip).inum).RefusesWrite (s.ftable f).off (min maxWrite n))

/-- What comes of the pieces: all were written, or some, up to one that was refused. -/
theorem Files.Open.ends_pieces (h : s.Open f ip) (src : ℕ → Byte) (n : ℕ) :
    Ends (Setting.alone (fsRun p) NotFull).bracket (fun r s' =>
        (r = none → s.Progress f ip src n s') ∧
        ∀ a, r = some a → s.Stops f ip src n s')
      s (Code.firstSome (chunks n) (writePiece f ip src)) := by
  refine (Ends.firstSome (J := fun cs s' => ∃ i, Pieces i n cs ∧ s.Progress f ip src i s' ∧
      (0 < i → ¬ (s.node (s.icache ip).inum).RefusesWrite (s.ftable f).off (min maxWrite n)))
    (R := fun _ s' => s.Stops f ip src n s')
    ?_ ⟨0, pieces_chunks n, .refl h src, fun h => absurd h (Nat.lt_irrefl 0)⟩).mono ?_
  · rintro ⟨j, k⟩ cs s₁ ⟨i, ⟨rfl, hlt, rfl, hcs⟩, hprogress, hfirst⟩
    refine (hprogress.open_.piece src j (min maxWrite (n - j)) fun hfull => absurd rfl hfull).mono fun r s₂ hr => ?_
    have hoff : (s₁.ftable f).off = (s.ftable f).off + j := by
      rw [hprogress.ftable, Function.update_self]
    rw [hprogress.inum, hoff] at hr
    obtain ⟨hrefused, hwritten⟩ := hr
    by_cases href : (s₁.node (s.icache ip).inum).RefusesWrite ((s.ftable f).off + j)
        (min maxWrite (n - j))
    · obtain ⟨rfl, hmore⟩ := hrefused href
      refine ⟨nofun, fun _ _ => ⟨j, hlt, hprogress.append hmore, ?_, hfirst⟩⟩
      have hsize := hmore.size
      rw [if_pos rfl, hprogress.inum] at hsize
      unfold Dinode.RefusesWrite at href ⊢
      rwa [hsize]
    · obtain ⟨rfl, hmore⟩ := hwritten href
      refine ⟨fun _ => ⟨_, hcs, hprogress.append hmore, fun _ => ?_⟩, nofun⟩
      rcases Nat.eq_zero_or_pos j with rfl | hj
      · have hsize := hprogress.size
        rw [if_pos rfl] at hsize
        unfold Dinode.RefusesWrite at href ⊢
        rwa [hsize] at href
      · exact hfirst hj
  · rintro r s' ⟨hnone, hsome⟩
    refine ⟨fun hr => ?_, hsome⟩
    obtain ⟨i, hi, hprogress, -⟩ := hnone hr
    obtain rfl : i = n := hi
    exact hprogress

/-- **`filewrite`** writes all, or stops at a piece that is refused, or may not write. -/
theorem Files.Open.ends_filewrite (h : s.Open f ip) (src : ℕ → Byte) (n : ℕ) :
    Ends (Setting.alone (fsRun p) NotFull).bracket (fun (r : ℤ) s' =>
        if (s.ftable f).writable = false then r = -1 ∧ s' = s
        else r = n ∧ s.Progress f ip src n s' ∨ r = -1 ∧ s.Stops f ip src n s')
      s (filewrite f n src) := by
  rw [filewrite_eq]
  refine (ends_last (s := s) (o := .file f) (Q := fun y s' => s.ftable f = y ∧ s = s')
    (fun _ => rfl) ⟨rfl, rfl⟩).lift.bind ?_
  rintro _ _ ⟨rfl, rfl⟩
  by_cases hwritable : (s.ftable f).writable = false
  · simp only [if_pos hwritable]
    exact ⟨rfl, rfl⟩
  · simp only [if_neg hwritable, h.type, h.inode, Int.toNat_natCast]
    refine (h.ends_pieces src n).bind ?_
    rintro r s' ⟨hnone, hsome⟩
    cases r with
    | none =>
      refine .inl ⟨?_, hnone rfl⟩
      exact if_pos ⟨rfl, Int.natCast_nonneg n⟩
    | some a =>
      refine .inr ⟨?_, hsome a rfl⟩
      exact if_neg (by rintro ⟨⟨⟩, -⟩)

/-- If `filewrite` returns, its result says what was done: all was written, and the offset is
behind it, or nothing was changed. -/
def ReportsWrite (p : ι) (s : Files ι) (f : Fin NFILE) (n : ℕ) (src : ℕ → Byte) (ns : List ℕ) :
    Prop :=
  match (filewrite f n src).exec (fsRun p).bracket ns s with
  | .ok (r, _, s') => (r = n → s.Progress f (s.ftable f).ip src n s') ∧
    (r = -1 → s.Progress f (s.ftable f).ip src 0 s')
  | .error _ => True

omit [DecidableEq ι] in
/-- What was written has moved the offset. -/
theorem Files.Progress.moved {src : ℕ → Byte} {i : ℕ} (h : s.Progress f ip src i s') (hi : i ≠ 0) :
    ¬ s.Progress f ip src 0 s' := by
  intro hsame
  have hmoved := hsame.ftable
  rw [h.ftable] at hmoved
  have hoff := congrArg File.off (congrFun hmoved f)
  rw [Function.update_self, Function.update_self] at hoff
  dsimp only at hoff
  omega

theorem not_reportsWrite {n : ℕ} {src : ℕ → Byte} {ns ns' : List ℕ}
    (hexec : (filewrite f n src).exec (fsRun p).bracket ns s = .ok (-1, ns', s'))
    (h : ¬ s.Progress f (s.ftable f).ip src 0 s') : ¬ ReportsWrite p s f n src ns := by
  intro hreports
  unfold ReportsWrite at hreports
  rw [hexec] at hreports
  exact h (hreports.2 rfl)

omit [DecidableEq ι] in
/-- A write within the limits leaves the file within the limits. -/
theorem Files.Progress.end_le {src : ℕ → Byte} {i : ℕ} (h : s.Progress f ip src i s') (hi : i ≠ 0) :
    (s.ftable f).off + i ≤ MAXFILE * BSIZE := by
  have hsize := h.size
  have hle : (s'.node (s.icache ip).inum).size ≤ MAXFILE * BSIZE := h.open_.consistent.tidy.size _
  rw [if_neg hi] at hsize
  omega

omit [DecidableEq ι] in
/-- Where `filewrite` stops behind the first piece, the limit is reached. -/
theorem Files.Progress.limit {src : ℕ → Byte} {i n : ℕ} (h : s.Progress f ip src i s') (hi : i < n)
    (hpos : i ≠ 0) (href : (s'.node (s.icache ip).inum).RefusesWrite ((s.ftable f).off + i)
      (min maxWrite (n - i))) : MAXFILE * BSIZE < (s.ftable f).off + n := by
  have hsize := h.size
  have hend := h.end_le hpos
  have hmax : MAXFILE * BSIZE = 71680 := rfl
  have hwrite : maxWrite = 6656 := rfl
  rw [if_neg hpos] at hsize
  unfold Dinode.RefusesWrite at href
  rw [hsize, hmax, hwrite] at href
  omega

/-- **`filewrite` reports what it did** if and only if the file may not be written, all fits
into it, or not even the first piece does (or no blocks are left, and it does not return). -/
theorem filewrite_reports_iff (p : ι) (h : s.Open f ip) (n : ℕ) (src : ℕ → Byte) (ns : List ℕ) :
    ReportsWrite p s f n src ns ↔
      ((s.ftable f).writable = false ∨ (s.ftable f).off + n ≤ MAXFILE * BSIZE ∨
        (s.node (s.icache ip).inum).RefusesWrite (s.ftable f).off (min maxWrite n)) ∨
      ∃ e, (filewrite f n src).exec (fsRun p).bracket ns s = .error e := by
  obtain ⟨hok, -⟩ := (h.ends_filewrite (p := p) src n).bracket.exec ns
  have hsize : (s.node (s.icache ip).inum).size ≤ MAXFILE * BSIZE := h.consistent.tidy.size _
  unfold ReportsWrite
  cases hexec : (filewrite f n src).exec (fsRun p).bracket ns s with
  | error e => exact iff_of_true trivial (.inr ⟨e, rfl⟩)
  | ok x =>
    obtain ⟨r, ns', s'⟩ := x
    have hr := hok r ns' s' hexec
    have hneg : (-1 : ℤ) ≠ n := by omega
    rw [h.inode]
    by_cases hwritable : (s.ftable f).writable = false
    · rw [if_pos hwritable] at hr
      obtain ⟨rfl, rfl⟩ := hr
      exact iff_of_true ⟨fun heq => absurd heq hneg, fun _ => .refl h src⟩ (.inl (.inl hwritable))
    rw [if_neg hwritable] at hr
    rcases hr with ⟨rfl, hprogress⟩ | ⟨rfl, i, hi, hprogress, href, hfirst⟩
    · refine iff_of_true ⟨fun _ => hprogress, fun heq => absurd heq.symm hneg⟩ (.inl (.inr ?_))
      by_cases hn : n = 0
      · by_cases hlt : (s.node (s.icache ip).inum).size < (s.ftable f).off
        · exact .inr (.inl hlt)
        · exact .inl (by omega)
      · exact .inl (hprogress.end_le hn)
    · by_cases hzero : i = 0
      · subst hzero
        refine iff_of_true ⟨fun heq => absurd heq hneg, fun _ => hprogress⟩ (.inl (.inr (.inr ?_)))
        have hsame := hprogress.size
        rw [if_pos rfl] at hsame
        unfold Dinode.RefusesWrite at href ⊢
        rwa [hsame] at href
      · have hlimit := hprogress.limit hi hzero href
        refine iff_of_false (fun hreports => hprogress.moved hzero (hreports.2 rfl)) ?_
        · rintro ((hw | hfits | hrefused) | ⟨e, he⟩)
          · exact hwritable hw
          · omega
          · exact hfirst (Nat.pos_of_ne_zero hzero) hrefused
          · exact nomatch he

end Pieces

/-- A file of a small disk that is open for writing. -/
def openFile (size : ℕ) (x : Dinode) (off : ℕ) : Files Unit :=
  ((tinyFiles size x).setFile ⟨0, by decide⟩
    { type := .inode, ref := 1, writable := true, ip := ⟨0, NINODE_pos⟩, off := off }).unlocked
      ⟨0, NINODE_pos⟩

theorem openFile_off {size off : ℕ} {x : Dinode} :
    ((openFile size x off).ftable ⟨0, by decide⟩).off = off := rfl

theorem openFile_inum {size off : ℕ} {x : Dinode} :
    ((openFile size x off).icache ⟨0, by decide⟩).inum = 1 := rfl

theorem openFile_open {size off : ℕ} {x : Dinode} (hlow : 4 ≤ size) (hsize : size < BPB)
    (hfits : x.Fits) (ht : x.type = .file) (hx : x.size ≤ MAXFILE * BSIZE)
    (haddrs : ∀ n, x.addrs n = 0) :
    (openFile size x off).Open ⟨0, by decide⟩ ⟨0, by decide⟩ ∧
      (openFile size x off).node 1 = x := by
  have hfree : x.type ≠ .free := by
    rw [ht]
    exact nofun
  have hcons := (consistent_tinyFiles hlow hsize hfits hfree hx haddrs).setFile (f := ⟨0, by decide⟩)
    (x := { type := .inode, ref := 1, writable := true, ip := ⟨0, by decide⟩, off := off })
  have hloaded : ((tinyFiles size x).setFile ⟨0, by decide⟩
      { type := .inode, ref := 1, writable := true, ip := ⟨0, by decide⟩, off := off }).Loaded
        ⟨0, by decide⟩ := ⟨Int.one_pos, rfl⟩
  obtain ⟨hopen, hnode⟩ := hcons.unlocked hloaded
  have hx1 : (openFile size x off).node 1 = x := by
    change ((_ : Files Unit).unlocked _).node 1 = x
    rw [hnode]
    change (tinyFiles size x).node 1 = x
    rw [(node_tinyFiles hsize hfits).2, Function.update_self]
  refine ⟨⟨hopen, rfl, rfl, Int.one_pos, rfl, ?_⟩, hx1⟩
  change ((openFile size x off).node 1).type = .file
  rw [hx1, ht]

/-- A file of which only the last 13 blocks may still be written. -/
def longFile : Dinode := { blankFile with size := 65024 }

theorem open_longFile : (openFile 32 longFile 65024).Open ⟨0, by decide⟩ ⟨0, by decide⟩ ∧
    (openFile 32 longFile 65024).node 1 = longFile :=
  openFile_open (by decide) (by decide)
    ⟨by decide, by decide, by decide, by decide, fun _ => Nat.zero_lt_succ _, fun _ _ => rfl⟩
    rfl (by decide) fun _ => rfl

/-- What is written reaches the limit of a file, and is reported. -/
theorem filewrite_reports_limit : (openFile 32 longFile 65024).Open ⟨0, by decide⟩ ⟨0, by decide⟩ ∧
    ReportsWrite () (openFile 32 longFile 65024) ⟨0, by decide⟩ 6656 (fun _ => 7#8) [] := by
  refine ⟨open_longFile.1, ?_⟩
  have hiff := filewrite_reports_iff () open_longFile.1 6656 (fun _ => 7#8) []
  rw [openFile_off] at hiff
  rw [hiff]
  exact .inl (.inr (.inl (by decide)))

theorem off_longFile {s' : Files Unit} {src : ℕ → Byte} {i : ℕ}
    (h : (openFile 32 longFile 65024).Progress ⟨0, by decide⟩ ⟨0, by decide⟩ src i s') :
    (s'.ftable ⟨0, by decide⟩).off = 65024 + i := by
  rw [h.ftable, Function.update_self, openFile_off]

/-- The first piece is written, the second is refused. -/
theorem ends_longFile : Ends (.alone (fsRun ()).bracket fun _ => True)
    (fun (r : ℤ) s' => r = -1 ∧ (openFile 32 longFile 65024).Progress ⟨0, by decide⟩
      ⟨0, by decide⟩ (fun _ => 7#8) 6656 s')
    (openFile 32 longFile 65024) (filewrite ⟨0, by decide⟩ (6657 : ℕ) fun _ => 7#8) := by
  obtain ⟨hopen, hnode⟩ := open_longFile
  have hroom : (openFile 32 longFile 65024).Room ⟨0, by decide⟩ ⟨0, by decide⟩ (fun _ => True)
      6656 := fun _ _ => by
    rw [openFile_inum, openFile_off, hnode]
    decide +kernel
  have hchunks : chunks ((6657 : ℕ) : ℤ).toNat = [(0, 6656), (6656, 1)] := by decide
  refine Ends.bracket ?_
  rw [filewrite_eq]
  refine (ends_last (s := openFile 32 longFile 65024) (o := .file ⟨0, by decide⟩)
    (Q := fun y s' => (openFile 32 longFile 65024).ftable ⟨0, by decide⟩ = y ∧
      openFile 32 longFile 65024 = s') (fun _ => rfl) ⟨rfl, rfl⟩).lift.bind ?_
  rintro _ _ ⟨rfl, rfl⟩
  have hwritable : ((openFile 32 longFile 65024).ftable ⟨0, by decide⟩).writable ≠ false := nofun
  simp only [if_neg hwritable, hopen.type, hopen.inode, hchunks]
  refine Ends.bind (R := fun r s' => r = some () ∧ (openFile 32 longFile 65024).Progress
    ⟨0, by decide⟩ ⟨0, by decide⟩ (fun _ => 7#8) 6656 s')
    ((hopen.piece (fun _ => 7#8) 0 6656 hroom).bind ?_) ?_
  · rintro r s₁ ⟨-, hfirst⟩
    rw [openFile_inum, openFile_off, hnode] at hfirst
    obtain ⟨rfl, hprogress⟩ := hfirst (by decide)
    -- the file is as long as files may be
    have hoff := off_longFile hprogress
    have href : (s₁.node (s₁.icache ⟨0, by decide⟩).inum).RefusesWrite
        (s₁.ftable ⟨0, by decide⟩).off 1 := by
      rw [hoff]
      exact .inr (.inr (by decide))
    refine (hprogress.open_.piece (fun _ => 7#8) 6656 1 fun _ hnot => absurd href hnot).bind ?_
    rintro r s₂ ⟨hsecond, -⟩
    obtain ⟨rfl, hsame⟩ := hsecond href
    exact ⟨rfl, hprogress.append hsame⟩
  · rintro _ s' ⟨rfl, hprogress⟩
    exact ⟨rfl, hprogress⟩

/-- One byte too many: 6656 bytes are written, and `-1` is returned. -/
theorem filewrite_hides_write :
    (openFile 32 longFile 65024).Open ⟨0, by decide⟩ ⟨0, by decide⟩ ∧
    (∃ ns s', (filewrite ⟨0, by decide⟩ (6657 : ℕ) fun _ => 7#8).exec (fsRun ()).bracket []
        (openFile 32 longFile 65024) = .ok (-1, ns, s') ∧
      (s'.ftable ⟨0, by decide⟩).off = 71680 ∧ (s'.node 1).size = 71680) ∧
    ¬ ReportsWrite () (openFile 32 longFile 65024) ⟨0, by decide⟩ 6657 (fun _ => 7#8) [] := by
  obtain ⟨hopen, hnode⟩ := open_longFile
  obtain ⟨hok, herror⟩ := ends_longFile.exec []
  obtain ⟨⟨r, ns, s'⟩, hexec⟩ : ∃ x, (filewrite ⟨0, by decide⟩ (6657 : ℕ) fun _ => 7#8).exec
      (fsRun ()).bracket [] (openFile 32 longFile 65024) = .ok x := by
    cases hexec : (filewrite ⟨0, by decide⟩ (6657 : ℕ) fun _ => 7#8).exec (fsRun ()).bracket []
        (openFile 32 longFile 65024) with
    | error e => exact absurd trivial (herror e hexec)
    | ok x => exact ⟨x, rfl⟩
  obtain ⟨rfl, hprogress⟩ := hok r ns s' hexec
  have hoff := off_longFile hprogress
  have hsize := hprogress.size
  rw [openFile_inum, openFile_off, hnode, if_neg (by decide)] at hsize
  exact ⟨hopen, ⟨ns, s', hexec, hoff, hsize⟩,
    not_reportsWrite hexec (hprogress.moved (by decide))⟩

end StrideXv6
