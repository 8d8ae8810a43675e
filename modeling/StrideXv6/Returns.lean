import StrideXv6.Custody

/-!
# System calls give back what they take (`file.c`, `sysfile.c`, `exit`)

Whatever a system call is answered on its way, at its end the process answers for
what is in its table and nothing else (`settles_syscall`): on success, and on every
one of the error exits.
-/

namespace StrideXv6

open Bracket

/-! ## Tables -/

/-- A sum in which one term has changed. -/
theorem sum_eq_of_ne {κ : Type} [Fintype κ] [DecidableEq κ] {F G : κ → ℤ} (i : κ)
    (h : ∀ j, j ≠ i → G j = F j) : ∑ j, G j = ∑ j, F j + (G i - F i) := by
  have hrest : ∑ j ∈ Finset.univ.erase i, G j = ∑ j ∈ Finset.univ.erase i, F j :=
    Finset.sum_congr rfl fun j hj => h j (Finset.ne_of_mem_erase hj)
  have hG := Finset.add_sum_erase Finset.univ G (Finset.mem_univ i)
  have hF := Finset.add_sum_erase Finset.univ F (Finset.mem_univ i)
  omega

namespace Holding

variable {h : Holding} {fd : Fin NOFILE} {f : Fin NFILE}

theorem inCwd_nonneg (h : Holding) (ip : Fin NINODE) : 0 ≤ h.inCwd ip := by
  unfold inCwd
  split <;> omega

theorem slots_nonneg (h : Holding) (f : Fin NFILE) : 0 ≤ h.slots f :=
  Finset.sum_nonneg fun fd _ => by split <;> omega

theorem slots_pos (hfd : h.ofile fd = some f) : 1 ≤ h.slots f := by
  have hone : (if h.ofile fd = some f then 1 else 0 : ℤ) ≤ h.slots f :=
    Finset.single_le_sum (f := fun fd => if h.ofile fd = some f then (1 : ℤ) else 0)
      (fun fd _ => by split <;> omega) (Finset.mem_univ fd)
  rwa [if_pos hfd] at hone

/-- What a change of one descriptor does. -/
theorem slots_setFd (h : Holding) (fd : Fin NOFILE) (r : Option (Fin NFILE)) (f : Fin NFILE) :
    (h.setFd fd r).slots f =
      h.slots f + ((if r = some f then 1 else 0) - if h.ofile fd = some f then 1 else 0) := by
  unfold slots setFd
  rw [sum_eq_of_ne fd (F := fun fd => if h.ofile fd = some f then (1 : ℤ) else 0)]
  · simp only [Function.update_self]
  · intro j hj
    simp only [Function.update_of_ne hj]

theorem setFd_ofile (h : Holding) (fd fd' : Fin NOFILE) (r : Option (Fin NFILE)) :
    (h.setFd fd r).ofile fd' = if fd' = fd then r else h.ofile fd' :=
  Function.update_apply ..

theorem slots_eq_zero (h0 : ∀ fd, h.ofile fd = none) : h.slots f = 0 :=
  Finset.sum_eq_zero fun fd _ => by rw [h0 fd, if_neg (by simp)]

end Holding

namespace Hands

variable {ι : Type} {g : Hands ι} {f : Fin NFILE}

theorem start_sane (h : Holding) : (start h : Hands ι).Sane where
  inodes := h.inCwd_nonneg
  files := h.slots_nonneg
  ends _ _ := le_rfl

theorem start_ready (h : Holding) : (start h : Hands ι).Ready where
  sane := start_sane h
  active := Option.some_ne_none h
  cwd h' ip hh hcwd := by
    cases hh
    change 1 ≤ h.inCwd ip
    rw [Holding.inCwd, if_pos hcwd]

/-- The files that a process answers for are those in the table `h`. -/
theorem eq_start {h : Holding} (hself : g.self = some h) (hinodes : ∀ ip, g.inodes ip = h.inCwd ip)
    (hfiles : ∀ f, g.files f = h.slots f) (hfresh : ∀ f, g.fresh f = false)
    (hends : ∀ n w, g.ends n w = 0) (hchild : g.child = none) : g = start h := by
  ext1
  · exact hself
  · exact funext hinodes
  · exact funext hfiles
  · exact funext hfresh
  · exact funext fun n => funext (hends n)
  · exact hchild

/-- What is left of a file when it is closed: nothing. -/
def close (g : Hands ι) (f : Fin NFILE) : Hands ι := (g.addFile f (-1)).setFresh f false

/-- Close a file that was just allocated. -/
theorem close_alloc (hfresh : g.fresh f = false) :
    ((g.addFile f 1).setFresh f true).close f = g := by
  ext1 <;> try rfl
  · funext j
    simp only [close, addFile, setFresh]
    split <;> omega
  · funext j
    by_cases hj : j = f
    · subst hj
      simp [close, addFile, setFresh, hfresh]
    · simp [close, addFile, setFresh, hj]

theorem absorb_none {x : File} (hx : x.type = .none) (k : ℤ) : g.absorb x k = g := by
  ext1 <;> try rfl
  · funext ip
    simp [absorb, File.onInode, hx]
  · funext n w
    simp [absorb, File.onEnd, hx]

theorem absorb_inode {x : File} (hx : x.type = .inode) (k : ℤ) :
    g.absorb x k = g.addInode x.ip k := by
  ext1 <;> try rfl
  · funext ip
    simp [absorb, addInode, File.onInode, hx, eq_comm]
  · funext n w
    simp [absorb, addInode, File.onEnd, hx]

theorem absorb_pipe {x : File} (hx : x.type = .pipe) (k : ℤ) :
    g.absorb x k = g.addEnd x.pipe x.writable k := by
  ext1 <;> try rfl
  · funext ip
    simp [absorb, addEnd, File.onInode, hx]
  · funext n w
    simp [absorb, addEnd, File.onEnd, hx, eq_comm]

theorem addEnd_cancel (g : Hands ι) (n : ℕ) (w : Bool) (k : ℤ) :
    (g.addEnd n w k).addEnd n w (-k) = g := by
  ext1 <;> try rfl
  funext m v
  simp only [addEnd]
  split <;> omega

theorem Sane.addEnd (hg : g.Sane) (n : ℕ) (w : Bool) : (g.addEnd n w 1).Sane where
  inodes := hg.inodes
  files := hg.files
  ends m v := by
    have := hg.ends m v
    simp only [Hands.addEnd]
    split <;> omega

theorem Sane.dropEnd {n : ℕ} {w : Bool} (hg : g.Sane) (h : 1 ≤ g.ends n w) :
    (g.addEnd n w (-1)).Sane where
  inodes := hg.inodes
  files := hg.files
  ends m v := by
    have := hg.ends m v
    simp only [Hands.addEnd]
    split
    · next hm =>
      obtain ⟨rfl, rfl⟩ := hm
      omega
    · omega

theorem Sane.heldEnd (hg : g.Sane) (n : ℕ) (w : Bool) : 1 ≤ (g.addEnd n w 1).ends n w := by
  have := hg.ends n w
  simp only [Hands.addEnd, and_self, if_true]
  omega

theorem Sane.setFresh (hg : g.Sane) (b : Bool) : (g.setFresh f b).Sane :=
  ⟨hg.inodes, hg.files, hg.ends⟩

theorem Sane.dropFile (hg : g.Sane) (hf : 1 ≤ g.files f) : (g.addFile f (-1)).Sane where
  inodes := hg.inodes
  files j := by
    have := hg.files j
    simp only [Hands.addFile]
    split
    · next hj =>
      subst hj
      omega
    · omega
  ends := hg.ends

theorem Sane.close (hg : g.Sane) (hf : 1 ≤ g.files f) : (g.close f).Sane :=
  (hg.dropFile hf).setFresh false

theorem Sane.absorb (hg : g.Sane) (x : File) : (g.absorb x 1).Sane where
  inodes ip := by
    have := hg.inodes ip
    simp only [Hands.absorb, File.onInode]
    split <;> omega
  files := hg.files
  ends n w := by
    have := hg.ends n w
    simp only [Hands.absorb, File.onEnd]
    split <;> omega

/-- A file that was just allocated is there. -/
theorem Sane.heldFile (hg : g.Sane) (f : Fin NFILE) :
    1 ≤ ((g.addFile f 1).setFresh f true).files f := by
  have := hg.files f
  simp only [Hands.setFresh, Hands.addFile, if_true]
  omega

theorem Sane.withSelf (hg : g.Sane) (F : Holding → Holding) : (g.withSelf F).Sane :=
  ⟨hg.inodes, hg.files, hg.ends⟩

theorem Sane.addFile (hg : g.Sane) (f : Fin NFILE) : (g.addFile f 1).Sane where
  inodes := hg.inodes
  files j := by
    have := hg.files j
    simp only [Hands.addFile]
    split <;> omega
  ends := hg.ends

theorem Sane.alloc (hg : g.Sane) (f : Fin NFILE) : ((g.addFile f 1).setFresh f true).Sane :=
  (hg.addFile f).setFresh true

end Hands

/-! ## The system calls -/

section Calls

open Hands

variable {ι : Type} {g : Hands ι} {α β : Type} {Q : β → Hands ι → Prop}

theorem kends_fs {R : α → Hands ι → Prop} {c : FsCode ι α} {f : α → KCode ι β}
    (hc : Ends (custody ι) R g c) (hf : ∀ a g', R a g' → Ends (custody ι).bracket Q g' (f a)) :
    Ends (custody ι).bracket Q g (fs c >>= f) :=
  hc.lift.bind hf

theorem kends_idle {c : FsCode ι α} {f : α → KCode ι β} (hc : Idle (custody ι) c)
    (hf : ∀ a, Ends (custody ι).bracket Q g (f a)) : Ends (custody ι).bracket Q g (fs c >>= f) :=
  kends_fs hc.ends fun a g' hg' => by rw [hg']; exact hf a

theorem kends_ask {o : FsOp ι} {f : o.Ret → KCode ι β} (hmay : (custody ι).may g o)
    (hf : ∀ r g', (custody ι).after g o r g' → Ends (custody ι).bracket Q g' (f r)) :
    Ends (custody ι).bracket Q g (fs (ask o) >>= f) :=
  ⟨hmay, hf⟩

theorem kends_panic {f : α → KCode ι β} (msg : String) :
    Ends (custody ι).bracket Q g (fs (panic msg) >>= f) :=
  ⟨trivial, fun r => r.elim⟩

theorem kends_beginOp {f : Unit → KCode ι β} (hf : Ends (custody ι).bracket Q g (f ())) :
    Ends (custody ι).bracket Q g (beginOp >>= f) :=
  ⟨trivial, fun _ g' (hg' : g' = g) => by rw [hg']; exact hf⟩

theorem kends_endOp {f : Unit → KCode ι β} (hf : Ends (custody ι).bracket Q g (f ())) :
    Ends (custody ι).bracket Q g (endOp >>= f) :=
  ⟨trivial, fun _ g' (hg' : g' = g) => by rw [hg']; exact hf⟩

theorem ends_fileclose {f : Fin NFILE} (hg : g.Sane) (hf : 1 ≤ g.files f) :
    Ends (custody ι).bracket (fun _ g' => g' = g.close f) g (fileclose f) := by
  refine kends_ask hf fun r g' hg' => ?_
  cases r with
  | none =>
    obtain ⟨hfresh, rfl⟩ := hg'
    change g.addFile f (-1) = g.close f
    ext1 <;> try rfl
    exact (Function.update_eq_self_iff.mpr hfresh.symm).symm
  | some x =>
    obtain rfl : g' = (g.close f).absorb x 1 := hg'
    change Ends _ _ _ (match x.type with | _ => _)
    have hsane := hg.close hf
    cases htype : x.type with
    | none => exact absorb_none htype 1
    | pipe =>
      rw [absorb_pipe htype]
      refine ⟨hsane.heldEnd _ _, fun _ g' hg' => ?_⟩
      exact hg'.trans (addEnd_cancel _ _ _ 1)
    | inode =>
      rw [absorb_inode htype]
      refine kends_beginOp (kends_fs (ends_put hsane) fun _ g' hg' => ?_)
      exact ⟨trivial, fun _ g'' hg'' => hg''.trans hg'⟩

theorem ends_filestat (f : Fin NFILE) :
    Ends (custody ι).bracket (fun _ g' => g' = g) g (filestat f) := by
  refine kends_idle (idle_ask rfl) fun x => ?_
  change Ends _ _ _ (if _ then _ else _)
  split
  · refine kends_idle (idle_ilock _) fun _ => kends_idle (idle_ask rfl) fun _ => ?_
    exact kends_idle (idle_iunlock _) fun _ => rfl
  · exact rfl

theorem ends_pipeio : Ends (custody ι).bracket (fun _ g' => g' = g) g pipeio :=
  kends_idle (idle_ask rfl) fun _ => rfl

/-- The offset of an open file is set. -/
theorem kends_setOff {f : Fin NFILE} {k : ℕ} {c : Unit → KCode ι β} (hfresh : g.fresh f = false)
    (hc : Ends (custody ι).bracket Q g (c ())) :
    Ends (custody ι).bracket Q g
      (fs (ask (.setFile f fun x => { x with off := x.off + k })) >>= c) := by
  refine kends_ask ?_ fun _ g' hg' => ?_
  · change if g.fresh f = true then _ else _
    rw [hfresh]
    exact fun x => ⟨rfl, rfl, rfl, rfl, rfl⟩
  · change if g.fresh f = true then _ else _ at hg'
    rw [hfresh] at hg'
    obtain rfl : g' = g := hg'
    exact hc

theorem ends_fileread {f : Fin NFILE} (hfresh : g.fresh f = false) (n : ℕ) :
    Ends (custody ι).bracket (fun _ g' => g' = g) g (fileread f n) := by
  refine kends_idle (idle_ask rfl) fun x => ?_
  change Ends _ _ _ (if _ then _ else _)
  split
  · exact rfl
  · cases x.type with
    | none => exact ⟨trivial, fun r => r.elim⟩
    | pipe => exact ends_pipeio
    | inode =>
      refine kends_idle (idle_ilock _) fun _ => kends_idle (idle_ask rfl) fun y => ?_
      refine kends_idle (idle_readi _ _ _) fun r => ?_
      rcases r with _ | ⟨r, bs⟩
      · exact kends_idle (idle_iunlock _) fun _ => rfl
      · exact kends_setOff hfresh (kends_idle (idle_iunlock _) fun _ => rfl)

theorem ends_filewrite {f : Fin NFILE} (hfresh : g.fresh f = false) (n : ℤ) (src : ℕ → Bytes.Byte) :
    Ends (custody ι).bracket (fun _ g' => g' = g) g (filewrite f n src) := by
  refine kends_idle (idle_ask rfl) fun x => ?_
  change Ends _ _ _ (if _ then _ else _)
  split
  · exact rfl
  · cases x.type with
    | none => exact ⟨trivial, fun r => r.elim⟩
    | pipe => exact ends_pipeio
    | inode =>
      refine (Ends.firstSome (J := fun _ g' => g' = g) (R := fun (_ : Unit) g' => g' = g)
        (fun c _ g' hg' => ?_) rfl).bind fun r g' hg' => ?_
      · subst hg'
        refine kends_beginOp (kends_idle (idle_ilock _) fun _ => kends_idle (idle_ask rfl) fun y => ?_)
        refine kends_idle (idle_writei _ _ _ fun _ _ => idle_ask rfl) fun r => ?_
        refine kends_setOff hfresh (kends_idle (idle_iunlock _) fun _ => kends_endOp ?_)
        rcases r with _ | r
        · exact ⟨fun h => (nomatch h), fun _ _ => rfl⟩
        · change Ends _ _ _ (if _ then _ else _)
          split
          · exact ⟨trivial, fun r => r.elim⟩
          · exact ⟨fun _ => rfl, fun _ => (by rintro ⟨⟩)⟩
      · cases r with
        | none => exact hg'.1 rfl
        | some a => exact hg'.2 a rfl

/-- A descriptor from the own table. -/
theorem ends_argfd (hself : g.self ≠ none) (fd : ℤ) :
    Ends (custody ι) (fun r g' => g' = g ∧ ∀ fd f, r = some (fd, f) →
      ∀ h, g.self = some h → h.ofile fd = some f) g (argfd fd) := by
  unfold argfd
  split
  · refine ends_ask hself fun r g' hg' => ⟨hg'.1, fun fd f hr h hh => ?_⟩
    have hofile := hg'.2 h hh
    cases r with
    | none => cases hr
    | some x =>
      cases hr
      exact hofile.symm
  · exact ⟨rfl, fun _ _ h => nomatch h⟩

/-- The code of a system call, from a table `h` on. -/
def Settles (h : Holding) (c : KCode ι ℤ) : Prop :=
  Ends (custody ι).bracket (fun _ g => g.Settled) (start h) c

theorem settles_pure (h : Holding) (r : ℤ) : Settles h (pure r : KCode ι ℤ) := ⟨h, rfl⟩

/-- Code that leaves references alone. -/
theorem settles_of_eq {h : Holding} {c : KCode ι ℤ}
    (hc : Ends (custody ι).bracket (fun _ g' => g' = start h) (start h) c) : Settles h c :=
  hc.mono fun _ _ hg' => ⟨h, hg'⟩

theorem settles_argfd {h : Holding} (fd : ℤ) {c : Option (Fin NOFILE × Fin NFILE) → KCode ι ℤ}
    (hnone : Settles h (c none)) (hsome : ∀ fd f, h.ofile fd = some f → Settles h (c (some (fd, f)))) :
    Settles h (fs (argfd fd) >>= c) := by
  refine kends_fs (ends_argfd (Option.some_ne_none h) fd) fun r g' hg' => ?_
  obtain ⟨rfl, hr⟩ := hg'
  rcases r with _ | ⟨fd, f⟩
  · exact hnone
  · exact hsome fd f (hr fd f rfl h rfl)

theorem settles_sysDup {h : Holding} (hlive : h.life ≠ .zombie) (fd : ℤ) :
    Settles h (sysDup fd : KCode ι ℤ) := by
  refine settles_argfd fd (settles_pure h _) fun fd f hfd => ?_
  refine kends_ask ⟨h, rfl, hlive⟩ fun r g' hg' => ?_
  cases r with
  | none =>
    obtain rfl : g' = start h := hg'
    exact settles_pure h _
  | some fd' =>
    obtain ⟨hfree, rfl⟩ := hg'
    refine kends_ask ⟨Holding.slots_pos hfd, rfl⟩ fun _ g' hg' =>
      ⟨h.setFd fd' (some f), hg'.trans ?_⟩
    refine eq_start rfl (fun _ => rfl) (fun j => ?_) (fun _ => rfl) (fun _ _ => rfl) rfl
    rw [Holding.slots_setFd, hfree h rfl]
    simp only [addFile, withSelf, start, Option.some.injEq, eq_comm, reduceCtorEq, if_false]
    omega

theorem settles_sysClose {h : Holding} (hlive : h.life ≠ .zombie) (fd : ℤ) :
    Settles h (sysClose fd : KCode ι ℤ) := by
  refine settles_argfd fd (settles_pure h _) fun fd f hfd => ?_
  refine kends_ask ⟨h, rfl, hlive⟩ fun _ g' hg' => ?_
  subst hg'
  refine (ends_fileclose ((start_sane h).withSelf _) (Holding.slots_pos hfd)).bind fun _ g' hg' =>
    ⟨h.setFd fd none, hg'.trans ?_⟩
  refine eq_start rfl (fun _ => rfl) (fun j => ?_) (fun j => ?_) (fun _ _ => rfl) rfl
  · rw [Holding.slots_setFd, hfd]
    simp only [Hands.close, setFresh, addFile, withSelf, start, Option.some.injEq, eq_comm,
      reduceCtorEq, if_false]
    split <;> omega
  · simp [Hands.close, setFresh, addFile, withSelf, start]

theorem settles_sysRead (h : Holding) (fd : ℤ) (n : ℕ) : Settles h (sysRead fd n : KCode ι ℤ) :=
  settles_argfd fd (settles_pure h _) fun _ _ _ => settles_of_eq (ends_fileread rfl n)

theorem settles_sysWrite (h : Holding) (fd n : ℤ) (src : List Bytes.Byte) :
    Settles h (sysWrite fd n src : KCode ι ℤ) :=
  settles_argfd fd (settles_pure h _) fun _ _ _ => settles_of_eq (ends_filewrite rfl n _)

theorem settles_sysFstat (h : Holding) (fd : ℤ) : Settles h (sysFstat fd : KCode ι ℤ) :=
  settles_argfd fd (settles_pure h _) fun _ f _ => settles_of_eq (ends_filestat f)

/-- `end_op` and a result. -/
theorem settles_endOp (h : Holding) (r : ℤ) : Settles h (do endOp; return r : KCode ι ℤ) :=
  kends_endOp (settles_pure h r)

/-- Put the inode, and leave. -/
theorem settles_unlockput (h : Holding) (ip : Fin NINODE) (r : ℤ) :
    Ends (custody ι).bracket (fun _ g => g.Settled) ((start h).addInode ip 1) (do
      fs (iunlockput ip)
      endOp
      return r) :=
  kends_fs (ends_unlockput (start_sane h)) fun _ g' hg' => by rw [hg']; exact settles_endOp h r

theorem settles_linkBad (h : Holding) (ip : Fin NINODE) :
    Ends (custody ι).bracket (fun _ g => g.Settled) ((start h).addInode ip 1) (linkBad ip) :=
  kends_idle (idle_ilock ip) fun _ => kends_idle (idle_addLinks ip _) fun _ =>
    settles_unlockput h ip _

theorem settles_sysLink (h : Holding) (old new : Option Path) :
    Settles h (sysLink old new : KCode ι ℤ) := by
  rcases old with _ | old <;> rcases new with _ | new
  · exact settles_pure h _
  · exact settles_pure h _
  · exact settles_pure h _
  refine kends_beginOp (kends_fs (ends_namei (start_ready h) old) fun r g' hg' => ?_)
  cases r with
  | none =>
    obtain rfl : g' = start h := hg'
    exact settles_endOp h _
  | some ip =>
    obtain rfl : g' = (start h).addInode ip 1 := hg'
    refine kends_idle (idle_ilock ip) fun _ => kends_idle (idle_ask rfl) fun i => ?_
    change Ends _ _ _ (if _ then _ else _)
    split
    · exact settles_unlockput h ip _
    refine kends_idle (idle_addLinks ip 1) fun _ => kends_idle (idle_iunlock ip) fun _ => ?_
    refine kends_fs (ends_namex ((start_ready h).addInode ip) new true) fun r g' hg' => ?_
    rcases r with _ | ⟨dp, name⟩
    · obtain rfl : g' = (start h).addInode ip 1 := hg'
      exact settles_linkBad h ip
    · obtain rfl : g' = ((start h).addInode ip 1).addInode dp 1 := hg'
      have hip := (start_sane h : (start h : Hands ι).Sane).addInode ip
      refine kends_idle (idle_ilock dp) fun _ => kends_idle (idle_ask rfl) fun d => ?_
      have hrest : ∀ linked : Bool, Ends (custody ι).bracket (fun _ g => g.Settled)
          (((start h).addInode ip 1).addInode dp 1) (do
            if linked = false then
              fs (iunlockput dp)
              linkBad ip
            else
              fs (iunlockput dp)
              fs (iput ip)
              endOp
              return 0) := by
        intro linked
        cases linked with
        | false =>
          refine kends_fs (ends_unlockput hip) fun _ g' hg' => ?_
          rw [hg']
          exact settles_linkBad h ip
        | true =>
          refine kends_fs (ends_unlockput hip) fun _ g' hg' => ?_
          rw [hg']
          refine kends_fs (ends_put (start_sane h)) fun _ g' hg' => ?_
          rw [hg']
          exact settles_endOp h 0
      change Ends _ _ _ (if _ then _ else _)
      split
      · exact hrest false
      · refine kends_fs (ends_dirlink (hip.addInode dp) dp name _) fun r g' hg' => ?_
        rw [hg']
        exact hrest r

theorem settles_sysUnlink (h : Holding) (path : Option Path) :
    Settles h (sysUnlink path : KCode ι ℤ) := by
  rcases path with _ | path
  · exact settles_pure h _
  refine kends_beginOp (kends_fs (ends_namex (start_ready h) path true) fun r g' hg' => ?_)
  rcases r with _ | ⟨dp, name⟩
  · obtain rfl : g' = start h := hg'
    exact settles_endOp h _
  obtain rfl : g' = (start h).addInode dp 1 := hg'
  refine kends_idle (idle_ilock dp) fun _ => ?_
  have hdp := (start_sane h : (start h : Hands ι).Sane).addInode dp
  change Ends _ _ _ (if _ then _ else _)
  split
  · exact settles_unlockput h dp _
  refine kends_fs (ends_dirlookup dp name) fun r g' hg' => ?_
  rcases r with _ | ⟨ip, off⟩
  · obtain rfl : g' = (start h).addInode dp 1 := hg'
    exact settles_unlockput h dp _
  obtain rfl : g' = ((start h).addInode dp 1).addInode ip 1 := hg'
  refine kends_idle (idle_ilock ip) fun _ => kends_idle (idle_ask rfl) fun i => ?_
  have hrest : ∀ empty : Bool, Ends (custody ι).bracket (fun _ g => g.Settled)
      (((start h).addInode dp 1).addInode ip 1) (do
        if empty = false then
          fs (iunlockput ip)
          unlinkBad dp
        else
          fs (unlinkEntry dp ip i off)
          endOp
          return 0) := by
    intro empty
    cases empty with
    | false =>
      refine kends_fs (ends_unlockput hdp) fun _ g' hg' => ?_
      rw [hg']
      exact settles_unlockput h dp _
    | true =>
      rw [addInode_comm]
      refine kends_fs (ends_unlinkEntry (start_sane h) i off) fun _ g' hg' => ?_
      rw [hg']
      exact settles_endOp h 0
  have hempty : Ends (custody ι).bracket (fun _ g => g.Settled)
      (((start h).addInode dp 1).addInode ip 1) (do
        let empty ← if i.copy.type = .dir then fs (isdirempty ip) else pure true
        if empty = false then
          fs (iunlockput ip)
          unlinkBad dp
        else
          fs (unlinkEntry dp ip i off)
          endOp
          return 0) := by
    split
    · exact kends_idle (idle_isdirempty ip) fun r => hrest r
    · exact hrest true
  change Ends _ _ _ (if _ then _ else _)
  split
  · exact kends_panic _
  · exact hempty

theorem settles_sysMake (h : Holding) {new : FsCode ι (Option (Fin NINODE))}
    (hnew : Ends (custody ι) (fun r g' => g' = (start h).hold r) (start h) new) :
    Settles h (sysMake new) := by
  refine kends_beginOp (kends_fs hnew fun r g' hg' => ?_)
  cases r with
  | none =>
    obtain rfl : g' = start h := hg'
    exact settles_endOp h _
  | some ip =>
    obtain rfl : g' = (start h).addInode ip 1 := hg'
    exact settles_unlockput h ip _

theorem settles_sysMkdir (h : Holding) (path : Option Path) :
    Settles h (sysMkdir path : KCode ι ℤ) := by
  refine settles_sysMake h ?_
  cases path with
  | none => exact rfl
  | some path => exact ends_create (start_ready h) path .dir 0 0

theorem settles_sysMknod (h : Holding) (path : Option Path) (numbers : Option (ℕ × ℕ)) :
    Settles h (sysMknod path numbers : KCode ι ℤ) := by
  refine settles_sysMake h ?_
  rcases path with _ | path <;> rcases numbers with _ | ⟨major, minor⟩
  · exact rfl
  · exact rfl
  · exact rfl
  · exact ends_create (start_ready h) path .dev major minor

theorem settles_sysChdir {h : Holding} (hlive : h.life ≠ .zombie) (path : Option Path) :
    Settles h (sysChdir path : KCode ι ℤ) := by
  refine kends_beginOp (kends_fs (ends_argnamei (start_ready h) path) fun r g' hg' => ?_)
  cases r with
  | none =>
    obtain rfl : g' = start h := hg'
    exact settles_endOp h _
  | some ip =>
    obtain rfl : g' = (start h).addInode ip 1 := hg'
    refine kends_idle (idle_ilock ip) fun _ => kends_idle (idle_ask rfl) fun i => ?_
    change Ends _ _ _ (if _ then _ else _)
    split
    · exact settles_unlockput h ip _
    · refine kends_idle (idle_iunlock ip) fun _ => ?_
      refine kends_fs (ends_iputCwd ((start_ready h).addInode ip)) fun _ g' hg' => ?_
      obtain ⟨h', old, hh', hold, rfl⟩ := hg'
      cases hh'
      refine kends_endOp (kends_ask ⟨h, rfl, hlive⟩ fun _ g' hg' =>
        ⟨{ h with cwd := some ip }, hg'.trans ?_⟩)
      -- the reference to the old directory is gone, the new one takes its place
      refine eq_start rfl (fun jp => ?_) (fun _ => rfl) (fun _ => rfl) (fun _ _ => rfl) rfl
      simp only [withSelf, addInode, start, Holding.inCwd, hold, Option.some.injEq, eq_comm]
      omega

/-- A file that was just allocated becomes one on an inode or an end of a pipe, which
it takes over. -/
theorem kends_open {f : Fin NFILE} {F : File → File} {c : Unit → KCode ι β}
    (hfresh : g.fresh f = true) (hF : ∀ x, (F x).ref = x.ref ∧ (F x).type ≠ .none)
    (hsane : ∀ x, (g.absorb (F x) (-1)).Sane)
    (hc : ∀ x, Ends (custody ι).bracket Q ((g.setFresh f false).absorb (F x) (-1)) (c ())) :
    Ends (custody ι).bracket Q g (fs (ask (.setFile f F)) >>= c) := by
  refine kends_ask ?_ fun _ g' hg' => ?_
  · change if g.fresh f = true then _ else _
    rw [if_pos hfresh]
    exact fun x _ => ⟨(hF x).1, (hF x).2, hsane x⟩
  · change if g.fresh f = true then _ else _ at hg'
    rw [if_pos hfresh] at hg'
    obtain ⟨x, -, rfl⟩ := hg'
    exact hc x

theorem kends_openInode {f : Fin NFILE} {F : File → File} {ip : Fin NINODE} {c : Unit → KCode ι β}
    (hg : g.Sane) (hfresh : g.fresh f = true) (hip : 1 ≤ g.inodes ip)
    (hF : ∀ x, (F x).ref = x.ref ∧ (F x).type = .inode ∧ (F x).ip = ip)
    (hc : Ends (custody ι).bracket Q ((g.setFresh f false).addInode ip (-1)) (c ())) :
    Ends (custody ι).bracket Q g (fs (ask (.setFile f F)) >>= c) := by
  refine kends_open hfresh (fun x => ⟨(hF x).1, by rw [(hF x).2.1]; exact FileType.noConfusion⟩)
    (fun x => ?_) fun x => ?_ <;> rw [absorb_inode (hF x).2.1, (hF x).2.2]
  · exact hg.dropInode hip
  · exact hc

theorem kends_openEnd {f : Fin NFILE} {F : File → File} {n : ℕ} {w : Bool} {c : Unit → KCode ι β}
    (hg : g.Sane) (hfresh : g.fresh f = true) (hend : 1 ≤ g.ends n w)
    (hF : ∀ x, (F x).ref = x.ref ∧ (F x).type = .pipe ∧ (F x).pipe = n ∧ (F x).writable = w)
    (hc : Ends (custody ι).bracket Q ((g.setFresh f false).addEnd n w (-1)) (c ())) :
    Ends (custody ι).bracket Q g (fs (ask (.setFile f F)) >>= c) := by
  refine kends_open hfresh (fun x => ⟨(hF x).1, by rw [(hF x).2.1]; exact FileType.noConfusion⟩)
    (fun x => ?_) fun x => ?_ <;> rw [absorb_pipe (hF x).2.1, (hF x).2.2.1, (hF x).2.2.2]
  · exact hg.dropEnd hend
  · exact hc

theorem settles_sysOpen {h : Holding} (hlive : h.life ≠ .zombie) (path : Option Path) (omode : ℕ) :
    Settles h (sysOpen path omode : KCode ι ℤ) := by
  rcases path with _ | path
  · exact settles_pure h _
  refine kends_beginOp (kends_fs (ends_openInode (start_ready h) path omode) fun r g' hg' => ?_)
  cases r with
  | none =>
    obtain rfl : g' = start h := hg'
    exact settles_endOp h _
  | some ip =>
    obtain rfl : g' = (start h).addInode ip 1 := hg'
    have hip := (start_sane h : (start h : Hands ι).Sane).addInode ip
    refine kends_ask trivial fun r g' hg' => ?_
    cases r with
    | none =>
      obtain rfl : g' = (start h).addInode ip 1 := hg'
      exact settles_unlockput h ip _
    | some f =>
      obtain ⟨-, hfresh, rfl⟩ := hg'
      refine kends_ask ⟨h, rfl, hlive⟩ fun r g' hg' => ?_
      cases r with
      | none =>
        obtain rfl := hg'
        refine (ends_fileclose (hip.alloc f) (hip.heldFile f)).bind fun _ g' hg' => ?_
        rw [hg', close_alloc hfresh]
        exact settles_unlockput h ip _
      | some fd =>
        obtain ⟨hfree, rfl⟩ := hg'
        refine kends_idle (idle_iunlock ip) fun _ => kends_endOp ?_
        refine kends_openInode ((hip.alloc f).withSelf _) (Function.update_self ..)
          ((start_sane h : (start h : Hands ι).Sane).held ip) (fun x => ⟨rfl, rfl, rfl⟩)
          (⟨h.setFd fd (some f), ?_⟩)
        refine eq_start rfl (fun jp => ?_) (fun j => ?_) (fun j => ?_) (fun n w => rfl) rfl
        · change h.inCwd jp + _ + _ = h.inCwd jp
          split <;> omega
        · rw [Holding.slots_setFd, hfree h rfl]
          simp only [withSelf, setFresh, addFile, addInode, start, Option.some.injEq, eq_comm,
            reduceCtorEq, if_false]
          omega
        · simp [withSelf, setFresh, addFile, addInode, start]

/-- `pipealloc` gives two new files, or nothing. -/
theorem ends_pipealloc (h : Holding) :
    Ends (custody ι).bracket (fun r g' => match r with
      | none => g' = start h
      | some (f0, f1) => g' = ((start h).addFile f0 1).addFile f1 1) (start h) pipealloc := by
  have hsane : (start h : Hands ι).Sane := start_sane h
  refine kends_ask trivial fun r g' hg' => ?_
  rcases r with _ | f0
  · exact hg'
  obtain ⟨-, hfresh0, rfl⟩ := hg'
  have hheld0 := hsane.heldFile f0
  have hsane0 := hsane.alloc f0
  refine kends_ask trivial fun r g' hg' => ?_
  rcases r with _ | f1
  · obtain rfl := hg'
    refine (ends_fileclose hsane0 hheld0).bind fun _ g' hg' => ?_
    exact hg'.trans (close_alloc hfresh0)
  obtain ⟨hzero1, -, rfl⟩ := hg'
  have hne : f0 ≠ f1 := by
    rintro rfl
    omega
  have hsane1 := hsane0.alloc f1
  refine kends_ask trivial fun r g' hg' => ?_
  rcases r with _ | n
  · obtain rfl := hg'
    -- the files are closed in the order they were opened in
    have hcomm : (((((start h).addFile f0 1).setFresh f0 true).addFile f1 1).setFresh f1 true).close f0
        = (((start h).addFile f1 1).setFresh f1 true : Hands ι) := by
      ext1 <;> try rfl
      · funext j
        simp only [Hands.close, addFile, setFresh]
        split <;> omega
      · funext j
        simp only [Hands.close, addFile, setFresh, Function.update_apply, start]
        by_cases hj : j = f0
        · rw [if_pos hj, if_neg fun hj' => hne (hj.symm.trans hj')]
        · rw [if_neg hj, if_neg hj]
    refine (ends_fileclose hsane1 ?_).bind fun _ g' hg' => ?_
    · simp only [setFresh, addFile, if_true, if_neg hne] at hheld0 ⊢
      omega
    rw [hg', hcomm]
    refine (ends_fileclose (hsane.alloc f1) (hsane.heldFile f1)).bind fun _ g' hg' => ?_
    exact hg'.trans (close_alloc rfl)
  · obtain rfl := hg'
    have hsane2 := (hsane1.addEnd n false).addEnd n true
    have hend : ∀ w, 1 ≤ (((((((start h).addFile f0 1).setFresh f0 true).addFile f1 1).setFresh f1
        true).addEnd n false 1).addEnd n true 1 : Hands ι).ends n w := by
      intro w
      cases w <;> simp [addEnd, setFresh, addFile, start]
    have hfresh : ∀ f, f = f0 ∨ f = f1 → (((((((start h).addFile f0 1).setFresh f0 true).addFile f1
        1).setFresh f1 true).addEnd n false 1).addEnd n true 1 : Hands ι).fresh f = true := by
      rintro f (rfl | rfl)
      · simp [addEnd, setFresh, addFile, Function.update_apply]
      · simp [addEnd, setFresh, addFile]
    refine kends_openEnd (n := n) (w := false) hsane2 (hfresh f0 (Or.inl rfl)) (hend false)
      (fun x => ⟨rfl, rfl, rfl, rfl⟩) ?_
    refine kends_openEnd (n := n) (w := true) ((hsane2.setFresh false).dropEnd (hend false)) ?_ ?_
      (fun x => ⟨rfl, rfl, rfl, rfl⟩) ?_
    · simp [addEnd, setFresh, Ne.symm hne]
    · simp [addEnd, setFresh, addFile, start]
    · change _ = ((start h).addFile f0 1).addFile f1 1
      ext1 <;> try rfl
      · funext j
        simp only [addEnd, setFresh, addFile, start, Function.update_apply]
        split
        · rfl
        · split <;> rfl
      · funext m w
        simp only [addEnd, setFresh, addFile, start]
        split <;> split <;> rfl

/-- Two files in hand are closed. -/
theorem settles_close_two {x : Holding} {f0 f1 : Fin NFILE} {r : ℤ} (hg : g.Sane)
    (hself : g.self = some x) (hinodes : ∀ ip, g.inodes ip = x.inCwd ip)
    (hfiles : ∀ f, g.files f = x.slots f + (if f = f0 then 1 else 0) + if f = f1 then 1 else 0)
    (hfresh : ∀ f, g.fresh f = false) (hends : ∀ n w, g.ends n w = 0) (hchild : g.child = none) :
    Ends (custody ι).bracket (fun _ g => g.Settled) g (do
      fileclose f0
      fileclose f1
      return r) := by
  have hheld0 : 1 ≤ g.files f0 := by
    have := x.slots_nonneg f0
    rw [hfiles, if_pos rfl]
    split <;> omega
  refine (ends_fileclose hg hheld0).bind fun _ g' hg' => ?_
  subst hg'
  have hheld1 : 1 ≤ (g.close f0).files f1 := by
    have := x.slots_nonneg f1
    simp only [Hands.close, setFresh, addFile, hfiles, if_true]
    split <;> omega
  refine (ends_fileclose (hg.close hheld0) hheld1).bind fun _ g' hg' => ⟨x, hg'.trans ?_⟩
  refine eq_start hself hinodes (fun j => ?_) (fun j => ?_) hends hchild
  · simp only [Hands.close, setFresh, addFile, hfiles]
    split <;> split <;> omega
  · simp only [Hands.close, setFresh, addFile, Function.update_apply, hfresh, ite_self]

theorem settles_sysPipe {h : Holding} (hlive : h.life ≠ .zombie) : Settles h (sysPipe : KCode ι ℤ) := by
  refine (ends_pipealloc h).bind fun r g' hg' => ?_
  rcases r with _ | ⟨rf, wf⟩
  · obtain rfl : g' = start h := hg'
    exact settles_pure h _
  obtain rfl : g' = ((start h).addFile rf 1).addFile wf 1 := hg'
  have hsane := ((start_sane h : (start h : Hands ι).Sane).addFile rf).addFile wf
  refine kends_ask ⟨h, rfl, hlive⟩ fun r g' hg' => ?_
  rcases r with _ | fd0
  · obtain rfl := hg'
    exact settles_close_two hsane rfl (fun _ => rfl) (fun _ => rfl) (fun _ => rfl) (fun _ _ => rfl) rfl
  obtain ⟨hfree0, rfl⟩ := hg'
  refine kends_ask ⟨_, rfl, hlive⟩ fun r g' hg' => ?_
  rcases r with _ | fd1
  · obtain rfl := hg'
    refine kends_ask ⟨_, rfl, hlive⟩ fun _ g' hg' => ?_
    subst hg'
    refine settles_close_two (x := (h.setFd fd0 (some rf)).setFd fd0 none)
      ((hsane.withSelf _).withSelf _) rfl (fun _ => rfl) (fun j => ?_) (fun _ => rfl)
      (fun _ _ => rfl) rfl
    -- the descriptor is as it was
    rw [Holding.slots_setFd, Holding.slots_setFd, hfree0 h rfl]
    simp only [withSelf, addFile, start, Holding.setFd, Function.update_self, Option.some.injEq,
      reduceCtorEq, if_false]
    omega
  · obtain ⟨hfree1, rfl⟩ := hg'
    refine ⟨(h.setFd fd0 (some rf)).setFd fd1 (some wf), ?_⟩
    refine eq_start rfl (fun _ => rfl) (fun j => ?_) (fun _ => rfl) (fun _ _ => rfl) rfl
    rw [Holding.slots_setFd, Holding.slots_setFd, hfree0 h rfl, hfree1 _ rfl]
    simp only [withSelf, addFile, start, Option.some.injEq, eq_comm, reduceCtorEq, if_false]
    omega

theorem settles_kexec (h : Holding) (path : Path) : Settles h (kexec path : KCode ι ℤ) := by
  refine kends_beginOp (kends_fs (ends_namei (start_ready h) path) fun r g' hg' => ?_)
  cases r with
  | none =>
    obtain rfl : g' = start h := hg'
    exact settles_endOp h _
  | some ip =>
    obtain rfl : g' = (start h).addInode ip 1 := hg'
    refine kends_idle (idle_ilock ip) fun _ => kends_idle (idle_execLoad ip) fun loaded => ?_
    refine kends_fs (ends_unlockput (start_sane h)) fun _ g' hg' => kends_endOp ?_
    rw [hg']
    change Ends _ _ _ (if _ then _ else _)
    split
    · exact settles_pure h _
    · exact kends_idle (idle_ask rfl) fun _ => settles_pure h _

theorem settles_sysExec (h : Holding) (path : Option Path) : Settles h (sysExec path : KCode ι ℤ) := by
  cases path with
  | none => exact settles_pure h _
  | some path => exact settles_kexec h path

/-- The embryo gets another table. -/
theorem ends_setProc {q : ι} {x : Holding} {F : Holding → Holding} {g' : Hands ι}
    (hchild : g.child = some (q, x)) (hfresh : ∀ f, g.fresh f = false)
    (hzombie : (F x).life ≠ .zombie) (hunused : (F x).life = .unused → (F x).Empty)
    (hg' : g.endow q x (F x) = g') (hsane : g'.Sane) :
    Ends (custody ι).bracket (fun _ g'' => g'' = g') g (fs (ask (.setProc q F))) := by
  subst hg'
  refine ⟨⟨x, hchild, hfresh, hzombie, hunused, hsane⟩, fun _ g'' hg'' => ?_⟩
  obtain ⟨y, hy, rfl⟩ := hg''
  rw [hchild] at hy
  cases hy
  rfl

/-- A process with an embryo. -/
def Hands.parent (h : Holding) (np : ι) (x : Holding) : Hands ι :=
  { self := some h, inodes := h.inCwd, files := h.slots, child := some (np, x) }

theorem Hands.parent_sane (h : Holding) (np : ι) (x : Holding) : (parent h np x).Sane :=
  ⟨h.inCwd_nonneg, h.slots_nonneg, fun _ _ => le_rfl⟩

/-- The embryo goes its way; what it got the parent has taken before. -/
theorem Hands.endow_eq_start {h x y : Holding} {np : ι} (hself : g.self = some h)
    (hinodes : ∀ ip, g.inodes ip = h.inCwd ip + y.inCwd ip - x.inCwd ip)
    (hfiles : ∀ f, g.files f = h.slots f + y.slots f - x.slots f)
    (hfresh : ∀ f, g.fresh f = false) (hends : ∀ n w, g.ends n w = 0) (hy : y.life ≠ .embryo) :
    g.endow np x y = start h := by
  refine eq_start hself (fun ip => ?_) (fun f => ?_) hfresh hends (if_neg hy)
  · simp only [endow, hinodes]
    omega
  · simp only [endow, hfiles]
    omega

/-- While a table is copied: the parent's references are as before, and the child has
no descriptors yet for those left to copy. -/
structure Copying (h : Holding) (np : ι) (fds : List (Fin NOFILE)) (g : Hands ι) (x : Holding) :
    Prop where
  nodup : fds.Nodup
  eq : g = parent h np x
  embryo : x.life = .embryo
  cwd : x.cwd = none
  left : ∀ fd ∈ fds, x.ofile fd = none

/-- One descriptor is copied. -/
theorem Copying.copy {h x : Holding} {np : ι} {fd : Fin NOFILE} {fds : List (Fin NOFILE)}
    (hx : Copying h np (fd :: fds) g x) :
    Ends (custody ι).bracket (fun _ g => ∃ x, Copying h np fds g x) g (do
      match ← fs (ask (.ofile fd)) with
      | none => return
      | some f =>
        fs (ask (.filedup f))
        fs (ask (.setProc np fun x => { x with ofile := Function.update x.ofile fd (some f) }))) := by
  obtain ⟨hnodup, rfl, hlife, hcwd, hleft⟩ := hx
  obtain ⟨hnot, hnodup⟩ := List.nodup_cons.mp hnodup
  have hrest : ∀ fd' ∈ fds, x.ofile fd' = none := fun fd' hfd' =>
    hleft fd' (List.mem_cons_of_mem _ hfd')
  refine kends_ask (Option.some_ne_none h) fun r g' hg' => ?_
  obtain ⟨rfl, hr⟩ := hg'
  have hfd := hr h rfl
  cases r with
  | none => exact ⟨x, hnodup, rfl, hlife, hcwd, hrest⟩
  | some f =>
    refine kends_ask ⟨Holding.slots_pos hfd.symm, rfl⟩ fun _ g' hg' => ?_
    subst hg'
    have hendow : ((parent h np x).addFile f 1).endow np x (x.setFd fd (some f)) =
        parent h np (x.setFd fd (some f)) := by
      ext1
      · rfl
      · funext ip
        exact Int.add_sub_cancel _ _
      · funext j
        simp only [endow, addFile, parent]
        rw [Holding.slots_setFd, hleft fd (List.mem_cons_self ..)]
        simp only [Option.some.injEq, eq_comm, reduceCtorEq, if_false]
        omega
      · rfl
      · rfl
      · exact if_pos hlife
    refine (ends_setProc rfl (fun _ => rfl) (fun hz => Life.noConfusion (hlife.symm.trans hz))
      (fun hu => Life.noConfusion (hlife.symm.trans hu)) hendow (parent_sane ..)).mono
      fun _ g' hg' => ⟨x.setFd fd (some f), hnodup, hg', hlife, hcwd, fun fd' hfd' => ?_⟩
    have hne : fd' ≠ fd := fun he => hnot (he ▸ hfd')
    exact (Holding.setFd_ofile x fd fd' _).trans ((if_neg hne).trans (hrest fd' hfd'))

theorem settles_forkFiles (h : Holding) (np : ι) : Settles h (forkFiles np) := by
  refine kends_ask rfl fun r g' hg' => ?_
  cases r with
  | false =>
    obtain rfl : g' = start h := hg'
    exact settles_pure h _
  | true =>
  obtain ⟨x, hempty, hlife, hg'⟩ := hg'
  obtain rfl : g' = parent h np x := hg'
  refine kends_idle (idle_ask rfl) fun (r : ℕ) => ?_
  change Ends _ _ _ (if r = 0 then _ else _)
  split
  · -- `copyuvm` failed: the slot is given back
    refine (ends_setProc rfl (fun _ => rfl) Life.noConfusion (fun _ => hempty)
      (endow_eq_start rfl (fun ip => ?_) (fun f => ?_) (fun _ => rfl) (fun _ _ => rfl)
        Life.noConfusion) (start_sane h)).bind fun _ g' hg' => ?_
    · exact (Int.add_sub_cancel _ _).symm
    · exact (Int.add_sub_cancel _ _).symm
    · rw [hg']
      exact settles_pure h _
  · refine (Ends.forEach (J := fun fds g => ∃ x, Copying h np fds g x)
      (fun fd fds g' ⟨x, hx⟩ => hx.copy)
      ⟨x, List.nodup_finRange _, rfl, hlife, hempty.1, fun fd _ => hempty.2 fd⟩).bind fun _ g' hg' => ?_
    obtain ⟨x, -, rfl, hlife, hcwd, -⟩ := hg'
    refine kends_ask (Option.some_ne_none h) fun r g' hg' => ?_
    obtain ⟨rfl, hr⟩ := hg'
    have hcwd' := hr h rfl
    cases r with
    | none => exact ⟨trivial, fun r => r.elim⟩
    | some ip =>
      refine kends_ask ((start_ready h : (start h : Hands ι).Ready).cwd h ip rfl hcwd'.symm) fun _ g' hg' => ?_
      subst hg'
      refine (ends_setProc rfl (fun _ => rfl) Life.noConfusion (fun hu => Life.noConfusion hu)
        (endow_eq_start rfl (fun jp => ?_) (fun f => ?_) (fun _ => rfl) (fun _ _ => rfl)
          Life.noConfusion) (start_sane h)).bind fun _ g' hg' => ?_
      · simp only [addInode, parent, Holding.inCwd, hcwd, Option.some.injEq, eq_comm, reduceCtorEq,
          if_false]
        omega
      · exact (Int.add_sub_cancel _ _).symm
      · rw [hg']
        exact kends_idle (idle_ask rfl) fun _ => settles_pure h _

theorem settles_exitFiles {h : Holding} (hlive : h.life ≠ .zombie) (isRoundRobin isInit : Bool) :
    Settles h (exitFiles isRoundRobin isInit : KCode ι ℤ) := by
  have hend : ∀ h' : Holding, h'.life ≠ .zombie → (∀ fd, h'.ofile fd = none) →
      Settles h' (do
        if isRoundRobin then beginOp
        fs iputCwd
        if isRoundRobin then endOp
        fs (ask (.setCwd none))
        fs (ask .die)
        return 0 : KCode ι ℤ) := by
    intro h' hlive' hofile
    have hlast : ∀ g : Hands ι, (∃ x ip, (start h' : Hands ι).self = some x ∧ x.cwd = some ip ∧
        g = (start h').addInode ip (-1)) →
        Ends (custody ι).bracket (fun _ g => g.Settled) g (do
          fs (ask (.setCwd none))
          fs (ask .die)
          return 0) := by
      rintro g ⟨x, ip, hx, hcwd, rfl⟩
      cases hx
      refine kends_ask ⟨_, rfl, hlive'⟩ fun _ g' hg' => ?_
      subst hg'
      have heq : ((start h').addInode ip (-1)).withSelf (fun h => { h with cwd := none }) =
          (start { h' with cwd := none } : Hands ι) := ?_
      · rw [heq]
        exact kends_ask ⟨{ h' with cwd := none }, rfl, rfl, hofile⟩ fun _ g' hg' =>
          ⟨{ h' with cwd := none, life := .zombie }, hg'⟩
      refine eq_start rfl (fun jp => ?_) (fun f => rfl) (fun _ => rfl) (fun _ _ => rfl) rfl
      simp only [withSelf, addInode, start, Holding.inCwd, hcwd, Option.some.injEq, eq_comm,
        reduceCtorEq, if_false]
      split <;> omega
    cases isRoundRobin with
    | false => exact kends_fs (ends_iputCwd (start_ready h')) fun _ g' hg' => hlast g' hg'
    | true =>
      refine kends_beginOp (kends_fs (ends_iputCwd (start_ready h')) fun _ g' hg' => ?_)
      exact kends_endOp (hlast g' hg')
  have hloop : Settles h (do
      Code.forEach (List.finRange NOFILE) fun fd => do
        match ← fs (ask (.ofile fd)) with
        | none => return
        | some f =>
          fileclose f
          fs (ask (.setOfile fd none))
      if isRoundRobin then beginOp
      fs iputCwd
      if isRoundRobin then endOp
      fs (ask (.setCwd none))
      fs (ask .die)
      return 0 : KCode ι ℤ) := by
    refine (Ends.forEach (J := fun fds g => ∃ x : Holding, g = start x ∧ x.life ≠ .zombie ∧
      ∀ fd, fd ∉ fds → x.ofile fd = none) (fun fd fds g' hg' => ?_)
      ⟨h, rfl, hlive, fun fd hfd => absurd (List.mem_finRange fd) hfd⟩).bind fun _ g' hg' => ?_
    · obtain ⟨x, rfl, hlive', hx⟩ := hg'
      refine kends_ask (Option.some_ne_none x) fun r g' hg' => ?_
      obtain ⟨rfl, hr⟩ := hg'
      have hfd := hr x rfl
      cases r with
      | none =>
        refine ⟨x, rfl, hlive', fun fd' hfd' => ?_⟩
        by_cases he : fd' = fd
        · rw [he]
          exact hfd.symm
        · exact hx fd' fun hmem => (List.mem_cons.mp hmem).elim he hfd'
      | some f =>
        refine (ends_fileclose (start_sane x) (Holding.slots_pos hfd.symm)).bind fun _ g' hg' => ?_
        subst hg'
        refine ⟨⟨_, rfl, hlive'⟩, fun _ g' hg' =>
          ⟨x.setFd fd none, hg'.trans ?_, hlive', fun fd' hfd' => ?_⟩⟩
        · refine eq_start rfl (fun _ => rfl) (fun j => ?_) (fun j => ?_) (fun _ _ => rfl) rfl
          · rw [Holding.slots_setFd, ← hfd]
            simp only [Hands.close, setFresh, addFile, withSelf, start, Option.some.injEq, eq_comm,
              reduceCtorEq, if_false]
            split <;> omega
          · simp [Hands.close, setFresh, addFile, withSelf, start]
        · by_cases he : fd' = fd
          · rw [Holding.setFd_ofile, if_pos he]
          · rw [Holding.setFd_ofile, if_neg he]
            exact hx fd' fun hmem => (List.mem_cons.mp hmem).elim he hfd'
    · obtain ⟨x, rfl, hlive', hx⟩ := hg'
      exact hend x hlive' fun fd => hx fd (List.not_mem_nil)
  change Ends _ _ _ (if _ then _ else _)
  split
  · exact kends_panic _
  · exact hloop

/-- **Every system call gives back what it takes**, whatever it is answered. -/
theorem settles_syscall {h : Holding} (hlive : h.life ≠ .zombie) (isRoundRobin isInit : Bool)
    (c : Syscall ι) :
    Settles h (c.code isRoundRobin isInit) := by
  cases c with
  | fork np => exact settles_forkFiles h np
  | exit => exact settles_exitFiles hlive isRoundRobin isInit
  | pipe => exact settles_sysPipe hlive
  | read fd n => exact settles_sysRead h fd n
  | exec path => exact settles_sysExec h path
  | fstat fd => exact settles_sysFstat h fd
  | chdir path => exact settles_sysChdir hlive path
  | dup fd => exact settles_sysDup hlive fd
  | openFile path omode => exact settles_sysOpen hlive path omode
  | write fd n src => exact settles_sysWrite h fd n src
  | mknod path numbers => exact settles_sysMknod h path numbers
  | unlink path => exact settles_sysUnlink h path
  | link old new => exact settles_sysLink h old new
  | mkdir path => exact settles_sysMkdir h path
  | close fd => exact settles_sysClose hlive fd

end Calls

end StrideXv6
