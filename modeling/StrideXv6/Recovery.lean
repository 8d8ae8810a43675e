import StrideXv6.Cache

/-!
# Commit and recovery (`log.c`)

The redo log on disk. Block `start` is the header, the blocks after it hold
copies of the logged blocks. `commit` copies the logged blocks from the cache to
the log, writes the header, copies the log to the home blocks, and writes an
empty header. `recover_from_log` does the second half of that from whatever
header it finds.

Between any two block writes the disk is in one of three states (`Pristine`,
`Committed`, `Installed`):
the header is empty and nothing outside the log has changed; the header lists
the transaction, the log has its contents, and each home block is old or new;
the header is empty and all home blocks are new. Only a header write leads from
one to the next, so recovery, however often it is interrupted, ends in the first
or the last, and in the last exactly if the first header write of `commit`
reached the disk.
-/

namespace StrideXv6

open Crash

/-! ## The code -/

/-- The device of the root file system. -/
def ROOTDEV : ℕ := 1

/-- The blocks a header lists: word `0` is `n`, the words after it `block`. -/
def headBlocks (x : Block) : List ℕ := (List.range (x 0)).map fun i => x (i + 1)

/-- The loop that fills `hb->block`, from index `i` on. -/
def fillBlocks : ℕ → List ℕ → Block → Block
  | _, [], x => x
  | i, b :: bs, x => fillBlocks (i + 1) bs (Function.update x (i + 1) b)

/-- What `write_head` does to the header buffer. -/
def setHead (lh : List ℕ) (x : Block) : Block :=
  fillBlocks 0 lh (Function.update x 0 lh.length)

/-- Set the header in memory. -/
def setLh (lh : List ℕ) : Kern Unit := modify fun s => { s with log := { s.log with lh := lh } }

/-- Copy committed blocks from the log to their home locations. -/
def installTrans : Kern Unit := do
  let s ← get
  forEach s.log.lh.zipIdx fun (b, tail) => do
    let lbuf ← bread s.log.dev (s.log.start + tail + 1)
    let dbuf ← bread s.log.dev b
    copyData dbuf lbuf
    bwrite dbuf
    brelse lbuf
    brelse dbuf

/-- Read the log header from disk into the in-memory log header. -/
def readHead : Kern Unit := do
  let s ← get
  let i ← bread s.log.dev s.log.start
  let s ← get
  setLh (headBlocks (s.buf i).data)
  brelse i

/-- Write the in-memory log header to disk. -/
def writeHead : Kern Unit := do
  let s ← get
  let i ← bread s.log.dev s.log.start
  setData i (setHead s.log.lh)
  bwrite i
  brelse i

/-- `recover_from_log`. -/
def recoverFromLog : Kern Unit := do
  readHead
  installTrans
  setLh []
  writeHead

/-- `initlog`: the place of the log is in the superblock, words `0` (`size`) and
`3` (`nlog`) of block `1`. -/
def initlog : Kern Unit := do
  let i ← bread ROOTDEV 1
  let s ← get
  let sb := (s.buf i).data
  brelse i
  modify fun s => { s with log := { s.log with
    start := (sb 0 + 4294967296 - sb 3) % 4294967296, size := sb 3, dev := ROOTDEV } }
  recoverFromLog

/-- Copy modified blocks from the cache to the log. -/
def writeLog : Kern Unit := do
  let s ← get
  forEach s.log.lh.zipIdx fun (b, tail) => do
    let dst ← bread s.log.dev (s.log.start + tail + 1)
    let src ← bread s.log.dev b
    copyData dst src
    bwrite dst
    brelse src
    brelse dst

/-- `commit`. -/
def commit : Kern Unit := do
  let s ← get
  if 0 < s.log.lh.length then do
    writeLog
    writeHead
    installTrans
    setLh []
    writeHead
  else pure ()

/-! ## Headers -/

theorem fillBlocks_le {i j : ℕ} {bs : List ℕ} {x : Block} (h : j ≤ i) :
    fillBlocks i bs x j = x j := by
  induction bs generalizing i x with
  | nil => rfl
  | cons b bs ih =>
    rw [fillBlocks, ih (by omega), Function.update_of_ne (by omega)]

theorem fillBlocks_add {i k : ℕ} {bs : List ℕ} {x : Block} (h : k < bs.length) :
    fillBlocks i bs x (i + k + 1) = bs[k] := by
  induction bs generalizing i k x with
  | nil => cases h
  | cons b bs ih =>
    rw [fillBlocks]
    cases k with
    | zero => rw [fillBlocks_le (by omega), Nat.add_zero, Function.update_self, List.getElem_cons_zero]
    | succ k =>
      have := ih (i := i + 1) (x := Function.update x (i + 1) b) (Nat.lt_of_succ_lt_succ h)
      rw [List.getElem_cons_succ, ← this]
      congr 1
      omega

theorem setHead_zero (lh : List ℕ) (x : Block) : setHead lh x 0 = lh.length := by
  rw [setHead, fillBlocks_le (Nat.le_refl 0), Function.update_self]

/-- A header that was written lists what it was written for. -/
theorem headBlocks_setHead (lh : List ℕ) (x : Block) : headBlocks (setHead lh x) = lh := by
  rw [headBlocks, setHead_zero]
  refine List.ext_getElem (by simp) fun k hk _ => ?_
  have hlt : k < lh.length := by simpa using hk
  have := fillBlocks_add (i := 0) (x := Function.update x 0 lh.length) hlt
  rw [List.getElem_map, List.getElem_range, setHead, ← this]
  congr 1
  omega

theorem headBlocks_eq_nil {x : Block} (h : x 0 = 0) : headBlocks x = [] := by
  rw [headBlocks, h]
  rfl

/-! ## What the pieces of the code do -/

section Pieces

variable {dv : ℕ} {v d : ℕ → Block} {l : Log} {w : List DiskWrite}
  {C : (ℕ → Block) → List DiskWrite → Prop}

/-- Two held buffers: the contents of one are copied to the other, which is
written, and both are released. -/
theorem copyBlock_spec {i j : Fin NBUF} {a b : ℕ} (hab : a ≠ b) (hC : C d w) :
    Triple (Rep dv v d [(j, b), (i, a)] l w)
      (do copyData j i; bwrite j; brelse i; brelse j)
      (fun _ => Rep dv (Function.update v b (v a)) (Function.update d b (v a)) [] l
        (⟨dv, b, v a⟩ :: w))
      (CrashAt dv C) := by
  refine Triple.of_fact (fun s h => h.ne (i := i) (j := j) (by simp) (by simp) hab) fun hij => ?_
  rw [← bind_assoc]
  refine (overwrite_spec (b := b) hC (by simp) fun s h =>
    copyData_fill (c := a) (by simp) s h).seq ?_
  refine Triple.seq (R := Rep dv (Function.update v b (v a)) (Function.update d b (v a)) [(j, b)] l
    (⟨dv, b, v a⟩ :: w)) ?_ ?_
  · refine (brelse_spec (b := a) ?_).pre fun s h => h.perm fun x => ?_
    · intro c hc
      exact hij (Prod.mk.inj (List.mem_singleton.mp hc)).1
    · simp [or_comm]
  · exact brelse_last

/-- One turn of the loop in `install_trans`. -/
theorem installBlock_spec {b tail : ℕ} (hb : l.start + tail + 1 ≠ b) (hC : C d w) :
    Triple (Rep dv v d [] l w)
      (do
        let lbuf ← bread dv (l.start + tail + 1)
        let dbuf ← bread dv b
        copyData dbuf lbuf
        bwrite dbuf
        brelse lbuf
        brelse dbuf)
      (fun _ => Rep dv (Function.update v b (v (l.start + tail + 1)))
        (Function.update d b (v (l.start + tail + 1))) [] l
        (⟨dv, b, v (l.start + tail + 1)⟩ :: w))
      (CrashAt dv C) := by
  refine (bread_spec hC fun i hi => by cases hi).bind fun lbuf => ?_
  refine (bread_spec hC fun i hi => ?_).bind fun dbuf => copyBlock_spec hb hC
  exact hb (Prod.mk.inj (List.mem_singleton.mp hi)).2.symm

/-- One turn of the loop in `write_log`. -/
theorem logBlock_spec {b tail : ℕ} (hb : b ≠ l.start + tail + 1) (hC : C d w) :
    Triple (Rep dv v d [] l w)
      (do
        let dst ← bread dv (l.start + tail + 1)
        let src ← bread dv b
        copyData dst src
        bwrite dst
        brelse src
        brelse dst)
      (fun _ => Rep dv (Function.update v (l.start + tail + 1) (v b))
        (Function.update d (l.start + tail + 1) (v b)) [] l
        (⟨dv, l.start + tail + 1, v b⟩ :: w))
      (CrashAt dv C) := by
  refine (bread_spec hC fun i hi => by cases hi).bind fun dst => ?_
  refine (bread_spec hC fun i hi => ?_).bind fun src => (copyBlock_spec hb hC).pre fun s h =>
    h.perm fun x => by simp [or_comm]
  exact hb (Prod.mk.inj (List.mem_singleton.mp hi)).2

theorem setLh_spec {lh : List ℕ} :
    Triple (Rep dv v d [] l w) (setLh lh) (fun _ => Rep dv v d [] { l with lh := lh } w)
      (CrashAt dv C) := by
  refine Triple.modify fun s h => ?_
  exact ⟨h.listed, h.unique, h.cached, h.clean, h.busy, h.holds, h.disk, by rw [h.log], h.writes⟩

/-- `write_head`. -/
theorem writeHead_spec (hdv : l.dev = dv) (hC : C d w) :
    Triple (Rep dv v d [] l w) writeHead
      (fun _ => Rep dv (Function.update v l.start (setHead l.lh (v l.start)))
        (Function.update d l.start (setHead l.lh (v l.start))) [] l
        (⟨dv, l.start, setHead l.lh (v l.start)⟩ :: w))
      (CrashAt dv C) := by
  subst hdv
  refine Triple.get_bind fun s₀ h₀ => ?_
  rw [h₀.log]
  refine ((bread_spec hC fun i hi => by cases hi).bind fun i => ?_).pre fun s hs => hs ▸ h₀
  rw [← bind_assoc]
  refine (overwrite_spec (b := l.start) hC (by simp) fun s h =>
    setData_fill (b := l.start) (by simp) s h).seq ?_
  exact brelse_last

/-- `read_head`. -/
theorem readHead_spec (hdv : l.dev = dv) (hC : C d w) :
    Triple (Rep dv v d [] l w) readHead
      (fun _ => Rep dv v d [] { l with lh := headBlocks (v l.start) } w) (CrashAt dv C) := by
  subst hdv
  refine Triple.get_bind fun s₀ h₀ => ?_
  rw [h₀.log]
  refine ((bread_spec hC fun i hi => by cases hi).bind fun i => ?_).pre fun s hs => hs ▸ h₀
  refine Triple.get_bind fun s₁ h₁ => ?_
  rw [(h₁.cached i l.start (h₁.holds i l.start (by simp))).2]
  refine Triple.seq (R := Rep l.dev v d [(i, l.start)] { l with lh := headBlocks (v l.start) } w) ?_
    brelse_last
  refine Triple.modify fun s hs => ?_
  subst hs
  exact ⟨h₁.listed, h₁.unique, h₁.cached, h₁.clean, h₁.busy, h₁.holds, h₁.disk, by rw [h₁.log],
    h₁.writes⟩

end Pieces

/-! ## The states of the disk -/

/-- The block is outside the log area. -/
def OutsideLog (l : Log) (b : ℕ) : Prop := b < l.start ∨ l.start + l.size ≤ b

/-- No transaction is in the log, and the blocks outside it are as in `d₀`. -/
structure Pristine (l : Log) (d₀ d : ℕ → Block) : Prop where
  head : d l.start 0 = 0
  home : ∀ b, OutsideLog l b → d b = d₀ b

/-- The transaction `l.lh` with the contents `v₀` is in the log, and each of its
home blocks is as in `d₀` or has its new contents. -/
structure Committed (l : Log) (v₀ d₀ d : ℕ → Block) : Prop where
  head : headBlocks (d l.start) = l.lh
  copies : ∀ k b, (b, k) ∈ l.lh.zipIdx → d (l.start + k + 1) = v₀ b
  home : ∀ b, OutsideLog l b → d b = d₀ b ∨ b ∈ l.lh ∧ d b = v₀ b

/-- No transaction is in the log any more, and all its blocks are installed. -/
structure Installed (l : Log) (v₀ d₀ d : ℕ → Block) : Prop where
  head : d l.start 0 = 0
  home : ∀ b, OutsideLog l b → d b = if b ∈ l.lh then v₀ b else d₀ b

/-- A log whose transaction fits it and is not about the log itself. -/
structure Log.Fits (l : Log) : Prop where
  len : l.lh.length + 1 ≤ l.size
  home : ∀ b ∈ l.lh, OutsideLog l b

theorem mem_zipIdx_lt {lh : List ℕ} {b k : ℕ} (h : (b, k) ∈ lh.zipIdx) :
    k < lh.length ∧ b ∈ lh := by
  have hk := List.mem_zipIdx' h
  exact ⟨hk.1, hk.2 ▸ List.getElem_mem _⟩

/-- Log blocks are neither the header nor home blocks. -/
theorem Log.Fits.copy_inside {l : Log} (h : l.Fits) {b k : ℕ} (hk : (b, k) ∈ l.lh.zipIdx) :
    ¬ OutsideLog l (l.start + k + 1) := by
  have := (mem_zipIdx_lt hk).1
  have := h.len
  unfold OutsideLog
  omega

theorem Log.Fits.ne_copy {l : Log} (h : l.Fits) {a b k : ℕ} (hk : (b, k) ∈ l.lh.zipIdx)
    (ha : OutsideLog l a) : a ≠ l.start + k + 1 := by
  rintro rfl
  exact h.copy_inside hk ha

theorem Log.Fits.ne_start {l : Log} (h : l.Fits) {a : ℕ} (ha : OutsideLog l a) : a ≠ l.start := by
  rintro rfl
  have := h.len
  unfold OutsideLog at ha
  omega

theorem zipIdx_unique {lh : List ℕ} {a b k : ℕ} (ha : (a, k) ∈ lh.zipIdx)
    (hb : (b, k) ∈ lh.zipIdx) : a = b := by
  have ha' := (List.mem_zipIdx' ha).2
  have hb' := (List.mem_zipIdx' hb).2
  exact ha'.trans hb'.symm

/-- A header write is on record. -/
def HeadWritten (l : Log) (w : List DiskWrite) : Prop :=
  ∃ x ∈ w, x.dev = l.dev ∧ x.blockno = l.start

instance (l : Log) (w : List DiskWrite) : Decidable (HeadWritten l w) :=
  inferInstanceAs (Decidable (∃ x ∈ w, x.dev = l.dev ∧ x.blockno = l.start))

/-! ## The loops -/

section Loops

variable {l : Log} {v₀ d₀ : ℕ → Block} {C : (ℕ → Block) → List DiskWrite → Prop}
  {F : List DiskWrite → Prop}

/-- `write_log` has copied the blocks in `done`. -/
structure Copied (l : Log) (v₀ d₀ : ℕ → Block) (done : List (ℕ × ℕ)) (v d : ℕ → Block)
    (w : List DiskWrite) : Prop where
  pristine : Pristine l d₀ d
  head : ¬ HeadWritten l w
  contents : ∀ b ∈ l.lh, v b = v₀ b
  copies : ∀ b k, (b, k) ∈ done → d (l.start + k + 1) = v₀ b ∧ v (l.start + k + 1) = v₀ b

theorem Copied.next {done : List (ℕ × ℕ)} {v d : ℕ → Block} {w : List DiskWrite}
    (h : Copied l v₀ d₀ done v d w) (hl : l.Fits) {b tail : ℕ} (hb : (b, tail) ∈ l.lh.zipIdx)
    (hdone : ∀ x ∈ done, x ∈ l.lh.zipIdx) :
    Copied l v₀ d₀ (done ++ [(b, tail)]) (Function.update v (l.start + tail + 1) (v b))
      (Function.update d (l.start + tail + 1) (v b))
      (⟨l.dev, l.start + tail + 1, v b⟩ :: w) := by
  have hmem := (mem_zipIdx_lt hb).2
  refine ⟨⟨?_, fun a ha => ?_⟩, ?_, fun a ha => ?_, fun a k hk => ?_⟩
  · rw [Function.update_of_ne (by omega)]
    exact h.pristine.head
  · rw [Function.update_of_ne (hl.ne_copy hb ha)]
    exact h.pristine.home a ha
  · rintro ⟨x, hx, hdev, hstart⟩
    rcases List.mem_cons.mp hx with rfl | hx
    · have : l.start + tail + 1 = l.start := hstart
      omega
    · exact h.head ⟨x, hx, hdev, hstart⟩
  · rw [Function.update_of_ne (hl.ne_copy hb (hl.home a ha))]
    exact h.contents a ha
  · by_cases htail : k = tail
    · subst htail
      have hab : a = b := by
        rcases List.mem_append.mp hk with hk | hk
        · exact zipIdx_unique (hdone _ hk) hb
        · exact (Prod.mk.inj (List.mem_singleton.mp hk)).1
      rw [Function.update_self, Function.update_self, hab, h.contents b hmem]
      exact ⟨rfl, rfl⟩
    · have hne : l.start + k + 1 ≠ l.start + tail + 1 := by omega
      rw [Function.update_of_ne hne, Function.update_of_ne hne]
      rcases List.mem_append.mp hk with hk | hk
      · exact h.copies a k hk
      · exact absurd (Prod.mk.inj (List.mem_singleton.mp hk)).2 htail

theorem writeLog_spec (hl : l.Fits)
    (hC : ∀ d w, Pristine l d₀ d → ¬ HeadWritten l w → C d w) :
    Triple (fun s => ∃ v d w, Rep l.dev v d [] l w s ∧ Copied l v₀ d₀ [] v d w) writeLog
      (fun _ s => ∃ v d w, Rep l.dev v d [] l w s ∧ Copied l v₀ d₀ l.lh.zipIdx v d w)
      (CrashAt l.dev C) := by
  refine Triple.get_bind fun s₀ ⟨v, d, w, h₀, hcopied⟩ => ?_
  rw [h₀.log]
  refine Triple.pre (Triple.forEach (I := fun done s => ∃ v d w, Rep l.dev v d [] l w s ∧
    Copied l v₀ d₀ done v d w) ?_) fun s hs => ⟨v, d, w, hs ▸ h₀, hcopied⟩
  rintro done ⟨b, tail⟩ rest hsplit
  have hb : (b, tail) ∈ l.lh.zipIdx := by
    rw [hsplit]
    simp
  have hdone : ∀ x ∈ done, x ∈ l.lh.zipIdx := by
    intro x hx
    rw [hsplit]
    exact List.mem_append_left _ hx
  have hne := hl.ne_copy hb (hl.home b (mem_zipIdx_lt hb).2)
  refine Triple.of_exists fun v => Triple.of_exists fun d => Triple.of_exists fun w => ?_
  refine Triple.of_fact (fun s h => h.2) fun hcop => ?_
  refine (logBlock_spec hne (hC d w hcop.pristine hcop.head)).conseq (fun s h => h.1) ?_
  exact fun _ s h => ⟨_, _, _, h, hcop.next hl hb hdone⟩

/-- `install_trans` has installed the blocks in `done`. -/
structure Installing (l : Log) (v₀ d₀ : ℕ → Block) (done : List (ℕ × ℕ)) (v d : ℕ → Block) :
    Prop where
  committed : Committed l v₀ d₀ d
  copies : ∀ b k, (b, k) ∈ l.lh.zipIdx → v (l.start + k + 1) = v₀ b
  installed : ∀ b k, (b, k) ∈ done → d b = v₀ b

theorem Installing.next {done : List (ℕ × ℕ)} {v d : ℕ → Block}
    (h : Installing l v₀ d₀ done v d) (hl : l.Fits) {b tail : ℕ}
    (hb : (b, tail) ∈ l.lh.zipIdx) :
    Installing l v₀ d₀ (done ++ [(b, tail)]) (Function.update v b (v (l.start + tail + 1)))
      (Function.update d b (v (l.start + tail + 1))) := by
  have hmem := (mem_zipIdx_lt hb).2
  have hout := hl.home b hmem
  have hval := h.copies b tail hb
  refine ⟨⟨?_, fun k a hk => ?_, fun a ha => ?_⟩, fun a k hk => ?_, fun a k hk => ?_⟩
  · rw [Function.update_of_ne (hl.ne_start hout).symm]
    exact h.committed.head
  · rw [Function.update_of_ne (hl.ne_copy hk hout).symm]
    exact h.committed.copies k a hk
  · by_cases hab : a = b
    · subst hab
      rw [Function.update_self]
      exact Or.inr ⟨hmem, hval⟩
    · rw [Function.update_of_ne hab]
      exact h.committed.home a ha
  · rw [Function.update_of_ne (hl.ne_copy hk hout).symm]
    exact h.copies a k hk
  · by_cases hab : a = b
    · subst hab
      rw [Function.update_self]
      exact hval
    · rw [Function.update_of_ne hab]
      rcases List.mem_append.mp hk with hk | hk
      · exact h.installed a k hk
      · exact absurd (Prod.mk.inj (List.mem_singleton.mp hk)).1 hab

theorem installTrans_spec (hl : l.Fits) (hF : ∀ x w, F w → F (x :: w))
    (hC : ∀ d w, Committed l v₀ d₀ d → F w → C d w) :
    Triple (fun s => ∃ v d w, Rep l.dev v d [] l w s ∧ Installing l v₀ d₀ [] v d ∧ F w) installTrans
      (fun _ s => ∃ v d w, Rep l.dev v d [] l w s ∧ Installing l v₀ d₀ l.lh.zipIdx v d ∧ F w)
      (CrashAt l.dev C) := by
  refine Triple.get_bind fun s₀ ⟨v, d, w, h₀, hinst⟩ => ?_
  rw [h₀.log]
  refine Triple.pre (Triple.forEach (I := fun done s => ∃ v d w, Rep l.dev v d [] l w s ∧
    Installing l v₀ d₀ done v d ∧ F w) ?_) fun s hs => ⟨v, d, w, hs ▸ h₀, hinst⟩
  rintro done ⟨b, tail⟩ rest hsplit
  have hb : (b, tail) ∈ l.lh.zipIdx := by
    rw [hsplit]
    simp
  have hne := hl.ne_copy hb (hl.home b (mem_zipIdx_lt hb).2)
  refine Triple.of_exists fun v => Triple.of_exists fun d => Triple.of_exists fun w => ?_
  refine Triple.of_fact (fun s h => h.2) fun ⟨hins, hw⟩ => ?_
  refine (installBlock_spec hne.symm (hC d w hins.committed hw)).conseq (fun s h => h.1) ?_
  exact fun _ s h => ⟨_, _, _, h, hins.next hl hb, hF _ _ hw⟩

/-- The end of both `commit` and `recover_from_log`: the empty header. -/
theorem eraseHead_spec (hl : l.Fits) (hF : ∀ x w, F w → F (x :: w))
    (hC : ∀ d w, Committed l v₀ d₀ d → F w → C d w) :
    Triple (fun s => ∃ v d w, Rep l.dev v d [] l w s ∧ Installing l v₀ d₀ l.lh.zipIdx v d ∧ F w)
      (do setLh []; writeHead)
      (fun _ s => ∃ v d w, Rep l.dev v d [] { l with lh := [] } w s ∧ Installed l v₀ d₀ d ∧ F w)
      (CrashAt l.dev C) := by
  refine Triple.of_exists fun v => Triple.of_exists fun d => Triple.of_exists fun w => ?_
  refine Triple.of_fact (fun s h => h.2) fun ⟨hins, hw⟩ => ?_
  refine (setLh_spec.pre fun s h => h.1).seq ?_
  refine (writeHead_spec (l := { l with lh := [] }) rfl (hC d w hins.committed hw)).conseq
    (fun s h => h) ?_
  refine fun _ s h => ⟨_, _, _, h, ⟨?_, fun b hb => ?_⟩, hF _ _ hw⟩
  · dsimp only
    rw [Function.update_self, setHead_zero]
    rfl
  · dsimp only
    rw [Function.update_of_ne (hl.ne_start hb)]
    split
    · next hmem =>
      obtain ⟨k, hk, hget⟩ := List.getElem_of_mem hmem
      refine hins.installed b k ?_
      rw [← hget]
      exact List.mk_mem_zipIdx_iff_getElem?.mpr (List.getElem?_eq_getElem hk)
    · next hmem =>
      rcases hins.committed.home b hb with h | ⟨h, -⟩
      · exact h
      · exact absurd h hmem

end Loops

/-! ## Commit and recovery as wholes -/

/-- Where a disk can be after `commit` was started: the record tells on which
side of the first header write. -/
def CommitState (l : Log) (v₀ d₀ d : ℕ → Block) (w : List DiskWrite) : Prop :=
  (Pristine l d₀ d ∧ ¬ HeadWritten l w) ∨
    ((Committed l v₀ d₀ d ∨ Installed l v₀ d₀ d) ∧ HeadWritten l w)

section Whole

variable {l : Log} {v₀ d₀ : ℕ → Block}

theorem HeadWritten.cons {w : List DiskWrite} (h : HeadWritten l w) (x : DiskWrite) :
    HeadWritten l (x :: w) := by
  obtain ⟨y, hy, hfor⟩ := h
  exact ⟨y, List.mem_cons_of_mem _ hy, hfor⟩

/-- Over the first header write. -/
theorem Copied.committed {v d : ℕ → Block} {w : List DiskWrite} (hl : l.Fits)
    (h : Copied l v₀ d₀ l.lh.zipIdx v d w) :
    Installing l v₀ d₀ [] (Function.update v l.start (setHead l.lh (v l.start)))
      (Function.update d l.start (setHead l.lh (v l.start))) := by
  have hne : ∀ k, l.start + k + 1 ≠ l.start := fun k => by omega
  refine ⟨⟨?_, fun k b hb => ?_, fun b hb => ?_⟩, fun b k hb => ?_, fun b k hb => by cases hb⟩
  · rw [Function.update_self, headBlocks_setHead]
  · rw [Function.update_of_ne (hne k)]
    exact (h.copies b k hb).1
  · rw [Function.update_of_ne (hl.ne_start hb)]
    exact Or.inl (h.pristine.home b hb)
  · rw [Function.update_of_ne (hne k)]
    exact (h.copies b k hb).2

theorem commit_spec (hl : l.Fits) :
    Triple (fun s => ∃ v d w, Rep l.dev v d [] l w s ∧ Copied l v₀ d₀ [] v d w) commit
      (fun _ => CrashAt l.dev (CommitState l v₀ d₀)) (CrashAt l.dev (CommitState l v₀ d₀)) := by
  have hbefore : ∀ d w, Pristine l d₀ d → ¬ HeadWritten l w → CommitState l v₀ d₀ d w :=
    fun d w hp hw => Or.inl ⟨hp, hw⟩
  have hduring : ∀ d w, Committed l v₀ d₀ d → HeadWritten l w → CommitState l v₀ d₀ d w :=
    fun d w hc hw => Or.inr ⟨Or.inl hc, hw⟩
  have hmono : ∀ x w, HeadWritten l w → HeadWritten l (x :: w) := fun x w hw => hw.cons x
  refine Triple.get_bind fun s₀ ⟨v, d, w, h₀, hcop⟩ => ?_
  split
  · have hwrite := (writeLog_spec hl hbefore).pre (P := (· = s₀))
      fun s hs => ⟨v, d, w, hs ▸ h₀, hcop⟩
    refine hwrite.seq ?_
    -- the real commit
    refine Triple.seq (R := fun s => ∃ v d w, Rep l.dev v d [] l w s ∧
      Installing l v₀ d₀ [] v d ∧ HeadWritten l w) ?_ ?_
    · refine Triple.of_exists fun v => Triple.of_exists fun d => Triple.of_exists fun w => ?_
      refine Triple.of_fact (fun s h => h.2) fun hcop => ?_
      refine (writeHead_spec rfl (hbefore d w hcop.pristine hcop.head)).conseq (fun s h => h.1) ?_
      exact fun _ s h => ⟨_, _, _, h, hcop.committed hl, _, List.mem_cons_self, rfl, rfl⟩
    · refine (installTrans_spec hl hmono hduring).seq ?_
      refine (eraseHead_spec hl hmono hduring).conseq (fun s h => h) ?_
      rintro _ s ⟨v, d, w, h, hinst, hw⟩
      exact h.crash (Or.inr ⟨Or.inr hinst, hw⟩)
  · refine Triple.pure fun s hs => ?_
    subst hs
    exact h₀.crash (hbefore d w hcop.pristine hcop.head)

/-- The place of the log is what matters of it. -/
structure Log.SamePlace (l l' : Log) : Prop where
  start : l'.start = l.start
  size : l'.size = l.size
  dev : l'.dev = l.dev

theorem Log.SamePlace.outside {l' : Log} (h : l.SamePlace l') {b : ℕ} :
    OutsideLog l' b ↔ OutsideLog l b := by
  unfold OutsideLog
  rw [h.start, h.size]

theorem Committed.congr {l' : Log} {d : ℕ → Block} (hp : l.SamePlace l') (hlh : l'.lh = l.lh)
    (h : Committed l v₀ d₀ d) : Committed l' v₀ d₀ d := by
  refine ⟨?_, fun k b hb => ?_, fun b hb => ?_⟩
  · rw [hp.start, hlh]
    exact h.head
  · rw [hp.start]
    exact h.copies k b (hlh ▸ hb)
  · rw [hlh]
    exact h.home b (hp.outside.mp hb)

/-- `recover_from_log` of a log area that has the transaction of `l`, with the
contents `v₀`. -/
theorem recoverFromLog_spec {l' : Log} {C : (ℕ → Block) → List DiskWrite → Prop} (hl : l.Fits)
    (hp : l.SamePlace l') (hC : ∀ d w, Committed l v₀ d₀ d → C d w) :
    Triple (fun s => ∃ d w, Rep l.dev d d [] l' w s ∧ Committed l v₀ d₀ d) recoverFromLog
      (fun _ => CrashAt l.dev fun d _ => Installed l v₀ d₀ d) (CrashAt l.dev C) := by
  -- the log in memory after `read_head`
  have hp₁ : l.SamePlace { l' with lh := l.lh } := ⟨hp.start, hp.size, hp.dev⟩
  have hp₂ : Log.SamePlace { l' with lh := l.lh } l :=
    ⟨hp.start.symm, hp.size.symm, hp.dev.symm⟩
  have hl₁ : Log.Fits { l' with lh := l.lh } :=
    ⟨by rw [hp₁.size]; exact hl.len, fun b hb => hp₁.outside.mpr (hl.home b hb)⟩
  have hC₁ : ∀ d w, Committed { l' with lh := l.lh } v₀ d₀ d → True → C d w :=
    fun d w h _ => hC d w (h.congr hp₂ rfl)
  refine Triple.of_exists fun d => Triple.of_exists fun w => ?_
  refine Triple.of_fact (fun s h => h.2) fun hcom => ?_
  have hhead : headBlocks (d l'.start) = l.lh := by
    rw [hp.start]
    exact hcom.head
  have hinst : Installing { l' with lh := l.lh } v₀ d₀ [] d d :=
    ⟨hcom.congr hp₁ rfl, fun b k hb => (hcom.congr hp₁ rfl).copies k b hb, fun b k hb => by
      cases hb⟩
  have hdev : l.dev = l'.dev := hp.dev.symm
  rw [hdev]
  refine ((readHead_spec rfl (hC d w hcom)).pre fun s h => h.1).seq ?_
  rw [hhead]
  refine ((installTrans_spec (F := fun _ => True) hl₁ (fun _ _ h => h) hC₁).pre
    fun s h => ⟨d, d, w, h, hinst, trivial⟩).seq ?_
  refine (eraseHead_spec hl₁ (fun _ _ h => h) hC₁).conseq (fun s h => h) ?_
  rintro _ s ⟨v', d', w', h, hI, -⟩
  refine h.crash (C := fun d _ => Installed l v₀ d₀ d) ⟨?_, fun b hb => ?_⟩
  · rw [← hp₁.start]
    exact hI.head
  · exact hI.home b (hp₁.outside.mpr hb)

/-- An empty log is the log of a transaction without blocks. -/
theorem Pristine.committed {d : ℕ → Block} (h : Pristine l d₀ d) :
    Committed { l with lh := [] } v₀ d₀ d :=
  ⟨headBlocks_eq_nil h.head, fun _ _ hb => (by cases hb), fun b hb => Or.inl (h.home b hb)⟩

theorem pristine_of_committed {d : ℕ → Block} (h : Committed { l with lh := [] } v₀ d₀ d) :
    Pristine l d₀ d := by
  refine ⟨?_, fun b hb => ?_⟩
  · have hlen := congrArg List.length h.head
    simpa [headBlocks] using hlen
  · rcases h.home b hb with h | ⟨h, -⟩
    · exact h
    · cases h

theorem pristine_of_installed {d : ℕ → Block} (h : Installed { l with lh := [] } v₀ d₀ d) :
    Pristine l d₀ d :=
  ⟨h.head, fun b hb => h.home b hb⟩

/-- Recovery of a disk whose log is empty changes nothing outside the log. -/
theorem recover_pristine {l' : Log} (hsize : 1 ≤ l.size) (hp : l.SamePlace l') :
    Triple (fun s => ∃ d w, Rep l.dev d d [] l' w s ∧ Pristine l d₀ d) recoverFromLog
      (fun _ => CrashAt l.dev fun d _ => Pristine l d₀ d)
      (CrashAt l.dev fun d _ => Pristine l d₀ d) := by
  have hl : Log.Fits { l with lh := [] } := ⟨hsize, fun _ hb => by cases hb⟩
  have hspec : Triple
      (fun s => ∃ d w, Rep l.dev d d [] l' w s ∧ Committed { l with lh := [] } d₀ d₀ d)
      recoverFromLog (fun _ => CrashAt l.dev fun d _ => Installed { l with lh := [] } d₀ d₀ d)
      (CrashAt l.dev fun d _ => Pristine l d₀ d) :=
    recoverFromLog_spec hl ⟨hp.start, hp.size, hp.dev⟩ fun d _ h => pristine_of_committed h
  refine hspec.conseq ?_ ?_
  · rintro s ⟨d, w, h, hpri⟩
    exact ⟨d, w, h, hpri.committed⟩
  · exact fun _ s h => pristine_of_installed h

/-- What is installed stays installed. -/
theorem installed_iff_pristine {d : ℕ → Block} :
    Installed l v₀ d₀ d ↔ Pristine l (fun b => if b ∈ l.lh then v₀ b else d₀ b) d :=
  ⟨fun h => ⟨h.head, h.home⟩, fun h => ⟨h.head, h.home⟩⟩

end Whole

/-! ## Crashes -/

/-- The log in memory before recovery, where `initlog` has found it. -/
def Log.located (l : Log) : Log := { start := l.start, size := l.size, dev := l.dev }

theorem Log.samePlace_located (l : Log) : l.SamePlace l.located := ⟨rfl, rfl, rfl⟩

/-- The machine after a loss of power: the disks are as they were, `binit` has
set up the cache, and `initlog` has found the log where `l` says. -/
def reboot (l : Log) (s : Store) (budget : ℕ) : Store := Store.binit s.disk l.located budget

/-- One attempt at recovery after the other, each cut short by a loss of power
or not; `budgets` says when. -/
def recoveries (l : Log) : Store → List ℕ → Store
  | s, [] => s
  | s, budget :: budgets => recoveries l (recoverFromLog (reboot l s budget)).state budgets

/-- A store that is about to commit: the log on disk is empty, the cache has the
contents `v`, and the record of writes starts here. -/
structure CommitStart (v : ℕ → Block) (s : Store) : Prop where
  rep : Rep s.log.dev v (s.disk (s.log.dev % 2)) [] s.log [] s
  fits : s.log.Fits
  empty : s.disk (s.log.dev % 2) s.log.start 0 = 0
  dev : s.log.dev = ROOTDEV

section Crashes

variable {l : Log} {v₀ d₀ : ℕ → Block}

theorem reboot_rep (hdev : l.dev = ROOTDEV) (s : Store) (budget : ℕ) :
    Rep l.dev (s.disk (l.dev % 2)) (s.disk (l.dev % 2)) [] l.located [] (reboot l s budget) where
  listed i := List.mem_reverse.mpr (List.mem_finRange i)
  unique i _ b hi _ := absurd (hi.1.trans hdev) (by decide : (4294967295 : ℕ) ≠ ROOTDEV)
  cached i b hi := absurd (hi.1.trans hdev) (by decide : (4294967295 : ℕ) ≠ ROOTDEV)
  clean b _ := rfl
  busy i := iff_of_false (fun h => by cases h) (fun ⟨_, h⟩ => by cases h)
  holds i b h := by cases h
  disk := rfl
  log := rfl
  writes := rfl

/-- What every attempt at recovery keeps. -/
theorem recoveries_induction {I : Store → Prop} (budgets : List ℕ)
    (hI : ∀ s budget, I s → I (recoverFromLog (reboot l s budget)).state) :
    ∀ s, I s → I (recoveries l s budgets) := by
  induction budgets with
  | nil => exact fun s h => h
  | cons budget budgets ih => exact fun s h => ih _ (hI s budget h)

theorem recover_state_pristine (hdev : l.dev = ROOTDEV) (hsize : 1 ≤ l.size) {s : Store}
    {budget : ℕ} (h : Pristine l d₀ (s.disk (l.dev % 2))) :
    Pristine l d₀ ((recoverFromLog (reboot l s budget)).state.disk (l.dev % 2)) :=
  (recover_pristine hsize l.samePlace_located).state ⟨_, _, reboot_rep hdev s budget, h⟩

/-- An attempt at recovery of a committed transaction. -/
theorem recover_state_committed (hdev : l.dev = ROOTDEV) (hl : l.Fits) {s : Store} {budget : ℕ}
    (h : Committed l v₀ d₀ (s.disk (l.dev % 2)) ∨ Installed l v₀ d₀ (s.disk (l.dev % 2))) :
    Committed l v₀ d₀ ((recoverFromLog (reboot l s budget)).state.disk (l.dev % 2)) ∨
      Installed l v₀ d₀ ((recoverFromLog (reboot l s budget)).state.disk (l.dev % 2)) := by
  rcases h with h | h
  · have hspec : Triple
        (fun s => ∃ d w, Rep l.dev d d [] l.located w s ∧ Committed l v₀ d₀ d) recoverFromLog
        (fun _ => CrashAt l.dev fun d _ => Committed l v₀ d₀ d ∨ Installed l v₀ d₀ d)
        (CrashAt l.dev fun d _ => Committed l v₀ d₀ d ∨ Installed l v₀ d₀ d) :=
      (recoverFromLog_spec hl l.samePlace_located fun d _ h => Or.inl h).conseq (fun _ h => h)
        fun _ s h => Or.inr h
    exact hspec.state ⟨_, _, reboot_rep hdev s budget, h⟩
  · rw [installed_iff_pristine] at h ⊢
    exact Or.inr (recover_state_pristine hdev (by have := hl.len; omega) h)

end Crashes

/-- **Crash atomicity of the redo log.** Whenever the power fails during
`commit`, and however often it fails again during recovery, once a recovery
completes the log is empty and the blocks outside it are as they were before the
transaction or have all its contents, the latter exactly if the first header
write reached the disk. -/
theorem crash_atomicity {v : ℕ → Block} {s s' : Store} (hstart : CommitStart v s)
    (budgets : List ℕ) (budget : ℕ)
    (hdone : recoverFromLog (reboot s.log (recoveries s.log (commit s).state budgets) budget) =
      .done () s') :
    s'.disk (s.log.dev % 2) s.log.start 0 = 0 ∧
    (¬ HeadWritten s.log (commit s).state.writes →
      ∀ b, OutsideLog s.log b → s'.disk (s.log.dev % 2) b = s.disk (s.log.dev % 2) b) ∧
    (HeadWritten s.log (commit s).state.writes →
      ∀ b, OutsideLog s.log b →
        s'.disk (s.log.dev % 2) b = if b ∈ s.log.lh then v b else s.disk (s.log.dev % 2) b) := by
  have hdev := hstart.dev
  have hl := hstart.fits
  have hsize : 1 ≤ s.log.size := by
    have := hl.len
    omega
  have hcommit : CommitState s.log v (s.disk (s.log.dev % 2))
      ((commit s).state.disk (s.log.dev % 2)) (commit s).state.writes := by
    refine (commit_spec hl).state ⟨v, _, [], hstart.rep, ⟨hstart.empty, fun _ _ => rfl⟩, ?_,
      fun _ _ => rfl, fun b k hb => by cases hb⟩
    rintro ⟨x, hx, -⟩
    cases hx
  rcases hcommit with ⟨hpri, hno⟩ | ⟨hcom, hyes⟩
  · -- the header was not written: no recovery sees the transaction
    have hpri' := recoveries_induction (l := s.log)
      (I := fun s₁ => Pristine s.log (s.disk (s.log.dev % 2)) (s₁.disk (s.log.dev % 2))) budgets
      (fun _ _ h => recover_state_pristine hdev hsize h) _ hpri
    have hend : Pristine s.log (s.disk (s.log.dev % 2)) (s'.disk (s.log.dev % 2)) :=
      (recover_pristine hsize s.log.samePlace_located).of_done ⟨_, _, reboot_rep hdev _ budget, hpri'⟩ hdone
    exact ⟨hend.head, fun _ => hend.home, fun h => absurd h hno⟩
  · have hcom' := recoveries_induction (l := s.log)
      (I := fun s₁ => Committed s.log v (s.disk (s.log.dev % 2)) (s₁.disk (s.log.dev % 2)) ∨
        Installed s.log v (s.disk (s.log.dev % 2)) (s₁.disk (s.log.dev % 2))) budgets
      (fun _ _ h => recover_state_committed hdev hl h) _ hcom
    have hend : Installed s.log v (s.disk (s.log.dev % 2)) (s'.disk (s.log.dev % 2)) := by
      rcases hcom' with h | h
      · exact (recoverFromLog_spec (C := fun _ _ => True) hl s.log.samePlace_located
          fun _ _ _ => trivial).of_done ⟨_, _, reboot_rep hdev _ budget, h⟩ hdone
      · rw [installed_iff_pristine] at h ⊢
        exact (recover_pristine hsize s.log.samePlace_located).of_done
          ⟨_, _, reboot_rep hdev _ budget, h⟩ hdone
    exact ⟨hend.head, fun h => absurd hyes h, fun _ => hend.home⟩

/-- A transaction that changed block `5` of an empty disk to `7`s. -/
def oneBlock (budget : ℕ) : Store where
  buf := fun i =>
    { dev := if i = 0 then ROOTDEV else 4294967295, blockno := if i = 0 then 5 else 0
      busy := false, valid := i = 0, dirty := i = 0, data := fun _ => 7 }
  order := List.finRange NBUF
  disk := fun _ _ _ => 0
  log := { start := 10, size := 3, dev := ROOTDEV, lh := [5] }
  writes := []
  budget := budget

theorem oneBlock_isFor {budget : ℕ} {i : Fin NBUF} {b : ℕ}
    (h : ((oneBlock budget).buf i).IsFor ROOTDEV b) : i = 0 ∧ b = 5 := by
  obtain ⟨hdev, hno⟩ := h
  by_cases hi : i = 0
  · subst hi
    exact ⟨rfl, hno.symm⟩
  · have hdev' : (if i = 0 then ROOTDEV else 4294967295) = ROOTDEV := hdev
    rw [if_neg hi] at hdev'
    exact absurd hdev' (by decide)

theorem oneBlock_start (budget : ℕ) :
    CommitStart (fun b _ => if b = 5 then 7 else 0) (oneBlock budget) where
  rep :=
    { listed := List.mem_finRange
      unique := fun i j b hi hj => (oneBlock_isFor hi).1.trans (oneBlock_isFor hj).1.symm
      cached := fun i b hi => by
        obtain ⟨rfl, rfl⟩ := oneBlock_isFor hi
        exact ⟨rfl, rfl⟩
      clean := fun b hb => by
        have hb5 : b ≠ 5 := by
          rintro rfl
          exact Bool.noConfusion (hb 0 ⟨rfl, rfl⟩)
        funext k
        exact (if_neg hb5).symm
      busy := fun i => iff_of_false (fun h => by cases h) (fun ⟨_, h⟩ => by cases h)
      holds := fun i b h => by cases h
      disk := rfl
      log := rfl
      writes := rfl }
  fits :=
    { len := (by decide : 1 + 1 ≤ 3)
      home := fun b hb => Or.inl (List.mem_singleton.mp hb ▸ (by decide : 5 < 10)) }
  empty := rfl
  dev := rfl

/-- The power fails after the header write, and again after the first write of
the recovery; the second recovery completes. -/
theorem crash_atomicity_two_crashes :
    (recoverFromLog (reboot (oneBlock 2).log
      (recoveries (oneBlock 2).log (commit (oneBlock 2)).state [1]) 2)).state.disk 1 5 =
        fun _ => 7 :=
  (crash_atomicity (oneBlock_start 2) [1] 2 (Outcome.eq_done (by decide +kernel))).2.2
    (by decide +kernel) 5 (Or.inl (by decide))

end StrideXv6
