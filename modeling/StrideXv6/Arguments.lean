import StrideXv6.Word32
import StrideXv6.Syscall

/-!
# The arguments of system calls (`syscall.c`)

The kernel uses user addresses as they are: it runs on the page table of the
process that made the call. What keeps it inside the process's memory are the
checks of `fetchint`, `fetchstr` and `argptr` against `proc->sz`, and what the
callees make of the size that was checked.

A function here gives the ranges of user memory that its source reads or writes
through the addresses it got. Addresses and sizes are 32-bit words: sums are
taken modulo `2 ^ 32`, and an `int` that is used as a `uint` is converted.

The checks are right for every size that is not negative. A negative one passes
`argptr`, because the sum wraps around; for `sys_read` on a file the number is
then taken as a large unsigned one and cut to what the file has left, which
nobody has compared with the process's size (`argument_checks`).
-/

namespace StrideXv6

open Word32

/-- The first kernel address. -/
def KERNBASE : ℕ := 0x80000000

/-- The number of arguments `exec` takes. -/
def MAXARG : ℕ := 32

/-- A C `int` as a `uint`. -/
def uint (z : ℤ) : ℕ := (z % 4294967296).toNat

/-- A range of addresses: where it starts and how long it is. -/
abbrev Range : Type := ℕ × ℕ

/-- The range is part of `[0, sz)`. -/
def Range.Within (sz : ℕ) (r : Range) : Prop := r.2 = 0 ∨ r.1 + r.2 ≤ sz

instance (sz : ℕ) (r : Range) : Decidable (r.Within sz) :=
  inferInstanceAs (Decidable (r.2 = 0 ∨ r.1 + r.2 ≤ sz))

/-- A process as the kernel sees it in a system call. -/
structure UserSpace : Type where
  /-- size of process memory -/
  sz : ℕ
  /-- it ends below the kernel -/
  le : sz ≤ KERNBASE
  /-- the user stack pointer -/
  esp : ℕ
  mem : ℕ → Bytes.Byte

/-- An open file with its inode; `avail` is how much a pipe or the console can
give or take before the call ends. -/
structure OpenFile : Type where
  file : File
  inode : Dinode := {}
  avail : ℕ := 0
  off_lt : file.off < 4294967296
  size_lt : inode.size < 4294967296

namespace UserSpace

variable (u : UserSpace)

/-! ## `syscall.c` -/

/-- Fetch the int at `addr`. -/
def fetchint (addr : ℕ) : Option ℤ :=
  if addr ≥ u.sz ∨ (addr + 4) % 4294967296 > u.sz then none
  else some (wrap (Bytes.word u.mem addr))

/-- Fetch the nul-terminated string at `addr`: where it is and its length. -/
def fetchstr (addr : ℕ) : Option (ℕ × ℕ) :=
  if addr ≥ u.sz then none
  else ((List.range (u.sz - addr)).find? fun k => decide (u.mem (addr + k) = 0#8)).map fun len =>
    (addr, len)

/-- Where the `n`th argument is. -/
def argAddr (n : ℕ) : ℕ := (u.esp + 4 + 4 * n) % 4294967296

/-- Fetch the `n`th 32-bit argument. -/
def argint (n : ℕ) : Option ℤ := u.fetchint (u.argAddr n)

/-- Fetch the `n`th argument as a pointer to a block of memory of `size` bytes. -/
def argptr (n : ℕ) (size : ℤ) : Option ℕ :=
  match u.argint n with
  | none => none
  | some i => if uint i ≥ u.sz ∨ (uint i + uint size) % 4294967296 > u.sz then none else some (uint i)

/-- Fetch the `n`th argument as a string. -/
def argstr (n : ℕ) : Option (ℕ × ℕ) :=
  match u.argint n with
  | none => none
  | some addr => u.fetchstr (uint addr)

/-- Fetch the `n`th argument as a file descriptor. -/
def argfd (ofile : ℕ → Option OpenFile) (n : ℕ) : Option OpenFile :=
  match u.argint n with
  | none => none
  | some fd => if fd < 0 ∨ fd ≥ NOFILE then none else ofile fd.toNat

end UserSpace

/-! ## What the callees do with a pointer -/

/-- The loop of `readi` and of `writei`, `tot` of `n` bytes done: the ranges of
the calls of `memmove`. -/
def copyLoop : (dst off n tot fuel : ℕ) → List Range
  | _, _, _, _, 0 => []
  | dst, off, n, tot, fuel + 1 =>
    if tot < n then
      let m := min (n - tot) (BSIZE - off % BSIZE)
      (dst, m) :: copyLoop (dst + m) (off + m) n (tot + m) fuel
    else []

namespace OpenFile

variable (f : OpenFile)

/-- `readi`; every turn of its loop copies something, so `n` turns are enough. -/
def readi (dst off n : ℕ) : List Range :=
  if f.inode.type = .dev then
    -- `consoleread` takes the number as an `int` again
    if f.inode.major = CONSOLE then [(dst, min (wrap n).toNat f.avail)] else []
  else if off > f.inode.size ∨ (off + n) % 4294967296 < off then []
  else
    let n := if (off + n) % 4294967296 > f.inode.size then f.inode.size - off else n
    copyLoop dst off n 0 n

/-- `fileread`. -/
def fileread (addr : ℕ) (n : ℤ) : List Range :=
  if f.file.readable = false then []
  else
    match f.file.type with
    | .pipe => [(addr, min n.toNat f.avail)]
    | .inode => f.readi addr f.file.off (uint n)
    | .none => []

/-- `writei` of one part, to a file that has `size` bytes by now; `none` for `-1`. -/
def writei (size src off n : ℕ) : Option (List Range) :=
  if f.inode.type = .dev then
    if f.inode.major = CONSOLE then some [(src, (wrap n).toNat)] else none
  else if off > size ∨ (off + n) % 4294967296 < off then none
  else if off + n > MAXFILE * BSIZE then none
  else some (copyLoop src off n 0 n)

/-- The loop of `filewrite` over the parts: a part that is written moves the offset behind it and
lets the file grow up to there, and the first one that fails ends the loop. -/
def writeLoop (addr : ℕ) : (size : ℕ) → List (ℕ × ℕ) → List Range
  | _, [] => []
  | size, (i, n1) :: parts =>
    match f.writei size (addr + i) (f.file.off + i) n1 with
    | none => []
    | some ranges => ranges ++ writeLoop addr (max size (f.file.off + i + n1)) parts

/-- `filewrite`. -/
def filewrite (addr : ℕ) (n : ℤ) : List Range :=
  if f.file.writable = false then []
  else
    match f.file.type with
    | .pipe => [(addr, min n.toNat f.avail)]
    | .inode => f.writeLoop addr f.inode.size (chunks n.toNat)
    | .none => []

end OpenFile

/-! ## `sysfile.c` -/

namespace UserSpace

variable (u : UserSpace) (ofile : ℕ → Option OpenFile)

/-- The ranges that `sys_read` stores to. -/
def sysRead : List Range :=
  match u.argfd ofile 0, u.argint 2 with
  | some f, some n =>
    match u.argptr 1 n with
    | some p => f.fileread p n
    | none => []
  | _, _ => []

/-- The ranges that `sys_write` reads. -/
def sysWrite : List Range :=
  match u.argfd ofile 0, u.argint 2 with
  | some f, some n =>
    match u.argptr 1 n with
    | some p => f.filewrite p n
    | none => []
  | _, _ => []

/-- `sizeof(struct stat)`. -/
def sizeofStat : ℤ := 20

/-- The range that `sys_fstat` stores to. -/
def sysFstat : List Range :=
  match u.argfd ofile 0, u.argptr 1 sizeofStat with
  | some f, some st => if f.file.type = .inode then [(st, sizeofStat.toNat)] else []
  | _, _ => []

/-- The range that `sys_pipe` stores to. -/
def sysPipe : List Range :=
  match u.argptr 0 8 with
  | some fd => [(fd, 4), (fd + 4, 4)]
  | none => []

/-- The loop of `sys_exec` over the arguments from `i` on: the words of `uargv`
and the strings they point to. -/
def execArgs (uargv i : ℕ) : ℕ → List Range
  | 0 => []
  | fuel + 1 =>
    let addr := (uargv + 4 * i) % 4294967296
    match u.fetchint addr with
    | none => []
    | some uarg =>
      if uint uarg = 0 then [(addr, 4)]
      else
        match u.fetchstr (uint uarg) with
        | none => [(addr, 4)]
        | some (s, len) => (addr, 4) :: (s, len + 1) :: execArgs uargv (i + 1) fuel

/-- The ranges that `sys_exec` reads through its arguments. -/
def sysExec : List Range :=
  match u.argstr 0, u.argint 1 with
  | some (path, len), some uargv => (path, len + 1) :: u.execArgs (uint uargv) 0 MAXARG
  | _, _ => []

end UserSpace

/-! ## The checks -/

theorem uint_of_nonneg {z : ℤ} (h : 0 ≤ z) (hz : z ≤ intMax) : uint z = z.toNat := by
  unfold uint intMax at *
  omega

theorem uint_lt (z : ℤ) : uint z < 4294967296 := by
  unfold uint
  omega

/-- A number that fits into an `int` is not changed by the two conversions. -/
theorem wrap_uint {z : ℤ} (hlo : -2147483648 ≤ z) (hhi : z ≤ intMax) : wrap (uint z) = z := by
  unfold wrap uint intMax at *
  omega

namespace UserSpace

variable {u : UserSpace} {ofile : ℕ → Option OpenFile}

theorem fetchint_eq_some {addr : ℕ} {v : ℤ} (h : u.fetchint addr = some v) :
    addr + 4 ≤ u.sz ∧ -2147483648 ≤ v ∧ v ≤ intMax := by
  have hle := u.le
  unfold fetchint at h
  unfold KERNBASE at hle
  split at h
  · cases h
  · next hin =>
    obtain rfl := Option.some.inj h
    unfold wrap intMax
    omega

theorem fetchstr_eq_some {addr s len : ℕ} (h : u.fetchstr addr = some (s, len)) :
    s + (len + 1) ≤ u.sz := by
  unfold fetchstr at h
  split at h
  · cases h
  · next hin =>
    obtain ⟨k, hk, hpair⟩ := Option.map_eq_some_iff.mp h
    obtain ⟨rfl, rfl⟩ := Prod.mk.inj hpair
    have hlt := List.mem_range.mp (List.mem_of_find?_eq_some hk)
    omega

theorem argint_within {n : ℕ} {v : ℤ} (h : u.argint n = some v) :
    Range.Within u.sz (u.argAddr n, 4) :=
  Or.inr (fetchint_eq_some h).1

theorem argstr_within {n s len : ℕ} (h : u.argstr n = some (s, len)) :
    Range.Within u.sz (s, len + 1) := by
  unfold argstr at h
  split at h
  · cases h
  · exact Or.inr (fetchstr_eq_some h)

theorem argptr_lt {n p : ℕ} {size : ℤ} (h : u.argptr n size = some p) : p < u.sz := by
  unfold argptr at h
  split at h
  · cases h
  · split at h
    · cases h
    · obtain rfl := Option.some.inj h
      omega

/-- A size that is not negative is checked. -/
theorem argptr_within {n p : ℕ} {size : ℤ} (h : u.argptr n size = some p) (hlo : 0 ≤ size)
    (hhi : size ≤ intMax) : p + size.toNat ≤ u.sz := by
  have hp := argptr_lt h
  have hle := u.le
  unfold argptr at h
  split at h
  · cases h
  · split at h
    · cases h
    · next hin =>
      obtain rfl := Option.some.inj h
      rw [uint_of_nonneg hlo hhi] at hin
      unfold KERNBASE at hle
      unfold intMax at hhi
      omega

end UserSpace

/-! ## The loops -/

/-- The loop of `readi` and `writei` goes through all `n` bytes. -/
theorem copyLoop_within {sz n fuel : ℕ} :
    ∀ {dst off tot : ℕ}, n - tot ≤ fuel →
      ((∀ r ∈ copyLoop dst off n tot fuel, r.Within sz) ↔ (tot < n → dst + (n - tot) ≤ sz)) := by
  induction fuel with
  | zero =>
    intro dst off tot hfuel
    simp only [copyLoop, List.not_mem_nil, false_imp_iff, implies_true, true_iff]
    omega
  | succ fuel ih =>
    intro dst off tot hfuel
    unfold copyLoop
    by_cases htot : tot < n
    · rw [if_pos htot]
      dsimp only
      have hm : 0 < min (n - tot) (BSIZE - off % BSIZE) := by
        unfold BSIZE
        omega
      have hmle : min (n - tot) (BSIZE - off % BSIZE) ≤ n - tot := Nat.min_le_left _ _
      generalize min (n - tot) (BSIZE - off % BSIZE) = m at hm hmle
      rw [List.forall_mem_cons, ih (by omega)]
      unfold Range.Within
      dsimp only
      omega
    · rw [if_neg htot]
      simp only [List.not_mem_nil, false_imp_iff, implies_true, true_iff]
      omega

/-- A copy of `n` bytes from `dst` on. -/
theorem copyLoop_within_of_le {sz dst off n m : ℕ} (hn : n ≤ m) (h : dst + m ≤ sz) :
    ∀ r ∈ copyLoop dst off n 0 n, Range.Within sz r :=
  (copyLoop_within (by omega)).mpr fun _ => by omega

namespace OpenFile

variable {f : OpenFile}

/-- Reading `n` bytes of the address space. -/
theorem fileread_within {sz addr : ℕ} {n : ℤ} (hlo : 0 ≤ n) (hhi : n ≤ intMax)
    (h : addr + n.toNat ≤ sz) : ∀ r ∈ f.fileread addr n, r.Within sz := by
  intro r hr
  unfold fileread at hr
  split at hr
  · cases hr
  split at hr
  · obtain rfl := List.mem_singleton.mp hr
    right
    have := Nat.min_le_left n.toNat f.avail
    dsimp only
    omega
  · unfold readi at hr
    rw [uint_of_nonneg hlo hhi] at hr
    split at hr
    · split at hr
      · obtain rfl := List.mem_singleton.mp hr
        right
        have hmin := Nat.min_le_left (wrap (n.toNat : ℤ)).toNat f.avail
        rw [wrap_of_nonneg (by omega) (by omega)] at hmin
        rw [wrap_of_nonneg (by omega) (by omega)]
        dsimp only
        omega
      · cases hr
    · split at hr
      · cases hr
      · next hoff =>
        refine copyLoop_within_of_le ?_ h r hr
        split <;> omega
  · cases hr

/-- The parts of a write are parts of what is written. -/
theorem mem_chunks {n i n1 : ℕ} (h : (i, n1) ∈ chunks n) : i + n1 ≤ n := by
  obtain ⟨k, hk, hpair⟩ := List.mem_map.mp h
  obtain ⟨rfl, rfl⟩ := Prod.mk.inj hpair
  have hlt := List.mem_range.mp hk
  have hmax : maxWrite = 6656 := rfl
  rw [hmax] at hlt ⊢
  omega

/-- Whatever the size of the file is, a part of the address space is all that `writei` reads. -/
theorem writei_within {sz size src off n : ℕ} {ranges : List Range} (hn : n ≤ maxWrite)
    (h : src + n ≤ sz) (hw : f.writei size src off n = some ranges) : ∀ r ∈ ranges, r.Within sz := by
  intro r hr
  unfold writei at hw
  split at hw
  · split at hw
    · obtain rfl := Option.some.inj hw
      obtain rfl := List.mem_singleton.mp hr
      have hmax : maxWrite = 6656 := rfl
      rw [wrap_of_nonneg (by omega) (by unfold intMax; omega)]
      exact Or.inr h
    · cases hw
  · split at hw
    · cases hw
    · split at hw
      · cases hw
      · obtain rfl := Option.some.inj hw
        exact copyLoop_within_of_le le_rfl h r hr

/-- The loop of `filewrite`, by induction on the parts that are left; the size that the file has
grown to decides only where the loop ends. -/
theorem writeLoop_within {sz addr size : ℕ} {parts : List (ℕ × ℕ)}
    (h : ∀ part ∈ parts, part.2 ≤ maxWrite ∧ addr + part.1 + part.2 ≤ sz) :
    ∀ r ∈ f.writeLoop addr size parts, r.Within sz := by
  induction parts generalizing size with
  | nil => exact fun _ hr => nomatch hr
  | cons part parts ih =>
    obtain ⟨hfirst, hrest⟩ := List.forall_mem_cons.mp h
    intro r hr
    unfold writeLoop at hr
    split at hr
    · cases hr
    · next ranges hw =>
      obtain hr | hr := List.mem_append.mp hr
      · exact f.writei_within hfirst.1 hfirst.2 hw r hr
      · exact ih hrest r hr

/-- Writing `n` bytes of the address space; nothing if `n` is negative. -/
theorem filewrite_within {sz addr : ℕ} {n : ℤ} (hlt : addr ≤ sz)
    (h : 0 ≤ n → addr + n.toNat ≤ sz) : ∀ r ∈ f.filewrite addr n, r.Within sz := by
  have hle : addr + n.toNat ≤ sz := by
    by_cases hn : 0 ≤ n
    · exact h hn
    · rw [Int.toNat_of_nonpos (by omega)]
      exact hlt
  intro r hr
  unfold filewrite at hr
  split at hr
  · cases hr
  split at hr
  · obtain rfl := List.mem_singleton.mp hr
    right
    have := Nat.min_le_left n.toNat f.avail
    dsimp only
    omega
  · refine f.writeLoop_within (fun part hmem => ?_) r hr
    have hin := mem_chunks hmem
    refine ⟨?_, by omega⟩
    obtain ⟨k, -, rfl⟩ := List.mem_map.mp hmem
    exact Nat.min_le_left _ _
  · cases hr

/-- A negative number of bytes: only a file is read, as far as it goes. -/
theorem fileread_within_of_neg {sz addr : ℕ} {n : ℤ} (hlo : -2147483648 ≤ n) (hneg : n < 0)
    (hlt : addr < sz) :
    (∀ r ∈ f.fileread addr n, r.Within sz) ↔
      ¬ (f.file.readable = true ∧ f.file.type = .inode ∧ f.inode.type ≠ .dev ∧
        f.file.off ≤ f.inode.size ∧ f.file.off + uint n < 4294967296 ∧
        sz < addr + min (uint n) (f.inode.size - f.file.off)) := by
  have hoff := f.off_lt
  have hsize := f.size_lt
  have huint := uint_lt n
  unfold fileread
  by_cases hread : f.file.readable = true
  swap
  · simp [hread]
  rw [if_neg (by simp [hread])]
  cases htype : f.file.type with
  | none => simp
  | pipe =>
    simp only [List.mem_singleton, forall_eq, Range.Within]
    rw [Int.toNat_of_nonpos (by omega)]
    simp
  | inode =>
    unfold readi
    dsimp only
    by_cases hdev : f.inode.type = .dev
    · rw [if_pos hdev]
      have hwrap : (wrap (uint n : ℤ)).toNat = 0 := by
        rw [wrap_uint hlo (by unfold intMax; omega)]
        exact Int.toNat_of_nonpos (by omega)
      rw [hwrap]
      simp only [hdev, ne_eq, not_true_eq_false, false_and, and_false, not_false_eq_true, iff_true]
      intro r hr
      split at hr
      · obtain rfl := List.mem_singleton.mp hr
        exact Or.inl (Nat.zero_min _)
      · cases hr
    · rw [if_neg hdev]
      by_cases hfail : f.file.off > f.inode.size ∨
          (f.file.off + uint n) % 4294967296 < f.file.off
      · rw [if_pos hfail]
        simp only [List.not_mem_nil, false_imp_iff, implies_true, true_iff]
        omega
      · rw [if_neg hfail]
        have hcut : (if (f.file.off + uint n) % 4294967296 > f.inode.size
            then f.inode.size - f.file.off else uint n) =
              min (uint n) (f.inode.size - f.file.off) := by
          split <;> omega
        rw [hcut, copyLoop_within (by omega)]
        simp only [hread, hdev, ne_eq, not_false_eq_true, true_and]
        omega

end OpenFile

/-! ## Soundness -/

namespace UserSpace

variable (u : UserSpace) (ofile : ℕ → Option OpenFile)

/-- A `sys_read` with a negative number of bytes, which `argptr` lets pass, of a
file that has more left than there is room in the process. -/
def Overrun : Prop :=
  ∃ f n p, u.argfd ofile 0 = some f ∧ u.argint 2 = some n ∧ u.argptr 1 n = some p ∧ n < 0 ∧
    f.file.readable = true ∧ f.file.type = .inode ∧ f.inode.type ≠ .dev ∧
    f.file.off ≤ f.inode.size ∧ f.file.off + uint n < 4294967296 ∧
    u.sz < p + min (uint n) (f.inode.size - f.file.off)

variable {u ofile}

theorem sysRead_within_iff : (∀ r ∈ u.sysRead ofile, r.Within u.sz) ↔ ¬ u.Overrun ofile := by
  unfold sysRead Overrun
  cases hfd : u.argfd ofile 0 with
  | none => simp
  | some f =>
    cases hint : u.argint 2 with
    | none => simp
    | some n =>
      dsimp only
      cases hptr : u.argptr 1 n with
      | none =>
        simp only [List.not_mem_nil, false_imp_iff, implies_true, true_iff]
        rintro ⟨_, n', p, -, hn, hp, -⟩
        obtain rfl := Option.some.inj hn
        rw [hptr] at hp
        cases hp
      | some p =>
        obtain ⟨-, hlo, hhi⟩ := fetchint_eq_some hint
        by_cases hneg : n < 0
        · rw [OpenFile.fileread_within_of_neg hlo hneg (argptr_lt hptr), not_iff_not]
          constructor
          · intro h
            exact ⟨f, n, p, rfl, rfl, hptr, hneg, h⟩
          · rintro ⟨f', n', p', hf, hn, hp, -, h⟩
            obtain rfl := Option.some.inj hf
            obtain rfl := Option.some.inj hn
            obtain rfl := Option.some.inj (hptr.symm.trans hp)
            exact h
        · refine iff_of_true (OpenFile.fileread_within (by omega) hhi
            (argptr_within hptr (by omega) hhi)) ?_
          rintro ⟨_, n', _, -, hn, -, hneg', -⟩
          obtain rfl := Option.some.inj hn
          exact hneg hneg'

theorem sysWrite_within : ∀ r ∈ u.sysWrite ofile, r.Within u.sz := by
  unfold sysWrite
  intro r hr
  split at hr
  · next f n _ hint =>
    split at hr
    · next p hptr =>
      obtain ⟨-, -, hhi⟩ := fetchint_eq_some hint
      exact OpenFile.filewrite_within (argptr_lt hptr).le
        (fun hn => argptr_within hptr hn hhi) r hr
    · cases hr
  · cases hr

theorem sysFstat_within : ∀ r ∈ u.sysFstat ofile, r.Within u.sz := by
  unfold sysFstat
  intro r hr
  split at hr
  · next f st _ hptr =>
    split at hr
    · obtain rfl := List.mem_singleton.mp hr
      exact Or.inr (argptr_within hptr (by decide) (by decide))
    · cases hr
  · cases hr

theorem sysPipe_within : ∀ r ∈ u.sysPipe, r.Within u.sz := by
  unfold sysPipe
  intro r hr
  split at hr
  · next fd hptr =>
    have hin := argptr_within hptr (by decide) (by decide)
    have height : (8 : ℤ).toNat = 8 := rfl
    rcases List.mem_cons.mp hr with rfl | hr
    · right
      dsimp only
      omega
    · obtain rfl := List.mem_singleton.mp hr
      right
      dsimp only
      omega
  · cases hr

theorem execArgs_within {uargv fuel : ℕ} :
    ∀ {i : ℕ}, ∀ r ∈ u.execArgs uargv i fuel, r.Within u.sz := by
  induction fuel with
  | zero => intro i r hr; cases hr
  | succ fuel ih =>
    intro i r hr
    unfold execArgs at hr
    dsimp only at hr
    split at hr
    · cases hr
    · next uarg hint =>
      have hword : Range.Within u.sz ((uargv + 4 * i) % 4294967296, 4) :=
        Or.inr (fetchint_eq_some hint).1
      split at hr
      · obtain rfl := List.mem_singleton.mp hr
        exact hword
      · split at hr
        · obtain rfl := List.mem_singleton.mp hr
          exact hword
        · next s len hstr =>
          rcases List.mem_cons.mp hr with rfl | hr
          · exact hword
          · rcases List.mem_cons.mp hr with rfl | hr
            · exact Or.inr (fetchstr_eq_some hstr)
            · exact ih r hr

theorem sysExec_within : ∀ r ∈ u.sysExec, r.Within u.sz := by
  unfold sysExec
  intro r hr
  split at hr
  · next path len uargv hstr hint =>
    rcases List.mem_cons.mp hr with rfl | hr
    · exact argstr_within hstr
    · exact execArgs_within r hr
  · cases hr

/-- **What the argument checks guarantee.** Integers and strings lie in the
process's memory, and so does everything the system calls touch through a
checked pointer, but for `sys_read`: there it holds exactly if the call is not an
`Overrun`. -/
theorem argument_checks (u : UserSpace) (ofile : ℕ → Option OpenFile) :
    (∀ n v, u.argint n = some v → Range.Within u.sz (u.argAddr n, 4)) ∧
      (∀ n s len, u.argstr n = some (s, len) → Range.Within u.sz (s, len + 1)) ∧
      (∀ r ∈ u.sysWrite ofile ++ u.sysFstat ofile ++ u.sysPipe ++ u.sysExec, r.Within u.sz) ∧
      ((∀ r ∈ u.sysRead ofile, r.Within u.sz) ↔ ¬ u.Overrun ofile) := by
  refine ⟨fun _ _ => argint_within, fun _ _ _ => argstr_within, ?_, sysRead_within_iff⟩
  intro r hr
  simp only [List.mem_append] at hr
  rcases hr with ((hr | hr) | hr) | hr
  · exact sysWrite_within r hr
  · exact sysFstat_within r hr
  · exact sysPipe_within r hr
  · exact sysExec_within r hr

/-- `read(0, 4095, -1)` in a process of one page, with the arguments at the bottom
of its memory. -/
def readMinusOne : UserSpace where
  sz := 4096
  le := by decide
  esp := 0
  mem k := if 12 ≤ k ∧ k < 16 then 255#8 else if k = 8 then 255#8 else if k = 9 then 15#8 else 0#8

/-- It stores 100 bytes where there is room for one. -/
theorem read_minus_one_overruns :
    readMinusOne.argint 0 = some 0 ∧ readMinusOne.argint 1 = some 4095 ∧
      readMinusOne.argint 2 = some (-1) ∧
      readMinusOne.sysRead (fun _ => some
        { file := { type := .inode, readable := true }, inode := { type := .file, size := 100 }
          off_lt := by decide, size_lt := by decide }) = [(4095, 100)] ∧
      ¬ Range.Within readMinusOne.sz (4095, 100) := by
  decide +kernel

end UserSpace

end StrideXv6
