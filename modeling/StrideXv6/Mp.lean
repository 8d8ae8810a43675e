import StrideXv6.Bytes
import StrideXv6.Loop

/-!
# The multiprocessor configuration (`mp.c`)

`mpinit` goes through a table that the firmware has left in memory. It trusts the table: an
entry of a type that it does not know is reported, but not skipped, so that the loop never
gets past it; and each processor entry takes the next element of `cpus`, of which there are
`NCPU`. `Entries` says what a table is that the loop gets through.
-/

namespace StrideXv6.Mp

open Bytes

/-- The number of elements of `cpus`. -/
def NCPU : ℕ := 8

/-- A byte for each address. -/
abbrev Memory : Type := BitVec 32 → Byte

/-- The bytes from an address on. -/
def bytesFrom (m : Memory) (p : BitVec 32) (o : ℕ) : Byte := m (p + BitVec.ofNat 32 o)

/-- `p2v` -/
def p2v (a : BitVec 32) : BitVec 32 := a + 0x80000000#32

/-- `sum` -/
def sum (m : Memory) (addr : BitVec 32) (len : ℕ) : Byte :=
  BitVec.ofNat 8 ((List.range len).map fun i => (bytesFrom m addr i).toNat).sum

/-- `memcmp(p, s, n) == 0` -/
def isAt (m : Memory) (p : BitVec 32) (s : List Byte) : Bool :=
  (List.range s.length).map (bytesFrom m p) = s

/-- `sizeof(struct mp)` -/
def sizeofMp : ℕ := 16

/-- `"_MP_"` -/
def mpSignature : List Byte := [95#8, 77#8, 80#8, 95#8]

/-- `"PCMP"` -/
def confSignature : List Byte := [80#8, 67#8, 77#8, 80#8]

/-- Look for an MP structure in the `len` bytes at `a`. -/
def mpsearch1 (m : Memory) (a : BitVec 32) (len : ℕ) : Option (BitVec 32) :=
  ((List.range ((len + (sizeofMp - 1)) / sizeofMp)).map fun k =>
      p2v a + BitVec.ofNat 32 (k * sizeofMp)).find? fun p =>
    isAt m p mpSignature && sum m p sizeofMp = 0#8

/-- Look for it in the first KB of the EBDA or the last KB of base memory, and in the ROM. -/
def mpsearch (m : Memory) : Option (BitVec 32) :=
  let bda := bytesFrom m (p2v 0x400#32)
  let p := half bda 0x0E * 16
  (if p ≠ 0 then mpsearch1 m (BitVec.ofNat 32 p) 1024
    else mpsearch1 m (BitVec.ofNat 32 (half bda 0x13 * 1024) - 1024#32) 1024) <|>
  mpsearch1 m 0xF0000#32 0x10000

/-- Search for a configuration table: its address, and that of the `struct mp`. -/
def mpconfig (m : Memory) : Option (BitVec 32 × BitVec 32) := do
  let mp ← mpsearch m
  let physaddr := word (bytesFrom m mp) 4
  if physaddr = 0 then none
  let conf := p2v (BitVec.ofNat 32 physaddr)
  if isAt m conf confSignature = false then none
  if bytesFrom m conf 6 ≠ 1#8 ∧ bytesFrom m conf 6 ≠ 4#8 then none
  if sum m conf (half (bytesFrom m conf) 4) ≠ 0#8 then none
  return (conf, mp)

/-- The types of table entries. -/
inductive EntryType : Type where
  /-- `MPPROC` -/
  | proc
  /-- `MPBUS` -/
  | bus
  /-- `MPIOAPIC` -/
  | ioapic
  /-- `MPIOINTR` -/
  | iointr
  /-- `MPLINTR` -/
  | lintr
  deriving DecidableEq, Repr

namespace EntryType

/-- The type that a byte stands for. -/
def ofByte (b : Byte) : Option EntryType :=
  match b.toNat with
  | 0 => some proc
  | 1 => some bus
  | 2 => some ioapic
  | 3 => some iointr
  | 4 => some lintr
  | _ => none

/-- How many bytes an entry has. -/
def size : EntryType → BitVec 32
  | proc => 20#32
  | _ => 8#32

end EntryType

/-- The variables of `mp.c`; `bcpu` is an index. -/
structure State : Type where
  ncpu : ℕ := 0
  ismp : Bool := false
  bcpu : ℕ := 0
  ioapicid : Byte := 0#8
  lapic : BitVec 32 := 0#32
  /-- `cpus[].id` -/
  id : ℕ → ℕ := fun _ => 0
  /-- the IMCR was set -/
  imcr : Bool := false

/-- `cpus` was used outside of its bounds. -/
inductive Fault : Type where
  | overrun
  deriving DecidableEq, Repr

/-- The processor entry at `p`: a processor that does not come in order is not liked. -/
def processor (m : Memory) (p : BitVec 32) (s : State) : State :=
  { s with
    ismp := s.ismp && decide (s.ncpu = (bytesFrom m p 1).toNat)
    bcpu := if (bytesFrom m p 3).getLsbD 1 then s.ncpu else s.bcpu
    id := Function.update s.id s.ncpu s.ncpu
    ncpu := s.ncpu + 1 }

/-- The body of the loop in `mpinit`, at `p`. -/
def entry (m : Memory) (e : BitVec 32) :
    State × BitVec 32 → Option ((State × BitVec 32) ⊕ Except Fault State)
  | (s, p) =>
    if p < e then
      match EntryType.ofByte (m p) with
      | some .proc =>
        if s.ncpu < NCPU then some (.inl (processor m p s, p + EntryType.proc.size))
        else some (.inr (.error .overrun))
      | some .ioapic => some (.inl ({ s with ioapicid := bytesFrom m p 1 }, p + EntryType.ioapic.size))
      | some t => some (.inl (s, p + t.size))
      | none => some (.inl ({ s with ismp := false }, p))
    else some (.inr (.ok s))

/-- The end of `mpinit`. -/
def settle (m : Memory) (mp : BitVec 32) (s : State) : State :=
  if s.ismp then { s with imcr := bytesFrom m mp 12 ≠ 0#8 }
  else { s with ncpu := 1, lapic := 0#32, ioapicid := 0#8 }

/-- `mpinit`, with at most `fuel` turns of its loop. -/
def mpinit (m : Memory) (fuel : ℕ) : Option (Except Fault State) :=
  match mpconfig m with
  | none => some (.ok {})
  | some (conf, mp) =>
    let s : State := { ismp := true, lapic := BitVec.ofNat 32 (word (bytesFrom m conf) 36) }
    let e := conf + BitVec.ofNat 32 (half (bytesFrom m conf) 4)
    (Loop.run (entry m e) fuel (s, conf + 44#32)).map fun r => r.map (settle m mp)

/-! ## Tables that the loop gets through -/

/-- From `p` to `e` there are entries of these types. -/
def Entries (m : Memory) (e : BitVec 32) : BitVec 32 → List EntryType → Prop
  | p, [] => ¬ p < e
  | p, t :: ts => p < e ∧ EntryType.ofByte (m p) = some t ∧ Entries m e (p + t.size) ts

instance Entries.decidable (m : Memory) (e : BitVec 32) :
    ∀ p ts, Decidable (Entries m e p ts)
  | p, [] => inferInstanceAs (Decidable (¬ p < e))
  | p, t :: ts =>
    have := Entries.decidable m e (p + t.size) ts
    inferInstanceAs (Decidable (p < e ∧ EntryType.ofByte (m p) = some t ∧ Entries m e (p + t.size) ts))

variable {m : Memory} {e p : BitVec 32} {s s' : State} {t : EntryType} {ts : List EntryType}

/-- What is known of the state after an entry. -/
theorem entry_known (hp : p < e) (ht : EntryType.ofByte (m p) = some t)
    (hroom : s.ncpu + [t].count .proc ≤ NCPU) :
    ∃ s', s'.ncpu = s.ncpu + [t].count .proc ∧ entry m e (s, p) = some (.inl (s', p + t.size)) := by
  unfold entry
  simp only [if_pos hp, ht]
  cases t with
  | proc =>
    have hlt : s.ncpu < NCPU := hroom
    exact ⟨processor m p s, rfl, if_pos hlt⟩
  | ioapic => exact ⟨{ s with ioapicid := bytesFrom m p 1 }, rfl, rfl⟩
  | _ => exact ⟨s, rfl, rfl⟩

/-- A processor, when all elements of `cpus` are taken. -/
theorem entry_overrun (hp : p < e) (ht : EntryType.ofByte (m p) = some t)
    (hroom : ¬ s.ncpu + [t].count .proc ≤ NCPU) (hncpu : s.ncpu ≤ NCPU) :
    entry m e (s, p) = some (.inr (.error .overrun)) := by
  unfold entry
  simp only [if_pos hp, ht]
  cases t with
  | proc => exact if_neg hroom
  | _ => exact absurd hncpu hroom

theorem count_cons_proc : (t :: ts).count .proc = [t].count .proc + ts.count .proc := by
  rw [← List.count_append, List.singleton_append]

/-- The loop gets through the entries of known types, if there are elements of `cpus`. -/
theorem run_of_entries (h : Entries m e p ts) (hroom : s.ncpu + ts.count .proc ≤ NCPU) :
    ∃ s', Loop.run (entry m e) (ts.length + 1) (s, p) = some (.ok s') := by
  induction ts generalizing s p with
  | nil =>
    refine ⟨s, Loop.run_succ_inr ?_⟩
    unfold entry
    exact if_neg h
  | cons t ts ih =>
    obtain ⟨hp, ht, hts⟩ := h
    rw [count_cons_proc] at hroom
    obtain ⟨s', hncpu, hentry⟩ := entry_known hp ht (s := s) (by omega)
    obtain ⟨s'', hrun⟩ := ih hts (s := s') (by omega)
    exact ⟨s'', (Loop.run_succ_inl hentry).trans hrun⟩

/-- The loop stays at an entry of unknown type. -/
theorem run_unknown {fuel : ℕ} (hp : p < e) (ht : EntryType.ofByte (m p) = none) :
    Loop.run (entry m e) fuel (s, p) = none := by
  induction fuel generalizing s with
  | zero => rfl
  | succ fuel ih =>
    have hentry : entry m e (s, p) = some (.inl ({ s with ismp := false }, p)) := by
      unfold entry
      simp only [if_pos hp, ht]
    rw [Loop.run_succ_inl hentry, ih]

/-- It does not get through anything else. -/
theorem entries_of_run {fuel : ℕ} (hncpu : s.ncpu ≤ NCPU)
    (h : Loop.run (entry m e) fuel (s, p) = some (.ok s')) :
    ∃ ts, Entries m e p ts ∧ s.ncpu + ts.count .proc ≤ NCPU := by
  induction fuel generalizing s p with
  | zero => cases h
  | succ fuel ih =>
    by_cases hp : p < e
    · cases ht : EntryType.ofByte (m p) with
      | none =>
        rw [run_unknown hp ht] at h
        cases h
      | some t =>
        by_cases hroom : s.ncpu + [t].count .proc ≤ NCPU
        · obtain ⟨s₁, hncpu₁, hentry⟩ := entry_known hp ht hroom
          rw [Loop.run_succ_inl hentry] at h
          obtain ⟨ts, hts, hcount⟩ := ih (by omega) h
          refine ⟨t :: ts, ⟨hp, ht, hts⟩, ?_⟩
          rw [count_cons_proc]
          omega
        · rw [Loop.run_succ_inr (entry_overrun hp ht hroom hncpu)] at h
          cases h
    · exact ⟨[], hp, hncpu⟩

/-- **`mpinit` is total and stays inside of `cpus`** if and only if the table has entries of
known types only, and at most `NCPU` processors. -/
theorem mpinit_bounded_iff (m : Memory) {conf mp : BitVec 32} (h : mpconfig m = some (conf, mp)) :
    (∃ fuel s, mpinit m fuel = some (.ok s)) ↔
      ∃ ts, Entries m (conf + BitVec.ofNat 32 (half (bytesFrom m conf) 4)) (conf + 44#32) ts ∧
        ts.count .proc ≤ NCPU := by
  unfold mpinit
  simp only [h]
  constructor
  · rintro ⟨fuel, s, hs⟩
    obtain ⟨r, hrun, hr⟩ := Option.map_eq_some_iff.mp hs
    cases r with
    | error e => cases hr
    | ok s₁ =>
      obtain ⟨ts, hts, hcount⟩ := entries_of_run (Nat.zero_le _) hrun
      rw [Nat.zero_add] at hcount
      exact ⟨ts, hts, hcount⟩
  · rintro ⟨ts, hts, hcount⟩
    obtain ⟨s, hrun⟩ := run_of_entries hts (s :=
      { ismp := true, lapic := BitVec.ofNat 32 (word (bytesFrom m conf) 36) }) (by
        rw [Nat.zero_add]
        exact hcount)
    exact ⟨ts.length + 1, settle m mp s, by rw [hrun]; rfl⟩

/-! ## Tables -/

/-- Memory with these bytes at an address, and zeros elsewhere. -/
def bytesAt (l : List (BitVec 32 × List Byte)) : Memory := fun a =>
  (l.findSome? fun x => x.2[(a - x.1).toNat]?).getD 0#8

/-- A table with these entries behind its header; the EBDA has a `struct mp` that says where
it is. -/
def tableWith (checksum : Byte) (entries : List Byte) : Memory :=
  bytesAt
    [(0x8000040E#32, [0xC0#8, 0x9F#8]),
     (0x8009FC00#32, mpSignature ++ [0x10#8, 0xFC#8, 0x09#8, 0#8, 1#8, 4#8, 0x8B#8]),
     (0x8009FC10#32, confSignature ++ [BitVec.ofNat 8 (44 + entries.length), 0#8, 1#8, checksum] ++
        List.replicate 36 0#8 ++ entries)]

/-- One processor, which is the one that boots; a bus, an I/O APIC and the two kinds of
interrupt entries. -/
def oneCpu : Memory :=
  tableWith 96#8 ([0#8, 0#8, 0#8, 3#8] ++ List.replicate 16 0#8 ++
    (1#8 :: List.replicate 7 0#8) ++ (2#8 :: 2#8 :: List.replicate 6 0#8) ++
    (3#8 :: List.replicate 7 0#8) ++ (4#8 :: List.replicate 7 0#8))

theorem mpinit_bounded_one : mpconfig oneCpu = some (0x8009FC10#32, 0x8009FC00#32) ∧
    ∃ fuel s, mpinit oneCpu fuel = some (.ok s) := by
  have hconf : mpconfig oneCpu = some (0x8009FC10#32, 0x8009FC00#32) := by decide +kernel
  exact ⟨hconf, (mpinit_bounded_iff oneCpu hconf).mpr ⟨
    [.proc, .bus, .ioapic, .iointr, .lintr], by decide +kernel, by decide⟩⟩

/-- An entry of a type that `mpinit` does not know. -/
def unknownEntry : Memory := tableWith 150#8 (5#8 :: List.replicate 7 0#8)

/-- Nine processors. -/
def nineCpus : Memory :=
  tableWith 203#8 ((List.range 9).flatMap fun k => 0#8 :: BitVec.ofNat 8 k :: List.replicate 18 0#8)

/-- With an entry of another type `mpinit` never returns; with nine processors it writes
behind the end of `cpus`. -/
theorem mpinit_trusts_table :
    (mpconfig unknownEntry = some (0x8009FC10#32, 0x8009FC00#32) ∧
      ∀ fuel, mpinit unknownEntry fuel = none) ∧
    mpconfig nineCpus = some (0x8009FC10#32, 0x8009FC00#32) ∧
      mpinit nineCpus 9 = some (.error .overrun) := by
  have hconf : mpconfig unknownEntry = some (0x8009FC10#32, 0x8009FC00#32) := by decide +kernel
  have hnine : (mpinit nineCpus 9).map Except.isOk = some false := by decide +kernel
  refine ⟨⟨hconf, fun fuel => ?_⟩, by decide +kernel, ?_⟩
  · unfold mpinit
    simp only [hconf]
    rw [run_unknown (by decide +kernel) (by decide +kernel)]
    rfl
  · obtain ⟨r, hr, hok⟩ := Option.map_eq_some_iff.mp hnine
    cases r with
    | ok s => cases hok
    | error f =>
      cases f
      exact hr

end StrideXv6.Mp
