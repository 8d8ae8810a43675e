import StrideXv6.Run
import StrideXv6.CountedRing
import StrideXv6.Bytes

/-!
# The console's input (`console.c`)

What is typed goes into a ring of 128 bytes with three indices, which are never reduced
and wrap with their 32 bits: `r`, up to which it was read, `w`, up to which it may be
read, and `e`, up to which it was typed and may still be edited.

`consoleintr` takes one key at a time and `consoleread` runs, under the same lock, until
it returns or has to wait; between two such steps everybody else may be at work. What is
echoed is left out. `committed` and `consumed` are history: the bytes that `w` and `r`
have passed.
-/

namespace StrideXv6.Console

open Bytes Machine

/-! ## Constants -/

def INPUT_BUF : ℕ := 128

/-- `'\n'` -/
def NEWLINE : Byte := 10#8

/-- `'\r'` -/
def RETURN : Byte := 13#8

/-- `'\x7f'` -/
def DELETE : Byte := 127#8

/-- `C('D')`, `C('H')`, `C('P')` and `C('U')` -/
def CTRL_D : Byte := 4#8

@[inherit_doc CTRL_D] def CTRL_H : Byte := 8#8

@[inherit_doc CTRL_D] def CTRL_P : Byte := 16#8

@[inherit_doc CTRL_D] def CTRL_U : Byte := 21#8

/-! ## The two sides -/

/-- `input` -/
structure Input where
  buf : ℕ → Byte
  /-- read index -/
  r : BitVec 32
  /-- write index -/
  w : BitVec 32
  /-- edit index -/
  e : BitVec 32

/-- `input.buf[i % INPUT_BUF]` -/
def Input.cell (s : Input) (i : BitVec 32) : Byte := s.buf (i.toNat % INPUT_BUF)

/-- The loop for `C('U')`, which ends at `w` at the latest. -/
def killLine : ℕ → Input → Input
  | 0, s => s
  | n + 1, s =>
    if s.e ≠ s.w ∧ s.cell (s.e - 1) ≠ NEWLINE then killLine n { s with e := s.e - 1 } else s

/-- `consoleintr` for one character -/
def consoleintr (s : Input) (c : Byte) : Input :=
  if c = CTRL_P then s
  else if c = CTRL_U then killLine (s.e - s.w).toNat s
  else if c = CTRL_H ∨ c = DELETE then
    if s.e ≠ s.w then { s with e := s.e - 1 } else s
  else if c ≠ 0#8 ∧ (s.e - s.r).toNat < INPUT_BUF then
    let c := if c = RETURN then NEWLINE else c
    let s := { s with buf := Function.update s.buf (s.e.toNat % INPUT_BUF) c, e := s.e + 1 }
    if c = NEWLINE ∨ c = CTRL_D ∨ s.e = s.r + BitVec.ofNat 32 INPUT_BUF then { s with w := s.e }
    else s
  else s

/-- How the loop of `consoleread` is left: with what it got, or to wait for more. -/
inductive Outcome where
  | finish (got : List Byte)
  | wait (left : ℕ) (got : List Byte)

/-- The loop of `consoleread`, with `n` bytes left to read. -/
def readLoop (target : ℕ) : ℕ → Input → List Byte → Input × Outcome
  | 0, s, got => (s, .finish got)
  | n + 1, s, got =>
    if s.r = s.w then (s, .wait (n + 1) got)
    else
      let c := s.cell s.r
      let s := { s with r := s.r + 1 }
      if c = CTRL_D then
        -- Save ^D for next time, to make sure caller gets a 0-byte result.
        (if n + 1 < target then { s with r := s.r - 1 } else s, .finish got)
      else if c = NEWLINE then (s, .finish (got ++ [c]))
      else readLoop target n s (got ++ [c])

/-! ## The system -/

/-- A call of `consoleread` that is waiting. -/
structure Reading where
  target : ℕ
  left : ℕ
  got : List Byte

/-- The bytes from the index `i` to the index `j`. -/
def Input.between (s : Input) (i j : BitVec 32) : List Byte :=
  (List.range (j - i).toNat).map fun k => s.cell (i + BitVec.ofNat 32 k)

/-- The input, the calls that are waiting, and what has happened so far: `returned` has, for
every call that has returned, the number of bytes it was to read and those it delivered,
or `none` if the process was killed. -/
structure State (ι : Type) where
  input : Input
  readers : ι → Option Reading
  committed : List Byte
  consumed : List Byte
  returned : List (ℕ × Option (List Byte))

inductive Event (ι : Type) where
  | key (c : Byte)
  /-- A process calls `consoleread`. -/
  | read (i : ι) (n : ℤ) (killed : Bool)
  /-- A process that waits is woken. -/
  | wake (i : ι) (killed : Bool)

variable {ι : Type}

/-- A key is pressed. -/
def State.key (s : State ι) (c : Byte) : State ι :=
  let input := consoleintr s.input c
  { s with input := input, committed := s.committed ++ input.between s.input.w input.w }

variable [DecidableEq ι]

/-- A reader runs. -/
def State.turn (s : State ι) (i : ι) (killed : Bool) (rd : Reading) : State ι :=
  let out := readLoop rd.target rd.left s.input rd.got
  let s := { s with
    input := out.1, consumed := s.consumed ++ s.input.between s.input.r out.1.r }
  match out.2 with
  | .finish got => { s with
      readers := Function.update s.readers i none
      returned := (rd.target, some got) :: s.returned }
  | .wait left got =>
    if killed then { s with
      readers := Function.update s.readers i none
      returned := (rd.target, none) :: s.returned }
    else { s with readers := Function.update s.readers i (some ⟨rd.target, left, got⟩) }

def step (s : State ι) : Event ι → Option (State ι)
  | .key c => some (s.key c)
  | .read i n killed =>
    match s.readers i with
    | none => some (s.turn i killed ⟨n.toNat, n.toNat, []⟩)
    | some _ => none
  | .wake i killed => (s.readers i).map (s.turn i killed)

/-- Nothing was typed yet. -/
def start (ι : Type) : State ι := ⟨⟨fun _ => 0#8, 0, 0, 0⟩, fun _ => none, [], [], []⟩

/-! ## Positions

An index is a position, the number of bytes that ever went by, as far as 32 bits can say. -/

/-- The index of a position. -/
abbrev pos (k : ℕ) : BitVec 32 := BitVec.ofNat 32 k

variable {k j n E R W target : ℕ} {s : Input} {got : List Byte}

theorem pos_succ : pos k + 1 = pos (k + 1) := (BitVec.ofNat_add k 1).symm

theorem pos_pred (h : 0 < k) : pos k - 1 = pos (k - 1) := by
  obtain ⟨j, rfl⟩ := Nat.exists_eq_succ_of_ne_zero h.ne'
  rw [← Nat.add_one, ← pos_succ, BitVec.add_sub_cancel, Nat.add_sub_cancel]

theorem pos_sub (h : j ≤ k) (hlt : k - j < 2 ^ 32) : (pos k - pos j).toNat = k - j := by
  obtain ⟨d, rfl⟩ := Nat.exists_eq_add_of_le h
  rw [pos, BitVec.ofNat_add, BitVec.add_comm, BitVec.add_sub_cancel, BitVec.toNat_ofNat]
  rw [Nat.add_sub_cancel_left] at hlt ⊢
  exact Nat.mod_eq_of_lt hlt

theorem cell_pos : s.cell (pos k) = s.buf (k % INPUT_BUF) := by
  rw [Input.cell, BitVec.toNat_ofNat, Nat.mod_mod_of_dvd _ (by decide)]

theorem between_pos (h : j ≤ k) (hlt : k - j < 2 ^ 32) :
    s.between (pos j) (pos k) = (List.range (k - j)).map fun i => s.buf ((j + i) % INPUT_BUF) := by
  rw [Input.between, pos_sub h hlt]
  refine List.map_congr_left fun i _ => ?_
  rw [← BitVec.ofNat_add, cell_pos]

/-! ## Invariants -/

/-- Bytes of a line that is not finished. -/
def Unfinished (got : List Byte) : Prop := NEWLINE ∉ got ∧ CTRL_D ∉ got

/-- What a call that is to read `n` bytes may deliver: that many at most, a newline as the
last byte only, and no `C('D')`. -/
structure Delivered (n : ℕ) (got : List Byte) : Prop where
  length : got.length ≤ n
  newline : NEWLINE ∉ got.dropLast
  eof : CTRL_D ∉ got

theorem Unfinished.delivered (h : Unfinished got) (hn : got.length ≤ n) : Delivered n got :=
  ⟨hn, fun hm => h.1 (List.mem_of_mem_dropLast hm), h.2⟩

/-- The indices are those of the positions `R`, `W` and `E`. -/
structure Input.At (s : Input) (R W E : ℕ) : Prop where
  r : s.r = pos R
  w : s.w = pos W
  e : s.e = pos E
  read : R ≤ W
  write : W ≤ E
  edit : E ≤ R + INPUT_BUF

/-- What is right in every state. -/
structure Good (s : State ι) (R E : ℕ) : Prop where
  at_ : s.input.At R s.committed.length E
  consumed : s.consumed = s.committed.take R
  held : ∀ k, R ≤ k → k < s.committed.length →
    s.committed[k]? = some (s.input.buf (k % INPUT_BUF))
  readers : ∀ i rd, s.readers i = some rd →
    rd.got.length + rd.left = rd.target ∧ Unfinished rd.got
  returned : ∀ call ∈ s.returned, ∀ got, call.2 = some got → Delivered call.1 got

/-- Editing moves `e`, but not before `w`. -/
theorem exists_killLine (h : s.At R W E) (n : ℕ) :
    ∃ E', killLine n s = { s with e := pos E' } ∧ W ≤ E' ∧ E' ≤ E := by
  induction n generalizing s E with
  | zero =>
    refine ⟨E, ?_, h.write, le_rfl⟩
    rw [killLine, ← h.e]
  | succ n ih =>
    rw [killLine]
    split
    · next hcond =>
      have hlt : W < E := by
        refine Nat.lt_of_le_of_ne h.write fun heq => hcond.1 ?_
        rw [h.e, h.w, heq]
      have hedit := h.edit
      have hat : Input.At { s with e := s.e - 1 } R W (E - 1) :=
        ⟨h.r, h.w, by rw [h.e, pos_pred (by omega)], h.read, by omega, by omega⟩
      obtain ⟨E', heq, hlo, hhi⟩ := ih hat
      exact ⟨E', heq, hlo, by omega⟩
    · refine ⟨E, ?_, h.write, le_rfl⟩
      rw [← h.e]

/-- What a key does: it moves `e` between `w` and the end of the ring, or adds a byte behind
all others, and it may move `w` to `e` then. -/
theorem consoleintr_cases (h : s.At R W E) (c : Byte) :
    (∃ E', consoleintr s c = { s with e := pos E' } ∧ W ≤ E' ∧ E' ≤ E) ∨
      ∃ b W', consoleintr s c = { s with
          buf := Function.update s.buf (E % INPUT_BUF) b, w := pos W', e := pos (E + 1) } ∧
        E < R + INPUT_BUF ∧ (W' = W ∨ W' = E + 1) := by
  have hsame : ∃ E', s = { s with e := pos E' } ∧ W ≤ E' ∧ E' ≤ E :=
    ⟨E, by rw [← h.e], h.write, le_rfl⟩
  have hread := h.read
  have hwrite := h.write
  have hedit := h.edit
  unfold consoleintr
  split
  · exact .inl hsame
  split
  · exact .inl (exists_killLine h _)
  split
  · split
    · next hne =>
      have hlt : W < E := by
        refine Nat.lt_of_le_of_ne h.write fun heq => hne ?_
        rw [h.e, h.w, heq]
      exact .inl ⟨E - 1, by rw [h.e, pos_pred (by omega)], by omega, by omega⟩
    · exact .inl hsame
  split
  · next hroom =>
    have hlt : E < R + INPUT_BUF := by
      have hsub := hroom.2
      rw [h.e, h.r, pos_sub (by omega) (by unfold INPUT_BUF at hedit; omega)] at hsub
      omega
    have hcell : s.e.toNat % INPUT_BUF = E % INPUT_BUF := by
      rw [h.e, BitVec.toNat_ofNat, Nat.mod_mod_of_dvd _ (by decide)]
    have hnext : s.e + 1 = pos (E + 1) := by rw [h.e, pos_succ]
    obtain ⟨b, hb⟩ : ∃ b, (if c = RETURN then NEWLINE else c) = b := ⟨_, rfl⟩
    rw [hcell, hnext, hb]
    dsimp only
    split
    · exact .inr ⟨b, E + 1, rfl, hlt, .inr rfl⟩
    · exact .inr ⟨b, W, by rw [h.w], hlt, .inl rfl⟩
  · exact .inl hsame

/-- Editing leaves alone what is before `w`. -/
theorem buf_consoleintr (h : s.At R W E) (c : Byte) (hlo : R ≤ k) (hhi : k < W) :
    (consoleintr s c).buf (k % INPUT_BUF) = s.buf (k % INPUT_BUF) := by
  rcases consoleintr_cases h c with ⟨E', heq, -, -⟩ | ⟨b, W', heq, hlt, -⟩
  · rw [heq]
  · rw [heq]
    refine Function.update_of_ne ?_ ..
    have hwrite := h.write
    obtain ⟨i, rfl⟩ := Nat.exists_eq_add_of_le hlo
    obtain ⟨j, hj⟩ := Nat.exists_eq_add_of_le (hlo.trans (hhi.le.trans hwrite))
    rw [hj]
    exact CountedRing.cell_ne (by omega) (by omega)

omit [DecidableEq ι] in
theorem Good.key {s : State ι} (h : Good s R E) (c : Byte) : ∃ E', Good (s.key c) R E' := by
  have hat := h.at_
  have hread := hat.read
  have hwrite := hat.write
  have hedit := hat.edit
  unfold INPUT_BUF at hedit
  rcases consoleintr_cases hat c with ⟨E', heq, hlo, hhi⟩ | ⟨b, W', heq, hlt, hW⟩
  · have hnil : (consoleintr s.input c).between s.input.w (consoleintr s.input c).w = [] := by
      have hw : (consoleintr s.input c).w = s.input.w := by rw [heq]
      rw [hw, Input.between, BitVec.sub_self]
      rfl
    have hkey : s.key c = { s with input := { s.input with e := pos E' } } := by
      unfold State.key
      dsimp only
      rw [hnil, List.append_nil, heq]
    rw [hkey]
    exact ⟨E', ⟨hat.r, hat.w, rfl, hread, hlo, by unfold INPUT_BUF; omega⟩, h.consumed, h.held,
      h.readers, h.returned⟩
  · -- the new bytes before `w` are those in the ring
    have hWle : s.committed.length ≤ W' := by omega
    have hw : (consoleintr s.input c).w = pos W' := by rw [heq]
    have hbetween : (consoleintr s.input c).between s.input.w (consoleintr s.input c).w =
        (List.range (W' - s.committed.length)).map fun i =>
          (consoleintr s.input c).buf ((s.committed.length + i) % INPUT_BUF) := by
      rw [hw, hat.w]
      exact between_pos hWle (by omega)
    have hlen : (s.key c).committed.length = W' := by
      unfold State.key
      rw [List.length_append, hbetween, List.length_map, List.length_range]
      omega
    have hat' : (s.key c).input.At R W' (E + 1) := by
      unfold State.key
      rw [heq]
      exact ⟨hat.r, rfl, rfl, by omega, by omega, by omega⟩
    refine ⟨E + 1, ?_, ?_, fun k hlo hhi => ?_, h.readers, h.returned⟩
    · rw [hlen]
      exact hat'
    · change s.consumed = (s.committed ++ _).take R
      rw [List.take_append_of_le_length hread]
      exact h.consumed
    · rw [hlen] at hhi
      change (s.committed ++ (consoleintr s.input c).between s.input.w _)[k]? =
        some ((consoleintr s.input c).buf (k % INPUT_BUF))
      by_cases hk : k < s.committed.length
      · rw [List.getElem?_append_left hk, h.held k hlo hk, buf_consoleintr hat c hlo hk]
      · obtain ⟨i, rfl⟩ := Nat.exists_eq_add_of_le (Nat.not_lt.mp hk)
        rw [List.getElem?_append_right (Nat.le_add_right ..), Nat.add_sub_cancel_left, hbetween,
          List.getElem?_map, List.getElem?_range (by omega)]
        rfl

/-- What the loop of `consoleread` does: it moves `r`, up to `w` at most. -/
theorem readLoop_cases (h : s.At R W E) (hgot : Unfinished got) (hn : got.length + n = target) :
    ∃ R', (readLoop target n s got).1 = { s with r := pos R' } ∧ R ≤ R' ∧ R' ≤ W ∧
      match (readLoop target n s got).2 with
      | .finish got => Delivered target got
      | .wait left got => got.length + left = target ∧ Unfinished got := by
  induction n generalizing s R got with
  | zero => exact ⟨R, by rw [readLoop, ← h.r], le_rfl, h.read, hgot.delivered (by omega)⟩
  | succ n ih =>
    have hread := h.read
    have hwrite := h.write
    have hedit := h.edit
    rw [readLoop]
    split
    · exact ⟨R, by rw [← h.r], le_rfl, hread, hn, hgot⟩
    · next hne =>
      have hlt : R < W := by
        refine Nat.lt_of_le_of_ne hread fun heq => hne ?_
        rw [h.r, h.w, heq]
      have hnext : s.r + 1 = pos (R + 1) := by rw [h.r, pos_succ]
      have hlen : (got ++ [s.cell s.r]).length + n = target := by
        rw [List.length_append, List.length_singleton]
        omega
      dsimp only
      split
      · split
        · refine ⟨R, ?_, le_rfl, hread, hgot.delivered (by omega)⟩
          rw [hnext, pos_pred (Nat.succ_pos R), Nat.succ_sub_one]
        · exact ⟨R + 1, by rw [hnext], Nat.le_succ R, hlt, hgot.delivered (by omega)⟩
      · next hd =>
        split
        · next hnl =>
          refine ⟨R + 1, by rw [hnext], Nat.le_succ R, hlt, by omega, ?_, ?_⟩
          · rw [List.dropLast_concat]
            exact hgot.1
          · intro hm
            rcases List.mem_append.mp hm with hm | hm
            · exact hgot.2 hm
            · exact hd (List.mem_singleton.mp hm).symm
        · next hnl =>
          have hgot' : Unfinished (got ++ [s.cell s.r]) := by
            refine ⟨fun hm => ?_, fun hm => ?_⟩
            · rcases List.mem_append.mp hm with hm | hm
              · exact hgot.1 hm
              · exact hnl (List.mem_singleton.mp hm).symm
            · rcases List.mem_append.mp hm with hm | hm
              · exact hgot.2 hm
              · exact hd (List.mem_singleton.mp hm).symm
          have hat : Input.At { s with r := s.r + 1 } (R + 1) W E :=
            ⟨hnext, h.w, h.e, hlt, hwrite, by omega⟩
          obtain ⟨R', heq, hlo, hhi, hout⟩ := ih hat hgot' hlen
          exact ⟨R', heq, by omega, hhi, hout⟩

theorem Good.turn {s : State ι} (h : Good s R E) {i : ι} {killed : Bool} {rd : Reading}
    (hrd : rd.got.length + rd.left = rd.target ∧ Unfinished rd.got) :
    ∃ R', Good (s.turn i killed rd) R' E := by
  have hat := h.at_
  have hedit := hat.edit
  have hwrite := hat.write
  unfold INPUT_BUF at hedit
  obtain ⟨R', heq, hlo, hhi, hout⟩ := readLoop_cases hat hrd.2 hrd.1
  have hat' : Input.At { s.input with r := pos R' } R' s.committed.length E :=
    ⟨rfl, hat.w, hat.e, hhi, hwrite, by unfold INPUT_BUF; omega⟩
  have hbetween : s.input.between s.input.r (pos R') =
      (List.range (R' - R)).map fun k => s.input.buf ((R + k) % INPUT_BUF) := by
    rw [hat.r]
    exact between_pos hlo (by omega)
  -- what `r` passes was committed
  have hconsumed : s.consumed ++ s.input.between s.input.r (pos R') = s.committed.take R' := by
    obtain ⟨d, rfl⟩ := Nat.exists_eq_add_of_le hlo
    rw [List.take_add, h.consumed, hbetween, Nat.add_sub_cancel_left]
    congr 1
    refine List.ext_getElem? fun k => ?_
    by_cases hk : k < d
    · rw [List.getElem?_map, List.getElem?_range hk, List.getElem?_take_of_lt hk,
        List.getElem?_drop, h.held (R + k) (by omega) (by omega)]
      rfl
    · rw [List.getElem?_eq_none (by simpa using hk), List.getElem?_eq_none]
      rw [List.length_take]
      omega
  have hreaders : ∀ new : Option Reading,
      (∀ rd', new = some rd' → rd'.got.length + rd'.left = rd'.target ∧ Unfinished rd'.got) →
      ∀ j rd', Function.update s.readers i new j = some rd' →
        rd'.got.length + rd'.left = rd'.target ∧ Unfinished rd'.got := by
    intro new hnew j rd' hj
    by_cases hji : j = i
    · subst hji
      rw [Function.update_self] at hj
      exact hnew rd' hj
    · rw [Function.update_of_ne hji] at hj
      exact h.readers j rd' hj
  refine ⟨R', ?_⟩
  unfold State.turn
  dsimp only
  rw [heq]
  split
  · next got hgot =>
    rw [hgot] at hout
    refine ⟨hat', hconsumed, fun k hk => h.held k (by omega), hreaders none nofun, ?_⟩
    intro call hcall got' hgot'
    rcases List.mem_cons.mp hcall with rfl | hcall
    · cases hgot'
      exact hout
    · exact h.returned call hcall got' hgot'
  · next left got hgot =>
    rw [hgot] at hout
    split
    · refine ⟨hat', hconsumed, fun k hk => h.held k (by omega), hreaders none nofun, ?_⟩
      intro call hcall got' hgot'
      rcases List.mem_cons.mp hcall with rfl | hcall
      · cases hgot'
      · exact h.returned call hcall got' hgot'
    · refine ⟨hat', hconsumed, fun k hk => h.held k (by omega), hreaders _ ?_, h.returned⟩
      rintro rd' hrd'
      cases hrd'
      exact hout

/-- Every step keeps what is right. -/
theorem Good.step {s s' : State ι} {ev : Event ι} (h : ∃ R E, Good s R E)
    (hstep : Console.step s ev = some s') : ∃ R E, Good s' R E := by
  obtain ⟨R, E, h⟩ := h
  cases ev with
  | key c =>
    cases hstep
    exact ⟨R, h.key c⟩
  | read i n killed =>
    simp only [Console.step] at hstep
    split at hstep
    · cases hstep
      have hnew : Unfinished [] := ⟨List.not_mem_nil, List.not_mem_nil⟩
      obtain ⟨R', h'⟩ : ∃ R', Good (s.turn i killed ⟨n.toNat, n.toNat, []⟩) R' E :=
        h.turn ⟨Nat.zero_add _, hnew⟩
      exact ⟨R', E, h'⟩
    · cases hstep
  | wake i killed =>
    obtain ⟨rd, hrd, rfl⟩ := Option.map_eq_some_iff.mp hstep
    obtain ⟨R', h'⟩ := h.turn (h.readers i rd hrd)
    exact ⟨R', E, h'⟩

omit [DecidableEq ι] in
theorem good_start : Good (start ι) 0 0 :=
  ⟨⟨rfl, rfl, rfl, le_rfl, le_rfl, Nat.zero_le _⟩, rfl, fun k _ hk => absurd hk (Nat.not_lt_zero k),
    nofun, nofun⟩

/-- A key takes nothing back that may be read: it leaves `r` alone, moves `w` forward only,
and what is between the two stays as it is. -/
def Preserves (s s' : Input) : Prop :=
  s'.r = s.r ∧ (s.w - s.r).toNat ≤ (s'.w - s'.r).toNat ∧
    ∀ k < (s.w - s.r).toNat, s'.cell (s.r + BitVec.ofNat 32 k) = s.cell (s.r + BitVec.ofNat 32 k)

theorem preserves_consoleintr (h : s.At R W E) (c : Byte) : Preserves s (consoleintr s c) := by
  have hread := h.read
  have hwrite := h.write
  have hedit := h.edit
  unfold INPUT_BUF at hedit
  have hwr : (s.w - s.r).toNat = W - R := by
    rw [h.w, h.r]
    exact pos_sub hread (by omega)
  have hcells : ∀ k < W - R, (consoleintr s c).cell (s.r + BitVec.ofNat 32 k) =
      s.cell (s.r + BitVec.ofNat 32 k) := fun k hk => by
    rw [h.r, ← BitVec.ofNat_add, cell_pos, cell_pos]
    exact buf_consoleintr h c (Nat.le_add_right ..) (by omega)
  rw [Preserves, hwr]
  rcases consoleintr_cases h c with ⟨E', heq, -, -⟩ | ⟨b, W', heq, hlt, hW⟩
  · exact ⟨by rw [heq], by rw [heq]; exact hwr.ge, hcells⟩
  · refine ⟨by rw [heq], ?_, hcells⟩
    unfold INPUT_BUF at hlt
    rw [heq]
    dsimp only
    rw [h.r, pos_sub (by omega) (by omega)]
    omega

/-- **The line discipline**: in every state that keys and readers can bring about the indices
are in order, a key takes nothing back, what was read is the beginning of what was
committed, and every read delivered at most a line. -/
theorem line_discipline {s : State ι} {events : List (Event ι)}
    (h : exec step (start ι) events = some s) :
    ((s.input.w - s.input.r).toNat ≤ (s.input.e - s.input.r).toNat ∧
        (s.input.e - s.input.r).toNat ≤ INPUT_BUF) ∧
      (∀ c, Preserves s.input (consoleintr s.input c)) ∧
      s.consumed <+: s.committed ∧
      ∀ call ∈ s.returned, ∀ got, call.2 = some got → Delivered call.1 got := by
  obtain ⟨R, E, hgood⟩ : ∃ R E, Good s R E :=
    exec_invariant (fun _ _ _ => Good.step) ⟨0, 0, good_start⟩ h
  have hat := hgood.at_
  have hread := hat.read
  have hwrite := hat.write
  have hedit := hat.edit
  refine ⟨?_, preserves_consoleintr hat, ?_, hgood.returned⟩
  · unfold INPUT_BUF at hedit ⊢
    rw [hat.w, hat.r, hat.e, pos_sub hread (by omega), pos_sub (by omega) (by omega)]
    omega
  · rw [hgood.consumed]
    exact List.take_prefix ..

/-- `a`, a key taken back, `b`, the end of the line, and a reader. -/
theorem line_discipline_one_line :
    ∃ s, exec step (start Unit) [.key 97#8, .key 127#8, .key 98#8, .key 13#8, .read () 10 false] =
        some s ∧ s.returned = [(10, some [98#8, 10#8])] ∧ s.consumed <+: s.committed := by
  have h : exec step (start Unit)
      [.key 97#8, .key 127#8, .key 98#8, .key 13#8, .read () 10 false] = some _ := rfl
  exact ⟨_, h, rfl, (line_discipline h).2.2.1⟩

end StrideXv6.Console
