import StrideXv6.Bytes

/-!
# `grep` (`grep.c`)

Strings are lists of bytes, without the zero that ends them. `grep` reads its input in
pieces of whatever size `read` returns, into a buffer that begins with what is left of
the last line. A buffer without any newline is not kept, however (`carry`): what is in
it is lost, and a line that goes on in the next piece is taken for a shorter one.
-/

namespace StrideXv6.Grep

open Bytes

/-! ## The matcher -/

mutual

/-- Search for `re` at the beginning of `text`. -/
def matchhere (re text : List Byte) : Bool :=
  match re with
  | [] => true
  | c :: re =>
    if re.head? = some 42#8 then matchstar c re.tail text
    else if c = 36#8 ∧ re = [] then text.isEmpty
    else
      match text with
      | [] => false
      | t :: text => (c = 46#8 ∨ c = t) && matchhere re text
termination_by (re.length, text.length)
decreasing_by
  · cases re with
    | nil => simp at *
    | cons b re =>
      simp only [List.tail_cons, List.length_cons]
      exact Prod.Lex.left _ _ (by omega)
  · exact Prod.Lex.left _ _ (by simp)

/-- Search for `c*re` at the beginning of `text`. -/
def matchstar (c : Byte) (re text : List Byte) : Bool :=
  matchhere re text ||
    match text with
    | [] => false
    | t :: text => (t = c ∨ c = 46#8) && matchstar c re text
termination_by (re.length + 1, text.length)
decreasing_by
  · exact Prod.Lex.left _ _ (Nat.lt_succ_self _)
  · exact Prod.Lex.right _ (by simp)

end

/-- The loop of `match`: look at every suffix, the empty one included. -/
def matchLoop (re : List Byte) : List Byte → Bool
  | [] => matchhere re []
  | t :: text => matchhere re (t :: text) || matchLoop re text

/-- `match`. -/
def matchText (re text : List Byte) : Bool :=
  if re.head? = some 94#8 then matchhere re.tail text else matchLoop re text

/-! ## `grep` -/

/-- `strchr`: what is before and after the first `c`. -/
def strchr : List Byte → Byte → Option (List Byte × List Byte)
  | [], _ => none
  | b :: bs, c =>
    if b = 0#8 then none
    else if b = c then some ([], bs)
    else (strchr bs c).map fun (before, after) => (b :: before, after)

theorem strchr_eq {p before after : List Byte} {c : Byte} (h : strchr p c = some (before, after)) :
    p = before ++ c :: after ∧ c ∉ before ∧ 0#8 ∉ before := by
  induction p generalizing before with
  | nil => cases h
  | cons b bs ih =>
    unfold strchr at h
    split at h
    · cases h
    · next h0 =>
      split at h
      · next hb =>
        cases h
        exact ⟨by rw [hb]; rfl, List.not_mem_nil, List.not_mem_nil⟩
      · next hb =>
        obtain ⟨⟨l, r⟩, hlr, heq⟩ := Option.map_eq_some_iff.mp h
        cases heq
        obtain ⟨rfl, hc, hz⟩ := ih hlr
        refine ⟨rfl, ?_, ?_⟩
        · simp only [List.mem_cons, not_or]
          exact ⟨Ne.symm hb, hc⟩
        · simp only [List.mem_cons, not_or]
          exact ⟨Ne.symm h0, hz⟩

/-- The inner loop, from `p` on: what is written, and where it stops. -/
def scan (pattern p : List Byte) : List Byte × List Byte :=
  match _h : strchr p 10#8 with
  | none => ([], p)
  | some (line, rest) =>
    ((if matchText pattern line then line ++ [10#8] else []) ++ (scan pattern rest).1,
      (scan pattern rest).2)
termination_by p.length
decreasing_by
  all_goals
    rw [(strchr_eq _h).1]
    simp only [List.length_append, List.length_cons]
    omega

/-- `sizeof(buf)` -/
def BUFSIZE : ℕ := 1024

/-- The end of the loop body: what stays in the buffer, which held `buf` and was looked
through up to `p`. -/
def carry (buf p : List Byte) : List Byte := if p.length = buf.length then [] else p

/-- The loop of `grep`, with `buf` in the buffer, when `read` returns one chunk after the
other and then nothing: what is written. -/
def grepLoop (pattern : List Byte) : List Byte → List (List Byte) → List Byte
  | _, [] => []
  | buf, chunk :: chunks =>
    (scan pattern (buf ++ chunk)).1 ++
      grepLoop pattern (carry (buf ++ chunk) (scan pattern (buf ++ chunk)).2) chunks

def grep (pattern : List Byte) (chunks : List (List Byte)) : List Byte := grepLoop pattern [] chunks

/-- The part behind the last newline. -/
def lastPart (p : List Byte) : List Byte := (scan [] p).2

/-- `read` is asked for as much as there is room for, and returns that or less. -/
def Chunked : List Byte → List (List Byte) → Prop
  | _, [] => True
  | buf, chunk :: chunks => 0 < chunk.length ∧ chunk.length ≤ BUFSIZE - buf.length - 1 ∧
    Chunked (carry (buf ++ chunk) (lastPart (buf ++ chunk))) chunks

/-- If a piece has no newline, then none comes later. -/
def Keeps (chunks : List (List Byte)) : Prop := chunks.Pairwise fun c c' => 10#8 ∈ c ∨ 10#8 ∉ c'

/-! ## Lines -/

/-- The lines of an input, and what comes after the last newline. -/
structure Lines (input : List Byte) (bodies : List (List Byte)) (tail : List Byte) : Prop where
  eq : input = bodies.flatMap (· ++ [10#8]) ++ tail
  bodies : ∀ body ∈ bodies, 10#8 ∉ body
  tail : 10#8 ∉ tail

/-- What `grep` should write: the lines that match. -/
def selected (pattern : List Byte) (bodies : List (List Byte)) : List Byte :=
  (bodies.filter (matchText pattern)).flatMap (· ++ [10#8])

variable {pattern p tail rest body after : List Byte} {bodies bodies' : List (List Byte)}

theorem selected_append :
    selected pattern (bodies ++ bodies') = selected pattern bodies ++ selected pattern bodies' := by
  rw [selected, List.filter_append, List.flatMap_append]
  rfl

theorem selected_cons : selected pattern (body :: bodies) =
    (if matchText pattern body then body ++ [10#8] else []) ++ selected pattern bodies := by
  unfold selected
  rw [List.filter_cons]
  split
  · rw [List.flatMap_cons]
  · rfl

namespace Lines

theorem of_not_mem (h : 10#8 ∉ p) : Lines p [] p := ⟨rfl, fun _ hb => (nomatch hb), h⟩

theorem cons (h : Lines rest bodies tail) (hbody : 10#8 ∉ body) :
    Lines (body ++ 10#8 :: rest) (body :: bodies) tail := by
  refine ⟨?_, fun b hb => ?_, h.tail⟩
  · rw [List.flatMap_cons, h.eq]
    simp only [List.append_assoc, List.cons_append, List.nil_append]
  · rcases List.mem_cons.mp hb with rfl | hb
    · exact hbody
    · exact h.bodies b hb

/-- Every input is made of lines. -/
theorem exists_lines (p : List Byte) : ∃ bodies tail, Lines p bodies tail := by
  induction p with
  | nil => exact ⟨[], [], of_not_mem List.not_mem_nil⟩
  | cons b p ih =>
    obtain ⟨bodies, tail, h⟩ := ih
    by_cases hb : b = 10#8
    · exact ⟨[] :: bodies, tail, hb ▸ h.cons List.not_mem_nil⟩
    · have hcons : ∀ {l : List Byte}, 10#8 ∉ l → 10#8 ∉ b :: l := fun hl hmem =>
        (List.mem_cons.mp hmem).elim (fun he => hb he.symm) hl
      cases bodies with
      | nil =>
        refine ⟨[], b :: tail, ?_, fun _ h => (nomatch h), hcons h.tail⟩
        rw [h.eq]
        rfl
      | cons body bodies =>
        refine ⟨(b :: body) :: bodies, tail, ?_, fun l hl => ?_, h.tail⟩
        · rw [h.eq]
          rfl
        · rcases List.mem_cons.mp hl with rfl | hl
          · exact hcons (h.bodies body (List.mem_cons_self ..))
          · exact h.bodies l (List.mem_cons_of_mem _ hl)

/-- There is a newline where there is a line. -/
theorem mem_iff (h : Lines p bodies tail) : 10#8 ∈ p ↔ bodies ≠ [] := by
  rw [h.eq]
  cases bodies with
  | nil =>
    rw [List.flatMap_nil, List.nil_append]
    simp [h.tail]
  | cons body bodies => simp

theorem uncons (h : Lines p (body :: bodies) tail) :
    p = body ++ 10#8 :: (bodies.flatMap (· ++ [10#8]) ++ tail) ∧ 10#8 ∉ body ∧
      Lines (bodies.flatMap (· ++ [10#8]) ++ tail) bodies tail := by
  refine ⟨?_, h.bodies body (List.mem_cons_self ..), rfl,
    fun b hb => h.bodies b (List.mem_cons_of_mem _ hb), h.tail⟩
  rw [h.eq, List.flatMap_cons]
  simp only [List.append_assoc, List.cons_append, List.nil_append]

end Lines

/-- The first newline is in one place. -/
theorem append_newline_inj {l l' r r' : List Byte} (hl : 10#8 ∉ l) (hl' : 10#8 ∉ l')
    (h : l ++ 10#8 :: r = l' ++ 10#8 :: r') : l = l' ∧ r = r' := by
  induction l generalizing l' with
  | nil =>
    cases l' with
    | nil =>
      cases h
      exact ⟨rfl, rfl⟩
    | cons b l' =>
      cases h
      exact absurd (List.mem_cons_self ..) hl'
  | cons a l ih =>
    cases l' with
    | nil =>
      cases h
      exact absurd (List.mem_cons_self ..) hl
    | cons b l' =>
      rw [List.cons_append, List.cons_append, List.cons.injEq] at h
      obtain ⟨rfl, h⟩ := h
      obtain ⟨rfl, rfl⟩ := ih (fun hm => hl (List.mem_cons_of_mem _ hm))
        (fun hm => hl' (List.mem_cons_of_mem _ hm)) h
      exact ⟨rfl, rfl⟩

/-- The lines of a beginning are the first lines. -/
theorem Lines.of_append {t : List Byte} (h : Lines p bodies t) (hall : Lines (p ++ rest) bodies' tail) :
    ∃ more, bodies' = bodies ++ more ∧ Lines (t ++ rest) more tail := by
  induction bodies generalizing p bodies' with
  | nil =>
    have hp : p = t := by rw [h.eq]; rfl
    exact ⟨bodies', rfl, hp ▸ hall⟩
  | cons body bodies ih =>
    obtain ⟨hp, hbody, hrest⟩ := h.uncons
    cases bodies' with
    | nil =>
      have hmem : 10#8 ∈ p ++ rest := by
        rw [hp]
        simp
      exact absurd rfl (hall.mem_iff.mp hmem)
    | cons body' bodies' =>
      obtain ⟨hp', hbody', hrest'⟩ := hall.uncons
      have heq := hp'.symm
      rw [hp, List.append_assoc, List.cons_append] at heq
      obtain ⟨rfl, htail⟩ := append_newline_inj hbody' hbody heq
      obtain ⟨more, rfl, hmore⟩ := ih hrest (htail ▸ hrest')
      exact ⟨more, rfl, hmore⟩

/-! ## What `grep` does with lines -/

theorem strchr_none (h : 10#8 ∉ p) : strchr p 10#8 = none := by
  induction p with
  | nil => rfl
  | cons b p ih =>
    have hb : b ≠ 10#8 := fun he => h (he ▸ List.mem_cons_self ..)
    unfold strchr
    rw [if_neg hb, ih fun hm => h (List.mem_cons_of_mem _ hm), Option.map_none, ite_self]

theorem strchr_some (hbody : 10#8 ∉ body) (hzero : 0#8 ∉ body) :
    strchr (body ++ 10#8 :: after) 10#8 = some (body, after) := by
  induction body with
  | nil =>
    unfold strchr
    rw [List.nil_append]
    simp
  | cons b body ih =>
    have hb : b ≠ 10#8 := fun he => hbody (he ▸ List.mem_cons_self ..)
    have h0 : b ≠ 0#8 := fun he => hzero (he ▸ List.mem_cons_self ..)
    rw [List.cons_append, strchr, if_neg h0, if_neg hb, ih (fun hm => hbody (List.mem_cons_of_mem _ hm))
      fun hm => hzero (List.mem_cons_of_mem _ hm)]
    rfl

/-- The inner loop goes through the lines. -/
theorem scan_lines (h : Lines p bodies tail) (hzero : 0#8 ∉ p) :
    scan pattern p = (selected pattern bodies, tail) := by
  induction bodies generalizing p with
  | nil =>
    have hp : p = tail := by rw [h.eq]; rfl
    unfold scan
    split
    · rw [hp]
      rfl
    · next line rest hstr =>
      rw [hp, strchr_none h.tail] at hstr
      cases hstr
  | cons body bodies ih =>
    obtain ⟨hp, hbody, hrest⟩ := h.uncons
    have hz : 0#8 ∉ body ∧ 0#8 ∉ bodies.flatMap (· ++ [10#8]) ++ tail := by
      rw [hp] at hzero
      simp only [List.mem_append, List.mem_cons, not_or] at hzero ⊢
      exact ⟨hzero.1, hzero.2.2⟩
    unfold scan
    split
    · next hstr =>
      rw [hp, strchr_some hbody hz.1] at hstr
      cases hstr
    · next line rest hstr =>
      rw [hp, strchr_some hbody hz.1] at hstr
      cases hstr
      rw [ih hrest hz.2, selected_cons]

theorem Lines.bodies_eq {bs : List (List Byte)} {t : List Byte} (h : Lines p bs t)
    (h' : Lines p bodies tail) : bs = bodies := by
  have hall : Lines (p ++ []) bs t := by rwa [List.append_nil]
  obtain ⟨more, hbs, hmore⟩ := h'.of_append hall
  rw [List.append_nil] at hmore
  cases more with
  | nil => rw [hbs, List.append_nil]
  | cons body more => exact absurd (hmore.mem_iff.mpr (List.cons_ne_nil body more)) h'.tail

theorem lastPart_eq (h : Lines p bodies tail) (hzero : 0#8 ∉ p) : lastPart p = tail := by
  rw [lastPart, scan_lines h hzero]

/-- What is behind the last line is kept, but not if there is no line. -/
theorem carry_eq (h : Lines p bodies tail) : carry p tail = if bodies = [] then [] else tail := by
  unfold carry
  cases bodies with
  | nil => rw [if_pos (by rw [h.eq]; rfl), if_pos rfl]
  | cons body bodies =>
    rw [if_neg, if_neg (List.cons_ne_nil body bodies)]
    rw [h.uncons.1]
    simp only [List.length_append, List.length_cons]
    omega

variable {buf chunk : List Byte} {chunks : List (List Byte)}

/-- One turn of the loop. -/
theorem grepLoop_cons {t : List Byte} (h : Lines (buf ++ chunk) bodies t)
    (hzero : 0#8 ∉ buf ++ chunk) : grepLoop pattern buf (chunk :: chunks) =
      selected pattern bodies ++ grepLoop pattern (if bodies = [] then [] else t) chunks := by
  rw [grepLoop, scan_lines h hzero, carry_eq h]

/-- What was carried over has no newline, so one in the buffer is one in the piece. -/
theorem keeps_cons {t : List Byte} (hbuf : 10#8 ∉ buf) (h : Lines (buf ++ chunk) bodies t) :
    Keeps (chunk :: chunks) ↔ (bodies ≠ [] ∨ ∀ c ∈ chunks, 10#8 ∉ c) ∧ Keeps chunks := by
  have hmem : 10#8 ∈ chunk ↔ bodies ≠ [] := by
    rw [← h.mem_iff, List.mem_append, or_iff_right hbuf]
  have hall : (∀ c ∈ chunks, 10#8 ∈ chunk ∨ 10#8 ∉ c) ↔
      10#8 ∈ chunk ∨ ∀ c ∈ chunks, 10#8 ∉ c := by
    by_cases hc : 10#8 ∈ chunk <;> simp [hc]
  unfold Keeps
  rw [List.pairwise_cons, hall, hmem]

/-- What is read, and what was there, has no zeros and no newlines. -/
theorem not_mem_parts {x : Byte} (h : x ∉ buf ++ (chunk :: chunks).flatten) :
    x ∉ buf ++ chunk ∧ x ∉ chunks.flatten := by
  simp only [List.flatten_cons, List.mem_append, not_or] at h ⊢
  exact ⟨⟨h.1, h.2.1⟩, h.2.2⟩

/-- Without newlines, nothing is written, and nothing is lost either. -/
theorem grepLoop_of_not_mem (hzero : 0#8 ∉ buf ++ chunks.flatten)
    (h : 10#8 ∉ buf ++ chunks.flatten) : grepLoop pattern buf chunks = [] ∧ Keeps chunks := by
  induction chunks generalizing buf with
  | nil => exact ⟨rfl, List.Pairwise.nil⟩
  | cons chunk chunks ih =>
    obtain ⟨hz, hzs⟩ := not_mem_parts hzero
    obtain ⟨hn, hns⟩ := not_mem_parts h
    have hl := Lines.of_not_mem hn
    have hbuf : 10#8 ∉ buf := fun hm => hn (List.mem_append_left _ hm)
    obtain ⟨hloop, hkeeps⟩ : grepLoop pattern [] chunks = [] ∧ Keeps chunks := ih hzs hns
    rw [grepLoop_cons hl hz, keeps_cons hbuf hl, if_pos rfl, hloop]
    refine ⟨rfl, .inr fun c hc hmem => hns (List.mem_flatten.mpr ⟨c, hc, hmem⟩), hkeeps⟩

/-- What is kept is found. -/
theorem grepLoop_of_keeps (hbuf : 10#8 ∉ buf) (hzero : 0#8 ∉ buf ++ chunks.flatten)
    (h : Lines (buf ++ chunks.flatten) bodies tail) (hkeeps : Keeps chunks) :
    grepLoop pattern buf chunks = selected pattern bodies := by
  induction chunks generalizing buf bodies with
  | nil =>
    have hnil : bodies = [] := by
      by_contra hne
      have := h.mem_iff.mpr hne
      rw [List.flatten_nil, List.append_nil] at this
      exact hbuf this
    rw [hnil]
    rfl
  | cons chunk chunks ih =>
    obtain ⟨hz, hzs⟩ := not_mem_parts hzero
    obtain ⟨bs, t, hl⟩ := Lines.exists_lines (buf ++ chunk)
    rw [keeps_cons hbuf hl] at hkeeps
    rw [List.flatten_cons, ← List.append_assoc] at h
    obtain ⟨more, rfl, hmore⟩ := hl.of_append h
    rw [grepLoop_cons hl hz]
    by_cases hbs : bs = []
    · -- no line ends here, so none ends later
      subst hbs
      have hnone := hkeeps.1.resolve_left (fun hne => hne rfl)
      have hflat : 10#8 ∉ chunks.flatten := fun hm => by
        obtain ⟨c, hc, hmem⟩ := List.mem_flatten.mp hm
        exact hnone c hc hmem
      have hmore' : more = [] := by
        by_contra hne
        rcases List.mem_append.mp (hmore.mem_iff.mpr hne) with hm | hm
        · exact hl.tail hm
        · exact hflat hm
      have hloop : grepLoop pattern [] chunks = [] := (grepLoop_of_not_mem hzs hflat).1
      rw [hmore', if_pos rfl, hloop]
      rfl
    · rw [if_neg hbs]
      have hzt : 0#8 ∉ t ++ chunks.flatten := fun hm => by
        rcases List.mem_append.mp hm with hm | hm
        · exact hz (hl.eq ▸ List.mem_append_right _ hm)
        · exact hzs hm
      rw [ih hl.tail hzt hmore hkeeps.2, selected_append]

theorem matchText_nil (text : List Byte) : matchText [] text = true := by
  unfold matchText
  cases text with
  | nil =>
    simp only [List.head?_nil, reduceCtorEq, if_false, matchLoop]
    unfold matchhere
    rfl
  | cons t text =>
    simp only [List.head?_nil, reduceCtorEq, if_false, matchLoop]
    unfold matchhere
    rfl

theorem length_selected_cons : (selected [] (body :: bodies)).length =
    body.length + 1 + (selected [] bodies).length := by
  rw [selected_cons, if_pos (matchText_nil body), List.length_append, List.length_append]
  rfl

/-- With the empty pattern, everything that is lost is missed. -/
theorem length_grepLoop (hbuf : 10#8 ∉ buf) (hzero : 0#8 ∉ buf ++ chunks.flatten)
    (hpos : ∀ c ∈ chunks, 0 < c.length) (h : Lines (buf ++ chunks.flatten) bodies tail) :
    (grepLoop [] buf chunks).length ≤ (selected [] bodies).length ∧
      (¬ Keeps chunks → (grepLoop [] buf chunks).length < (selected [] bodies).length) := by
  induction chunks generalizing buf bodies tail with
  | nil => exact ⟨Nat.zero_le _, fun hk => absurd List.Pairwise.nil hk⟩
  | cons chunk chunks ih =>
    obtain ⟨hz, hzs⟩ := not_mem_parts hzero
    have hpos' : ∀ c ∈ chunks, 0 < c.length := fun c hc => hpos c (List.mem_cons_of_mem _ hc)
    obtain ⟨bs, t, hl⟩ := Lines.exists_lines (buf ++ chunk)
    rw [List.flatten_cons, ← List.append_assoc] at h
    obtain ⟨more, rfl, hmore⟩ := hl.of_append h
    rw [grepLoop_cons hl hz, keeps_cons hbuf hl, List.length_append, selected_append,
      List.length_append]
    by_cases hbs : bs = []
    · subst hbs
      have ht : t = buf ++ chunk := by rw [hl.eq]; rfl
      rw [if_pos rfl]
      by_cases hflat : 10#8 ∈ chunks.flatten
      · -- the line that goes on loses what was in the buffer
        obtain ⟨bs', t', hl'⟩ := Lines.exists_lines chunks.flatten
        have hle : (grepLoop [] [] chunks).length ≤ (selected [] bs').length :=
          (ih List.not_mem_nil hzs hpos' hl').1
        cases bs' with
        | nil => exact absurd rfl (hl'.mem_iff.mp hflat)
        | cons body bs' =>
          obtain ⟨hp, hbody, hrest⟩ := hl'.uncons
          have hlong : Lines (t ++ chunks.flatten) ((t ++ body) :: bs') t' := by
            rw [hp, ← List.append_assoc]
            refine hrest.cons fun hm => ?_
            rcases List.mem_append.mp hm with hm | hm
            · exact hl.tail hm
            · exact hbody hm
          have hm' : more = (t ++ body) :: bs' := hmore.bodies_eq hlong
          have hchunk := hpos chunk (List.mem_cons_self ..)
          rw [hm', length_selected_cons, List.length_append, ht, List.length_append]
          rw [length_selected_cons] at hle
          change 0 + _ ≤ 0 + _ ∧ (_ → 0 + _ < 0 + _)
          omega
      · obtain ⟨hloop, hkeeps⟩ : grepLoop [] [] chunks = [] ∧ Keeps chunks :=
          grepLoop_of_not_mem hzs hflat
        rw [hloop]
        refine ⟨Nat.add_le_add le_rfl (Nat.zero_le _), fun hk => ?_⟩
        refine absurd ⟨.inr fun c hc hmem => ?_, hkeeps⟩ hk
        exact hflat (List.mem_flatten.mpr ⟨c, hc, hmem⟩)
    · rw [if_neg hbs]
      have hzt : 0#8 ∉ t ++ chunks.flatten := fun hm => by
        rcases List.mem_append.mp hm with hm | hm
        · exact hz (hl.eq ▸ List.mem_append_right _ hm)
        · exact hzs hm
      obtain ⟨hle, hlt⟩ := ih hl.tail hzt hpos' hmore
      refine ⟨Nat.add_le_add_left hle _, fun hk => Nat.add_lt_add_left (hlt fun hkeeps => ?_) _⟩
      exact hk ⟨.inl hbs, hkeeps⟩

theorem Chunked.pos (h : Chunked buf chunks) : ∀ c ∈ chunks, 0 < c.length := by
  induction chunks generalizing buf with
  | nil => exact fun _ hc => (nomatch hc)
  | cons chunk chunks ih =>
    intro c hc
    rcases List.mem_cons.mp hc with rfl | hc
    · exact h.1
    · exact ih h.2.2 c hc

/-- **`grep` writes the lines that match**, whatever it looks for, if and only if no
piece without a newline is followed by one that has a newline. -/
theorem grep_selects_iff (hchunks : Chunked [] chunks) (hzero : 0#8 ∉ chunks.flatten)
    (h : Lines chunks.flatten bodies tail) :
    (∀ pattern, grep pattern chunks = selected pattern bodies) ↔ Keeps chunks := by
  constructor
  · intro hall
    by_contra hk
    have hlt : (grepLoop [] [] chunks).length < (selected [] bodies).length :=
      (length_grepLoop List.not_mem_nil hzero hchunks.pos h).2 hk
    exact absurd (congrArg List.length (hall [])) (Nat.ne_of_lt hlt)
  · exact fun hk pattern => grepLoop_of_keeps List.not_mem_nil hzero h hk

/-- `"a\nb"` and `"c\n"`: the rest of the first piece is kept. -/
theorem grep_selects_two_lines :
    Keeps [[97#8, 10#8, 98#8], [99#8, 10#8]] ∧
      ∀ pattern, grep pattern [[97#8, 10#8, 98#8], [99#8, 10#8]] =
        selected pattern [[97#8], [98#8, 99#8]] := by
  have hfirst : Lines ([] ++ [97#8, 10#8, 98#8]) [[97#8]] [98#8] := ⟨rfl, by decide, by decide⟩
  have hkeeps : Keeps [[97#8, 10#8, 98#8], [99#8, 10#8]] := by
    unfold Keeps
    decide
  have hchunks : Chunked [] [[97#8, 10#8, 98#8], [99#8, 10#8]] := by
    refine ⟨by decide, by decide, ?_⟩
    rw [lastPart_eq hfirst (by decide)]
    exact ⟨by decide, by decide, trivial⟩
  exact ⟨hkeeps, (grep_selects_iff hchunks (by decide) ⟨rfl, by decide, by decide⟩).mpr hkeeps⟩

/-- A line `"ab\n"` is found if it comes in one piece, and only its `b` if it comes
in two. -/
theorem grep_loses_partial_line :
    Chunked [] [[97#8], [98#8, 10#8]] ∧ Chunked [] [[97#8, 98#8, 10#8]] ∧
      [[97#8], [98#8, 10#8]].flatten = [[97#8, 98#8, 10#8]].flatten ∧
      grep [] [[97#8, 98#8, 10#8]] = [97#8, 98#8, 10#8] ∧
      grep [] [[97#8], [98#8, 10#8]] = [98#8, 10#8] := by
  have hfirst : Lines ([] ++ [97#8]) [] [97#8] := ⟨rfl, by decide, by decide⟩
  have hsecond : Lines ([] ++ [98#8, 10#8]) [[98#8]] [] := ⟨rfl, by decide, by decide⟩
  have hwhole : Lines ([] ++ [97#8, 98#8, 10#8]) [[97#8, 98#8]] [] := ⟨rfl, by decide, by decide⟩
  refine ⟨⟨by decide, by decide, ?_⟩, ⟨by decide, by decide, trivial⟩, rfl, ?_, ?_⟩
  · rw [lastPart_eq hfirst (by decide)]
    exact ⟨by decide, by decide, trivial⟩
  · rw [grep, grepLoop_cons hwhole (by decide), selected_cons, if_pos (matchText_nil _)]
    rfl
  · rw [grep, grepLoop_cons hfirst (by decide), if_pos rfl, grepLoop_cons hsecond (by decide),
      selected_cons, if_pos (matchText_nil _)]
    rfl

end StrideXv6.Grep
