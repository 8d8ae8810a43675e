import StrideXv6.Contracts

/-!
# What `copyout` does (`vm.c`)

`copyout` goes through a range of user addresses page by page. `Phys.target` says where in
physical memory a user address is, if `copyout` may store there, and `Phys.Puts` that
a range of addresses got new bytes and nothing else changed. This is what `copyout` does,
as far as there are page tables: where one is missing, `uva2ka` uses what it finds at
address 0 (`Nulled`).
-/

namespace StrideXv6

open Bytes Effect Memory

namespace Phys

/-- The physical page for a page that the user may use. -/
def userPage (m : Phys) (d v : ℕ) : Option ℕ :=
  (m.walk d v).bind fun x => if isPresent x ∧ isUser x then some (pteAddr x) else none

/-- Where the byte at a user address is: the page and the offset. -/
def target (m : Phys) (d a : ℕ) : Option (ℕ × ℕ) := (m.userPage d (a / 4096)).map (·, a % 4096)

/-- The `k` bytes from the address `va` on are those of `buf`, and nothing else changed. -/
structure Puts (m m' : Phys) (d va k : ℕ) (buf : ℕ → Byte) : Prop where
  inside : ∀ j < k, ∃ t, m.target d (va + j) = some t ∧ m'.byte t.1 t.2 = buf j
  outside : ∀ g o, (∀ j < k, m.target d (va + j) ≠ some (g, o)) → m'.byte g o = m.byte g o
  free : m'.free = m.free
  input : m'.input = m.input
  notes : m'.notes = m.notes

/-- `copyout` finds a page table for every page it comes to. -/
def Reaches (m : Phys) (d va len : ℕ) : Prop :=
  ∀ j < len, (∀ i < j, (m.target d (va + i)).isSome) → m.walk d ((va + j) / 4096) ≠ none

end Phys

variable {L : Layout} {m m' m'' : Phys} {e : Env} {d cur va len k n g v : ℕ} {buf : ℕ → Byte}
  {stack : Option ℕ}

theorem Phys.target_eq {a : ℕ} {t : ℕ × ℕ} :
    m.target d a = some t ↔ m.userPage d (a / 4096) = some t.1 ∧ a % 4096 = t.2 := by
  unfold target
  cases m.userPage d (a / 4096) with
  | none => simp
  | some g => simp [Prod.ext_iff]

/-- The user has no kernel pages. -/
theorem Phys.userPage_eq_some (hno : m.NoUser d) (hv : v < NPAGE) (h : m.userPage d v = some g) :
    v < KERNPAGE ∧ m.mapped d v = some g := by
  obtain ⟨x, hwalk, hx⟩ := Option.bind_eq_some_iff.mp h
  split at hx
  · next hbits =>
    refine ⟨?_, ?_⟩
    · by_contra hge
      have huser := hno v (by omega) hv x hwalk
      rw [hbits.2] at huser
      cases huser
    · rw [Phys.mapped_eq, hwalk, ← Option.some.inj hx]
      exact if_pos hbits.1
  · cases hx

/-- No byte is at two addresses. -/
theorem Owned.target_inj (h : Owned L m e) (hd : e.dir = some d) (hlow : e.low = 0)
    (hno : m.NoUser d) {a b : ℕ} (ha : a < 4294967296) (hb : b < 4294967296) {t : ℕ × ℕ}
    (hta : m.target d a = some t) (htb : m.target d b = some t) : a = b := by
  obtain ⟨hpa, hoa⟩ := Phys.target_eq.mp hta
  obtain ⟨hpb, hob⟩ := Phys.target_eq.mp htb
  obtain ⟨hlta, hma⟩ := Phys.userPage_eq_some hno (by unfold NPAGE; omega) hpa
  obtain ⟨hltb, hmb⟩ := Phys.userPage_eq_some hno (by unfold NPAGE; omega) hpb
  have hpage := h.apart ((Phys.place_user_of_dir hd hlow hlta).trans hma)
    ((Phys.place_user_of_dir hd hlow hltb).trans hmb)
  have := Place.user.inj hpage
  omega

namespace Phys

theorem Puts.refl : Puts m m d va 0 buf :=
  ⟨fun _ hj => absurd hj (Nat.not_lt_zero _), fun _ _ _ => rfl, rfl, rfl, rfl⟩

theorem target_congr (h : ∀ v < NPAGE, m'.walk d v = m.walk d v) {a : ℕ} (ha : a < 4294967296) :
    m'.target d a = m.target d a := by
  unfold target userPage
  rw [h _ (by unfold NPAGE; omega)]

/-- First some bytes, then those behind them. -/
theorem Puts.append (h₁ : Puts m m' d va n buf)
    (h₂ : Puts m' m'' d (va + n) k fun j => buf (n + j))
    (hwalk : ∀ v < NPAGE, m'.walk d v = m.walk d v) (hva : va + n + k ≤ 4294967296)
    (hinj : ∀ a b t, a < 4294967296 → b < 4294967296 → m.target d a = some t →
      m.target d b = some t → a = b) : Puts m m'' d va (n + k) buf := by
  have htarget : ∀ j < k, m'.target d (va + n + j) = m.target d (va + n + j) := fun j hj =>
    target_congr hwalk (by omega)
  refine ⟨fun j hj => ?_, fun g o hgo => ?_, h₂.free.trans h₁.free, h₂.input.trans h₁.input,
    h₂.notes.trans h₁.notes⟩
  · by_cases hjn : j < n
    · obtain ⟨t, ht, hbyte⟩ := h₁.inside j hjn
      refine ⟨t, ht, (h₂.outside t.1 t.2 fun i hi heq => ?_).trans hbyte⟩
      rw [htarget i hi] at heq
      have := hinj _ _ t (by omega) (by omega) ht heq
      omega
    · obtain ⟨i, rfl⟩ := Nat.exists_eq_add_of_le (Nat.not_lt.mp hjn)
      obtain ⟨t, ht, hbyte⟩ := h₂.inside i (by omega)
      rw [htarget i (by omega), Nat.add_assoc] at ht
      exact ⟨t, ht, hbyte⟩
  · refine (h₂.outside g o fun j hj => ?_).trans (h₁.outside g o fun j hj => hgo j (by omega))
    rw [htarget j hj, Nat.add_assoc]
    exact hgo (n + j) (by omega)

/-- One store. -/
theorem puts_store (hg : m.userPage d (va / 4096) = some g) (hn : n ≤ 4096 - va % 4096) :
    Puts m (m.store g (va % 4096) n buf) d va n buf := by
  have htarget : ∀ j < n, m.target d (va + j) = some (g, va % 4096 + j) := fun j hj => by
    rw [target_eq, ← hg]
    refine ⟨congrArg _ (by omega), by omega⟩
  refine ⟨fun j hj => ⟨_, htarget j hj, ?_⟩, fun p o hpo => ?_, rfl, rfl, rfl⟩
  · change Function.update m.byte g _ g _ = _
    rw [Function.update_self]
    exact splice_inside hj
  · change Function.update m.byte g (splice (m.byte g) (va % 4096) n buf) p o = _
    by_cases hpg : p = g
    · subst hpg
      rw [Function.update_self]
      unfold splice
      refine if_neg fun hin => ?_
      obtain ⟨j, hj⟩ := Nat.exists_eq_add_of_le hin.1
      exact hpo j (by omega) (by rw [htarget j (by omega), hj])
    · rw [Function.update_of_ne hpg]

end Phys

/-- What `copyout` did, if it answers `ok`. -/
def Phys.Copied (m m' : Phys) (d va len : ℕ) (buf : ℕ → Byte) (ok : Bool) : Prop :=
  (ok = true ↔ ∀ j < len, (m.target d (va + j)).isSome) ∧
    ∃ k ≤ len, m.Puts m' d va k buf ∧ (ok = true → k = len)

/-- Nothing to copy. -/
theorem copyoutLoop_zero (fuel : ℕ) : copyoutLoop L cur d va buf 0 fuel = pure true := by
  cases fuel with
  | zero => rfl
  | succ fuel => rfl

theorem Phys.isSome_target {a : ℕ} :
    (m.target d a).isSome = (m.userPage d (a / 4096)).isSome := Option.isSome_map

/-- What is reached behind the first page. -/
theorem Phys.reaches_iff (hwalk : ∀ v < NPAGE, m'.walk d v = m.walk d v)
    (hg : m.userPage d (va / 4096) = some g) (hn : n ≤ 4096 - va % 4096) (hnl : n ≤ len)
    (hva : va + len ≤ 4294967296) : m.Reaches d va len ↔ m'.Reaches d (va + n) (len - n) := by
  have hpage : ∀ i < n, (va + i) / 4096 = va / 4096 := fun i hi => by omega
  have hfirst : ∀ i < n, (m.target d (va + i)).isSome := fun i hi => by
    rw [isSome_target, hpage i hi, hg]
    rfl
  have htarget : ∀ i, va + n + i < 4294967296 →
      m'.target d (va + n + i) = m.target d (va + (n + i)) := fun i hi => by
    rw [target_congr hwalk hi, Nat.add_assoc]
  constructor
  · intro h j hj hall
    rw [hwalk _ (by unfold NPAGE; omega), Nat.add_assoc]
    refine h (n + j) (by omega) fun i hi => ?_
    by_cases hin : i < n
    · exact hfirst i hin
    · obtain ⟨i', rfl⟩ := Nat.exists_eq_add_of_le (Nat.not_lt.mp hin)
      rw [← htarget i' (by omega)]
      exact hall i' (by omega)
  · intro h j hj hall
    by_cases hjn : j < n
    · rw [hpage j hjn]
      intro hnone
      rw [userPage, hnone] at hg
      cases hg
    · obtain ⟨j', rfl⟩ := Nat.exists_eq_add_of_le (Nat.not_lt.mp hjn)
      have := h j' (by omega) fun i hi => by
        rw [htarget i (by omega)]
        exact hall (n + i) (by omega)
      rwa [hwalk _ (by unfold NPAGE; omega), Nat.add_assoc] at this

/-- The first page and the rest make the whole. -/
theorem Phys.Copied.of_rest {ok : Bool} (h₁ : m.Puts m' d va n buf)
    (h₂ : m'.Copied m'' d (va + n) (len - n) (fun j => buf (n + j)) ok)
    (hwalk : ∀ v < NPAGE, m'.walk d v = m.walk d v) (hnl : n ≤ len) (hva : va + len ≤ 4294967296)
    (hinj : ∀ a b t, a < 4294967296 → b < 4294967296 → m.target d a = some t →
      m.target d b = some t → a = b) : m.Copied m'' d va len buf ok := by
  obtain ⟨hok, k, hk, hputs, hlen⟩ := h₂
  refine ⟨hok.trans ⟨fun h j hj => ?_, fun h j hj => ?_⟩, n + k, by omega,
    h₁.append hputs hwalk (by omega) hinj, fun h => by have := hlen h; omega⟩
  · by_cases hjn : j < n
    · obtain ⟨t, ht, -⟩ := h₁.inside j hjn
      rw [ht]
      rfl
    · obtain ⟨i, rfl⟩ := Nat.exists_eq_add_of_le (Nat.not_lt.mp hjn)
      have := h i (by omega)
      rwa [target_congr hwalk (by omega), Nat.add_assoc] at this
  · rw [target_congr hwalk (by omega), Nat.add_assoc]
    exact h (n + j) (by omega)

/-- **The loop of `copyout`**, by induction on its fuel. -/
theorem Owned.gives_copyoutLoop (hd : e.dir = some d) (hlow : e.low = 0) (fuel : ℕ) :
    ∀ {m : Phys} {va : ℕ} {buf : ℕ → Byte} {len : ℕ}, Owned L m e → m.NoUser d →
      va + len ≤ 4294967296 → len ≤ fuel →
      Gives (Memory.copyoutLoop L cur d va buf len fuel) m
        (fun ok m' => (m.Reaches d va len → m.Copied m' d va len buf ok) ∧
          (¬ m.Reaches d va len → Nulled m m'))
        fun _ m' => ¬ m.Reaches d va len ∧ Nulled m m' := by
  induction fuel with
  | zero =>
    intro m va buf len h hno hva hfuel
    obtain rfl : len = 0 := Nat.le_zero.mp hfuel
    rw [copyoutLoop_zero, gives_pure]
    refine ⟨fun _ => ⟨iff_of_true rfl fun j hj => absurd hj (Nat.not_lt_zero _), 0, le_rfl,
      Phys.Puts.refl, fun _ => rfl⟩, fun hn => absurd ?_ hn⟩
    exact fun j hj => absurd hj (Nat.not_lt_zero _)
  | succ fuel ih =>
    intro m va buf len h hno hva hfuel
    rcases Nat.eq_zero_or_pos len with rfl | hpos
    · rw [copyoutLoop_zero, gives_pure]
      refine ⟨fun _ => ⟨iff_of_true rfl fun j hj => absurd hj (Nat.not_lt_zero _), 0, le_rfl,
        Phys.Puts.refl, fun _ => rfl⟩, fun hn => absurd ?_ hn⟩
      exact fun j hj => absurd hj (Nat.not_lt_zero _)
    rw [Memory.copyoutLoop, if_pos hpos, gives_bind]
    cases hwalk : m.walk d (va / 4096) with
    | none =>
      have hnot : ¬ m.Reaches d va len := fun hr =>
        hr 0 hpos (fun i hi => absurd hi (Nat.not_lt_zero _)) hwalk
      refine (gives_uva2ka_null hwalk).mono (fun r m1 hm1 => ?_) fun _ m1 hm1 =>
        ⟨hnot, hm1 ▸ nulled_note⟩
      subst hm1
      refine (nulled_note.gives (F := Memory.Quiet) ?_).mono
        (fun _ _ hnull => ⟨fun hr => absurd hr hnot, fun _ => hnull⟩) fun _ _ hnull => ⟨hnot, hnull⟩
      cases r with
      | none => exact Always.pure _
      | some g => exact adds_storeAt.bind fun _ => adds_copyoutLoop fun _ => trivial
    | some x =>
      rw [gives_uva2ka_some hwalk]
      by_cases hbits : isPresent x ∧ isUser x
      · rw [if_pos hbits]
        have hg : m.userPage d (va / 4096) = some (pteAddr x) := by
          rw [Phys.userPage, hwalk]
          exact if_pos hbits
        obtain ⟨hlt, hmapped⟩ := Phys.userPage_eq_some hno (by unfold NPAGE; omega) hg
        have hrange := h.ranged _ ⟨_, (Phys.place_user_of_dir hd hlow hlt).trans hmapped⟩
        dsimp only
        rw [gives_bind, gives_storeAt (Or.inl hrange)]
        obtain ⟨n, hn⟩ : ∃ n, min (4096 - va % 4096) len = n := ⟨_, rfl⟩
        rw [hn]
        have hstore : Stored L m (m.store (pteAddr x) (va % 4096) n buf) e d :=
          h.stored hd hlow hlt hmapped
        have hnp : n ≤ 4096 - va % 4096 := by omega
        have hnl : n ≤ len := by omega
        have hputs : m.Puts (m.store (pteAddr x) (va % 4096) n buf) d va n buf :=
          Phys.puts_store hg hnp
        have hreaches := Phys.reaches_iff hstore.walk hg hnp hnl hva
        have hinj : ∀ a b t, a < 4294967296 → b < 4294967296 → m.target d a = some t →
            m.target d b = some t → a = b :=
          fun _ _ _ ha hb hta htb => h.target_inj hd hlow hno ha hb hta htb
        -- the next address, if there is anything left to copy
        have hnext : len - n = 0 ∨
            (va / 4096 * 4096 + 4096) % 4294967296 = va + n := by omega
        rcases hnext with hzero | hnext
        · rw [hzero] at hreaches
          rw [hzero, copyoutLoop_zero, gives_pure]
          refine ⟨fun _ => Phys.Copied.of_rest hputs ⟨?_, 0, Nat.zero_le _, Phys.Puts.refl,
            fun _ => hzero.symm⟩ hstore.walk hnl hva hinj, fun hn => absurd ?_ hn⟩
          · rw [hzero]
            exact iff_of_true rfl fun j hj => absurd hj (Nat.not_lt_zero _)
          · exact hreaches.mpr fun j hj => absurd hj (Nat.not_lt_zero _)
        · rw [hnext]
          refine (ih (h.works hstore.works) (hstore.noUser hno) (by omega) (by omega)).mono ?_ ?_
          · rintro ok m2 ⟨hcopied, hnull⟩
            refine ⟨fun hr => Phys.Copied.of_rest hputs (hcopied (hreaches.mp hr)) hstore.walk hnl
              hva hinj, fun hn => ?_⟩
            exact (hnull fun hr => hn (hreaches.mpr hr)).of_extends hstore.works.extends
          · rintro _ m2 ⟨hn, hnull⟩
            exact ⟨fun hr => hn (hreaches.mp hr), hnull.of_extends hstore.works.extends⟩
      · rw [if_neg hbits]
        have hnone : m.userPage d (va / 4096) = none := by
          rw [Phys.userPage, hwalk]
          exact if_neg hbits
        have htarget : (m.target d (va + 0)).isSome = false := by
          rw [Phys.isSome_target, Nat.add_zero, hnone]
          rfl
        refine gives_pure.mpr ⟨fun _ => ⟨iff_of_false (by rintro ⟨⟩) fun hall => ?_, 0, Nat.zero_le _,
          Phys.Puts.refl, (by rintro ⟨⟩)⟩, fun hn => absurd ?_ hn⟩
        · rw [hall 0 hpos] at htarget
          cases htarget
        · intro j hj hall
          rcases Nat.eq_zero_or_pos j with rfl | hj0
          · rw [Nat.add_zero, hwalk]
            rintro ⟨⟩
          · rw [hall 0 hj0] at htarget
            cases htarget

/-- The contract of `copyout`: it says whether all of the range is in pages that the
user may use, it stores in the range only, and all of it if it succeeds; and it takes no
page table entry from where there is none. -/
def CopyoutContract (L : Layout) (cur d : ℕ) (m : Phys) (va : ℕ) (buf : ℕ → Byte) (len : ℕ) :
    Prop :=
  Gives (copyout L cur d va buf len) m
    (fun ok m' => (ok = true ↔ ∀ j < len, (m.target d (va + j)).isSome) ∧
      ∃ k ≤ len, m.Puts m' d va k buf ∧ (ok = true → k = len))
    fun _ _ => False

theorem Nulled.notes_ne (h : Nulled m m') : m'.notes ≠ m.notes := by
  obtain ⟨l, hl, v, hv⟩ := h
  intro heq
  rw [hl] at heq
  have hnil : l = [] := List.append_cancel_left (heq.trans (List.append_nil _).symm)
  rw [hnil] at hv
  cases hv

/-- **`copyout` keeps its contract** if and only if it finds a page table for every page it
comes to. -/
theorem copyout_contract_iff (h : Owned L m { dir := some d, stack := stack }) (hno : m.NoUser d)
    (hva : va + len ≤ 4294967296) :
    CopyoutContract L cur d m va buf len ↔ m.Reaches d va len := by
  have hgives : Gives (copyout L cur d va buf len) m _ _ :=
    Owned.gives_copyoutLoop rfl rfl len h hno hva le_rfl
  constructor
  · intro hcontract
    by_contra hn
    obtain ⟨ok, m', -, ⟨-, k, -, hputs, -⟩, -, hnull⟩ := (hcontract.and hgives).mono
      (fun _ _ h => h) (fun _ _ h => h.1) |>.returns
    exact (hnull hn).notes_ne hputs.notes
  · intro hr
    exact hgives.mono (fun ok m' hq => hq.1 hr) fun _ m' hq => hq.1 hr

/-- There is one page table only. -/
theorem walk_secondTable (hv : v / NPTENTRIES ≠ 1) : secondTable.walk 300 v = none := by
  have hpte : secondTable.pte 300 (v / NPTENTRIES) = 0 := by
    unfold secondTable
    rw [Phys.pte_setPte_ne (Or.inl (by decide))]
    refine (Phys.pte_setPte_ne (Or.inr hv)).trans ?_
    refine (Phys.pte_congr (Phys.byte_setPage_ne (by decide))).trans ?_
    exact Phys.pte_fill_zero
  have hentry : secondTable.entry 300 (v / NPTENTRIES) = none :=
    Phys.entry_of_absent (by rw [hpte]; rfl)
  rw [Phys.walk, hentry]
  rfl

theorem noUser_secondTable : secondTable.NoUser 300 := by
  intro v hlo _ x hx
  rw [walk_secondTable] at hx
  · cases hx
  · unfold KERNPAGE at hlo
    unfold NPTENTRIES
    omega

/-- Three bytes for the first page of the second page table. -/
theorem copyout_contract_secondTable :
    secondTable.Reaches 300 4194304 3 ∧
      CopyoutContract Layout.usual 300 300 secondTable 4194304 (fun _ => 7#8) 3 := by
  have hreaches : secondTable.Reaches 300 4194304 3 := fun j hj _ => by
    have hpage : (4194304 + j) / 4096 = 1024 := by omega
    rw [hpage]
    decide +kernel
  exact ⟨hreaches,
    (copyout_contract_iff owned_secondTable noUser_secondTable (by decide)).mpr hreaches⟩

/-- One byte for address 0, which has no page table: the kernel takes the page table entry
from address 0, which nobody has mapped. -/
theorem copyout_null_entry :
    secondTable.walk 300 0 = none ∧
      (copyout Layout.usual 300 300 0 (fun _ => 7#8) 1).exec secondTable =
        (.error .trap, secondTable.note (.null 0)) :=
  ⟨walk_secondTable (by decide), rfl⟩

end StrideXv6
