import Mathlib.Data.List.Basic
import WidgetMigration.Text.Utf8

/-!
# Texts and their bytes

Some bytes hold a text exactly when they are its encoding (`decode?_eq_some_iff`). So a text that was
written is the text that is read back, and a file that is written with the text it held keeps its
bytes.

Both directions go character by character: a unit is a character exactly when its bytes are the
encoding of the character (`readUnit_eq_some_iff`). A byte is taken for what it is worth as a number,
and what is left is arithmetic on quotients and remainders by 64, in one case for each length that a
sequence can have.
-/

namespace WidgetMigration.Utf8

theorem toNat_ofNat {n : Nat} (h : n.isValidChar) : (Char.ofNat n).toNat = n := by
  rw [Char.ofNat, dif_pos h]
  rfl

theorem ofNat_eq {n : Nat} {b : UInt8} (h : n = b.toNat) : UInt8.ofNat n = b := by
  subst h
  exact UInt8.ofNat_toNat

/-- The bytes of a character, in terms of its number. -/
theorem utf8EncodeChar_eq (c : Char) :
    String.utf8EncodeChar c =
      if c.toNat ≤ 0x7F then [UInt8.ofNat c.toNat]
      else if c.toNat ≤ 0x7FF then
        [UInt8.ofNat (c.toNat / 64 % 0x20 + 0xC0), UInt8.ofNat (c.toNat % 0x40 + 0x80)]
      else if c.toNat ≤ 0xFFFF then
        [UInt8.ofNat (c.toNat / 4096 % 0x10 + 0xE0), UInt8.ofNat (c.toNat / 64 % 0x40 + 0x80),
          UInt8.ofNat (c.toNat % 0x40 + 0x80)]
      else
        [UInt8.ofNat (c.toNat / 262144 % 0x08 + 0xF0), UInt8.ofNat (c.toNat / 4096 % 0x40 + 0x80),
          UInt8.ofNat (c.toNat / 64 % 0x40 + 0x80), UInt8.ofNat (c.toNat % 0x40 + 0x80)] := rfl

/-! ## Reading a unit -/

/-- What a first byte announces, told by its value. -/
theorem lead?_cases (b : UInt8) :
    (b.toNat < 0x80 ∧ lead? b = some ⟨0, 0x80, 0xBF, b.toNat⟩) ∨
    (0xC2 ≤ b.toNat ∧ b.toNat < 0xE0 ∧ lead? b = some ⟨1, 0x80, 0xBF, b.toNat - 0xC0⟩) ∨
    (0xE0 ≤ b.toNat ∧ b.toNat < 0xF0 ∧ lead? b = some ⟨2, if b.toNat = 0xE0 then 0xA0 else 0x80,
      if b.toNat = 0xED then 0x9F else 0xBF, b.toNat - 0xE0⟩) ∨
    (0xF0 ≤ b.toNat ∧ b.toNat < 0xF5 ∧ lead? b = some ⟨3, if b.toNat = 0xF0 then 0x90 else 0x80,
      if b.toNat = 0xF4 then 0x8F else 0xBF, b.toNat - 0xF0⟩) ∨
    (((0x80 ≤ b.toNat ∧ b.toNat < 0xC2) ∨ 0xF5 ≤ b.toNat) ∧ lead? b = none) := by
  unfold lead?
  simp only [UInt8.lt_iff_toNat_lt, ← UInt8.toNat_inj]
  split_ifs <;> simp_all

theorem readFollowing_zero {low high : UInt8} {bits : Nat} {bs rest : List UInt8} {c : Char} :
    readFollowing low high bits 0 bs = (some c, rest) ↔ c = Char.ofNat bits ∧ bs = rest := by
  simp [readFollowing, eq_comm]

/-- One more byte of a sequence: it is there, it is within the bounds, and the rest can be read. -/
theorem readFollowing_succ {low high : UInt8} {bits n : Nat} {bs rest : List UInt8} {c : Char} :
    readFollowing low high bits (n + 1) bs = (some c, rest) ↔
      ∃ b bs', bs = b :: bs' ∧ low.toNat ≤ b.toNat ∧ b.toNat ≤ high.toNat ∧
        readFollowing 0x80 0xBF (bits * 64 + (b.toNat - 0x80)) n bs' = (some c, rest) := by
  cases bs with
  | nil => simp [readFollowing]
  | cons b bs =>
    simp only [readFollowing, UInt8.le_iff_toNat_le]
    split_ifs with h
    · simp [h]
    · simp only [Prod.mk.injEq, reduceCtorEq, false_and, List.cons.injEq, false_iff]
      rintro ⟨b', bs', ⟨rfl, rfl⟩, hlow, hhigh, -⟩
      exact h ⟨hlow, hhigh⟩

theorem ite_toNat_le_iff {p : Prop} [Decidable p] {a b : UInt8} {n : Nat} :
    (if p then a else b).toNat ≤ n ↔ (p → a.toNat ≤ n) ∧ (¬p → b.toNat ≤ n) := by
  split <;> simp_all

theorem le_ite_toNat_iff {p : Prop} [Decidable p] {a b : UInt8} {n : Nat} :
    n ≤ (if p then a else b).toNat ↔ (p → n ≤ a.toNat) ∧ (¬p → n ≤ b.toNat) := by
  split <;> simp_all

theorem encode_of_readUnit {b : UInt8} {bs rest : List UInt8} {c : Char}
    (h : readUnit b bs = (some c, rest)) : String.utf8EncodeChar c ++ rest = b :: bs := by
  unfold readUnit at h
  rcases lead?_cases b with ⟨hb, hl⟩ | ⟨hb, hb', hl⟩ | ⟨hb, hb', hl⟩ | ⟨hb, hb', hl⟩ | ⟨_, hl⟩
  · simp only [hl, readFollowing_zero] at h
    obtain ⟨hc, rfl⟩ := h
    have hv : c.toNat = b.toNat := by
      rw [hc, toNat_ofNat]
      unfold Nat.isValidChar
      omega
    rw [utf8EncodeChar_eq, if_pos (by omega), ofNat_eq hv]
    rfl
  · simp only [hl, readFollowing_succ, readFollowing_zero, UInt8.reduceToNat] at h
    obtain ⟨b₁, _, rfl, hlow, hhigh, hc, rfl⟩ := h
    have hv : c.toNat = (b.toNat - 0xC0) * 64 + (b₁.toNat - 0x80) := by
      rw [hc, toNat_ofNat]
      unfold Nat.isValidChar
      omega
    rw [utf8EncodeChar_eq, if_neg (by omega), if_pos (by omega), ofNat_eq (b := b) (by omega),
      ofNat_eq (b := b₁) (by omega)]
    rfl
  · simp only [hl, readFollowing_succ, readFollowing_zero, ite_toNat_le_iff,
      le_ite_toNat_iff, UInt8.reduceToNat] at h
    obtain ⟨b₁, _, rfl, hlow₁, hhigh₁, b₂, _, rfl, hlow₂, hhigh₂, hc, rfl⟩ := h
    have hv : c.toNat = ((b.toNat - 0xE0) * 64 + (b₁.toNat - 0x80)) * 64 + (b₂.toNat - 0x80) := by
      rw [hc, toNat_ofNat]
      unfold Nat.isValidChar
      omega
    rw [utf8EncodeChar_eq, if_neg (by omega), if_neg (by omega), if_pos (by omega),
      ofNat_eq (b := b) (by omega), ofNat_eq (b := b₁) (by omega), ofNat_eq (b := b₂) (by omega)]
    rfl
  · simp only [hl, readFollowing_succ, readFollowing_zero, ite_toNat_le_iff,
      le_ite_toNat_iff, UInt8.reduceToNat] at h
    obtain ⟨b₁, _, rfl, hlow₁, hhigh₁, b₂, _, rfl, hlow₂, hhigh₂, b₃, _, rfl, hlow₃, hhigh₃, hc,
      rfl⟩ := h
    have hv : c.toNat = (((b.toNat - 0xF0) * 64 + (b₁.toNat - 0x80)) * 64 + (b₂.toNat - 0x80)) * 64
        + (b₃.toNat - 0x80) := by
      rw [hc, toNat_ofNat]
      unfold Nat.isValidChar
      omega
    rw [utf8EncodeChar_eq, if_neg (by omega), if_neg (by omega), if_neg (by omega),
      ofNat_eq (b := b) (by omega), ofNat_eq (b := b₁) (by omega), ofNat_eq (b := b₂) (by omega),
      ofNat_eq (b := b₃) (by omega)]
    rfl
  · simp [hl] at h

theorem readUnit_of_encode {b : UInt8} {bs rest : List UInt8} {c : Char}
    (h : String.utf8EncodeChar c ++ rest = b :: bs) : readUnit b bs = (some c, rest) := by
  have hvalid : c.toNat < 0xD800 ∨ 0xDFFF < c.toNat ∧ c.toNat < 0x110000 := c.valid
  have hbyte (n : Nat) : (UInt8.ofNat n).toNat = n % 256 := UInt8.toNat_ofNat'
  rw [utf8EncodeChar_eq] at h
  unfold readUnit
  split_ifs at h with h₁ h₂ h₃ <;> obtain ⟨hb, rfl⟩ := List.cons.inj h
  · have e : b.toNat = c.toNat := by rw [← hb, hbyte]; omega
    rcases lead?_cases b with ⟨_, hl⟩ | h' | h' | h' | h'
    · simp only [hl, readFollowing_zero]
      exact ⟨by rw [e, c.ofNat_toNat], rfl⟩
    all_goals omega
  · have e : b.toNat = c.toNat / 64 + 0xC0 := by rw [← hb, hbyte]; omega
    rcases lead?_cases b with h' | ⟨_, _, hl⟩ | h' | h' | h'
    · omega
    · simp only [hl, readFollowing_succ, readFollowing_zero, UInt8.reduceToNat]
      refine ⟨_, _, rfl, ?_, ?_, ?_, rfl⟩ <;> simp only [hbyte]
      · omega
      · omega
      · exact c.ofNat_toNat.symm.trans (congrArg Char.ofNat (by omega))
    all_goals omega
  · have e : b.toNat = c.toNat / 4096 + 0xE0 := by rw [← hb, hbyte]; omega
    rcases lead?_cases b with h' | h' | ⟨_, _, hl⟩ | h' | h'
    · omega
    · omega
    · simp only [hl, readFollowing_succ, readFollowing_zero, ite_toNat_le_iff, le_ite_toNat_iff,
        UInt8.reduceToNat]
      refine ⟨_, _, rfl, ?_, ?_, _, _, rfl, ?_, ?_, ?_, rfl⟩ <;> simp only [hbyte]
      · omega
      · omega
      · omega
      · omega
      · exact c.ofNat_toNat.symm.trans (congrArg Char.ofNat (by omega))
    all_goals omega
  · have e : b.toNat = c.toNat / 262144 + 0xF0 := by rw [← hb, hbyte]; omega
    rcases lead?_cases b with h' | h' | h' | ⟨_, _, hl⟩ | h'
    · omega
    · omega
    · omega
    · simp only [hl, readFollowing_succ, readFollowing_zero, ite_toNat_le_iff, le_ite_toNat_iff,
        UInt8.reduceToNat]
      refine ⟨_, _, rfl, ?_, ?_, _, _, rfl, ?_, ?_, _, _, rfl, ?_, ?_, ?_, rfl⟩ <;> simp only [hbyte]
      · omega
      · omega
      · omega
      · omega
      · omega
      · omega
      · exact c.ofNat_toNat.symm.trans (congrArg Char.ofNat (by omega))
    · omega

/-- A unit is a character exactly when its bytes are the encoding of the character. -/
theorem readUnit_eq_some_iff {b : UInt8} {bs rest : List UInt8} {c : Char} :
    readUnit b bs = (some c, rest) ↔ String.utf8EncodeChar c ++ rest = b :: bs :=
  ⟨encode_of_readUnit, readUnit_of_encode⟩

/-! ## Texts -/

theorem units_cons {b : UInt8} {bs rest : List UInt8} {u : Option Char}
    (h : readUnit b bs = (u, rest)) : units (b :: bs) = u :: units rest := by
  rw [units, h]

/-- **The units of some bytes are all characters exactly when the bytes are the encoding of these
characters.** -/
theorem allSome_units_eq_some_iff {bs : List UInt8} {cs : List Char} :
    allSome (units bs) = some cs ↔ cs.flatMap String.utf8EncodeChar = bs := by
  constructor
  · intro h
    fun_induction units bs generalizing cs with
    | case1 =>
      cases h
      rfl
    | case2 b bs _ ih =>
      cases hu : readUnit b bs with
      | mk u rest =>
        rw [hu] at h ih
        cases u with
        | none => cases h
        | some c =>
          obtain ⟨cs', hcs', rfl⟩ := Option.map_eq_some_iff.mp h
          rw [List.flatMap_cons, ih hcs', readUnit_eq_some_iff.mp hu]
  · rintro rfl
    induction cs with
    | nil => simp [units, allSome]
    | cons c cs ih =>
      cases hbytes : String.utf8EncodeChar c ++ cs.flatMap String.utf8EncodeChar with
      | nil =>
        rw [utf8EncodeChar_eq] at hbytes
        split_ifs at hbytes <;> cases hbytes
      | cons b bs =>
        rw [List.flatMap_cons, hbytes, units_cons (readUnit_eq_some_iff.mpr hbytes)]
        exact congrArg (Option.map (c :: ·)) ih

/-- **Bytes hold a text exactly when they are its encoding.** -/
theorem decode?_eq_some_iff {bs : List UInt8} {s : String} : decode? bs = some s ↔ encode s = bs := by
  rw [decode?, encode, Option.map_eq_some_iff, ← allSome_units_eq_some_iff]
  constructor
  · rintro ⟨cs, hcs, rfl⟩
    rwa [String.toList_ofList]
  · intro h
    exact ⟨s.toList, h, String.ofList_toList⟩

@[simp] theorem decode?_encode (s : String) : decode? (encode s) = some s :=
  decode?_eq_some_iff.mpr rfl

theorem eq_map_some_of_allSome {α : Type} {l : List (Option α)} {as : List α}
    (h : allSome l = some as) : l = as.map some := by
  induction l generalizing as with
  | nil =>
    cases h
    rfl
  | cons a l ih =>
    cases a with
    | none => cases h
    | some a =>
      obtain ⟨as, has, rfl⟩ := Option.map_eq_some_iff.mp h
      rw [ih has]
      rfl

/-- Nothing of a text is replaced. -/
theorem decodeLossy_encode (s : String) : decodeLossy (encode s) = s := by
  have hunits := eq_map_some_of_allSome (allSome_units_eq_some_iff.mpr (rfl : _ = encode s))
  rw [decodeLossy, hunits, List.map_map]
  show String.ofList (s.toList.map id) = s
  rw [List.map_id, String.ofList_toList]

theorem encode_injective {s s' : String} (h : encode s = encode s') : s = s' := by
  have hdecode := congrArg decode? h
  rw [decode?_encode, decode?_encode] at hdecode
  exact Option.some.inj hdecode

/-- A byte below 80 stands for a character on its own. -/
theorem eq_of_mem_utf8EncodeChar {c : Char} {b : UInt8} (hb : b.toNat < 0x80)
    (h : b ∈ String.utf8EncodeChar c) : c.toNat = b.toNat := by
  have hlarge : ∀ n, 0x80 ≤ n → n < 256 → b ≠ UInt8.ofNat n := by
    rintro n hn hn' rfl
    rw [UInt8.toNat_ofNat_of_lt' hn'] at hb
    omega
  have hc : c.toNat < 0x110000 := by
    have := c.valid
    unfold UInt32.isValidChar Nat.isValidChar at this
    change c.val.toNat < 0x110000
    omega
  rw [utf8EncodeChar_eq] at h
  split_ifs at h with h₁ h₂ h₃
  · have hsmall : c.toNat < 256 := by omega
    rw [List.mem_singleton.mp h, UInt8.toNat_ofNat_of_lt' hsmall]
  all_goals
    simp only [List.mem_cons, List.not_mem_nil, or_false] at h
    exfalso
  · rcases h with h | h
    · exact hlarge _ (by omega) (by omega) h
    · exact hlarge _ (by omega) (by omega) h
  · rcases h with h | h | h
    · exact hlarge _ (by omega) (by omega) h
    · exact hlarge _ (by omega) (by omega) h
    · exact hlarge _ (by omega) (by omega) h
  · rcases h with h | h | h | h
    · exact hlarge _ (by omega) (by omega) h
    · exact hlarge _ (by omega) (by omega) h
    · exact hlarge _ (by omega) (by omega) h
    · exact hlarge _ (by omega) (by omega) h

/-! ## Cutting a text at a byte -/

/-- The bytes of a text that is a text behind another. -/
theorem encode_append (s s' : String) : encode (s ++ s') = encode s ++ encode s' := by
  rw [encode, String.toList_append, List.flatMap_append]
  rfl

/-- No sequence of more than one byte holds a byte below 80. -/
theorem utf8EncodeChar_eq_append_cons {c : Char} {b : UInt8} (hb : b.toNat < 0x80)
    {before after : List UInt8} (h : String.utf8EncodeChar c = before ++ b :: after) :
    before = [] ∧ after = [] := by
  have hmem : b ∈ String.utf8EncodeChar c := h ▸ List.mem_append_right _ List.mem_cons_self
  have hnat := eq_of_mem_utf8EncodeChar hb hmem
  have hsmall : c.toNat ≤ 0x7F := by omega
  rw [utf8EncodeChar_eq, if_pos hsmall] at h
  cases before with
  | nil => exact ⟨rfl, (List.cons.inj h).2.symm⟩
  | cons d before =>
    have hnil := (List.cons.inj h).2.symm
    exact absurd hnil (List.append_ne_nil_of_right_ne_nil _ (List.cons_ne_nil _ _))

/-- **A text cut at a byte below 80 leaves two texts.** -/
theorem exists_of_encode_eq_append_cons {s : String} {b : UInt8} (hb : b.toNat < 0x80)
    {before after : List UInt8} (h : encode s = before ++ b :: after) :
    ∃ t t', encode t = before ∧ encode t' = after := by
  rw [encode] at h
  generalize s.toList = cs at h
  suffices hcut : ∃ ds ds' : List Char, ds.flatMap String.utf8EncodeChar = before ∧
      ds'.flatMap String.utf8EncodeChar = after by
    obtain ⟨ds, ds', hbefore, hafter⟩ := hcut
    refine ⟨String.ofList ds, String.ofList ds', ?_, ?_⟩
    · rw [encode, String.toList_ofList, hbefore]
    · rw [encode, String.toList_ofList, hafter]
  induction cs generalizing before with
  | nil => exact absurd h.symm (List.append_ne_nil_of_right_ne_nil _ (List.cons_ne_nil _ _))
  | cons c cs ih =>
    rw [List.flatMap_cons] at h
    rcases List.append_eq_append_iff.mp h with ⟨rest, hbefore, hrest⟩ | ⟨rest, hchar, hrest⟩
    · obtain ⟨ds, ds', hds, hds'⟩ := ih hrest
      exact ⟨c :: ds, ds', by rw [List.flatMap_cons, hds, hbefore], hds'⟩
    · cases rest with
      | nil =>
        rw [List.append_nil] at hchar
        have hnext : cs.flatMap String.utf8EncodeChar = [] ++ b :: after := hrest.symm
        obtain ⟨ds, ds', hds, hds'⟩ := ih hnext
        exact ⟨[c], ds', by rw [List.flatMap_singleton, hchar], hds'⟩
      | cons b' rest =>
        rw [List.cons_append, List.cons.injEq] at hrest
        obtain ⟨rfl, hafter⟩ := hrest
        obtain ⟨rfl, rfl⟩ := utf8EncodeChar_eq_append_cons hb hchar
        exact ⟨[], cs, rfl, hafter.symm⟩

end WidgetMigration.Utf8
