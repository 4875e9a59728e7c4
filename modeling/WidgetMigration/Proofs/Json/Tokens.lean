import WidgetMigration.Json.Reader
import Mathlib.Data.Nat.Digits.Defs

/-!
# Printed tokens are read back

A string between quotes and a whole number are read back as they were printed, whatever stands
behind them. A string needs nothing for that, since its quote ends it; a number needs a text behind
it that does not go on with more of a number.
-/

namespace WidgetMigration.Json

open WidgetMigration.Text

/-! ## Strings -/

theorem hexValue?_hexDigit : ∀ n < 16, hexValue? (hexDigit n) = some n := by decide

/-- The four digits of a control character are read as that character. -/
theorem readCodePoint_control (c : Char) (h : c.toNat < 0x20) (s : List Char) :
    readCodePoint ('0' :: '0' :: hexDigit (c.toNat / 16) :: hexDigit (c.toNat % 16) :: s) =
      some (c, s) := by
  have hzero : hexValue? '0' = some 0 := by decide
  have hhigh := hexValue?_hexDigit (c.toNat / 16) (by omega)
  have hlow := hexValue?_hexDigit (c.toNat % 16) (by omega)
  have hunit : readUnit ('0' :: '0' :: hexDigit (c.toNat / 16) :: hexDigit (c.toNat % 16) :: s) =
      some (c.toNat, s) := by
    simp only [readUnit, hzero, hhigh, hlow, Option.bind_eq_bind, Option.bind_some]
    rw [show 0 * 4096 + 0 * 256 + c.toNat / 16 * 16 + c.toNat % 16 = c.toNat by omega]
  simp only [readCodePoint, hunit, Option.bind_some]
  rw [if_pos (.inl (by omega)), Char.ofNat_toNat]

/-- A character is written as itself, or as a backslash with an escape that stands for it. -/
theorem escapeChar_cases (c : Char) :
    (∃ e, escapeChar c = '\\' :: e ∧ ∀ s, readEscape (e ++ s) = some (c, s)) ∨
      (escapeChar c = [c] ∧ c ≠ '"' ∧ c ≠ '\\' ∧ ¬c.toNat < 0x20) := by
  unfold escapeChar
  split_ifs with hquote hbackslash hn hr ht hb hf hcontrol
  · subst hquote; exact .inl ⟨_, rfl, fun _ => rfl⟩
  · subst hbackslash; exact .inl ⟨_, rfl, fun _ => rfl⟩
  · subst hn; exact .inl ⟨_, rfl, fun _ => rfl⟩
  · subst hr; exact .inl ⟨_, rfl, fun _ => rfl⟩
  · subst ht; exact .inl ⟨_, rfl, fun _ => rfl⟩
  · subst hb; exact .inl ⟨_, rfl, fun _ => rfl⟩
  · subst hf; exact .inl ⟨_, rfl, fun _ => rfl⟩
  · exact .inl ⟨_, rfl, fun s => readCodePoint_control c hcontrol s⟩
  · exact .inr ⟨rfl, hquote, hbackslash, hcontrol⟩

/-- One character of a string is read as it was written. -/
theorem readString_escapeChar (c : Char) (size : Nat) (s : List Char) :
    readString (size + 1) (escapeChar c ++ s) =
      (readString size s).map fun (t, rest) => (c :: t, rest) := by
  obtain ⟨e, he, hread⟩ | ⟨hc, hquote, hbackslash, hcontrol⟩ := escapeChar_cases c
  · rw [he, List.cons_append, readString, if_neg (by decide), if_pos rfl, hread, Option.bind_some]
  · rw [hc, List.singleton_append, readString, if_neg hquote, if_neg hbackslash, if_neg hcontrol]

theorem readString_escaped (t rest : List Char) (size : Nat) (h : t.length ≤ size) :
    readString size (t.flatMap escapeChar ++ '"' :: rest) = some (t, rest) := by
  induction t generalizing size with
  | nil => cases size <;> rfl
  | cons c t ih =>
    obtain ⟨size, rfl⟩ : ∃ n, size = n + 1 := ⟨size - 1, by simp at h; omega⟩
    rw [List.flatMap_cons, List.append_assoc, readString_escapeChar,
      ih size (by simpa using h), Option.map_some]

theorem length_le_length_flatMap_escapeChar (t : List Char) :
    t.length ≤ (t.flatMap escapeChar).length := by
  induction t with
  | nil => simp
  | cons c t ih =>
    have hc : 1 ≤ (escapeChar c).length := by
      obtain ⟨e, he, -⟩ | ⟨hc, -⟩ := escapeChar_cases c
      · simp [he]
      · simp [hc]
    simp only [List.flatMap_cons, List.length_append, List.length_cons]
    omega

/-- A printed string is read back behind its opening quote, the text giving the bound. -/
theorem readString_printString (s : String) (rest : List Char) :
    ∃ t, printString s ++ rest = '"' :: t ∧ readString t.length t = some (s.toList, rest) := by
  refine ⟨s.toList.flatMap escapeChar ++ '"' :: rest, by simp [printString], ?_⟩
  refine readString_escaped s.toList rest _ ?_
  have := length_le_length_flatMap_escapeChar s.toList
  simp only [List.length_append]
  omega

/-! ## Numbers -/

/-- A text that ends the number before it: no digit, point or exponent is at its head. -/
def EndsNumber (s : List Char) : Prop :=
  ∀ c ∈ s.head?, c.isDigit = false ∧ c ≠ '.' ∧ c ≠ 'e' ∧ c ≠ 'E'

theorem endsNumber_newLine (level : Nat) (s : List Char) : EndsNumber (newLine level ++ s) := by
  simp [EndsNumber, newLine]

theorem endsNumber_comma (s : List Char) : EndsNumber (',' :: s) := by
  simp [EndsNumber]

theorem natOfDigits_natDigits (n : Nat) : natOfDigits (natDigits n) = n := by
  have h := Nat.ofDigitChars_toDigits (b := 10) (n := n) (by decide) (by decide)
  simpa [natOfDigits, natDigits, Nat.ofDigitChars, Nat.mul_comm] using h

theorem isDigit_of_mem_natDigits {n : Nat} {c : Char} (h : c ∈ natDigits n) : c.isDigit = true :=
  Nat.isDigit_of_mem_toDigits (by decide) (by decide) h

/-- A natural number begins with a digit. -/
theorem natDigits_eq_cons (n : Nat) : ∃ d ds, natDigits n = d :: ds ∧ d.isDigit = true := by
  obtain ⟨d, ds, h⟩ := List.exists_cons_of_ne_nil (Nat.toDigits_ne_nil (n := n) (b := 10))
  have hds : natDigits n = d :: ds := h
  exact ⟨d, ds, hds, isDigit_of_mem_natDigits (n := n) (by simp [hds])⟩

/-- Only the number zero has a zero for its first digit. -/
theorem natDigits_head (n : Nat) : natDigits n = ['0'] ∨ (natDigits n).head? ≠ some '0' := by
  induction n using Nat.strong_induction_on with
  | h n ih =>
    by_cases hn : n < 10
    · have hdigit : ∀ m < 10, [Nat.digitChar m] = ['0'] ∨ [Nat.digitChar m].head? ≠ some '0' := by
        decide
      simpa only [natDigits, Nat.toDigits_of_lt_base hn] using hdigit n hn
    · have hsplit : natDigits n = natDigits (n / 10) ++ natDigits (n % 10) := by
        have := Nat.toDigits_append_toDigits (b := 10) (n := n / 10) (d := n % 10) (by decide)
          (by omega) (by omega)
        rw [Nat.div_add_mod] at this
        exact this.symm
      have hhead : (natDigits n).head? = (natDigits (n / 10)).head? := by
        obtain ⟨d, ds, hds, -⟩ := natDigits_eq_cons (n / 10)
        rw [hsplit, hds]
        rfl
      rw [hhead]
      refine .inr ?_
      rcases ih (n / 10) (by omega) with hzero | hne
      · have := natOfDigits_natDigits (n / 10)
        rw [hzero, show natOfDigits ['0'] = 0 by decide] at this
        omega
      · exact hne

theorem readDigits_natDigits (n : Nat) {rest : List Char} (h : EndsNumber rest) :
    readDigits (natDigits n ++ rest) = some (natDigits n, rest) := by
  have hdigits : ∀ c ∈ natDigits n, c.isDigit = true := fun c => isDigit_of_mem_natDigits
  have htake : rest.takeWhile Char.isDigit = [] := by
    cases rest with
    | nil => rfl
    | cons c s => simp [(h c (by simp)).1]
  have hdrop : rest.dropWhile Char.isDigit = rest := by
    cases rest with
    | nil => rfl
    | cons c s => simp [(h c (by simp)).1]
  obtain ⟨d, ds, hds, -⟩ := natDigits_eq_cons n
  rw [readDigits, List.takeWhile_append_of_pos hdigits, List.dropWhile_append_of_pos hdigits, htake,
    hdrop, List.append_nil, hds]

theorem readWhole_natDigits (n : Nat) {rest : List Char} (h : EndsNumber rest) :
    readWhole (natDigits n ++ rest) = some (natDigits n, rest) := by
  rw [readWhole, readDigits_natDigits n h, Option.bind_some]
  dsimp only
  split
  · rename_i ds hds
    rcases natDigits_head n with hzero | hhead
    · simp [hzero] at hds
    · simp [hds] at hhead
  · rfl

theorem readFraction_of_endsNumber {s : List Char} (h : EndsNumber s) :
    readFraction s = some ([], s) := by
  unfold readFraction
  split
  · exact absurd rfl (h '.' (by simp)).2.1
  · rfl

theorem readExponent_of_endsNumber {s : List Char} (h : EndsNumber s) :
    readExponent s = some (none, s) := by
  unfold readExponent
  split
  · exact absurd rfl (h 'e' (by simp)).2.2.1
  · exact absurd rfl (h 'E' (by simp)).2.2.2
  · rfl

theorem readSize_natDigits (negative : Bool) (n : Nat) {rest : List Char} (h : EndsNumber rest)
    (hzero : ¬(negative = true ∧ n = 0)) :
    readSize negative (natDigits n ++ rest) =
      some (.int (if negative then -(n : Int) else n), rest) := by
  simp only [readSize, readWhole_natDigits n h, readFraction_of_endsNumber h,
    readExponent_of_endsNumber h, Option.bind_some, natOfDigits_natDigits]
  rw [if_pos ⟨trivial, trivial, hzero⟩]

/-- A printed whole number begins with a sign or a digit. -/
theorem printInt_head (n : Int) :
    ∃ c s, printInt n = c :: s ∧ (c = '-' ∨ c.isDigit = true) := by
  cases n with
  | ofNat n =>
    obtain ⟨d, ds, hds, hdigit⟩ := natDigits_eq_cons n
    exact ⟨d, ds, hds, .inr hdigit⟩
  | negSucc n => exact ⟨'-', _, rfl, .inl rfl⟩

/-- A printed whole number is read back if the text behind it ends it. -/
theorem readNumber_printInt (n : Int) {rest : List Char} (h : EndsNumber rest) :
    readNumber (printInt n ++ rest) = some (.int n, rest) := by
  cases n with
  | ofNat n =>
    have hread := readSize_natDigits false n h (by simp)
    rw [printInt]
    unfold readNumber
    split
    · rename_i s hs
      obtain ⟨d, ds, hds, hdigit⟩ := natDigits_eq_cons n
      rw [hds, List.cons_append, List.cons.injEq] at hs
      rw [hs.1] at hdigit
      exact absurd hdigit (by decide)
    · simpa using hread
  | negSucc n =>
    have hread := readSize_natDigits true (n + 1) h (by simp)
    rw [printInt, List.cons_append, readNumber, hread]
    rfl

end WidgetMigration.Json
