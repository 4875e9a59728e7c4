import WidgetMigration.Proofs.Text.Splitting
import WidgetMigration.Wildcard.Pattern

/-!
# Reading an escaped text

An escaped text is read as elements that stand for its own characters (`readTokens_escape`), and they
describe this text alone (`matchTokens_escape`). So an escaped component of a path is read as one part
(`read_escape`, from `ofTokens_escape`), and this part stands for one name (`accepts_partOf`).
-/

namespace WidgetMigration.Wildcard

/-! ## The equations of reading -/

theorem readTokens_plain {c : Char} (hany : c ≠ '?') (hstar : c ≠ '*') (hset : c ≠ '[')
    (position : Nat) (before : Option Char) (s : List Char) :
    readTokens position before (c :: s) =
      (readTokens (position + 1) (some c) s).map (.char c :: ·) := by
  rw [readTokens]
  · exact fun h => absurd h hany
  · exact fun _ h _ => absurd h hstar
  · exact fun _ h _ => absurd h hstar
  · exact fun h => absurd h hstar
  · exact fun h => absurd h hset

theorem readTokens_star {c : Char} (hstar : c ≠ '*') (position : Nat) (before : Option Char)
    (s : List Char) :
    readTokens position before ('*' :: c :: s) =
      (readTokens (position + 1) (some '*') (c :: s)).map (.anyRun :: ·) := by
  rw [readTokens]
  · exact fun _ h => absurd (List.cons.inj h).1 hstar
  · exact fun _ h => absurd (List.cons.inj h).1 hstar

/-- A set of one character. -/
theorem readTokens_set {c : Char} (hc : c ≠ '!') (position : Nat) (before : Option Char)
    (s : List Char) :
    ∃ position', readTokens position before ('[' :: c :: ']' :: s) =
      (readTokens position' (some ']') s).map (.oneOf [.single c] :: ·) := by
  have hcut : cutSet (c :: ']' :: s) = some ([c], s) := by
    simp [cutSet]
  have hread : readSet (c :: ']' :: s) = some (.oneOf [.single c], s) := by
    rw [readSet, hcut]
    · rfl
    · exact fun _ h => absurd (List.cons.inj h).1 hc
  rw [readTokens]
  split
  · rename_i hnone
    rw [hread] at hnone
    cases hnone
  · rename_i r hr
    rw [hread] at hr
    cases hr
    exact ⟨_, rfl⟩

/-! ## Escaped texts -/

/-- The characters of an escaped text. -/
def escaped (s : List Char) : List Char :=
  s.flatMap fun c => if isSpecial c then ['[', c, ']'] else [c]

/-- The element that an escaped character is read as. -/
def elementOf (c : Char) : Token :=
  if isSpecial c then .oneOf [.single c] else .char c

theorem toList_escape (s : String) : (escape s).toList = escaped s.toList :=
  String.toList_ofList

theorem escaped_cons (c : Char) (s : List Char) :
    escaped (c :: s) = (if isSpecial c then ['[', c, ']'] else [c]) ++ escaped s := rfl

theorem ne_of_isSpecial_eq_false {c : Char} (h : isSpecial c = false) :
    c ≠ '?' ∧ c ≠ '*' ∧ c ≠ '[' := by
  refine ⟨?_, ?_, ?_⟩ <;> (rintro rfl; exact absurd h (by decide))

theorem map_map_except {ε α β γ : Type} (x : Except ε α) (f : α → β) (g : β → γ) :
    (x.map f).map g = x.map fun a => g (f a) := by
  cases x <;> rfl

/-- **An escaped text is read character by character**, as elements that stand for themselves. -/
theorem readTokens_escape (s rest : List Char) (position : Nat) (before : Option Char) :
    ∃ position' before', readTokens position before (escaped s ++ rest) =
      (readTokens position' before' rest).map (s.map elementOf ++ ·) := by
  induction s generalizing position before with
  | nil =>
    refine ⟨position, before, ?_⟩
    show readTokens position before rest = (readTokens position before rest).map id
    cases readTokens position before rest <;> rfl
  | cons c s ih =>
    cases hc : isSpecial c with
    | true =>
      have hbang : c ≠ '!' := by
        rintro rfl
        exact absurd hc (by decide)
      obtain ⟨position₁, hset⟩ := readTokens_set hbang position before (escaped s ++ rest)
      obtain ⟨position', before', hrest⟩ := ih position₁ (some ']')
      refine ⟨position', before', ?_⟩
      rw [escaped_cons, hc]
      show readTokens position before ('[' :: c :: ']' :: (escaped s ++ rest)) = _
      rw [hset, hrest, map_map_except]
      simp only [List.map_cons, elementOf, hc, if_true, List.cons_append]
    | false =>
      obtain ⟨hany, hstar, hopen⟩ := ne_of_isSpecial_eq_false hc
      obtain ⟨position', before', hrest⟩ := ih (position + 1) (some c)
      refine ⟨position', before', ?_⟩
      rw [escaped_cons, hc]
      show readTokens position before (c :: (escaped s ++ rest)) = _
      rw [readTokens_plain hany hstar hopen, hrest, map_map_except]
      simp only [List.map_cons, elementOf, hc, Bool.false_eq_true, if_false, List.cons_append]

/-- Characters without a meaning are read as themselves; a closing bracket has one only in a set. -/
theorem readTokens_plain_run {s : List Char} (h : ∀ c ∈ s, c ≠ '?' ∧ c ≠ '*' ∧ c ≠ '[')
    (position : Nat) (before : Option Char) :
    readTokens position before s = .ok (s.map .char) := by
  induction s generalizing position before with
  | nil =>
    rw [readTokens]
    rfl
  | cons c s ih =>
    obtain ⟨⟨hany, hstar, hopen⟩, hs⟩ := List.forall_mem_cons.mp h
    rw [readTokens_plain hany hstar hopen, ih hs]
    rfl

/-! ## What an escaped text stands for -/

theorem matchTokens_escape (s name : List Char) :
    matchTokens (s.map elementOf) name = true ↔ name = s := by
  induction s generalizing name with
  | nil =>
    rw [List.map_nil, matchTokens, List.isEmpty_iff]
  | cons c s ih =>
    rw [List.map_cons, elementOf]
    cases hc : isSpecial c with
    | true =>
      simp only [if_true]
      cases name with
      | nil => simp [matchTokens]
      | cons d name =>
        rw [matchTokens, Bool.and_eq_true, ih]
        simp [CharRange.has]
    | false =>
      simp only [Bool.false_eq_true, if_false]
      cases name with
      | nil => simp [matchTokens]
      | cons d name =>
        rw [matchTokens, Bool.and_eq_true, ih, beq_iff_eq, List.cons.injEq]
        exact and_congr_left fun _ => eq_comm

theorem literal?_escape (s : List Char) :
    literal? (s.map elementOf) = if s.any isSpecial then none else some s := by
  induction s with
  | nil => rfl
  | cons c s ih =>
    rw [List.map_cons, elementOf]
    cases hc : isSpecial c with
    | true => simp [literal?, hc]
    | false =>
      simp only [Bool.false_eq_true, if_false, literal?, ih, List.any_cons, hc, Bool.false_or]
      cases s.any isSpecial <;> rfl

/-- The part that an escaped component is read as. -/
def partOf (component : List Char) : Part :=
  if component.any isSpecial then .wildcard (component.map elementOf) else .literal component

theorem ofTokens_escape (component : List Char) :
    Part.ofTokens (component.map elementOf) = partOf component := by
  have hnone : (component.map elementOf).contains .anyDirectories = false := by
    rw [← Bool.not_eq_true, List.contains_iff_mem, List.mem_map]
    rintro ⟨c, _, hc⟩
    unfold elementOf at hc
    cases hspecial : isSpecial c <;> simp [hspecial] at hc
  unfold Part.ofTokens partOf
  rw [literal?_escape]
  cases component.any isSpecial
  · rfl
  · simp only [if_true, hnone, Bool.false_eq_true, if_false]

theorem read_escape (component : List Char) :
    Part.read (escaped component) = .ok (partOf component) := by
  obtain ⟨position, before, h⟩ := readTokens_escape component [] 0 none
  rw [List.append_nil, readTokens_plain_run (fun _ hc => absurd hc List.not_mem_nil)] at h
  unfold Part.read
  rw [h, ← ofTokens_escape]
  simp [Except.map]

/-- The part of a component stands for this component alone. -/
theorem accepts_partOf (c name : List Char) : (partOf c).accepts name = true ↔ name = c := by
  unfold partOf
  cases c.any isSpecial with
  | true => exact matchTokens_escape c name
  | false =>
    show (c == name) = true ↔ name = c
    rw [beq_iff_eq]
    exact eq_comm

end WidgetMigration.Wildcard
