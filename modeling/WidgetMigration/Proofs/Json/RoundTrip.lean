import WidgetMigration.Proofs.Json.Tokens

/-!
# Printed values are read back

A value whose numbers are whole is read back from its printed form: the reader accepts the text,
leaves nothing of it but blanks, and answers the very value, with the members of each object in
their order. So different values are printed differently.

The bound of the reader's recursion is the length of the text. A part of a value is printed shorter
than the value by at least the bracket before it, which is what each call of the reader takes off.
-/

namespace WidgetMigration.Json

open WidgetMigration.Text

/-- A value all whose numbers are whole. -/
inductive Whole : Json → Prop where
  | null : Whole .null
  | bool (b : Bool) : Whole (.bool b)
  | int (n : Int) : Whole (.int n)
  | string (s : String) : Whole (.string s)
  | array {items : List Json} (h : ∀ v ∈ items, Whole v) : Whole (.array items)
  | object {members : List (String × Json)} (h : ∀ m ∈ members, Whole m.2) : Whole (.object members)

theorem Whole.strings (texts : List String) : Whole (strings texts) :=
  .array (by simp only [List.mem_map, forall_exists_index, and_imp]; rintro _ s - rfl; exact .string s)

/-! ## Blanks -/

@[simp]
theorem skipFiller_newLine (level : Nat) (s : List Char) :
    skipFiller (newLine level ++ s) = skipFiller s := by
  have h : ∀ c ∈ newLine level, isFiller c = true := by
    simp only [newLine, List.mem_cons, List.mem_replicate]
    rintro c (rfl | ⟨-, rfl⟩) <;> decide
  rw [skipFiller, List.dropWhile_append_of_pos h, skipFiller]

@[simp]
theorem skipFiller_space (s : List Char) : skipFiller (' ' :: s) = skipFiller s :=
  List.dropWhile_cons_of_pos (by decide)

theorem skipFiller_cons {c : Char} (h : isFiller c = false) (s : List Char) :
    skipFiller (c :: s) = c :: s := by
  simp [skipFiller, h]

/-- A digit or a minus sign is no blank, no letter and no bracket. -/
theorem not_filler_of_sign_or_digit {c : Char} (h : c = '-' ∨ c.isDigit = true) :
    isFiller c = false ∧ c ≠ ']' ∧ c ≠ '"' ∧ c ≠ '[' ∧ c ≠ '\x7b' ∧ c ≠ 'n' ∧ c ≠ 't' ∧ c ≠ 'f' := by
  rcases h with rfl | h
  · decide
  · refine ⟨?_, ?_, ?_, ?_, ?_, ?_, ?_, ?_⟩
    · simp only [isFiller, Bool.or_eq_false_iff, beq_eq_false_iff_ne]
      refine ⟨⟨⟨?_, ?_⟩, ?_⟩, ?_⟩ <;> rintro rfl <;> exact absurd h (by decide)
    all_goals rintro rfl; exact absurd h (by decide)

/-- A value is printed from a character on that is neither a blank nor a closing bracket. -/
theorem print_head (level : Nat) {v : Json} (h : Whole v) :
    ∃ c s, v.print level = c :: s ∧ isFiller c = false ∧ c ≠ ']' := by
  cases h with
  | null => exact ⟨'n', _, by rw [print]; rfl, by decide, by decide⟩
  | bool b =>
    cases b
    · exact ⟨'f', _, by rw [print]; rfl, by decide, by decide⟩
    · exact ⟨'t', _, by rw [print]; rfl, by decide, by decide⟩
  | int n =>
    obtain ⟨c, s, hs, hc⟩ := printInt_head n
    have hc := not_filler_of_sign_or_digit hc
    exact ⟨c, s, by rw [print, hs], hc.1, hc.2.1⟩
  | string s => exact ⟨'"', _, by rw [print]; rfl, by decide, by decide⟩
  | @array items h =>
    cases items
    · exact ⟨'[', _, by rw [print], by decide, by decide⟩
    · exact ⟨'[', _, by rw [print]; rfl, by decide, by decide⟩
  | @object members h =>
    cases members
    · exact ⟨'\x7b', _, by rw [print], by decide, by decide⟩
    · exact ⟨'\x7b', _, by rw [print]; rfl, by decide, by decide⟩

theorem skipFiller_print (level : Nat) {v : Json} (h : Whole v) (s : List Char) :
    skipFiller (v.print level ++ s) = v.print level ++ s := by
  obtain ⟨c, t, ht, hc, -⟩ := print_head level h
  rw [ht, List.cons_append, skipFiller_cons hc]

/-! ## One reader at a time -/

/-- What it means that a value is read back, at any level, from its printed form. -/
def ReadsBack (v : Json) : Prop :=
  ∀ (level depth : Nat) (rest : List Char), EndsNumber rest → (v.print level).length ≤ depth →
    readValue depth (v.print level ++ rest) = some (v, rest)

/-- Items that are read back one by one are read back together, up to the closing bracket. -/
theorem readItems_print {v : Json} {items : List Json} (hv : Whole v) (hr : ReadsBack v)
    (hw : ∀ w ∈ items, Whole w) (hitems : ∀ w ∈ items, ReadsBack w)
    (level outer depth : Nat) (rest : List Char)
    (h : (v.print level).length + (printItems level items).length < depth) :
    readItems depth (v.print level ++ (printItems level items ++ (newLine outer ++ ']' :: rest))) =
      some (v :: items, rest) := by
  induction items generalizing v depth with
  | nil =>
    obtain ⟨depth, rfl⟩ : ∃ n, depth = n + 1 := ⟨depth - 1, by omega⟩
    rw [printItems, List.nil_append, readItems,
      hr level depth _ (endsNumber_newLine _ _) (by omega), Option.bind_some]
    simp only [skipFiller_newLine, skipFiller_cons (show isFiller ']' = false by decide)]
  | cons w items ih =>
    obtain ⟨depth, rfl⟩ : ∃ n, depth = n + 1 := ⟨depth - 1, by omega⟩
    simp only [printItems, List.length_cons, List.length_append] at h
    have hnext := ih (hw w (by simp)) (hitems w (by simp)) (fun u hu => hw u (by simp [hu]))
      (fun u hu => hitems u (by simp [hu])) depth (by omega)
    simp only [printItems, List.cons_append, List.append_assoc]
    rw [readItems, hr level depth _ (endsNumber_comma _) (by omega), Option.bind_some]
    simp only [skipFiller_newLine, skipFiller_cons (show isFiller ',' = false by decide),
      skipFiller_print level (hw w (by simp)), hnext, Option.map_some]

/-- One printed member is read, and then what stands behind it. -/
theorem readMembers_member {k : String} {v : Json} (hv : Whole v) {level depth : Nat}
    {s : List Char} (hr : readValue depth (v.print level ++ s) = some (v, s)) :
    readMembers (depth + 1) (printString k ++ ':' :: ' ' :: (v.print level ++ s)) =
      match skipFiller s with
      | ',' :: s => (readMembers depth (skipFiller s)).map fun (members, s) => ((k, v) :: members, s)
      | '\x7d' :: s => some ([(k, v)], s)
      | _ => none := by
  obtain ⟨t, ht, hkey⟩ := readString_printString k (':' :: ' ' :: (v.print level ++ s))
  rw [ht, readMembers, hkey, Option.bind_some]
  simp only [skipFiller_cons (show isFiller ':' = false by decide), skipFiller_space,
    skipFiller_print level hv, String.ofList_toList]
  rw [hr]
  rfl

/-- Members whose values are read back are read back together, up to the closing brace. -/
theorem readMembers_print {k : String} {v : Json} {members : List (String × Json)} (hv : Whole v)
    (hr : ReadsBack v) (hw : ∀ m ∈ members, Whole m.2) (hmembers : ∀ m ∈ members, ReadsBack m.2)
    (level outer depth : Nat) (rest : List Char)
    (h : (v.print level).length + (printMembers level members).length < depth) :
    readMembers depth (printString k ++ ':' :: ' ' :: (v.print level ++
        (printMembers level members ++ (newLine outer ++ '\x7d' :: rest)))) =
      some ((k, v) :: members, rest) := by
  induction members generalizing k v depth with
  | nil =>
    obtain ⟨depth, rfl⟩ : ∃ n, depth = n + 1 := ⟨depth - 1, by omega⟩
    rw [printMembers, List.nil_append, readMembers_member hv
      (hr level depth _ (endsNumber_newLine _ _) (by omega))]
    simp only [skipFiller_newLine, skipFiller_cons (show isFiller '\x7d' = false by decide)]
  | cons m members ih =>
    obtain ⟨depth, rfl⟩ : ∃ n, depth = n + 1 := ⟨depth - 1, by omega⟩
    obtain ⟨l, w⟩ := m
    simp only [printMembers, List.length_cons, List.length_append] at h
    have hnext := ih (k := l) (v := w) (hw (l, w) (by simp)) (hmembers (l, w) (by simp))
      (fun u hu => hw u (by simp [hu])) (fun u hu => hmembers u (by simp [hu])) depth (by omega)
    obtain ⟨t, ht, -⟩ := readString_printString l (':' :: ' ' :: (w.print level ++
      (printMembers level members ++ (newLine outer ++ '\x7d' :: rest))))
    simp only [printMembers, List.cons_append, List.nil_append, List.append_assoc]
    rw [readMembers_member hv (hr level depth _ (endsNumber_comma _) (by omega))]
    rw [ht] at hnext ⊢
    simp only [skipFiller_newLine, skipFiller_cons (show isFiller ',' = false by decide),
      skipFiller_cons (show isFiller '"' = false by decide), hnext, Option.map_some]

/-! ## Whole values -/

/-- A printed value is not empty, so that the reader has a call to spend on it. -/
theorem readsBack_of_succ {v : Json} (hv : Whole v)
    (h : ∀ (level depth : Nat) (rest : List Char), EndsNumber rest →
      (v.print level).length ≤ depth + 1 →
        readValue (depth + 1) (v.print level ++ rest) = some (v, rest)) : ReadsBack v := by
  intro level depth rest hrest hdepth
  obtain ⟨c, s, hs, -⟩ := print_head level hv
  obtain ⟨depth, rfl⟩ : ∃ n, depth = n + 1 := ⟨depth - 1, by simp [hs] at hdepth; omega⟩
  exact h level depth rest hrest hdepth

/-- An array that is not closed at once is read from its first item on. -/
theorem readValue_array {depth : Nat} {s t : List Char} (h : skipFiller s = t)
    (ht : t.head? ≠ some ']') :
    readValue (depth + 1) ('[' :: s) =
      (readItems depth t).map fun (items, rest) => (.array items, rest) := by
  rw [readValue, if_neg (by decide), if_pos rfl, h]
  split
  · exact absurd rfl ht
  · rfl

/-- An object that is not closed at once is read from its first member on. -/
theorem readValue_object {depth : Nat} {s t : List Char} (h : skipFiller s = t)
    (ht : t.head? ≠ some '\x7d') :
    readValue (depth + 1) ('\x7b' :: s) =
      (readMembers depth t).map fun (members, rest) => (.object members, rest) := by
  rw [readValue, if_neg (by decide), if_neg (by decide), if_pos rfl, h]
  split
  · exact absurd rfl ht
  · rfl

/-- A value whose numbers are whole is read back from its printed form, whatever stands behind it,
if that ends a number. -/
theorem Whole.readsBack {v : Json} (h : Whole v) : ReadsBack v := by
  induction h with
  | null =>
    refine readsBack_of_succ .null fun level depth rest _ _ => ?_
    simp [print, readValue, afterWord]
  | bool b =>
    refine readsBack_of_succ (.bool b) fun level depth rest _ _ => ?_
    cases b <;> simp [print, readValue, afterWord]
  | int n =>
    refine readsBack_of_succ (.int n) fun level depth rest hrest _ => ?_
    have hread := readNumber_printInt n hrest
    obtain ⟨c, s, hs, hc⟩ := printInt_head n
    obtain ⟨-, -, hquote, hbracket, hbrace, hn, ht, hf⟩ := not_filler_of_sign_or_digit hc
    rw [hs, List.cons_append] at hread
    rw [print, hs, List.cons_append, readValue, if_neg hquote, if_neg hbracket, if_neg hbrace,
      if_neg hn, if_neg ht, if_neg hf, hread]
  | string s =>
    refine readsBack_of_succ (.string s) fun level depth rest _ _ => ?_
    obtain ⟨t, ht, hread⟩ := readString_printString s rest
    rw [print, ht, readValue, if_pos rfl, hread, Option.map_some]
    simp only [String.ofList_toList]
  | @array items h ih =>
    refine readsBack_of_succ (.array h) fun level depth rest _ hdepth => ?_
    cases items with
    | nil => simp [print, readValue, skipFiller_cons (show isFiller ']' = false by decide)]
    | cons v items =>
      have hv := h v (by simp)
      simp only [print, List.length_cons, List.length_append] at hdepth
      have hitems := @readItems_print v items hv (ih v (by simp))
        (fun w hw => h w (by simp [hw])) (fun w hw => ih w (by simp [hw])) (level + 1) level depth
        rest (by omega)
      obtain ⟨c, s, hs, -, hc⟩ := print_head (level + 1) hv
      simp only [print, List.cons_append, List.append_assoc, List.nil_append]
      rw [readValue_array (by rw [skipFiller_newLine, skipFiller_print _ hv])
        (by simp [hs, hc]), hitems, Option.map_some]
  | @object members h ih =>
    refine readsBack_of_succ (.object h) fun level depth rest _ hdepth => ?_
    cases members with
    | nil => simp [print, readValue, skipFiller_cons (show isFiller '\x7d' = false by decide)]
    | cons m members =>
      obtain ⟨k, v⟩ := m
      simp only [print, List.length_cons, List.length_append] at hdepth
      have hmembers := @readMembers_print k v members (h (k, v) (by simp))
        (ih (k, v) (by simp)) (fun w hw => h w (by simp [hw])) (fun w hw => ih w (by simp [hw]))
        (level + 1) level depth rest (by omega)
      obtain ⟨t, ht, -⟩ := readString_printString k (':' :: ' ' :: (v.print (level + 1) ++
        (printMembers (level + 1) members ++ (newLine level ++ '\x7d' :: rest))))
      simp only [print, List.cons_append, List.append_assoc, List.nil_append]
      rw [readValue_object (by rw [skipFiller_newLine, ht, skipFiller_cons (by decide)])
        (by simp), ← ht, hmembers, Option.map_some]

/-! ## Texts -/

/-- The reader accepts the printed form of a value whose numbers are whole, with any blanks behind
it, and answers the value. -/
theorem read?_print {v : Json} (h : Whole v) {blanks : List Char} (hblanks : skipFiller blanks = [])
    (hnumber : EndsNumber blanks) : read? (String.ofList (v.print 0 ++ blanks)) = some v := by
  have hread := h.readsBack 0 ((v.print 0 ++ blanks).length + 1) blanks hnumber (by simp; omega)
  simp only [read?, String.toList_ofList, skipFiller_print 0 h, hread, Option.bind_some, hblanks,
    if_true]

/-- The same with the line feed that a printed value gets on the standard output. -/
theorem read?_pretty_line {v : Json} (h : Whole v) : read? (v.pretty ++ "\n") = some v := by
  rw [pretty, show "\n" = String.ofList (newLine 0 ++ []) by decide, ← String.ofList_append]
  exact read?_print h (by rw [skipFiller_newLine]; rfl) (endsNumber_newLine 0 [])

end WidgetMigration.Json
