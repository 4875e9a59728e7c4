import WidgetMigration.Migration.Target
import WidgetMigration.Proofs.Text.Utf8

/-!
# Paths that are texts

A step that is a text, joined to a path, makes a text exactly if the path was one
(`isText_join_iff`): a slash stands for itself, whatever is around it.
-/

namespace WidgetMigration.Path

/-- Whether a path is a text. -/
def IsText (p : Path) : Prop := ∃ text, p.toString? = some text

theorem isText_iff {p : Path} : p.IsText ↔ ∃ text, Utf8.encode text = p.bytes :=
  exists_congr fun _ => Utf8.decode?_eq_some_iff

theorem isText_ofString (text : String) : (ofString text).IsText :=
  ⟨text, Utf8.decode?_encode text⟩

/-- A path that is a text is shown as it is. -/
theorem ofString_display {p : Path} (h : p.IsText) : ofString p.display = p := by
  obtain ⟨text, htext⟩ := isText_iff.mp h
  rw [display, ← htext, Utf8.decodeLossy_encode, ofString, htext]

theorem not_isText_iff {p : Path} : ¬ p.IsText ↔ p.toString? = none := by
  unfold IsText
  cases p.toString? <;> simp

theorem slash_lt : slash.toNat < 0x80 := by decide

theorem encode_slash : Utf8.encode "/" = [slash] := by decide

/-- What stands before and behind a slash in a text are texts. -/
theorem isText_of_append_slash {before after : Bytes}
    (h : (⟨before ++ slash :: after⟩ : Path).IsText) :
    (⟨before⟩ : Path).IsText ∧ (⟨after⟩ : Path).IsText := by
  obtain ⟨text, htext⟩ := isText_iff.mp h
  obtain ⟨t, t', hbefore, hafter⟩ := Utf8.exists_of_encode_eq_append_cons slash_lt htext
  exact ⟨isText_iff.mpr ⟨t, hbefore⟩, isText_iff.mpr ⟨t', hafter⟩⟩

theorem isText_append {b b' : Bytes} (h : (⟨b⟩ : Path).IsText) (h' : (⟨b'⟩ : Path).IsText) :
    (⟨b ++ b'⟩ : Path).IsText := by
  obtain ⟨t, ht⟩ := isText_iff.mp h
  obtain ⟨t', ht'⟩ := isText_iff.mp h'
  refine isText_iff.mpr ⟨t ++ t', ?_⟩
  rw [Utf8.encode_append, ht, ht']

theorem isText_append_slash {b b' : Bytes} (h : (⟨b⟩ : Path).IsText) (h' : (⟨b'⟩ : Path).IsText) :
    (⟨b ++ slash :: b'⟩ : Path).IsText := by
  have hslash : (⟨[slash]⟩ : Path).IsText := isText_iff.mpr ⟨"/", encode_slash⟩
  exact isText_append h (isText_append hslash h')

/-- **Joining a text keeps a path a text, and makes none of what is not.** -/
theorem isText_join_iff {p q : Path} (hq : q.IsText) (hrelative : q.isAbsolute = false) :
    (p.join q).IsText ↔ p.IsText := by
  unfold join
  rw [hrelative]
  simp only [Bool.false_eq_true, if_false]
  by_cases hend : p.bytes = [] ∨ p.bytes.getLast? = some slash
  · rw [if_pos hend]
    refine ⟨fun h => ?_, fun h => isText_append h hq⟩
    rcases hend with hnil | hlast
    · exact isText_iff.mpr ⟨"", hnil.symm⟩
    · obtain ⟨b, hb⟩ := List.getLast?_eq_some_iff.mp hlast
      rw [hb, List.append_assoc] at h
      have hsplit := isText_append_slash (isText_of_append_slash h).1 (isText_ofString "")
      change (⟨b ++ [slash]⟩ : Path).IsText at hsplit
      rwa [← hb] at hsplit
  · rw [if_neg hend]
    exact ⟨fun h => (isText_of_append_slash h).1, fun h => isText_append_slash h hq⟩

end WidgetMigration.Path

namespace WidgetMigration.Target

/-- The directory of the features is a text exactly if the root is one. -/
theorem isText_baseDir_iff (root : Path) : (forRoot root).baseDir.IsText ↔ root.IsText := by
  show ((root.join (Path.ofString "lib")).join (Path.ofString "features")).IsText ↔ _
  rw [Path.isText_join_iff (Path.isText_ofString _) (by decide),
    Path.isText_join_iff (Path.isText_ofString _) (by decide)]

end WidgetMigration.Target
