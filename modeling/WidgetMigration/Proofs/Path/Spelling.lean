import Mathlib.Data.List.Induction
import WidgetMigration.Proofs.Path.Child
import WidgetMigration.Proofs.Text.Utf8

/-!
# Directories spelled by their components

`BaseSpelling` is a path that is a text and is spelled in the plain way: a slash in front, if it is
absolute, and components with single slashes between them. Its path is what its components lead to
from the top of the tree or from the working directory (`path_eq_upTo`), so it can be followed
component by component.
-/

namespace WidgetMigration

/-- Whether some characters can be a component of a plainly spelled path. -/
structure IsComponent (c : List Char) : Prop where
  ne_nil : c ≠ []
  ne_dot : c ≠ ['.']
  no_slash : '/' ∉ c

/-- The bytes of a component. -/
def stepOf (c : List Char) : Bytes := Utf8.encode (String.ofList c)

theorem stepOf_eq (c : List Char) : stepOf c = c.flatMap String.utf8EncodeChar := by
  rw [stepOf, Utf8.encode, String.toList_ofList]

theorem stepOf_append (c d : List Char) : stepOf (c ++ d) = stepOf c ++ stepOf d := by
  rw [stepOf_eq, stepOf_eq, stepOf_eq, List.flatMap_append]

theorem stepOf_slash_cons (c : List Char) : stepOf ('/' :: c) = slash :: stepOf c := by
  rw [stepOf_eq, stepOf_eq]
  rfl

theorem stepOf_joinWith (parts : List (List Char)) :
    stepOf (joinWith '/' parts) = joinWith slash (parts.map stepOf) := by
  induction parts with
  | nil => rfl
  | cons part parts ih =>
    cases parts with
    | nil => rfl
    | cons next parts =>
      show stepOf (part ++ '/' :: joinWith '/' (next :: parts)) = _
      rw [stepOf_append, stepOf_slash_cons, ih]
      rfl

theorem stepOf_injective {c d : List Char} (h : stepOf c = stepOf d) : c = d :=
  String.ofList_injective (Utf8.encode_injective h)

theorem slash_not_mem_stepOf {c : List Char} (h : '/' ∉ c) : slash ∉ stepOf c := by
  intro hmem
  rw [stepOf_eq, List.mem_flatMap] at hmem
  obtain ⟨d, hd, hslash⟩ := hmem
  have hchar : d = '/' := Char.toNat_inj.mp (Utf8.eq_of_mem_utf8EncodeChar (by decide) hslash)
  exact h (hchar ▸ hd)

theorem IsComponent.isStep {c : List Char} (h : IsComponent c) : IsStep (stepOf c) :=
  ⟨fun hnil => h.ne_nil (stepOf_injective (hnil.trans rfl)), slash_not_mem_stepOf h.no_slash⟩

/-- The slashes of a text are those of its bytes. -/
theorem splitOn_stepOf (s : List Char) : splitOn slash (stepOf s) = (splitOn '/' s).map stepOf := by
  conv_lhs => rw [← joinWith_splitOn '/' s, stepOf_joinWith]
  refine splitOn_joinWith (fun hnil => splitOn_ne_nil '/' s (List.map_eq_nil_iff.mp hnil)) ?_
  intro part hpart
  obtain ⟨c, hc, rfl⟩ := List.mem_map.mp hpart
  exact slash_not_mem_stepOf (not_mem_of_mem_splitOn hc)

theorem head?_stepOf (s : List Char) : ((stepOf s).head? == some slash) = (s.head? == some '/') := by
  cases s with
  | nil => rfl
  | cons c s =>
    by_cases hc : c = '/'
    · subst hc
      rw [stepOf_slash_cons]
      rfl
    · have hslash : slash ∉ stepOf [c] :=
        slash_not_mem_stepOf fun hmem => hc (List.mem_singleton.mp hmem).symm
      obtain ⟨b, bytes, hbytes⟩ : ∃ b bytes, stepOf [c] = b :: bytes :=
        List.exists_cons_of_ne_nil fun hnil => List.cons_ne_nil c [] (stepOf_injective (hnil.trans rfl))
      rw [← List.singleton_append, stepOf_append, hbytes]
      rw [hbytes] at hslash
      have hb : b ≠ slash := fun heq => hslash (heq ▸ List.mem_cons_self)
      simp [hb, hc]

theorem IsComponent.stepOf_ne_dot {c : List Char} (h : IsComponent c) : stepOf c ≠ dot :=
  fun hdot => h.ne_dot (stepOf_injective (hdot.trans rfl))

/-- A path spelled by its components. -/
structure BaseSpelling where
  absolute : Bool
  components : List (List Char)
  ne_nil : components ≠ []
  valid : ∀ c ∈ components, IsComponent c

namespace BaseSpelling

/-- The path as a text. -/
def text (b : BaseSpelling) : String :=
  String.ofList ((if b.absolute then ['/'] else []) ++ joinWith '/' b.components)

/-- The path. -/
def path (b : BaseSpelling) : Path := Path.ofString b.text

end BaseSpelling

namespace Path

/-- Where a path begins: at the top of the tree or in the working directory. -/
def start (absolute : Bool) : Path := if absolute then ⟨[slash]⟩ else here

/-- What some components lead to. -/
def upTo (absolute : Bool) (components : List (List Char)) : Path :=
  (start absolute).along (components.map stepOf)

theorem upTo_append_singleton (absolute : Bool) (components : List (List Char)) (c : List Char) :
    upTo absolute (components ++ [c]) = (upTo absolute components).child (stepOf c) := by
  unfold upTo
  rw [List.map_append, along_append]
  rfl

theorem start_ne_nil (absolute : Bool) : (start absolute).bytes ≠ [] := by
  cases absolute <;> exact List.cons_ne_nil _ _

/-- What components lead to is spelled out, if there are any. -/
theorem spelled_upTo {absolute : Bool} {components : List (List Char)} (hne : components ≠ [])
    (h : ∀ c ∈ components, IsComponent c) : (upTo absolute components).Spelled := by
  obtain ⟨before, c, rfl⟩ := List.eq_nil_or_concat' components |>.resolve_left hne
  have hc := h c (List.mem_append_right _ List.mem_cons_self)
  rw [upTo_append_singleton]
  exact spelled_child hc.isStep hc.stepOf_ne_dot

theorem upTo_ne_nil {absolute : Bool} {components : List (List Char)}
    (h : ∀ c ∈ components, IsComponent c) : (upTo absolute components).bytes ≠ [] := by
  by_cases hne : components = []
  · rw [hne]
    exact start_ne_nil absolute
  · exact (spelled_upTo hne h).ne_nil

theorem child_start (absolute : Bool) {step : Bytes} (h : IsStep step) :
    (child (start absolute) step).bytes = (if absolute then [slash] else []) ++ step := by
  cases absolute with
  | false => exact congrArg Path.bytes (if_pos rfl)
  | true =>
    rcases child_cases (start true) h with ⟨hhere, _⟩ | ⟨_, _, heq⟩ | ⟨_, _, hend, _⟩
    · exact absurd hhere (by decide)
    · rw [heq]
      rfl
    · exact absurd rfl hend

theorem bytes_upTo (absolute : Bool) {components : List (List Char)} (hne : components ≠ [])
    (h : ∀ c ∈ components, IsComponent c) :
    (upTo absolute components).bytes =
      (if absolute then [slash] else []) ++ stepOf (joinWith '/' components) := by
  induction components using List.reverseRecOn with
  | nil => exact absurd rfl hne
  | append_singleton before c ih =>
    have hc := h c (List.mem_append_right _ List.mem_cons_self)
    have hbefore : ∀ d ∈ before, IsComponent d := fun d hd => h d (List.mem_append_left _ hd)
    rw [upTo_append_singleton]
    by_cases hnil : before = []
    · subst hnil
      exact child_start absolute hc.isStep
    · rw [(spelled_upTo hnil hbefore).child_eq hc.isStep, ih hnil hbefore, joinWith_append hnil,
        stepOf_append, stepOf_slash_cons, List.append_assoc]

end Path

namespace BaseSpelling

/-- **A spelled path is what its components lead to.** -/
theorem path_eq_upTo (b : BaseSpelling) : b.path = Path.upTo b.absolute b.components := by
  have hbytes : b.path.bytes = (Path.upTo b.absolute b.components).bytes := by
    rw [Path.bytes_upTo b.absolute b.ne_nil b.valid]
    show stepOf ((if b.absolute then ['/'] else []) ++ joinWith '/' b.components) = _
    rw [stepOf_append]
    cases b.absolute <;> rfl
  cases hpath : b.path
  cases hup : Path.upTo b.absolute b.components
  rw [hpath, hup] at hbytes
  exact congrArg Path.mk hbytes

end BaseSpelling

end WidgetMigration
