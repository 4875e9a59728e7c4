import WidgetMigration.Proofs.Path.Relative
import WidgetMigration.Proofs.Wildcard.Base
import WidgetMigration.Proofs.Wildcard.Leads

/-!
# How the walk spells what it finds

The base of a pattern may have doubled slashes and dots. The walk goes along its parts one by one and
spells what it comes to anew: slashes are single, and a dot at the beginning of a relative base is
left out, as names in the working directory stand alone (`walkedSteps`). Every other part is spelled
as it is, so what is found below the base goes on from its steps (`mem_expand_parts`).

A directory on the way to the base is only listed for the sake of a part with a special character,
which comes behind it.
-/

namespace WidgetMigration

open FileTree Wildcard

namespace Path

/-- The steps by which the walk spells what some segments lead to. -/
def walkedSteps (absolute : Bool) (way : List Bytes) : List Bytes :=
  let steps := way.filter fun s => !s.isEmpty
  if absolute then steps else steps.dropWhile (· == dot)

variable {absolute : Bool} {way : List Bytes}

theorem walkedSteps_append_nil (absolute : Bool) (way : List Bytes) :
    walkedSteps absolute (way ++ [[]]) = walkedSteps absolute way := by
  simp [walkedSteps]

/-- A dot is left out as long as the walk is in the working directory. -/
theorem walkedSteps_append_singleton (absolute : Bool) (way : List Bytes) {s : Bytes} (hs : s ≠ []) :
    walkedSteps absolute (way ++ [s]) =
      if absolute = false ∧ walkedSteps absolute way = [] ∧ s = dot then []
      else walkedSteps absolute way ++ [s] := by
  have hkept : [s].filter (fun s => !s.isEmpty) = [s] := by simp [hs]
  unfold walkedSteps
  rw [List.filter_append, hkept]
  cases absolute with
  | true => simp
  | false =>
    simp only [Bool.false_eq_true, if_false, true_and, List.dropWhile_append]
    cases (way.filter fun s => !s.isEmpty).dropWhile (· == dot) with
    | nil =>
      by_cases hdot : s = dot
      · simp [hdot]
      · simp [hdot]
    | cons first rest => simp

/-- How a path is spelled that the walk has come to along some segments. There can be a slash at the
end only if the last segment was empty. -/
structure WalkedTo (absolute : Bool) (way : List Bytes) (p : Path) : Prop where
  no_slash : ∀ s ∈ way, slash ∉ s
  spelled : walkedSteps absolute way = [] ∧ p = start absolute ∨
    walkedSteps absolute way ≠ [] ∧ (p = spell absolute (walkedSteps absolute way) ∨
      way.getLast? = some [] ∧ p = ⟨(spell absolute (walkedSteps absolute way)).bytes ++ [slash]⟩)

theorem WalkedTo.path_eq {p : Path} (h : WalkedTo absolute way p) (hne : walkedSteps absolute way ≠ [])
    (hlast : way.getLast? ≠ some []) : p = spell absolute (walkedSteps absolute way) := by
  rcases h.spelled with ⟨hnil, _⟩ | ⟨_, hpath | ⟨hend, _⟩⟩
  · exact absurd hnil hne
  · exact hpath
  · exact absurd hend hlast

theorem walkedTo_start (absolute : Bool) : WalkedTo absolute [] (start absolute) where
  no_slash := by simp
  spelled := .inl ⟨by cases absolute <;> rfl, rfl⟩

theorem isStep_of_mem_walkedSteps (h : ∀ s ∈ way, slash ∉ s) :
    ∀ s ∈ walkedSteps absolute way, IsStep s := by
  intro s hs
  have hmem : s ∈ way.filter fun s => !s.isEmpty := by
    unfold walkedSteps at hs
    cases absolute with
    | true => exact hs
    | false => exact (List.dropWhile_sublist _).subset hs
  obtain ⟨hway, hne⟩ := List.mem_filter.mp hmem
  refine ⟨?_, h s hway⟩
  rintro rfl
  cases hne

theorem head?_walkedSteps (way : List Bytes) : (walkedSteps false way).head? ≠ some dot := by
  intro hhead
  have hnot := List.head?_dropWhile_not (· == dot) (way.filter fun s => !s.isEmpty)
  rw [show List.dropWhile (· == dot) (way.filter fun s => !s.isEmpty) = walkedSteps false way from rfl,
    hhead] at hnot
  exact absurd hnot (by decide)

theorem spelled_walkedSteps (hne : walkedSteps absolute way ≠ []) (h : ∀ s ∈ way, slash ∉ s) :
    (spell absolute (walkedSteps absolute way)).Spelled := by
  refine spelled_spell hne (isStep_of_mem_walkedSteps h) ?_
  cases absolute with
  | true => exact .inl rfl
  | false =>
    refine .inr fun hdot => head?_walkedSteps way ?_
    rw [hdot]
    rfl

theorem laterComponents_walkedSteps (absolute : Bool) (way : List Bytes) :
    laterComponents (walkedSteps absolute way) = laterComponents way := by
  have hdrop : ∀ steps : List Bytes,
      laterComponents (steps.dropWhile (· == dot)) = laterComponents steps := by
    intro steps
    induction steps with
    | nil => rfl
    | cons s steps ih =>
      by_cases hs : s = dot
      · rw [List.dropWhile_cons_of_pos (by simp [hs]), ih, hs, laterComponents_dot]
      · rw [List.dropWhile_cons_of_neg (by simp [hs])]
  rw [← laterComponents_filter way]
  unfold walkedSteps
  cases absolute with
  | true => rfl
  | false => exact hdrop _

/-- What the walk has come to says the same as the segments. -/
theorem WalkedTo.laterComponents_steps {p : Path} (h : WalkedTo absolute way p) :
    laterComponents p.steps = laterComponents way := by
  rw [← laterComponents_walkedSteps absolute way]
  rcases h.spelled with ⟨hnil, rfl⟩ | ⟨hne, rfl | ⟨_, rfl⟩⟩
  · rw [hnil]
    cases absolute <;> rfl
  · rw [steps_spell hne (isStep_of_mem_walkedSteps h.no_slash)]
  · have hsteps := @steps_spell absolute _ hne (isStep_of_mem_walkedSteps h.no_slash)
    rw [steps_eq, segments, splitOn_append_cons, List.filter_append]
    rw [steps_eq, segments] at hsteps
    rw [hsteps, laterComponents_append]
    exact List.append_nil _

theorem WalkedTo.isAbsolute {p : Path} (h : WalkedTo true way p) : p.isAbsolute = true := by
  rcases h.spelled with ⟨_, rfl⟩ | ⟨_, rfl | ⟨_, rfl⟩⟩ <;> rfl

/-- An empty segment puts a slash at the end, if there is none. -/
theorem WalkedTo.child_nil {p : Path} (h : WalkedTo absolute way p) (hhere : p ≠ here) :
    WalkedTo absolute (way ++ [[]]) (p.child []) := by
  have hslash : ∀ s ∈ way ++ [[]], slash ∉ s := by
    intro s hs
    rcases List.mem_append.mp hs with hs | hs
    · exact h.no_slash s hs
    · rw [List.mem_singleton.mp hs]
      exact List.not_mem_nil
  have hsame : (p.bytes = [] ∨ p.bytes.getLast? = some slash) → p.child [] = p := by
    intro hend
    rw [child, if_neg hhere, join, if_neg (by decide), if_pos hend]
    simp
  refine ⟨hslash, ?_⟩
  rw [walkedSteps_append_nil]
  rcases h.spelled with ⟨hnil, rfl⟩ | ⟨hne, rfl | ⟨_, rfl⟩⟩
  · refine .inl ⟨hnil, hsame (.inr ?_)⟩
    cases absolute with
    | true => rfl
    | false => exact absurd rfl hhere
  · refine .inr ⟨hne, .inr ⟨List.getLast?_concat, ?_⟩⟩
    have hspelled := spelled_walkedSteps hne h.no_slash
    rw [child, if_neg hhere, join, if_neg (by decide),
      if_neg (not_or.mpr ⟨hspelled.ne_nil, hspelled.no_slash_end⟩)]
  · exact .inr ⟨hne, .inr ⟨List.getLast?_concat, hsame (.inr List.getLast?_concat)⟩⟩

/-- Any other segment becomes a step, or is the dot of the working directory. -/
theorem WalkedTo.child {p : Path} (h : WalkedTo absolute way p) {s : Bytes} (hs : IsStep s) :
    WalkedTo absolute (way ++ [s]) (p.child s) := by
  have hslash : ∀ s' ∈ way ++ [s], slash ∉ s' := by
    intro s' hs'
    rcases List.mem_append.mp hs' with hs' | hs'
    · exact h.no_slash s' hs'
    · rw [List.mem_singleton.mp hs']
      exact hs.no_slash
  refine ⟨hslash, ?_⟩
  rw [walkedSteps_append_singleton absolute way hs.ne_nil]
  rcases h.spelled with ⟨hnil, rfl⟩ | ⟨hne, rfl | ⟨_, rfl⟩⟩
  · have hchild : Path.child (start absolute) s = spell absolute [s] :=
      congrArg Path.mk (child_start absolute hs)
    rw [hnil, hchild]
    by_cases hdot : absolute = false ∧ s = dot
    · obtain ⟨rfl, rfl⟩ := hdot
      exact .inl ⟨rfl, rfl⟩
    · rw [if_neg fun h => hdot ⟨h.1, h.2.2⟩]
      exact .inr ⟨List.cons_ne_nil _ _, .inl rfl⟩
  · have hspelled := spelled_walkedSteps hne h.no_slash
    rw [if_neg (fun hdot => hne hdot.2.1)]
    refine .inr ⟨List.append_ne_nil_of_left_ne_nil hne _, .inl ?_⟩
    rw [hspelled.child_eq hs, spell_append_singleton hne]
  · rw [if_neg (fun hdot => hne hdot.2.1)]
    refine .inr ⟨List.append_ne_nil_of_left_ne_nil hne _, .inl ?_⟩
    rw [spell_append_singleton hne]
    rcases child_cases ⟨(spell absolute (walkedSteps absolute way)).bytes ++ [slash]⟩ hs with
      ⟨hhere, _⟩ | ⟨_, _, heq⟩ | ⟨_, _, hend, _⟩
    · have hlast := congrArg (fun p : Path => p.bytes.getLast?) hhere
      rw [List.getLast?_concat] at hlast
      exact absurd hlast (by decide)
    · rw [heq, List.append_assoc, List.singleton_append]
    · exact absurd (List.getLast?_concat ..) hend

end Path

namespace FileTree

open WidgetMigration.Path

variable {t : FileTree} {absolute : Bool} {way : List Bytes} {p : Place} {parts : List Part}
  {find : Find}

/-! ## One part -/

theorem isThere_nil : t.isThere ⟨[]⟩ = false := by
  have hlookup : ∀ purpose, t.lookup purpose ⟨[]⟩ = .error .notFound := by
    intro purpose
    rfl
  rw [isThere, hlookup, hlookup]
  rfl

/-- What a part without special characters leads to is spelled by it. An empty one leads to nothing
from the working directory. -/
theorem walkedTo_of_literalPlace? {name : List Char} (hname : '/' ∉ name)
    (h : WalkedTo absolute way p.path) {q : Place} (hq : t.literalPlace? p name = some q) :
    WalkedTo absolute (way ++ [stepOf name]) q.path := by
  obtain ⟨hthere, rfl⟩ := literalPlace?_eq_some_iff.mp hq
  have hslash := slash_not_mem_stepOf hname
  by_cases hnil : stepOf name = []
  · rw [hnil] at hthere ⊢
    refine h.child_nil fun hhere => ?_
    rw [hhere, if_neg (by decide)] at hthere
    exact absurd (isThere_nil.symm.trans hthere) Bool.false_ne_true
  · exact h.child ⟨hnil, hslash⟩

/-- A part with a special character is looked up in a listing, or cannot be. -/
theorem mem_expand_escaped {c : List Char} (hspecial : c.any isSpecial = true)
    (h : find ∈ t.expand (partOf c :: parts) p) :
    (∃ e, find = .unreadable p.path e) ∨
      ∃ q : Place, q.path = p.path.child (stepOf c) ∧ find ∈ t.expand parts q := by
  have hpart : partOf c = .wildcard (c.map elementOf) := by rw [partOf, hspecial, if_pos rfl]
  rw [hpart, expand] at h
  obtain ⟨_, h⟩ := List.mem_ite_nil_right.mp h
  cases hlist : t.list p.path with
  | error e =>
    rw [hlist] at h
    exact .inl ⟨e, List.mem_singleton.mp h⟩
  | ok es =>
    rw [hlist] at h
    simp only [← hpart, dotPlaces_partOf hspecial, List.flatMap_nil, List.nil_append] at h
    obtain ⟨entry, _, hfind⟩ := List.mem_flatMap.mp h
    obtain ⟨haccepts, hfind⟩ := List.mem_ite_nil_right.mp hfind
    refine .inr ⟨_, ?_, hfind⟩
    rw [← accepts_partOf_iff.mp haccepts]
    rfl

/-! ## The base -/

/-- What is found along the parts of a base is found behind them, at a path that is spelled by them;
or it is a directory that cannot be listed, before a part with a special character. -/
theorem mem_expand_parts {names : List (List Char)} (hnames : ∀ name ∈ names, '/' ∉ name)
    (h : WalkedTo absolute way p.path) (hfind : find ∈ t.expand (names.map partOf ++ parts) p) :
    (∃ before c after q e, names = before ++ c :: after ∧ c.any isSpecial = true ∧
      WalkedTo absolute (way ++ before.map stepOf) q ∧ find = .unreadable q e) ∨
    ∃ q : Place, WalkedTo absolute (way ++ names.map stepOf) q.path ∧ find ∈ t.expand parts q := by
  induction names generalizing way p with
  | nil =>
    rw [List.map_nil, List.append_nil]
    exact .inr ⟨p, h, hfind⟩
  | cons c names ih =>
    obtain ⟨hc, hnames⟩ := List.forall_mem_cons.mp hnames
    have hstep : ∀ q : Place, WalkedTo absolute (way ++ [stepOf c]) q.path →
        find ∈ t.expand (names.map partOf ++ parts) q →
          (∃ before d after r e, c :: names = before ++ d :: after ∧ d.any isSpecial = true ∧
            WalkedTo absolute (way ++ before.map stepOf) r ∧ find = .unreadable r e) ∨
          ∃ r : Place, WalkedTo absolute (way ++ (c :: names).map stepOf) r.path ∧
            find ∈ t.expand parts r := by
      intro q hq hfind
      rcases ih hnames hq hfind with ⟨before, d, after, r, e, rfl, hd, hr, hunreadable⟩ |
        ⟨r, hr, hfind⟩
      · rw [List.append_assoc] at hr
        exact .inl ⟨c :: before, d, after, r, e, rfl, hd, hr, hunreadable⟩
      · rw [List.append_assoc] at hr
        exact .inr ⟨r, hr, hfind⟩
    rw [List.map_cons, List.cons_append] at hfind
    cases hspecial : c.any isSpecial with
    | true =>
      rcases mem_expand_escaped hspecial hfind with ⟨e, hunreadable⟩ | ⟨q, hq, hfind⟩
      · exact .inl ⟨[], c, names, p.path, e, rfl, hspecial, by rwa [List.map_nil, List.append_nil],
          hunreadable⟩
      · have hne := stepOf_ne_nil_of_isSpecial hspecial
        exact hstep q (hq ▸ h.child ⟨hne, slash_not_mem_stepOf hc⟩) hfind
    | false =>
      rw [partOf, hspecial, if_neg Bool.false_ne_true, expand] at hfind
      cases hplace : t.literalPlace? p c with
      | none =>
        rw [hplace] at hfind
        cases hfind
      | some q =>
        rw [hplace] at hfind
        exact hstep q (walkedTo_of_literalPlace? hc h hplace) hfind

/-! ## Below the base -/

theorem along_spell {steps names : List Bytes} (hne : steps ≠ [])
    (hspelled : (spell absolute steps).Spelled) (hnames : ∀ s ∈ names, IsStep s) :
    (spell absolute steps).along names = spell absolute (steps ++ names) := by
  induction names generalizing steps with
  | nil => rw [along_nil, List.append_nil]
  | cons name names ih =>
    obtain ⟨hname, hnames⟩ := List.forall_mem_cons.mp hnames
    have hchild : (spell absolute steps).child name = spell absolute (steps ++ [name]) := by
      rw [hspelled.child_eq hname, spell_append_singleton hne]
    have hspelled' := hspelled.spelled_child hname
    rw [hchild] at hspelled'
    rw [along_cons, hchild, ih (List.append_ne_nil_of_left_ne_nil hne _) hspelled' hnames,
      List.append_assoc, List.singleton_append]

/-- What a recursive part and one more find lies below the place where they begin. -/
theorem path_of_mem_expand_recursive {part : Part}
    (h : find ∈ t.expand [.recursive, part] p) :
    ∃ names, (∃ e, find = .unreadable (p.path.below names) e) ∨
      ∃ q : Place, q.path = p.path.below names ∧ find = .place q := by
  rw [expand] at h
  obtain ⟨_, h⟩ := List.mem_ite_nil_right.mp h
  obtain ⟨visit, hvisit, hfind⟩ := List.mem_flatMap.mp h
  obtain ⟨names, hkey, _⟩ := key_of_mem_descend hvisit
  refine ⟨names, ?_⟩
  cases visit with
  | unreadable r e =>
    rw [List.mem_singleton.mp hfind]
    exact .inl ⟨e, congrArg (Find.unreadable · e) hkey⟩
  | entry q name =>
    obtain ⟨_, hfind⟩ := List.mem_ite_nil_right.mp hfind
    rw [expand, List.mem_singleton] at hfind
    exact .inr ⟨q, hkey, hfind⟩

end FileTree

end WidgetMigration
