import WidgetMigration.Proofs.Migration.Coverage
import WidgetMigration.Proofs.Path.Texts
import WidgetMigration.Proofs.Tree.Routes
import WidgetMigration.Proofs.Wildcard.Spelling

/-!
# The names in a report

A report names what was found as seen from the project root. For a found path that begins with the
components of the root this is what leads on from there, and joined to the root it leads to what the
found path leads to (`name_resolves`), however the root is spelled: with dots inside or at its end,
with doubled slashes, or with special characters.

A dot at the beginning of the root is a component that no found path has. Such a path is named as a
whole, as seen from the working directory. That does no harm if there is nothing but the dot, which is
the working directory itself; of any other root it makes a name that leads elsewhere
(`name_of_dotted_root`).
-/

namespace WidgetMigration

open FileTree Wildcard WidgetMigration.Path

/-! ## The parts of a base -/

theorem Path.bytes_ofString (text : String) : (ofString text).bytes = stepOf text.toList := by
  rw [stepOf, String.ofList_toList]
  rfl

/-- The parts of a base are its segments, but for the empty one of a slash in front. -/
theorem Path.segments_ofString (text : String) :
    (ofString text).segments =
      (if text.toList.head? == some '/' then [[]] else []) ++ (baseParts text.toList).map stepOf := by
  rw [segments, bytes_ofString, splitOn_stepOf, baseParts]
  cases hhead : text.toList.head? == some '/' with
  | false => rfl
  | true =>
    obtain ⟨rest, hrest⟩ := List.head?_eq_some_iff.mp (beq_iff_eq.mp hhead)
    rw [hrest]
    rfl

/-- What is not empty of the parts is a step. -/
theorem filter_baseParts (text : String) :
    ((baseParts text.toList).map stepOf).filter (fun s => !s.isEmpty) = (ofString text).steps := by
  rw [steps_eq, segments_ofString, List.filter_append]
  cases text.toList.head? == some '/' <;> rfl

/-! ## The base directory -/

namespace Target

/-- The steps from a root to the directory of its features. -/
def featureSteps : List Bytes := [Utf8.encode "lib", Utf8.encode "features"]

theorem isStep_of_mem_featureSteps : ∀ s ∈ featureSteps, IsStep s := by
  intro s hs
  simp only [featureSteps, List.mem_cons, List.not_mem_nil, or_false] at hs
  rcases hs with rfl | rfl
  · exact ⟨by decide, by decide⟩
  · exact ⟨by decide, by decide⟩

/-- The steps to the features and on below them. -/
def stepsBelow (names : List FileName) : List Bytes :=
  featureSteps ++ names.map FileName.bytes

theorem stepsBelow_ne_nil (names : List FileName) : stepsBelow names ≠ [] := List.cons_ne_nil _ _

theorem isStep_of_mem_stepsBelow {names : List FileName} : ∀ s ∈ stepsBelow names, IsStep s := by
  intro s hs
  rcases List.mem_append.mp hs with hfeatures | hnames
  · exact isStep_of_mem_featureSteps s hfeatures
  · exact isStep_of_mem_map s hnames

theorem ne_dot_of_mem_stepsBelow {names : List FileName} : ∀ s ∈ stepsBelow names, s ≠ dot := by
  intro s hs
  rcases List.mem_append.mp hs with hfeatures | hnames
  · have hnone : ∀ s ∈ featureSteps, s ≠ dot := by decide
    exact hnone s hfeatures
  · obtain ⟨name, _, rfl⟩ := List.mem_map.mp hnames
    exact name.bytes_ne_dot

/-- How the system reads the base directory. -/
theorem route_baseDir (root : Path) :
    Route.ofBytes (forRoot root).baseDir.bytes =
      ⟨root.isAbsolute, root.steps ++ featureSteps, false⟩ := by
  have hlib := route_join root (q := ofString "lib") (by decide) (by decide)
  have hfeatures := route_join (root.join (ofString "lib")) (q := ofString "features")
    (by decide) (by decide)
  have habsolute : (root.join (ofString "lib")).isAbsolute = root.isAbsolute :=
    congrArg Route.absolute hlib
  have hsteps : (root.join (ofString "lib")).steps = root.steps ++ (ofString "lib").steps :=
    congrArg Route.steps hlib
  rw [habsolute, hsteps, List.append_assoc] at hfeatures
  exact hfeatures

/-- The steps by which the walk spells what the steps of a root and its features lead to. -/
theorem walkedSteps_features {root : Path} {way : List Bytes}
    (h : way.filter (fun s => !s.isEmpty) = root.steps ++ featureSteps) :
    walkedSteps root.isAbsolute way = walkedSteps root.isAbsolute root.segments ++ featureSteps := by
  rw [steps_eq] at h
  unfold walkedSteps
  rw [h]
  cases root.isAbsolute with
  | true => rfl
  | false =>
    have hfeatures : featureSteps.dropWhile (· == dot) = featureSteps := by decide
    simp only [Bool.false_eq_true, if_false, List.dropWhile_append, hfeatures]
    cases (root.segments.filter fun s => !s.isEmpty).dropWhile (· == dot) <;> rfl

/-- The last part of the base is not empty, as there is no slash at its end. -/
theorem getLast?_baseParts_ne {root : Path} {text : String}
    (h : ofString text = (forRoot root).baseDir) :
    ((baseParts text.toList).map stepOf).getLast? ≠ some [] := by
  intro hlast
  have hroute := route_baseDir root
  rw [← h] at hroute
  have hsegments : (ofString text).segments.getLast? = some [] := by
    rw [segments_ofString, List.getLast?_append, hlast]
    rfl
  rcases getLast?_of_splitOn hsegments with hnil | hslash
  · have hsteps : (ofString text).steps ≠ [] := by
      rw [steps, hroute]
      exact List.append_ne_nil_of_right_ne_nil _ (List.cons_ne_nil _ _)
    exact bytes_ne_nil_of_steps hsteps hnil
  · have hend := congrArg Route.endsInSlash hroute
    exact absurd (beq_iff_eq.mpr hslash) (ne_true_of_eq_false hend)

/-- A part with a special character is a step of the root, as the steps behind it have none. -/
theorem prefix_steps_of_isSpecial {root : Path} {before after : List Bytes} {c : List Char}
    (hspecial : c.any isSpecial = true)
    (h : before ++ stepOf c :: after = root.steps ++ featureSteps) :
    before ++ [stepOf c] <+: root.steps := by
  have hnot : stepOf c ∉ featureSteps := by
    intro hmem
    simp only [featureSteps, List.mem_cons, List.not_mem_nil, or_false] at hmem
    rcases hmem with hlib | hfeatures
    · rw [show c = "lib".toList from stepOf_injective (hlib.trans rfl)] at hspecial
      exact absurd hspecial (by decide)
    · rw [show c = "features".toList from stepOf_injective (hfeatures.trans rfl)] at hspecial
      exact absurd hspecial (by decide)
  rcases List.append_eq_append_iff.mp h with ⟨rest, hroot, hrest⟩ | ⟨rest, _, hrest⟩
  · cases rest with
    | nil =>
      rw [List.nil_append] at hrest
      exact absurd (hrest ▸ List.mem_cons_self) hnot
    | cons s rest =>
      rw [List.cons_append, List.cons.injEq] at hrest
      rw [hroot, hrest.1]
      exact ⟨rest, by simp⟩
  · refine absurd ?_ hnot
    rw [hrest]
    exact List.mem_append_right _ List.mem_cons_self

end Target

/-! ## What is found -/

/-- A path that the walk comes to before the root: the root goes on with a step behind it. -/
def Path.IsAbove (root p : Path) : Prop :=
  ∃ way step, step ≠ dot ∧ way.filter (fun s => !s.isEmpty) ++ [step] <+: root.steps ∧
    WalkedTo root.isAbsolute way p

/-- The path that the walk spells for what some names lead to below the features of a root. -/
def Path.belowFeatures (root : Path) (names : List FileName) : Path :=
  spell root.isAbsolute (walkedSteps root.isAbsolute root.segments ++ Target.stepsBelow names)

section Found

variable {t : FileTree} {root : Path} {find : Find} {base : String} {pattern : Pattern}

/-- How the pattern for the features of a root is read. -/
theorem parse_features (hbase : ofString base = (Target.forRoot root).baseDir) :
    Pattern.parse (Target.pattern base "dart") =
      .ok ⟨root.isAbsolute,
        (baseParts base.toList).map partOf ++ [.recursive, sourcePart "dart".toList], false⟩ := by
  have hroute := Target.route_baseDir root
  rw [← hbase] at hroute
  have hne : base.toList ≠ [] := by
    intro hnil
    have hsteps := congrArg Route.steps hroute
    rw [bytes_ofString, hnil] at hsteps
    exact List.append_ne_nil_of_right_ne_nil root.steps (List.cons_ne_nil _ _) hsteps.symm
  have habsolute : (base.toList.head? == some '/') = root.isAbsolute := by
    rw [← head?_stepOf, ← bytes_ofString]
    exact congrArg Route.absolute hroute
  rw [parse_pattern hne isExtension_dart, habsolute]

/-- **What is found**: a directory above the root that cannot be listed, or something below the
features. -/
theorem path_of_mem_matching (hbase : ofString base = (Target.forRoot root).baseDir)
    (hparse : Pattern.parse (Target.pattern base "dart") = .ok pattern)
    (hfind : find ∈ t.matching pattern) :
    (∃ p e, root.IsAbove p ∧ find = .unreadable p e) ∨
      ∃ names, (∃ e, find = .unreadable (root.belowFeatures names) e) ∨
        ∃ q : Place, q.path = root.belowFeatures names ∧ find = .place q := by
  rw [parse_features hbase, Except.ok.injEq] at hparse
  subst hparse
  have hsteps : ((baseParts base.toList).map stepOf).filter (fun s => !s.isEmpty) =
      root.steps ++ Target.featureSteps := by
    rw [filter_baseParts, hbase]
    exact congrArg Route.steps (Target.route_baseDir root)
  have hwalk := (List.mem_filter.mp hfind).1
  have hnames : ∀ name ∈ baseParts base.toList, '/' ∉ name := fun _ h => not_mem_of_mem_splitOn h
  rcases mem_expand_parts hnames (walkedTo_start root.isAbsolute) hwalk with
    ⟨before, c, after, q, e, hparts, hspecial, hq, hunreadable⟩ | ⟨q, hq, hwalk⟩
  · have hc := stepOf_ne_nil_of_isSpecial hspecial
    rw [hparts, List.map_append, List.map_cons, List.filter_append,
      List.filter_cons_of_pos (by simp [hc])] at hsteps
    exact .inl ⟨q, e, ⟨before.map stepOf, stepOf c, (stepOf_ne_of_isSpecial hspecial).1,
      Target.prefix_steps_of_isSpecial hspecial hsteps, hq⟩, hunreadable⟩
  · rw [List.nil_append] at hq
    have hwalked := Target.walkedSteps_features hsteps
    have hne : walkedSteps root.isAbsolute ((baseParts base.toList).map stepOf) ≠ [] := by
      rw [hwalked]
      exact List.append_ne_nil_of_right_ne_nil _ (List.cons_ne_nil _ _)
    have hpath := hq.path_eq hne (Target.getLast?_baseParts_ne hbase)
    have hspelled := spelled_walkedSteps hne hq.no_slash
    have hbelow : ∀ names, q.path.below names = root.belowFeatures names := by
      intro names
      rw [hpath, below, along_spell hne hspelled isStep_of_mem_map, hwalked, List.append_assoc]
      rfl
    obtain ⟨names, hnames⟩ := path_of_mem_expand_recursive hwalk
    rw [hbelow] at hnames
    exact .inr ⟨names, hnames⟩

end Found

/-! ## What it is called -/

/-- Whether a root names a path as seen from there: the path begins with the components of the root,
or it begins at the top of the tree, or the root is nothing but the working directory. -/
def Path.Names (root p : Path) : Prop :=
  root.components <+: p.components ∨ p.isAbsolute = true ∨ root.components = [.current]

/-- Whether a root begins with a dot and goes on behind it. -/
def Path.IsDotted (root : Path) : Prop := ∃ c cs, root.components = .current :: c :: cs

/-- Two paths lead to the same in every tree. -/
def Path.LeadsLike (p q : Path) : Prop :=
  ∀ (t : FileTree) (purpose : Purpose), t.lookup purpose p = t.lookup purpose q

section Above

variable {root p : Path}

/-- What is above the root does not begin with its components. -/
theorem Path.IsAbove.not_begins (h : root.IsAbove p) : ¬ root.components <+: p.components := by
  obtain ⟨way, step, hstep, hroot, hwalked⟩ := h
  intro hbegins
  have hle := (hbegins.filter IsLater).length_le
  rw [filter_components, filter_components, hwalked.laterComponents_steps,
    ← laterComponents_filter way] at hle
  obtain ⟨rest, hrest⟩ := hroot
  have hloud : isSilent step = false :=
    isSilent_eq_false (isStep_of_mem_steps (p := root) (by simp [← hrest])) hstep
  have hlength := congrArg (fun steps => (laterComponents steps).length) hrest
  simp only [List.append_assoc, List.singleton_append, laterComponents_append, List.length_append,
    length_laterComponents_cons hloud] at hlength
  omega

theorem Path.IsAbove.components_ne (h : root.IsAbove p) : root.components ≠ [.current] := by
  obtain ⟨way, step, hstep, hroot, _⟩ := h
  intro hcomponents
  have hlater := filter_components root
  rw [hcomponents] at hlater
  have hmem : step ∈ root.steps := hroot.subset (List.mem_append_right _ List.mem_cons_self)
  exact hstep (eq_dot_of_laterComponents_eq_nil (fun s hs => isStep_of_mem_steps hs) hlater.symm
    step hmem)

/-- What is above the root is named from there only if it begins at the top of the tree. -/
theorem Path.IsAbove.names_iff (h : root.IsAbove p) : root.Names p ↔ p.isAbsolute = true := by
  simp [Names, h.not_begins, h.components_ne]

theorem Path.IsAbove.isAbsolute (h : root.IsAbove p) (hroot : root.isAbsolute = true) :
    p.isAbsolute = true := by
  obtain ⟨way, step, _, _, hwalked⟩ := h
  rw [hroot] at hwalked
  exact hwalked.isAbsolute

end Above

section Below

variable {root : Path} {names : List FileName}

/-- Below a root that does not begin with a dot the walk goes on from the steps of the root. -/
theorem belowFeatures_eq (hroot : root.isAbsolute = true ∨ root.steps.head? ≠ some dot)
    (names : List FileName) :
    root.belowFeatures names = spell root.isAbsolute (root.steps ++ Target.stepsBelow names) := by
  have hwalked : walkedSteps root.isAbsolute root.segments = root.steps := by
    unfold walkedSteps
    rw [← steps_eq]
    cases habsolute : root.isAbsolute with
    | true => rfl
    | false =>
      have hhead := hroot.resolve_left (by simp [habsolute])
      cases hsteps : root.steps with
      | nil => rfl
      | cons s rest =>
        rw [hsteps] at hhead
        show (s :: rest).dropWhile (· == dot) = s :: rest
        rw [List.dropWhile_cons_of_neg (by simpa using hhead)]
  rw [belowFeatures, hwalked]

theorem route_belowFeatures (root : Path) (names : List FileName) :
    Route.ofBytes (root.belowFeatures names).bytes = ⟨root.isAbsolute,
      walkedSteps root.isAbsolute root.segments ++ Target.stepsBelow names, false⟩ := by
  refine route_spell (List.append_ne_nil_of_right_ne_nil _ (Target.stepsBelow_ne_nil names)) ?_
  intro s hs
  rcases List.mem_append.mp hs with hwalked | hbelow
  · exact isStep_of_mem_walkedSteps (fun s hs => not_mem_of_mem_splitOn hs) s hwalked
  · exact Target.isStep_of_mem_stepsBelow s hbelow

theorem steps_belowFeatures (root : Path) (names : List FileName) :
    (root.belowFeatures names).steps =
      walkedSteps root.isAbsolute root.segments ++ Target.stepsBelow names :=
  congrArg Route.steps (route_belowFeatures root names)

theorem isAbsolute_belowFeatures (root : Path) (names : List FileName) :
    (root.belowFeatures names).isAbsolute = root.isAbsolute :=
  congrArg Route.absolute (route_belowFeatures root names)

/-- No dot stands at the beginning of what is found. -/
theorem current_not_mem_belowFeatures (root : Path) (names : List FileName) :
    .current ∉ (root.belowFeatures names).components := by
  refine current_not_mem_components ?_
  rw [isAbsolute_belowFeatures, steps_belowFeatures]
  cases root.isAbsolute with
  | true => exact .inl rfl
  | false =>
    refine .inr ?_
    have hhead := head?_walkedSteps root.segments
    cases hwalked : walkedSteps false root.segments with
    | nil =>
      have hfeatures : Target.featureSteps.head? ≠ some dot := by decide
      exact hfeatures
    | cons s rest =>
      rw [hwalked] at hhead
      exact hhead

/-- What is found does not begin with the components of a root that begins with a dot. -/
theorem not_begins_belowFeatures
    (hroot : ¬ (root.isAbsolute = true ∨ root.steps.head? ≠ some dot)) (names : List FileName) :
    root.isAbsolute = false ∧ root.components = .current :: laterComponents root.steps ∧
      ¬ root.components <+: (root.belowFeatures names).components := by
  obtain ⟨habsolute, hhead⟩ := not_or.mp hroot
  rw [Bool.not_eq_true] at habsolute
  have hcomponents := components_of_dot habsolute (not_not.mp hhead)
  refine ⟨habsolute, hcomponents, fun hbegins => ?_⟩
  exact current_not_mem_belowFeatures root names (hbegins.subset (hcomponents ▸ List.mem_cons_self))

/-- What is found below the features is named from any root that is not dotted. -/
theorem names_belowFeatures_iff : root.Names (root.belowFeatures names) ↔ ¬ root.IsDotted := by
  by_cases hroot : root.isAbsolute = true ∨ root.steps.head? ≠ some dot
  · have hbegins : root.components <+: (root.belowFeatures names).components := by
      rw [belowFeatures_eq hroot, components_spell_append (Target.stepsBelow_ne_nil names)
        Target.isStep_of_mem_stepsBelow (fun h => Target.ne_dot_of_mem_stepsBelow dot (List.mem_of_mem_head? h) rfl)]
      exact List.prefix_append _ _
    refine iff_of_true (.inl hbegins) ?_
    rintro ⟨c, cs, hcomponents⟩
    exact current_not_mem_components hroot (hcomponents ▸ List.mem_cons_self)
  · obtain ⟨habsolute, hcomponents, hnot⟩ := not_begins_belowFeatures hroot names
    have hnames : root.Names (root.belowFeatures names) ↔ root.components = [.current] := by
      rw [Names, isAbsolute_belowFeatures, habsolute]
      simp [hnot]
    rw [hnames, IsDotted, hcomponents]
    cases laterComponents root.steps <;> simp

/-- Joined to the root, the name of what is found leads back to it, unless it becomes too long. -/
theorem leadsLike_belowFeatures (h : root.Names (root.belowFeatures names))
    (hlt : (root.join (relativeTo root (root.belowFeatures names))).bytes.length < maxPathLength) :
    (root.join (relativeTo root (root.belowFeatures names))).LeadsLike (root.belowFeatures names) := by
  intro t purpose
  by_cases hroot : root.isAbsolute = true ∨ root.steps.head? ≠ some dot
  · rw [belowFeatures_eq hroot, relativeTo_spell (Target.stepsBelow_ne_nil names) Target.isStep_of_mem_stepsBelow
      Target.ne_dot_of_mem_stepsBelow hroot] at hlt ⊢
    exact lookup_join_spell t purpose root (Target.stepsBelow_ne_nil names) Target.isStep_of_mem_stepsBelow hlt
  · obtain ⟨habsolute, hcomponents, hnot⟩ := not_begins_belowFeatures hroot names
    have hnone : laterComponents root.steps = [] := by
      rcases h with hbegins | habsolute' | hcurrent
      · exact absurd hbegins hnot
      · rw [isAbsolute_belowFeatures, habsolute] at habsolute'
        cases habsolute'
      · rw [hcomponents] at hcurrent
        exact (List.cons.inj hcurrent).2
    have hdots := eq_dot_of_laterComponents_eq_nil (fun s hs => isStep_of_mem_steps hs) hnone
    rw [relativeTo_of_not_begins hnot] at hlt ⊢
    refine lookup_join_dots t purpose habsolute hdots ?_ ?_ hlt
    · rw [steps_belowFeatures]
      exact List.append_ne_nil_of_right_ne_nil _ (Target.stepsBelow_ne_nil names)
    · rw [isAbsolute_belowFeatures, habsolute]

/-- A path that is not named from the root is called what it is. -/
theorem relativeTo_of_not_names {p : Path} (h : ¬ root.Names p) : relativeTo root p = p :=
  relativeTo_of_not_begins fun hbegins => h (.inl hbegins)

/-- What leads on from a base is a text if the whole is one. -/
theorem isText_spell_of_append {base : Path} {behind : List Bytes} (hne : behind ≠ [])
    (h : (spell base.isAbsolute (base.steps ++ behind)).IsText) : (spell false behind).IsText := by
  by_cases hsteps : base.steps = []
  · rw [hsteps, List.nil_append] at h
    cases habsolute : base.isAbsolute with
    | false => rwa [habsolute] at h
    | true =>
      rw [habsolute] at h
      exact (@isText_of_append_slash [] _ h).2
  · rw [spell, joinWith_append_append hsteps hne, ← List.append_assoc] at h
    exact (isText_of_append_slash h).2

theorem isText_relativeTo_belowFeatures (h : (root.belowFeatures names).IsText) :
    (relativeTo root (root.belowFeatures names)).IsText := by
  by_cases hroot : root.isAbsolute = true ∨ root.steps.head? ≠ some dot
  · rw [belowFeatures_eq hroot] at h ⊢
    rw [relativeTo_spell (Target.stepsBelow_ne_nil names) Target.isStep_of_mem_stepsBelow
      Target.ne_dot_of_mem_stepsBelow hroot]
    exact isText_spell_of_append (Target.stepsBelow_ne_nil names) h
  · rwa [relativeTo_of_not_begins (not_begins_belowFeatures hroot names).2.2]

end Below

/-! ## The report -/

section Report

variable {root p : Path}

theorem paths_of_discover {t : FileTree} {d : Discovery}
    (h : (Target.forRoot root).discover t = .ok d) :
    (∀ p ∈ d.files, ∃ names, p = root.belowFeatures names) ∧
      ∀ p ∈ d.paths, root.IsAbove p ∨ ∃ names, p = root.belowFeatures names := by
  obtain ⟨base, pattern, hbase, hparse, rfl⟩ := discover_eq_ok_iff.mp h
  have hbase' : ofString base = (Target.forRoot root).baseDir :=
    congrArg Path.mk (Utf8.decode?_eq_some_iff.mp hbase)
  have hfiles : ∀ p ∈ (Target.discoveryOf t (t.matching pattern)).files,
      ∃ names, p = root.belowFeatures names := by
    intro p hp
    obtain ⟨q, hfind, _, rfl⟩ := mem_files_discoveryOf.mp hp
    rcases path_of_mem_matching hbase' hparse hfind with ⟨_, _, _, hplace⟩ |
      ⟨names, ⟨_, hplace⟩ | ⟨q', hpath, hplace⟩⟩
    · cases hplace
    · cases hplace
    · cases hplace
      exact ⟨names, hpath⟩
  refine ⟨hfiles, fun p hp => ?_⟩
  rcases List.mem_append.mp hp with hunreadable | hfile
  · obtain ⟨⟨p, f⟩, hmem, rfl⟩ := List.mem_map.mp hunreadable
    obtain ⟨e, hfind, _⟩ := mem_unreadable_discoveryOf.mp hmem
    rcases path_of_mem_matching hbase' hparse hfind with ⟨_, _, habove, hplace⟩ |
      ⟨names, ⟨_, hplace⟩ | ⟨q', hpath, hplace⟩⟩
    · cases hplace
      exact .inl habove
    · cases hplace
      exact .inr ⟨names, rfl⟩
    · cases hplace
  · exact .inr (hfiles p hfile)

/-- **A name from the root leads back**, and any other name is the whole path. -/
theorem nameOf_found (hfound : root.IsAbove p ∨ ∃ names, p = root.belowFeatures names)
    (htext : p.IsText) :
    (root.Names p →
      (root.join (ofString ((Target.forRoot root).nameOf p))).bytes.length < maxPathLength →
        (root.join (ofString ((Target.forRoot root).nameOf p))).LeadsLike p) ∧
      (¬ root.Names p → ofString ((Target.forRoot root).nameOf p) = p) := by
  have hrelative : (relativeTo root p).IsText := by
    rcases hfound with habove | ⟨names, rfl⟩
    · rwa [relativeTo_of_not_begins habove.not_begins]
    · exact isText_relativeTo_belowFeatures htext
  have hname : ofString ((Target.forRoot root).nameOf p) = relativeTo root p :=
    ofString_display hrelative
  rw [hname]
  refine ⟨fun hnames hlt => ?_, relativeTo_of_not_names⟩
  rcases hfound with habove | ⟨names, rfl⟩
  · have habsolute := habove.names_iff.mp hnames
    rw [relativeTo_of_not_begins habove.not_begins, join, if_pos habsolute]
    exact fun _ _ => rfl
  · exact leadsLike_belowFeatures hnames hlt

/-- **The names in a report lead from the root to what was found**, in whatever tree they are
followed, unless they get too long behind the root. All files are named from the root, if it is not
dotted, and with them the directories that could not be listed, if the root is absolute. What is not
named from the root is called what it is. -/
theorem name_resolves (t : FileTree) (hroot : root.IsText) (dryRun : Bool) :
    ∃ d r, (Target.forRoot root).discover t = .ok d ∧
      (migrate t (.forRoot root) dryRun).1 = .ok r ∧
      r.files.map FileReport.file = d.paths.map (Target.forRoot root).nameOf ∧
      (∀ p ∈ d.paths, p.IsText →
        (root.Names p →
          (root.join (ofString ((Target.forRoot root).nameOf p))).bytes.length < maxPathLength →
            (root.join (ofString ((Target.forRoot root).nameOf p))).LeadsLike p) ∧
        (¬ root.Names p → ofString ((Target.forRoot root).nameOf p) = p)) ∧
      (∀ p ∈ d.files, root.Names p ↔ ¬ root.IsDotted) ∧
      (root.isAbsolute = true → ∀ p ∈ d.paths, root.Names p) := by
  obtain ⟨base, hbase⟩ := (Target.isText_baseDir_iff root).mpr hroot
  have hbase' : ofString base = (Target.forRoot root).baseDir :=
    congrArg Path.mk (Utf8.decode?_eq_some_iff.mp hbase)
  obtain ⟨d, hd⟩ : ∃ d, (Target.forRoot root).discover t = .ok d :=
    ⟨_, discover_eq_ok_iff.mpr ⟨base, _, hbase, parse_features hbase', rfl⟩⟩
  obtain ⟨r, hr, htells⟩ := migrate_of_discover hd dryRun
  obtain ⟨hfiles, hpaths⟩ := paths_of_discover hd
  refine ⟨d, r, hd, hr, ?_, fun p hp htext => nameOf_found (hpaths p hp) htext, fun p hp => ?_,
    fun habsolute p hp => ?_⟩
  · rw [htells.files, map_file_entries]
  · obtain ⟨names, rfl⟩ := hfiles p hp
    exact names_belowFeatures_iff
  · rcases hpaths p hp with habove | ⟨names, rfl⟩
    · exact habove.names_iff.mpr (habove.isAbsolute habsolute)
    · exact .inr (.inl (by rw [isAbsolute_belowFeatures, habsolute]))

end Report

/-! ## A project with a dot in front -/

namespace Project

/-- The root of the project with a dot in front. -/
def dottedRoot : Path := .ofString "./app"

theorem isDotted_dottedRoot : dottedRoot.IsDotted :=
  ⟨.name (Utf8.encode "app"), [], by decide⟩

theorem not_isDotted_root : ¬ target.root.IsDotted := by
  rintro ⟨c, cs, hcomponents⟩
  have hroot : target.root.components = [.name (Utf8.encode "app")] := by decide
  rw [hroot] at hcomponents
  cases hcomponents

/-- The walk does not see the dot. -/
theorem discover_dottedRoot (access : Access) :
    (Target.forRoot dottedRoot).discover (tree access) = target.discover (tree access) := by
  have hdot : (tree access).literalPlace? ⟨here, (tree access).isDirectory here⟩ ['.'] =
      some ⟨here, (tree access).isDirectory here⟩ := by cbv
  have hexpand : ∀ parts, (tree access).expand (partOf ['.'] :: parts)
      ⟨here, (tree access).isDirectory here⟩ =
        (tree access).expand parts ⟨here, (tree access).isDirectory here⟩ := by
    intro parts
    rw [show partOf ['.'] = .literal ['.'] from rfl, expand, hdot]
  have hmatching : ∀ parts, (tree access).matching ⟨false, partOf ['.'] :: parts, false⟩ =
      (tree access).matching ⟨false, parts, false⟩ := fun parts =>
    congrArg (List.filter _) (hexpand parts)
  have hparts : baseParts "./app/lib/features".toList =
      ['.'] :: baseParts "app/lib/features".toList := by decide
  have hdiscover : target.discover (tree access) = .ok (Target.discoveryOf (tree access) _) :=
    discover_eq_ok_iff.mpr ⟨"app/lib/features", _, by decide +kernel,
      @parse_features (.ofString "app") _ (by decide +kernel), rfl⟩
  have hdotted := @parse_features dottedRoot "./app/lib/features" (by decide +kernel)
  rw [hparts] at hdotted
  rw [hdiscover]
  exact discover_eq_ok_iff.mpr ⟨"./app/lib/features", _, by decide +kernel, hdotted,
    congrArg (Target.discoveryOf (tree access)) (hmatching _).symm⟩

/-- The name of the source file of the project leads back to it. -/
theorem name_resolves_kept :
    ∃ r, (migrate (tree .full) target false).1 = .ok r ∧
      r.files.map FileReport.file = ["lib/features/kept/a.dart"] ∧
      (target.root.join (ofString "lib/features/kept/a.dart")).LeadsLike filePath := by
  have hlisted : target.discover (tree .full) = .ok ⟨[filePath], []⟩ := discover_listed rfl
  obtain ⟨d, r, hd, hr, hnames, hpaths, hfiles, _⟩ :=
    name_resolves (tree .full) (isText_ofString "app") false
  rw [show Target.forRoot (ofString "app") = target from rfl] at hd hr hnames hpaths
  cases hd.symm.trans hlisted
  have hname : target.nameOf filePath = "lib/features/kept/a.dart" := by decide +kernel
  have hmem : filePath ∈ [filePath] := List.mem_singleton.mpr rfl
  have hleads := (hpaths filePath hmem (isText_ofString _)).1
    ((hfiles filePath hmem).mpr not_isDotted_root)
  rw [hname] at hleads
  refine ⟨r, hr, ?_, hleads (by decide +kernel)⟩
  rw [hnames]
  exact congrArg (fun name => [name]) hname

/-- **With a dot in front of the root the name leads nowhere**: the file is named from the working
directory. -/
theorem name_of_dotted_root :
    dottedRoot.IsDotted ∧
      ∃ d r, (Target.forRoot dottedRoot).discover (tree .full) = .ok d ∧ d.files = [filePath] ∧
      (tree .full).isFile filePath = true ∧
      (migrate (tree .full) (.forRoot dottedRoot) false).1 = .ok r ∧
      r.files.map FileReport.file = ["app/lib/features/kept/a.dart"] ∧
      ∀ purpose, (tree .full).lookup purpose
        (dottedRoot.join (ofString "app/lib/features/kept/a.dart")) = .error .notFound := by
  have hlisted : target.discover (tree .full) = .ok ⟨[filePath], []⟩ := discover_listed rfl
  have hd := (discover_dottedRoot .full).trans hlisted
  obtain ⟨r, hr, htells⟩ := migrate_of_discover hd false
  have hname : (Target.forRoot dottedRoot).nameOf filePath = "app/lib/features/kept/a.dart" := by
    decide +kernel
  refine ⟨isDotted_dottedRoot, _, r, hd, rfl, by cbv, hr, ?_, ?_⟩
  · rw [htells.files, map_file_entries]
    exact congrArg (fun name => [name]) hname
  · intro purpose
    cases purpose <;> cbv

end Project

end WidgetMigration
