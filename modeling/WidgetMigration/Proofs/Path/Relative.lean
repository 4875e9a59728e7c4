import WidgetMigration.Proofs.Path.Child

/-!
# Paths and their steps

What a path says is told by whether it begins at the top of the tree and by its steps, the parts
between the slashes that are not empty. From these follow its components (`components_eq`), and they
go through joining (`route_join`).

`Path.spell` spells steps with single slashes, which is the shortest spelling there is
(`length_spell_le`). A spelled path that goes on from the steps of a base is named from the base by
the steps behind those of the base (`relativeTo_spell`).
-/

namespace WidgetMigration.Path

/-- The steps of a path. -/
def steps (p : Path) : List Bytes := (Route.ofBytes p.bytes).steps

theorem steps_eq (p : Path) : p.steps = p.segments.filter fun s => !s.isEmpty := rfl

theorem isStep_of_mem_steps {p : Path} {s : Bytes} (h : s ∈ p.steps) : IsStep s := by
  obtain ⟨hmem, hne⟩ := List.mem_filter.mp h
  refine ⟨?_, not_mem_of_mem_splitOn hmem⟩
  rintro rfl
  cases hne

theorem bytes_ne_nil_of_steps {p : Path} (h : p.steps ≠ []) : p.bytes ≠ [] := by
  intro hnil
  rw [steps_eq, segments, hnil] at h
  exact h rfl

theorem segments_cons_slash (b : Bytes) : (⟨slash :: b⟩ : Path).segments = [] :: splitOn slash b := by
  rw [segments, splitOn, if_pos rfl]

/-! ## Components -/

/-- The component that a path begins with whatever its steps are. -/
def lead (absolute : Bool) (steps : List Bytes) : List Component :=
  if absolute then [.root] else if steps.head? = some dot then [.current] else []

theorem laterComponents_filter (segments : List Bytes) :
    laterComponents (segments.filter fun s => !s.isEmpty) = laterComponents segments := by
  unfold laterComponents
  rw [List.filter_filter]
  congr 2
  funext s
  cases s with
  | nil => rfl
  | cons c s => exact Bool.and_true _

theorem laterComponents_dot (segments : List Bytes) :
    laterComponents (dot :: segments) = laterComponents segments := rfl

/-- The components of a path follow from where it begins and its steps. -/
theorem components_eq (p : Path) :
    p.components = lead p.isAbsolute p.steps ++ laterComponents p.steps := by
  obtain ⟨bytes⟩ := p
  cases bytes with
  | nil => rfl
  | cons c rest =>
    by_cases hc : c = slash
    · subst hc
      have hne := splitOn_ne_nil slash rest
      have hsteps : (⟨slash :: rest⟩ : Path).steps =
          (splitOn slash rest).filter fun s => !s.isEmpty := by
        rw [steps_eq, segments_cons_slash]
        rfl
      rw [components, segments_cons_slash, hsteps, laterComponents_filter]
      simp only [if_true, if_neg hne]
      rfl
    · obtain ⟨part, parts, hparts⟩ : ∃ part parts, splitOn slash (c :: rest) =
          (c :: part) :: parts := by
        rw [splitOn, if_neg hc]
        cases splitOn slash rest with
        | nil => exact ⟨[], [], rfl⟩
        | cons part parts => exact ⟨part, parts, rfl⟩
      have habsolute : (⟨c :: rest⟩ : Path).isAbsolute = false := by
        simp [isAbsolute, hc]
      have hsegments : (⟨c :: rest⟩ : Path).segments = (c :: part) :: parts := hparts
      rw [habsolute, steps_eq, laterComponents_filter, components, hsegments]
      simp only [reduceCtorEq, if_false]
      by_cases hdot : c :: part = dot
      · rw [if_pos hdot, hdot]
        rfl
      · rw [if_neg hdot]
        simp [lead, hdot]

/-- Whether a component can stand behind others. -/
def IsLater (c : Component) : Bool := c != .root && c != .current

theorem isLater_of_mem_laterComponents {segments : List Bytes} {c : Component}
    (h : c ∈ laterComponents segments) : IsLater c = true := by
  obtain ⟨s, _, rfl⟩ := List.mem_map.mp h
  split <;> rfl

theorem filter_components (p : Path) : p.components.filter IsLater = laterComponents p.steps := by
  have hlead : (lead p.isAbsolute p.steps).filter IsLater = [] := by
    unfold lead
    split
    · rfl
    · split <;> rfl
  have hlater : (laterComponents p.steps).filter IsLater = laterComponents p.steps :=
    List.filter_eq_self.mpr fun _ hc => isLater_of_mem_laterComponents hc
  rw [components_eq, List.filter_append, hlead, hlater, List.nil_append]

/-- A dot that a relative path begins with is a component. -/
theorem components_of_dot {p : Path} (habsolute : p.isAbsolute = false)
    (hhead : p.steps.head? = some dot) : p.components = .current :: laterComponents p.steps := by
  rw [components_eq, habsolute, lead, if_neg Bool.false_ne_true, if_pos hhead]
  rfl

/-- No other path has it as a component. -/
theorem current_not_mem_components {p : Path}
    (h : p.isAbsolute = true ∨ p.steps.head? ≠ some dot) : .current ∉ p.components := by
  rw [components_eq, List.mem_append, not_or]
  constructor
  · unfold lead
    split
    · simp
    · rename_i habsolute
      rw [if_neg (h.resolve_left habsolute)]
      exact List.not_mem_nil
  · exact fun hmem => absurd (isLater_of_mem_laterComponents hmem) (by decide)

/-- Steps that say nothing are dots. -/
theorem eq_dot_of_laterComponents_eq_nil {steps : List Bytes} (hsteps : ∀ s ∈ steps, IsStep s)
    (h : laterComponents steps = []) : ∀ s ∈ steps, s = dot := by
  intro s hs
  have hsilent := List.filter_eq_nil_iff.mp (List.map_eq_nil_iff.mp h) s hs
  simpa [isSilent, (hsteps s hs).ne_nil] using hsilent

/-! ## Spelled paths -/

/-- The path that is spelled by some steps, with single slashes between them. -/
def spell (absolute : Bool) (steps : List Bytes) : Path :=
  ⟨(if absolute then [slash] else []) ++ joinWith slash steps⟩

section Spell

variable {absolute : Bool} {steps : List Bytes}

theorem spell_append_singleton (hne : steps ≠ []) (step : Bytes) :
    spell absolute (steps ++ [step]) = ⟨(spell absolute steps).bytes ++ slash :: step⟩ := by
  rw [spell, joinWith_append hne, ← List.append_assoc]
  rfl

theorem segments_spell (hne : steps ≠ []) (h : ∀ s ∈ steps, IsStep s) :
    (spell absolute steps).segments = (if absolute then [[]] else []) ++ steps := by
  have hsplit : splitOn slash (joinWith slash steps) = steps :=
    splitOn_joinWith hne fun s hs => (h s hs).no_slash
  cases absolute with
  | false => exact hsplit
  | true =>
    show (⟨slash :: joinWith slash steps⟩ : Path).segments = _
    rw [segments_cons_slash, hsplit]
    rfl

theorem isAbsolute_spell (hne : steps ≠ []) (h : ∀ s ∈ steps, IsStep s) :
    (spell absolute steps).isAbsolute = absolute := by
  cases absolute with
  | true => rfl
  | false =>
    obtain ⟨step, rest, rfl⟩ := List.exists_cons_of_ne_nil hne
    have hstep := h step List.mem_cons_self
    have hhead : (joinWith slash (step :: rest)).head? = step.head? := by
      obtain ⟨c, s, rfl⟩ := List.exists_cons_of_ne_nil hstep.ne_nil
      cases rest <;> rfl
    have := isAbsolute_step hstep
    rw [isAbsolute] at this ⊢
    show ((joinWith slash (step :: rest)).head? == some slash) = false
    rw [hhead, this]

/-- How the system reads a spelled path. -/
theorem route_spell (hne : steps ≠ []) (h : ∀ s ∈ steps, IsStep s) :
    Route.ofBytes (spell absolute steps).bytes = ⟨absolute, steps, false⟩ := by
  have hsteps : (spell absolute steps).steps = steps := by
    have hkept : steps.filter (fun s => !s.isEmpty) = steps := by
      refine List.filter_eq_self.mpr fun s hs => ?_
      simp [(h s hs).ne_nil]
    rw [steps_eq, segments_spell hne h, List.filter_append, hkept]
    cases absolute <;> rfl
  have hend : (Route.ofBytes (spell absolute steps).bytes).endsInSlash = false := by
    obtain ⟨before, step, rfl⟩ := List.eq_nil_or_concat' steps |>.resolve_left hne
    have hstep := h step (List.mem_append_right _ List.mem_cons_self)
    by_cases hbefore : before = []
    · subst hbefore
      exact endsInSlash_ofBytes_append _ hstep
    · have hlast := endsInSlash_ofBytes_append ((spell absolute before).bytes ++ [slash]) hstep
      rw [List.append_assoc, List.singleton_append] at hlast
      rw [spell_append_singleton hbefore, hlast]
  have habsolute : (Route.ofBytes (spell absolute steps).bytes).absolute = absolute :=
    isAbsolute_spell hne h
  exact Route.ext habsolute hsteps hend

theorem steps_spell (hne : steps ≠ []) (h : ∀ s ∈ steps, IsStep s) :
    (spell absolute steps).steps = steps :=
  congrArg Route.steps (route_spell hne h)

/-- A spelled path is the working directory's only if it is the dot. -/
theorem spelled_spell (hne : steps ≠ []) (h : ∀ s ∈ steps, IsStep s)
    (hdot : absolute = true ∨ steps ≠ [dot]) : (spell absolute steps).Spelled := by
  refine ⟨fun hhere => ?_, fun hnil => ?_, ?_⟩
  · have hroute := @route_spell absolute _ hne h
    rw [hhere] at hroute
    have habsolute := congrArg Route.absolute hroute
    have hsteps := congrArg Route.steps hroute
    rcases hdot with rfl | hdot
    · cases habsolute
    · exact hdot hsteps.symm
  · exact bytes_ne_nil_of_steps (by rwa [steps_spell hne h]) hnil
  · have hend := congrArg Route.endsInSlash (@route_spell absolute _ hne h)
    exact fun hlast => by simp [Route.ofBytes, hlast] at hend

end Spell

theorem length_joinWith_cons (s : Bytes) {segments : List Bytes} (hne : segments ≠ []) :
    (joinWith slash (s :: segments)).length = s.length + 1 + (joinWith slash segments).length := by
  obtain ⟨next, rest, rfl⟩ := List.exists_cons_of_ne_nil hne
  simp only [joinWith, List.length_append, List.length_cons]
  omega

theorem length_joinWith_filter_le (keep : Bytes → Bool) (segments : List Bytes) :
    (joinWith slash (segments.filter keep)).length ≤ (joinWith slash segments).length := by
  induction segments with
  | nil => exact Nat.le_refl _
  | cons s segments ih =>
    have hcons : (joinWith slash segments).length ≤ (joinWith slash (s :: segments)).length ∧
        s.length ≤ (joinWith slash (s :: segments)).length := by
      by_cases hsegments : segments = []
      · subst hsegments
        simp [joinWith]
      · rw [length_joinWith_cons s hsegments]
        omega
    cases hs : keep s with
    | false =>
      rw [List.filter_cons_of_neg (by simp [hs])]
      omega
    | true =>
      rw [List.filter_cons_of_pos hs]
      by_cases hkept : segments.filter keep = []
      · rw [hkept, joinWith]
        exact hcons.2
      · have hsegments : segments ≠ [] := fun hnil => hkept (by rw [hnil]; rfl)
        rw [length_joinWith_cons s hkept, length_joinWith_cons s hsegments]
        omega

/-- No path with the same steps is shorter than the spelled one. -/
theorem length_spell_le (p : Path) : (spell p.isAbsolute p.steps).bytes.length ≤ p.bytes.length := by
  obtain ⟨bytes⟩ := p
  cases habsolute : (⟨bytes⟩ : Path).isAbsolute with
  | false =>
    have := length_joinWith_filter_le (fun s => !s.isEmpty) (splitOn slash bytes)
    rwa [joinWith_splitOn] at this
  | true =>
    obtain ⟨rest, rfl⟩ := List.head?_eq_some_iff.mp (beq_iff_eq.mp habsolute)
    have := length_joinWith_filter_le (fun s => !s.isEmpty) (splitOn slash rest)
    rw [joinWith_splitOn] at this
    rw [steps_eq, segments_cons_slash]
    exact Nat.succ_le_succ this

/-! ## Joined paths -/

/-- How the system reads a joined path: the steps of the one come before those of the other. -/
theorem route_join (p : Path) {q : Path} (hne : q.bytes ≠ []) (hrelative : q.isAbsolute = false) :
    Route.ofBytes (p.join q).bytes =
      ⟨p.isAbsolute, p.steps ++ q.steps, (Route.ofBytes q.bytes).endsInSlash⟩ := by
  -- The last byte of what is joined is the last byte.
  have hend : ∀ b : Bytes, (Route.ofBytes (b ++ q.bytes)).endsInSlash =
      (Route.ofBytes q.bytes).endsInSlash := by
    intro b
    show ((b ++ q.bytes).getLast? == some slash) = _
    rw [List.getLast?_append_of_ne_nil b hne]
    rfl
  have hsplit : ∀ b : Bytes, (Route.ofBytes (b ++ slash :: q.bytes)).steps =
      (Route.ofBytes b).steps ++ q.steps := by
    intro b
    show (splitOn slash _).filter _ = (splitOn slash b).filter _ ++ (splitOn slash q.bytes).filter _
    rw [splitOn_append_cons, List.filter_append]
  unfold join
  rw [hrelative]
  simp only [Bool.false_eq_true, if_false]
  by_cases hnil : p.bytes = []
  · rw [if_pos (.inl hnil)]
    have hp : p = ⟨[]⟩ := congrArg Path.mk hnil
    rw [hp]
    exact Route.ext hrelative rfl rfl
  by_cases hlast : p.bytes.getLast? = some slash
  · rw [if_pos (.inr hlast)]
    refine Route.ext (absolute_ofBytes_append hnil _) ?_ (hend _)
    obtain ⟨b, hb⟩ := List.getLast?_eq_some_iff.mp hlast
    have hp : p.steps = (Route.ofBytes b).steps := by
      show (splitOn slash p.bytes).filter _ = (splitOn slash b).filter _
      rw [hb, splitOn_append_cons, List.filter_append]
      simp [splitOn]
    rw [hp, hb, List.append_assoc, List.singleton_append, hsplit]
  · rw [if_neg (by simp [hnil, hlast])]
    refine Route.ext (absolute_ofBytes_append hnil _) (hsplit _) ?_
    have := hend (p.bytes ++ [slash])
    rwa [List.append_assoc, List.singleton_append] at this

/-! ## Names from a base -/

theorem laterComponents_cons_of_silent {s : Bytes} (h : isSilent s = true) (segments : List Bytes) :
    laterComponents (s :: segments) = laterComponents segments := by
  unfold laterComponents
  rw [List.filter_cons_of_neg (by simp [h])]

theorem length_laterComponents_cons {s : Bytes} (h : isSilent s = false) (segments : List Bytes) :
    (laterComponents (s :: segments)).length = (laterComponents segments).length + 1 := by
  unfold laterComponents
  rw [List.filter_cons_of_pos (by simp [h])]
  simp

/-- Behind as many components as there are in some segments comes what is behind the segments. -/
theorem dropComponents_append (before behind : List Bytes) :
    (dropComponents (laterComponents before).length (before ++ behind)).dropWhile isSilent =
      behind.dropWhile isSilent := by
  induction before with
  | nil => cases behind <;> rfl
  | cons s before ih =>
    cases hs : isSilent s with
    | false =>
      rw [length_laterComponents_cons hs, List.cons_append, dropComponents, hs]
      exact ih
    | true =>
      rw [laterComponents_cons_of_silent hs, List.cons_append]
      cases hlength : (laterComponents before).length with
      | zero =>
        rw [hlength] at ih
        rw [dropComponents] at ih ⊢
        rw [List.dropWhile_cons_of_pos hs, ih]
      | succ n =>
        rw [hlength] at ih
        rw [dropComponents, if_pos hs, ih]

/-- Steps that say something are not trimmed. -/
theorem trimEnd_eq_self {steps : List Bytes} (h : ∀ s ∈ steps, isSilent s = false) :
    trimEnd steps = steps := by
  unfold trimEnd
  have hdrop : steps.reverse.dropWhile isSilent = steps.reverse := by
    cases hreverse : steps.reverse with
    | nil => rfl
    | cons s rest =>
      have hmem : s ∈ steps := List.mem_reverse.mp (hreverse ▸ List.mem_cons_self)
      exact List.dropWhile_cons_of_neg (by simp [h s hmem])
  rw [hdrop, List.reverse_reverse]

theorem relativeTo_of_not_begins {base p : Path} (h : ¬ base.components <+: p.components) :
    relativeTo base p = p := by
  unfold relativeTo stripBase?
  cases hlength : base.components.length with
  | zero =>
    rw [List.length_eq_zero_iff.mp hlength] at h
    exact absurd List.nil_prefix h
  | succ n =>
    simp only [if_neg h]
    rfl

section Behind

variable {base : Path} {behind : List Bytes}

theorem isSilent_eq_false {s : Bytes} (h : IsStep s) (hdot : s ≠ dot) : isSilent s = false := by
  simp [isSilent, h.ne_nil, hdot]

/-- Steps behind others do not change what a path begins with, unless it begins with them. -/
theorem lead_append (absolute : Bool) (steps : List Bytes) (h : behind.head? ≠ some dot) :
    lead absolute (steps ++ behind) = lead absolute steps := by
  unfold lead
  cases steps with
  | nil => simp [h]
  | cons s steps => rfl

theorem isStep_of_mem_append (base : Path) (hbehind : ∀ s ∈ behind, IsStep s) :
    ∀ s ∈ base.steps ++ behind, IsStep s := by
  intro s hs
  rcases List.mem_append.mp hs with hs | hs
  · exact isStep_of_mem_steps hs
  · exact hbehind s hs

/-- A spelled path that goes on from the steps of a base has the components of the base, and more. -/
theorem components_spell_append (hne : behind ≠ []) (hbehind : ∀ s ∈ behind, IsStep s)
    (hhead : behind.head? ≠ some dot) :
    (spell base.isAbsolute (base.steps ++ behind)).components =
      base.components ++ laterComponents behind := by
  have hsteps := isStep_of_mem_append base hbehind
  have hne' : base.steps ++ behind ≠ [] := List.append_ne_nil_of_right_ne_nil _ hne
  rw [components_eq, isAbsolute_spell hne' hsteps, steps_spell hne' hsteps, lead_append _ _ hhead,
    laterComponents_append, components_eq base, List.append_assoc]

/-- The components of a base that does not begin with a dot. -/
theorem components_cases (hbase : base.isAbsolute = true ∨ base.steps.head? ≠ some dot) :
    (base.isAbsolute = true ∧ base.components = .root :: laterComponents base.steps) ∨
    (base.isAbsolute = false ∧ base.steps = [] ∧ base.components = []) ∨
    ∃ s rest, base.isAbsolute = false ∧ base.steps = s :: rest ∧
      base.components.length = (laterComponents rest).length + 1 := by
  rw [components_eq]
  cases habsolute : base.isAbsolute with
  | true => exact .inl ⟨rfl, rfl⟩
  | false =>
    have hhead := hbase.resolve_left (by simp [habsolute])
    cases hsteps : base.steps with
    | nil => exact .inr (.inl ⟨rfl, rfl, rfl⟩)
    | cons s rest =>
      rw [hsteps] at hhead
      have hs : isSilent s = false :=
        isSilent_eq_false (isStep_of_mem_steps (p := base) (by simp [hsteps]))
          fun h => hhead (by rw [h]; rfl)
      refine .inr (.inr ⟨s, rest, rfl, rfl, ?_⟩)
      rw [lead, if_neg Bool.false_ne_true, if_neg hhead, List.nil_append,
        length_laterComponents_cons hs]

/-- What is left of a path behind the components of a base. -/
theorem relativeTo_of_begins {p : Path} {counted : List Bytes}
    (hbegins : base.components <+: p.components)
    (hlength : base.components.length = (laterComponents counted).length + 1)
    (hsegments : p.segments.drop 1 = counted ++ behind) (hne : behind ≠ [])
    (hloud : ∀ s ∈ behind, isSilent s = false) : relativeTo base p = spell false behind := by
  have hdrop : behind.dropWhile isSilent = behind := by
    obtain ⟨s, rest, rfl⟩ := List.exists_cons_of_ne_nil hne
    exact List.dropWhile_cons_of_neg (by simp [hloud s List.mem_cons_self])
  unfold relativeTo stripBase?
  simp only [hlength, if_pos hbegins, hsegments, dropComponents_append, hdrop,
    trimEnd_eq_self hloud]
  rfl

/-- **A path that goes on from the steps of a base is named by what is behind them**, unless the base
begins with a dot, which is a component of its own. -/
theorem relativeTo_spell (hne : behind ≠ []) (hbehind : ∀ s ∈ behind, IsStep s)
    (hdot : ∀ s ∈ behind, s ≠ dot) (hbase : base.isAbsolute = true ∨ base.steps.head? ≠ some dot) :
    relativeTo base (spell base.isAbsolute (base.steps ++ behind)) = spell false behind := by
  have hloud : ∀ s ∈ behind, isSilent s = false := fun s hs =>
    isSilent_eq_false (hbehind s hs) (hdot s hs)
  have hhead : behind.head? ≠ some dot := fun h => hdot dot (List.mem_of_mem_head? h) rfl
  have hbegins : base.components <+: (spell base.isAbsolute (base.steps ++ behind)).components := by
    rw [components_spell_append hne hbehind hhead]
    exact List.prefix_append _ _
  have hsegments := @segments_spell base.isAbsolute _
    (List.append_ne_nil_of_right_ne_nil base.steps hne) (isStep_of_mem_append base hbehind)
  rcases components_cases hbase with ⟨habsolute, hcomponents⟩ | ⟨habsolute, hsteps, hcomponents⟩ |
    ⟨s, rest, habsolute, hsteps, hlength⟩
  · refine relativeTo_of_begins hbegins (by rw [hcomponents]; rfl) ?_ hne hloud
    rw [hsegments, habsolute]
    rfl
  · -- An empty base leaves the path as it is, and there is nothing to trim.
    rw [hsteps, List.nil_append, habsolute] at hsegments ⊢
    obtain ⟨first, later, rfl⟩ := List.exists_cons_of_ne_nil hne
    have htrim := trimEnd_eq_self fun s hs => hloud s (List.mem_cons_of_mem first hs)
    have hfirst := (hbehind first List.mem_cons_self).ne_nil
    unfold relativeTo stripBase?
    simp only [hcomponents, List.length_nil, Option.getD_some, trimmed, hsegments,
      Bool.false_eq_true, if_false, List.nil_append, htrim, hfirst, false_and]
    rfl
  · refine relativeTo_of_begins hbegins hlength ?_ hne hloud
    rw [hsegments, habsolute, hsteps]
    rfl

end Behind

end WidgetMigration.Path
