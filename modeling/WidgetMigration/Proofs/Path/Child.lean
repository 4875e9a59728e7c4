import Mathlib.Data.List.Basic
import WidgetMigration.Proofs.Text.Splitting
import WidgetMigration.Tree.Resolve

/-!
# The paths below a directory

A walk spells the path of an entry as the path of its directory, a slash and the name of the entry
(`Path.child`); only the working directory is not spelled out. Names have no slashes, so the path
below a directory tells the names on the way (`along_inj`), its steps are those of the directory and
the names (`ofBytes_child`), and the order of paths compares the names one by one (`sortKey_along`).
-/

namespace WidgetMigration

/-- Whether some bytes can stand as one step at the end of a path. -/
structure IsStep (step : Bytes) : Prop where
  ne_nil : step ≠ []
  no_slash : slash ∉ step

theorem FileName.isStep (name : FileName) : IsStep name.bytes :=
  ⟨name.bytes_ne_nil, name.slash_not_mem⟩

namespace Path

/-- The path of what one step leads to from a directory. -/
def child (directory : Path) (step : Bytes) : Path :=
  if directory = here then ⟨step⟩ else directory.join ⟨step⟩

/-- The path of what some steps lead to from a directory. -/
def along (directory : Path) (steps : List Bytes) : Path :=
  steps.foldl child directory

@[simp] theorem along_nil (directory : Path) : along directory [] = directory := rfl

@[simp] theorem along_cons (directory : Path) (step : Bytes) (steps : List Bytes) :
    along directory (step :: steps) = along (child directory step) steps := rfl

theorem along_append (directory : Path) (steps steps' : List Bytes) :
    along directory (steps ++ steps') = along (along directory steps) steps' :=
  List.foldl_append

theorem isAbsolute_step {step : Bytes} (h : IsStep step) : (⟨step⟩ : Path).isAbsolute = false := by
  cases hstep : step with
  | nil => exact absurd hstep h.ne_nil
  | cons c rest =>
    have hc : c ≠ slash := by
      rintro rfl
      exact h.no_slash (hstep ▸ List.mem_cons_self)
    simp [isAbsolute, hc]

/-! ## How a child is spelled -/

/-- The ways to spell a child: alone in the working directory, else behind a slash, which may be
there already. -/
theorem child_cases (directory : Path) {step : Bytes} (h : IsStep step) :
    (directory = here ∧ child directory step = ⟨step⟩) ∨
    (directory ≠ here ∧ (directory.bytes = [] ∨ directory.bytes.getLast? = some slash) ∧
      child directory step = ⟨directory.bytes ++ step⟩) ∨
    (directory ≠ here ∧ directory.bytes ≠ [] ∧ directory.bytes.getLast? ≠ some slash ∧
      child directory step = ⟨directory.bytes ++ slash :: step⟩) := by
  unfold child
  by_cases hhere : directory = here
  · exact .inl ⟨hhere, if_pos hhere⟩
  rw [if_neg hhere, join, isAbsolute_step h]
  simp only [Bool.false_eq_true, if_false]
  by_cases hend : directory.bytes = [] ∨ directory.bytes.getLast? = some slash
  · exact .inr (.inl ⟨hhere, hend, if_pos hend⟩)
  · rw [if_neg hend]
    exact .inr (.inr ⟨hhere, fun h => hend (.inl h), fun h => hend (.inr h), rfl⟩)

/-- A path that does not end in a slash and is neither empty nor the working directory's: the path of
a child spells it out and puts a slash behind it. -/
structure Spelled (p : Path) : Prop where
  ne_here : p ≠ here
  ne_nil : p.bytes ≠ []
  no_slash_end : p.bytes.getLast? ≠ some slash

theorem Spelled.child_eq {p : Path} (h : p.Spelled) {step : Bytes} (hstep : IsStep step) :
    child p step = ⟨p.bytes ++ slash :: step⟩ := by
  rcases child_cases p hstep with ⟨hhere, _⟩ | ⟨_, hend, _⟩ | ⟨_, _, _, heq⟩
  · exact absurd hhere h.ne_here
  · rcases hend with hend | hend
    · exact absurd hend h.ne_nil
    · exact absurd hend h.no_slash_end
  · exact heq

theorem getLast?_ne_slash {step : Bytes} (h : IsStep step) (before : Bytes) :
    (before ++ step).getLast? ≠ some slash := by
  rw [List.getLast?_append_of_ne_nil before h.ne_nil]
  intro hlast
  exact h.no_slash (List.mem_of_getLast? hlast)

theorem spelled_append_slash (before : Bytes) {step : Bytes} (h : IsStep step) :
    (⟨before ++ slash :: step⟩ : Path).Spelled := by
  refine ⟨fun hhere => ?_, List.append_ne_nil_of_right_ne_nil _ (List.cons_ne_nil _ _), ?_⟩
  · have hbytes : before ++ slash :: step = dot := congrArg Path.bytes hhere
    have hmem : slash ∈ dot := hbytes ▸ List.mem_append_right _ List.mem_cons_self
    exact absurd hmem (by decide)
  · rw [← List.singleton_append, ← List.append_assoc]
    exact getLast?_ne_slash h _

theorem Spelled.spelled_child {p : Path} (h : p.Spelled) {step : Bytes} (hstep : IsStep step) :
    (child p step).Spelled := by
  rw [h.child_eq hstep]
  exact spelled_append_slash p.bytes hstep

/-- A child is spelled out, unless it is a dot in the working directory. -/
theorem spelled_child {directory : Path} {step : Bytes} (h : IsStep step) (hdot : step ≠ dot) :
    (child directory step).Spelled := by
  rcases child_cases directory h with
    ⟨_, heq⟩ | ⟨hhere, hend, heq⟩ | ⟨_, _, _, heq⟩
  · rw [heq]
    exact ⟨fun hb => hdot (congrArg Path.bytes hb), h.ne_nil, getLast?_ne_slash h []⟩
  · rw [heq]
    refine ⟨fun hb => ?_, List.append_ne_nil_of_right_ne_nil _ h.ne_nil, getLast?_ne_slash h _⟩
    have hbytes : directory.bytes ++ step = [0x2E] := congrArg Path.bytes hb
    rcases List.append_eq_singleton_iff.mp hbytes with ⟨_, hstep⟩ | ⟨_, hstep⟩
    · exact hdot hstep
    · exact h.ne_nil hstep
  · rw [heq]
    exact spelled_append_slash directory.bytes h

/-- What some steps add to the spelling of a path. -/
def suffixOf (steps : List Bytes) : Bytes :=
  steps.flatMap fun step => slash :: step

theorem Spelled.bytes_along {p : Path} (h : p.Spelled) {steps : List Bytes}
    (hsteps : ∀ s ∈ steps, IsStep s) : (p.along steps).bytes = p.bytes ++ suffixOf steps := by
  induction steps generalizing p with
  | nil => simp [suffixOf]
  | cons step steps ih =>
    obtain ⟨hstep, hsteps⟩ := List.forall_mem_cons.mp hsteps
    rw [along_cons, ih (h.spelled_child hstep) hsteps, h.child_eq hstep]
    simp [suffixOf]

/-! ## What a path below a directory says -/

theorem splitOn_append_suffixOf {steps : List Bytes} (hsteps : ∀ s ∈ steps, IsStep s) (b : Bytes) :
    splitOn slash (b ++ suffixOf steps) = splitOn slash b ++ steps := by
  induction steps generalizing b with
  | nil => simp [suffixOf]
  | cons step steps ih =>
    obtain ⟨hstep, hsteps⟩ := List.forall_mem_cons.mp hsteps
    have hsplit : b ++ suffixOf (step :: steps) = b ++ slash :: (step ++ suffixOf steps) := by
      simp [suffixOf]
    rw [hsplit, splitOn_append_cons, ih hsteps step, splitOn_of_not_mem hstep.no_slash]
    rfl

theorem Spelled.segments_along {p : Path} (h : p.Spelled) {steps : List Bytes}
    (hsteps : ∀ s ∈ steps, IsStep s) : (p.along steps).segments = p.segments ++ steps := by
  unfold segments
  rw [h.bytes_along hsteps, splitOn_append_suffixOf hsteps]

/-- The path below a directory tells the steps that were taken. -/
theorem Spelled.along_inj {p : Path} (h : p.Spelled) {steps steps' : List Bytes}
    (hsteps : ∀ s ∈ steps, IsStep s) (hsteps' : ∀ s ∈ steps', IsStep s)
    (heq : p.along steps = p.along steps') : steps = steps' := by
  have hsegments := congrArg segments heq
  rw [h.segments_along hsteps, h.segments_along hsteps'] at hsegments
  exact List.append_cancel_left hsegments

/-- Whether some bytes say something as a step: they are a name, and no dot name. -/
structure IsName (step : Bytes) : Prop extends IsStep step where
  ne_dot : step ≠ dot
  ne_dotDot : step ≠ dotDot

theorem laterComponents_append (segments segments' : List Bytes) :
    laterComponents (segments ++ segments') =
      laterComponents segments ++ laterComponents segments' := by
  simp [laterComponents]

theorem laterComponents_names {steps : List Bytes} (hsteps : ∀ s ∈ steps, IsName s) :
    laterComponents steps = steps.map .name := by
  induction steps with
  | nil => rfl
  | cons step steps ih =>
    obtain ⟨hstep, hsteps⟩ := List.forall_mem_cons.mp hsteps
    have hsilent : isSilent step = false := by simp [isSilent, hstep.ne_nil, hstep.ne_dot]
    have hhead : laterComponents [step] = [.name step] := by
      simp [laterComponents, hsilent, hstep.ne_dotDot]
    rw [← List.singleton_append, laterComponents_append, hhead, ih hsteps]
    rfl

/-- The components below a directory are those of the directory and the names. -/
theorem Spelled.components_along {p : Path} (h : p.Spelled) {steps : List Bytes}
    (hsteps : ∀ s ∈ steps, IsName s) :
    (p.along steps).components = p.components ++ steps.map .name := by
  have hsegments := h.segments_along fun s hs => (hsteps s hs).toIsStep
  unfold components
  rw [hsegments]
  cases hp : p.segments with
  | nil => exact absurd hp (splitOn_ne_nil slash p.bytes)
  | cons first later =>
    simp only [List.cons_append]
    by_cases hfirst : first = []
    · have hlater : later ≠ [] := by
        rintro rfl
        have hjoin := joinWith_splitOn slash p.bytes
        change joinWith slash p.segments = p.bytes at hjoin
        rw [hp, hfirst] at hjoin
        exact h.ne_nil hjoin.symm
      have hlater' : later ++ steps ≠ [] := List.append_ne_nil_of_left_ne_nil hlater _
      rw [if_pos hfirst, if_pos hfirst, if_neg hlater, if_neg hlater', laterComponents_append,
        laterComponents_names hsteps]
      rfl
    rw [if_neg hfirst, if_neg hfirst]
    by_cases hdot : first = dot
    · rw [if_pos hdot, if_pos hdot, laterComponents_append, laterComponents_names hsteps]
      rfl
    · rw [if_neg hdot, if_neg hdot, ← List.cons_append, laterComponents_append,
        laterComponents_names hsteps]

theorem Spelled.sortKey_along {p : Path} (h : p.Spelled) {steps : List Bytes}
    (hsteps : ∀ s ∈ steps, IsName s) :
    (p.along steps).sortKey = p.sortKey ++ steps.map (3 :: ·) := by
  unfold sortKey
  rw [h.components_along hsteps, List.map_append, List.map_map]
  rfl

/-- Paths below a directory that compare the same are the same. -/
theorem Spelled.sortKey_along_inj {p : Path} (h : p.Spelled) {steps steps' : List Bytes}
    (hsteps : ∀ s ∈ steps, IsName s) (hsteps' : ∀ s ∈ steps', IsName s)
    (heq : (p.along steps).sortKey = (p.along steps').sortKey) : steps = steps' := by
  rw [h.sortKey_along hsteps, h.sortKey_along hsteps'] at heq
  exact List.map_injective_iff.mpr (List.cons_injective) (List.append_cancel_left heq)

/-! ## How a path below a directory is followed -/

theorem Route.ext {r r' : Route} (habsolute : r.absolute = r'.absolute) (hsteps : r.steps = r'.steps)
    (hend : r.endsInSlash = r'.endsInSlash) : r = r' := by
  cases r
  cases r'
  cases habsolute
  cases hsteps
  cases hend
  rfl

theorem steps_ofBytes_append_slash (b : Bytes) {step : Bytes} (h : IsStep step) :
    (Route.ofBytes (b ++ slash :: step)).steps = (Route.ofBytes b).steps ++ [step] := by
  have hkept : [step].filter (fun s => !s.isEmpty) = [step] := by
    simp [h.ne_nil]
  show (splitOn slash _).filter _ = (splitOn slash b).filter _ ++ [step]
  rw [splitOn_append_cons, splitOn_of_not_mem h.no_slash, List.filter_append, hkept]

/-- A path that does not end in a slash, behind some bytes. -/
theorem endsInSlash_ofBytes_append (b : Bytes) {step : Bytes} (h : IsStep step) :
    (Route.ofBytes (b ++ step)).endsInSlash = false :=
  beq_eq_false_iff_ne.mpr (getLast?_ne_slash h b)

theorem absolute_ofBytes_append {b : Bytes} (hb : b ≠ []) (b' : Bytes) :
    (Route.ofBytes (b ++ b')).absolute = (Route.ofBytes b).absolute := by
  cases b with
  | nil => exact absurd rfl hb
  | cons c b => rfl

/-- The steps to a child are those to its directory and one more. In the working directory they are
this one alone. -/
theorem ofBytes_child {directory : Path} (hne : directory.bytes ≠ []) {step : Bytes}
    (h : IsStep step) :
    (directory = here ∧ Route.ofBytes (child directory step).bytes = ⟨false, [step], false⟩) ∨
    (directory ≠ here ∧ Route.ofBytes (child directory step).bytes =
      ⟨(Route.ofBytes directory.bytes).absolute, (Route.ofBytes directory.bytes).steps ++ [step],
        false⟩) := by
  rcases child_cases directory h with
    ⟨hhere, heq⟩ | ⟨hhere, hend, heq⟩ | ⟨hhere, _, _, heq⟩
  · refine .inl ⟨hhere, Route.ext ?_ ?_ ?_⟩
    · rw [heq]
      exact isAbsolute_step h
    · rw [heq]
      show (splitOn slash step).filter _ = [step]
      rw [splitOn_of_not_mem h.no_slash]
      simp [h.ne_nil]
    · rw [heq]
      exact endsInSlash_ofBytes_append [] h
  · obtain ⟨b, hb⟩ := List.getLast?_eq_some_iff.mp (hend.resolve_left hne)
    refine .inr ⟨hhere, Route.ext ?_ ?_ ?_⟩
    · rw [heq]
      exact absolute_ofBytes_append hne step
    · rw [heq]
      show (Route.ofBytes (directory.bytes ++ step)).steps = _
      have hsteps : (Route.ofBytes directory.bytes).steps = (Route.ofBytes b).steps := by
        show (splitOn slash _).filter _ = (splitOn slash _).filter _
        rw [hb, splitOn_append_cons, List.filter_append]
        simp [splitOn]
      rw [hsteps, hb, List.append_assoc, List.singleton_append, steps_ofBytes_append_slash b h]
    · rw [heq]
      exact endsInSlash_ofBytes_append _ h
  · refine .inr ⟨hhere, Route.ext ?_ ?_ ?_⟩
    · rw [heq]
      exact absolute_ofBytes_append hne _
    · rw [heq]
      exact steps_ofBytes_append_slash _ h
    · rw [heq, ← List.singleton_append, ← List.append_assoc]
      exact endsInSlash_ofBytes_append _ h

/-- The path of a child begins with that of its directory, unless this is the working directory. -/
theorem prefix_child {directory : Path} (hhere : directory ≠ here) {step : Bytes}
    (h : IsStep step) : directory.bytes <+: (child directory step).bytes := by
  rcases child_cases directory h with ⟨hhere', _⟩ | ⟨_, _, heq⟩ | ⟨_, _, _, heq⟩
  · exact absurd hhere' hhere
  · rw [heq]
    exact List.prefix_append _ _
  · rw [heq]
    exact List.prefix_append _ _

/-! ## What lies below a path -/

/-- `p` is `q`, or it is spelled as `q` with more steps behind it. A walk spells a step as that of a
child; only the dot names of the working directory have it spelled out. -/
inductive Covers (q : Path) : Path → Prop where
  | self : Covers q q
  | child {p : Path} {step : Bytes} (h : Covers q p) (hstep : slash ∉ step) : Covers q (p.child step)
  | join {p : Path} {step : Bytes} (h : Covers q p) (hstep : slash ∉ step) : Covers q (p.join ⟨step⟩)

theorem Covers.trans {p q r : Path} (h : q.Covers p) (h' : p.Covers r) : q.Covers r := by
  induction h' with
  | self => exact h
  | child _ hstep ih => exact ih.child hstep
  | join _ hstep ih => exact ih.join hstep

theorem covers_along (q : Path) {steps : List Bytes} (h : ∀ s ∈ steps, slash ∉ s) :
    q.Covers (q.along steps) := by
  induction steps generalizing q with
  | nil => exact .self
  | cons step steps ih =>
    obtain ⟨hstep, hsteps⟩ := List.forall_mem_cons.mp h
    exact (Covers.self.child hstep).trans (ih (q.child step) hsteps)

/-! ## Sorted paths -/

theorem le_trans {p q r : Path} (h : le p q = true) (h' : le q r = true) : le p r = true := by
  simp only [le, decide_eq_true_iff] at h h' ⊢
  exact Std.le_trans h h'

theorem le_total (p q : Path) : (le p q || le q p) = true := by
  simp only [le, Bool.or_eq_true, decide_eq_true_iff]
  exact Std.le_total

/-- Sorted paths are in order. -/
theorem pairwise_le_sort (paths : List Path) : (sort paths).Pairwise fun p q => le p q = true :=
  List.pairwise_mergeSort (fun p q r => @le_trans p q r) le_total paths

/-- Sorting puts paths that all compare differently in strictly increasing order. -/
theorem pairwise_sort {paths : List Path} (h : paths.Pairwise fun p q => p.sortKey ≠ q.sortKey) :
    (sort paths).Pairwise fun p q => p.sortKey < q.sortKey := by
  have hne : (sort paths).Pairwise fun p q => p.sortKey ≠ q.sortKey :=
    (List.mergeSort_perm paths le).symm.pairwise h fun hpq => hpq.symm
  refine ((pairwise_le_sort paths).and hne).imp ?_
  intro p q h
  exact Std.lt_of_le_of_ne (of_decide_eq_true h.1) h.2

end Path

end WidgetMigration
