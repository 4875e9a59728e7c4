import WidgetMigration.Proofs.Path.Relative
import WidgetMigration.Proofs.Tree.Steps

/-!
# Paths that lead to the same

What a path leads to depends on where it begins, on its steps and on whether it ends in a slash, not
on how many slashes are between the steps; and dots before other steps lead nowhere
(`lookup_eq_of_route`). Only a path that is too long by its slashes and dots is refused.
-/

namespace WidgetMigration

theorem Path.contains_zero_iff (p : Path) :
    p.bytes.contains 0 = true ↔ ∃ step ∈ p.steps, (0 : UInt8) ∈ step := by
  rw [List.contains_iff_mem]
  constructor
  · intro hzero
    rw [← joinWith_splitOn slash p.bytes] at hzero
    rcases mem_joinWith hzero with hslash | ⟨step, hstep, hmem⟩
    · exact absurd hslash (by decide)
    · refine ⟨step, List.mem_filter.mpr ⟨hstep, ?_⟩, hmem⟩
      simp [List.ne_nil_of_mem hmem]
  · rintro ⟨step, hstep, hmem⟩
    exact (isInfix_of_mem_splitOn (List.mem_filter.mp hstep).1).subset hmem

namespace FileTree

open WidgetMigration.Path

variable {t : FileTree} {purpose : Purpose}

/-- A dot before other steps takes no step. -/
theorem walk_dot_cons (links : Nat) (loc : Location) {steps : List Bytes} (hne : steps ≠ [])
    (slash : Bool) :
    t.walk purpose links loc (dot :: steps) slash = t.walk purpose links loc steps slash := by
  obtain ⟨step, rest, rfl⟩ := List.exists_cons_of_ne_nil hne
  rw [walk_cons, move]
  cases hsearch : t.checkSearch loc with
  | ok _ => simp only [if_true]
  | error e =>
    rw [walk_cons, move, hsearch]

theorem walk_dots_append (links : Nat) (loc : Location) {dots steps : List Bytes}
    (hdots : ∀ s ∈ dots, s = dot) (hne : steps ≠ []) (slash : Bool) :
    t.walk purpose links loc (dots ++ steps) slash = t.walk purpose links loc steps slash := by
  induction dots with
  | nil => rfl
  | cons s dots ih =>
    obtain ⟨hs, hrest⟩ := List.forall_mem_cons.mp hdots
    rw [hs, List.cons_append, walk_dot_cons _ _ (List.append_ne_nil_of_right_ne_nil dots hne),
      ih hrest]

/-- **A path leads to what a shorter one with the same steps leads to**, also with dots before them. -/
theorem lookup_eq_of_route {p q : Path} {dots : List Bytes} (hdots : ∀ s ∈ dots, s = dot)
    (hne : p.steps ≠ []) (hroute : Route.ofBytes q.bytes =
      ⟨p.isAbsolute, dots ++ p.steps, (Route.ofBytes p.bytes).endsInSlash⟩)
    (hle : p.bytes.length ≤ q.bytes.length) (hlt : q.bytes.length < maxPathLength) :
    t.lookup purpose q = t.lookup purpose p := by
  have hsteps : q.steps = dots ++ p.steps := congrArg Route.steps hroute
  have hnul : q.bytes.contains 0 = p.bytes.contains 0 := by
    rw [Bool.eq_iff_iff, Path.contains_zero_iff, Path.contains_zero_iff, hsteps]
    constructor
    · rintro ⟨s, hs, hzero⟩
      rcases List.mem_append.mp hs with hs | hs
      · rw [hdots s hs] at hzero
        exact absurd hzero (by decide)
      · exact ⟨s, hs, hzero⟩
    · rintro ⟨s, hs, hzero⟩
      exact ⟨s, List.mem_append_right _ hs, hzero⟩
  have hp : p.bytes ≠ [] := Path.bytes_ne_nil_of_steps hne
  have hq : q.bytes ≠ [] := by
    refine Path.bytes_ne_nil_of_steps ?_
    rw [hsteps]
    exact List.append_ne_nil_of_right_ne_nil _ hne
  have hresolve : t.resolve purpose q = t.resolve purpose p := by
    unfold resolve
    rw [hnul, if_neg hp, if_neg hq, if_neg (Nat.not_le.mpr hlt),
      if_neg (Nat.not_le.mpr (Nat.lt_of_le_of_lt hle hlt)), hroute]
    dsimp only
    rw [walk_dots_append _ _ hdots hne]
    rfl
  unfold lookup
  rw [hresolve]

/-- What steps are spelled out from a base leads to what they lead to behind it. -/
theorem lookup_join_spell (t : FileTree) (purpose : Purpose) (base : Path) {behind : List Bytes}
    (hne : behind ≠ []) (hbehind : ∀ s ∈ behind, IsStep s)
    (hlt : (base.join (.spell false behind)).bytes.length < maxPathLength) :
    t.lookup purpose (base.join (.spell false behind)) =
      t.lookup purpose (.spell base.isAbsolute (base.steps ++ behind)) := by
  have hne' : base.steps ++ behind ≠ [] := List.append_ne_nil_of_right_ne_nil _ hne
  have hsteps := isStep_of_mem_append base hbehind
  have hbytes : (Path.spell false behind).bytes ≠ [] :=
    bytes_ne_nil_of_steps (by rwa [steps_spell hne hbehind])
  have hjoin := route_join base hbytes (isAbsolute_spell hne hbehind)
  rw [steps_spell hne hbehind, route_spell hne hbehind] at hjoin
  have hle := length_spell_le (base.join (.spell false behind))
  rw [show (base.join (.spell false behind)).isAbsolute = base.isAbsolute from
      congrArg Route.absolute hjoin,
    show (base.join (.spell false behind)).steps = base.steps ++ behind from
      congrArg Route.steps hjoin] at hle
  have hdots : ∀ s ∈ ([] : List Bytes), s = dot := by simp
  refine lookup_eq_of_route hdots (by rwa [steps_spell hne' hsteps]) ?_ hle hlt
  rw [steps_spell hne' hsteps, isAbsolute_spell hne' hsteps, route_spell hne' hsteps, hjoin]
  rfl

/-- What is joined to dots leads to what it leads to from the working directory. -/
theorem lookup_join_dots (t : FileTree) (purpose : Purpose) {base p : Path}
    (hbase : base.isAbsolute = false) (hdots : ∀ s ∈ base.steps, s = dot) (hne : p.steps ≠ [])
    (hp : p.isAbsolute = false) (hlt : (base.join p).bytes.length < maxPathLength) :
    t.lookup purpose (base.join p) = t.lookup purpose p := by
  have hle : p.bytes.length ≤ (base.join p).bytes.length := by
    rw [join, hp]
    simp only [Bool.false_eq_true, if_false]
    split <;> simp only [List.length_append, List.length_cons] <;> omega
  refine lookup_eq_of_route hdots hne ?_ hle hlt
  rw [route_join base (bytes_ne_nil_of_steps hne) hp, hbase, hp]

end FileTree

end WidgetMigration
