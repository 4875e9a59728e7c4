import WidgetMigration.Tree.Access

/-!
# One step of a path

`FileTree.walk` follows a path in one recursion. Here it is taken apart: `FileTree.move` says what a
single step does, which is to stop with an answer or to go on from some location with some steps
(`walk_cons`). `walk_induction` is the induction along the moves, and `move_eq_go` lists the four ways
to go on: stay, go up, go down, follow a link.

The laws of whole paths follow from the moves. A path that ends in a slash leads to a directory
(`walk_endsInSlash`); where a path leads to a file, writing goes to the same file
(`walk_create_of_follow`).
-/

namespace WidgetMigration

theorem FileName.bytes_ne_dotDot (n : FileName) : n.bytes ≠ dotDot := by
  intro h
  have := n.valid
  simp [isFileName, h] at this

theorem FileName.ext {a b : FileName} (h : a.bytes = b.bytes) : a = b := by
  cases a
  cases b
  cases h
  rfl

/-- What a step of a path does: it ends the path, or it leaves a path to be followed. -/
inductive Move where
  | stop (answer : Except FileError Reached)
  | go (links : Nat) (loc : Location) (steps : List Bytes) (endsInSlash : Bool)

/-- What a step does if one more comes at the end of the path. -/
def Move.before (last : Bytes) (endsInSlash : Bool) : Move → Move
  | .stop (.error e) => .stop (.error e)
  | .stop (.ok _) => .stop (.error .notFound)
  | .go links loc steps _ => .go links loc (steps ++ [last]) endsInSlash

namespace FileTree

/-- Goes to a name in a directory, and on from there. -/
def enter (t : FileTree) (purpose : Purpose) (links : Nat) (loc : Location) (name : FileName)
    (rest : List Bytes) (endsInSlash : Bool) : Move :=
  match t.get? (loc ++ [name]) with
  | none => .stop (if rest = [] then .ok (.free loc name) else .error .notFound)
  | some (.link target) =>
    if rest = [] ∧ endsInSlash = false ∧ purpose = .inspect then
      .stop (.ok (.entry (loc ++ [name])))
    else
      match links with
      | 0 => .stop (.error .tooManyLinks)
      | links + 1 =>
        let route := Route.ofBytes target
        .go links (if route.absolute then [] else loc) (route.steps ++ rest)
          (if rest = [] then endsInSlash || route.endsInSlash else endsInSlash)
  | some _ => .go links (loc ++ [name]) rest endsInSlash

/-- The first step of a path that has one. -/
def move (t : FileTree) (purpose : Purpose) (links : Nat) (loc : Location) (step : Bytes)
    (rest : List Bytes) (endsInSlash : Bool) : Move :=
  match t.checkSearch loc with
  | .error e => .stop (.error e)
  | .ok () =>
    if step = dot then .go links loc rest endsInSlash
    else if step = dotDot then .go links loc.dropLast rest endsInSlash
    else if purpose = .create ∧ rest = [] ∧ endsInSlash = true then .stop (.error .isADirectory)
    else
      match nameOfStep step with
      | .error e => .stop (.error e)
      | .ok name => t.enter purpose links loc name rest endsInSlash

variable {t : FileTree} {purpose : Purpose}

/-- What can be searched is a directory. -/
theorem checkSearch_eq_ok_iff {loc : Location} :
    t.checkSearch loc = .ok () ↔
      ∃ access, t.get? loc = some (.directory access) ∧ access.search = true := by
  unfold checkSearch
  rcases t.get? loc with _ | (⟨c, a⟩ | a | target)
  · simp
  · simp
  · cases hsearch : a.search <;> simp [hsearch]
  · simp

theorem checkEnd_of_checkSearch {loc : Location} (h : t.checkSearch loc = .ok ()) (slash : Bool) :
    t.checkEnd loc slash = .ok (.entry loc) := by
  obtain ⟨access, hget, _⟩ := checkSearch_eq_ok_iff.mp h
  unfold checkEnd
  cases slash with
  | false => rfl
  | true => simp only [if_true, hget]

theorem walk_nil (t : FileTree) (purpose : Purpose) (links : Nat) (loc : Location)
    (endsInSlash : Bool) :
    t.walk purpose links loc [] endsInSlash = t.checkEnd loc endsInSlash := by
  rw [walk]

/-- A path is followed step by step. -/
theorem walk_cons (t : FileTree) (purpose : Purpose) (links : Nat) (loc : Location) (step : Bytes)
    (rest : List Bytes) (endsInSlash : Bool) :
    t.walk purpose links loc (step :: rest) endsInSlash =
      match t.move purpose links loc step rest endsInSlash with
      | .stop answer => answer
      | .go links loc steps endsInSlash => t.walk purpose links loc steps endsInSlash := by
  rw [walk, move]
  cases t.checkSearch loc with
  | error e => rfl
  | ok _ =>
    by_cases hdot : step = dot
    · simp only [if_pos hdot]
    by_cases hdotDot : step = dotDot
    · simp only [if_neg hdot, if_pos hdotDot]
    by_cases hcreate : purpose = .create ∧ rest = [] ∧ endsInSlash = true
    · simp only [if_neg hdot, if_neg hdotDot, if_pos hcreate]
    simp only [if_neg hdot, if_neg hdotDot, if_neg hcreate]
    cases nameOfStep step with
    | error e => rfl
    | ok name =>
      simp only [enter]
      rcases t.get? (loc ++ [name]) with _ | (⟨c, a⟩ | a | target)
      · rfl
      · rfl
      · rfl
      · by_cases hinspect : rest = [] ∧ endsInSlash = false ∧ purpose = .inspect
        · simp only [if_pos hinspect]
        · simp only [if_neg hinspect]
          cases links <;> rfl

/-- What going to a name can come to. -/
theorem enter_cases (t : FileTree) (purpose : Purpose) (links : Nat) (loc : Location)
    (name : FileName) (rest : List Bytes) (slash : Bool) :
    (∃ e, t.enter purpose links loc name rest slash = .stop (.error e)) ∨
    (t.enter purpose links loc name rest slash = .stop (.ok (.free loc name))) ∨
    (rest = [] ∧ slash = false ∧ purpose = .inspect ∧
      t.enter purpose links loc name rest slash = .stop (.ok (.entry (loc ++ [name])))) ∨
    (∃ e, t.get? (loc ++ [name]) = some e ∧
      t.enter purpose links loc name rest slash = .go links (loc ++ [name]) rest slash) ∨
    (∃ target links', t.get? (loc ++ [name]) = some (.link target) ∧ links = links' + 1 ∧
      t.enter purpose links loc name rest slash =
        .go links' (if (Route.ofBytes target).absolute then [] else loc)
          ((Route.ofBytes target).steps ++ rest)
          (if rest = [] then slash || (Route.ofBytes target).endsInSlash else slash)) := by
  unfold enter
  rcases t.get? (loc ++ [name]) with _ | (⟨c, a⟩ | a | target)
  · by_cases hrest : rest = []
    · exact .inr (.inl (by simp only [if_pos hrest]))
    · exact .inl ⟨.notFound, by simp only [if_neg hrest]⟩
  · exact .inr (.inr (.inr (.inl ⟨_, rfl, rfl⟩)))
  · exact .inr (.inr (.inr (.inl ⟨_, rfl, rfl⟩)))
  · by_cases hinspect : rest = [] ∧ slash = false ∧ purpose = .inspect
    · obtain ⟨rfl, rfl, rfl⟩ := hinspect
      exact .inr (.inr (.inl ⟨rfl, rfl, rfl, rfl⟩))
    cases links with
    | zero => exact .inl ⟨.tooManyLinks, by simp only [if_neg hinspect]⟩
    | succ links =>
      exact .inr (.inr (.inr (.inr ⟨target, links, rfl, rfl, by simp only [if_neg hinspect]⟩)))

/-- Everything that a step can do: fail, end at a free name or at a link that is asked about, or go
on, by staying, going up, going down or following a link. -/
theorem move_cases (t : FileTree) (purpose : Purpose) (links : Nat) (loc : Location) (step : Bytes)
    (rest : List Bytes) (slash : Bool) :
    (∃ e, t.move purpose links loc step rest slash = .stop (.error e)) ∨
    (t.checkSearch loc = .ok () ∧
      ((step = dot ∧ t.move purpose links loc step rest slash = .go links loc rest slash) ∨
      (step = dotDot ∧
        t.move purpose links loc step rest slash = .go links loc.dropLast rest slash) ∨
      ∃ name, nameOfStep step = .ok name ∧
        t.move purpose links loc step rest slash = t.enter purpose links loc name rest slash)) := by
  unfold move
  cases t.checkSearch loc with
  | error e => exact .inl ⟨e, rfl⟩
  | ok _ =>
    by_cases hdot : step = dot
    · exact .inr ⟨rfl, .inl ⟨hdot, by simp only [if_pos hdot]⟩⟩
    by_cases hdotDot : step = dotDot
    · exact .inr ⟨rfl, .inr (.inl ⟨hdotDot, by simp only [if_neg hdot, if_pos hdotDot]⟩)⟩
    by_cases hcreate : purpose = .create ∧ rest = [] ∧ slash = true
    · exact .inl ⟨.isADirectory, by simp only [if_neg hdot, if_neg hdotDot, if_pos hcreate]⟩
    simp only [if_neg hdot, if_neg hdotDot, if_neg hcreate]
    cases nameOfStep step with
    | error e => exact .inl ⟨e, rfl⟩
    | ok name => exact .inr ⟨trivial, .inr (.inr ⟨name, rfl, rfl⟩)⟩

/-- The ways to go on. -/
theorem move_eq_go {links links' : Nat} {loc loc' : Location} {step : Bytes}
    {rest steps' : List Bytes} {slash slash' : Bool}
    (h : t.move purpose links loc step rest slash = .go links' loc' steps' slash') :
    t.checkSearch loc = .ok () ∧
      ((step = dot ∧ links' = links ∧ loc' = loc ∧ steps' = rest ∧ slash' = slash) ∨
      (step = dotDot ∧ links' = links ∧ loc' = loc.dropLast ∧ steps' = rest ∧ slash' = slash) ∨
      (∃ name e, nameOfStep step = .ok name ∧ t.get? (loc ++ [name]) = some e ∧
        links' = links ∧ loc' = loc ++ [name] ∧ steps' = rest ∧ slash' = slash) ∨
      (∃ name target, nameOfStep step = .ok name ∧ t.get? (loc ++ [name]) = some (.link target) ∧
        links = links' + 1 ∧ loc' = (if (Route.ofBytes target).absolute then [] else loc) ∧
        steps' = (Route.ofBytes target).steps ++ rest ∧
        slash' = if rest = [] then slash || (Route.ofBytes target).endsInSlash else slash)) := by
  rcases t.move_cases purpose links loc step rest slash with
    ⟨e, hmove⟩ | ⟨hsearch, ⟨hstep, hmove⟩ | ⟨hstep, hmove⟩ | ⟨name, hname, hmove⟩⟩
  · rw [hmove] at h
    cases h
  · rw [hmove] at h
    cases h
    exact ⟨hsearch, .inl ⟨hstep, rfl, rfl, rfl, rfl⟩⟩
  · rw [hmove] at h
    cases h
    exact ⟨hsearch, .inr (.inl ⟨hstep, rfl, rfl, rfl, rfl⟩)⟩
  · rcases t.enter_cases purpose links loc name rest slash with
      ⟨e, henter⟩ | henter | ⟨_, _, _, henter⟩ | ⟨e, hentry, henter⟩ |
        ⟨target, _, hentry, hlinks, henter⟩
    all_goals rw [hmove, henter] at h; cases h
    · exact ⟨hsearch, .inr (.inr (.inl ⟨name, e, hname, hentry, rfl, rfl, rfl, rfl⟩))⟩
    · exact ⟨hsearch, .inr (.inr (.inr ⟨name, target, hname, hentry, hlinks, rfl, rfl, rfl⟩))⟩

/-- Only a link that is asked about itself ends a path before its last step is taken. -/
theorem move_eq_stop_entry {links : Nat} {loc loc' : Location} {step : Bytes} {rest : List Bytes}
    {slash : Bool} (h : t.move purpose links loc step rest slash = .stop (.ok (.entry loc'))) :
    rest = [] ∧ slash = false ∧ purpose = .inspect := by
  rcases t.move_cases purpose links loc step rest slash with
    ⟨e, hmove⟩ | ⟨_, ⟨_, hmove⟩ | ⟨_, hmove⟩ | ⟨name, _, hmove⟩⟩
  · rw [hmove] at h
    cases h
  · rw [hmove] at h
    cases h
  · rw [hmove] at h
    cases h
  · rcases t.enter_cases purpose links loc name rest slash with
      ⟨e, henter⟩ | henter | ⟨hrest, hslash, hpurpose, _⟩ | ⟨e, _, henter⟩ | ⟨_, _, _, _, henter⟩
    · rw [hmove, henter] at h
      cases h
    · rw [hmove, henter] at h
      cases h
    · exact ⟨hrest, hslash, hpurpose⟩
    · rw [hmove, henter] at h
      cases h
    · rw [hmove, henter] at h
      cases h

/-- A move follows a link, or it leaves fewer steps. -/
theorem move_lt {links links' : Nat} {loc loc' : Location} {step : Bytes}
    {rest steps' : List Bytes} {slash slash' : Bool}
    (h : t.move purpose links loc step rest slash = .go links' loc' steps' slash') :
    links' < links ∨ links' = links ∧ steps' = rest := by
  obtain ⟨_, h | h | ⟨_, _, _, _, h⟩ | ⟨_, _, _, _, h⟩⟩ := move_eq_go h
  · exact .inr ⟨h.2.1, h.2.2.2.1⟩
  · exact .inr ⟨h.2.1, h.2.2.2.1⟩
  · exact .inr ⟨h.1, h.2.2.1⟩
  · exact .inl (by omega)

/-- Induction along the moves of a path. -/
@[elab_as_elim]
theorem walk_induction (t : FileTree) (purpose : Purpose)
    {motive : Nat → Location → List Bytes → Bool → Prop}
    (nil : ∀ links loc slash, motive links loc [] slash)
    (stop : ∀ {links loc step rest slash answer},
      t.move purpose links loc step rest slash = .stop answer → motive links loc (step :: rest) slash)
    (go : ∀ {links loc step rest slash links' loc' steps' slash'},
      t.move purpose links loc step rest slash = .go links' loc' steps' slash' →
        motive links' loc' steps' slash' → motive links loc (step :: rest) slash)
    (links : Nat) (loc : Location) (steps : List Bytes) (slash : Bool) :
    motive links loc steps slash := by
  match steps with
  | [] => exact nil links loc slash
  | step :: rest =>
    match hmove : t.move purpose links loc step rest slash with
    | .stop answer => exact stop hmove
    | .go links' loc' steps' slash' =>
      have hlt := move_lt hmove
      exact go hmove (walk_induction t purpose nil stop go links' loc' steps' slash')
termination_by (links, steps.length)
decreasing_by
  rcases hlt with h | ⟨rfl, rfl⟩
  · exact Prod.Lex.left _ _ h
  · exact Prod.Lex.right _ (Nat.lt_succ_self _)

/-! ## Where a path ends -/

/-- What a path with a slash at its end leads to is a directory. -/
theorem walk_endsInSlash {links : Nat} {loc loc' : Location} {steps : List Bytes}
    (h : t.walk purpose links loc steps true = .ok (.entry loc')) :
    ∃ access, t.get? loc' = some (.directory access) := by
  generalize hslash : true = slash at h
  induction links, loc, steps, slash using t.walk_induction purpose with
  | nil links loc slash =>
    subst hslash
    rw [walk_nil, checkEnd, if_pos rfl] at h
    split at h
    · rename_i access hget
      cases h
      exact ⟨access, hget⟩
    · cases h
    · cases h
  | stop hmove =>
    rw [walk_cons, hmove] at h
    dsimp only at h
    subst h
    obtain ⟨_, hfalse, _⟩ := move_eq_stop_entry hmove
    exact absurd (hslash.trans hfalse) (by decide)
  | @go links loc step rest slash links' loc'' steps' slash' hmove ih =>
    rw [walk_cons, hmove] at h
    refine ih ?_ h
    subst hslash
    obtain ⟨_, h | h | ⟨_, _, _, _, h⟩ | ⟨_, _, _, _, h⟩⟩ := move_eq_go hmove
    · exact h.2.2.2.2.symm
    · exact h.2.2.2.2.symm
    · exact h.2.2.2.symm
    · rw [h.2.2.2]
      split <;> rfl

/-- Writing takes the same steps as reading, up to a slash at the end. -/
theorem move_create {links : Nat} {loc : Location} {step : Bytes} {rest : List Bytes} {slash : Bool}
    (h : ¬ (rest = [] ∧ slash = true)) :
    t.move .create links loc step rest slash = t.move .follow links loc step rest slash := by
  unfold move enter
  simp only [h, and_false, if_false, reduceCtorEq]

/-- **Where a path leads to a file, writing goes to the same file.** -/
theorem walk_create_of_follow {links : Nat} {loc loc' : Location} {steps : List Bytes} {slash : Bool}
    (h : t.walk .follow links loc steps slash = .ok (.entry loc'))
    (hfile : ∀ access, t.get? loc' ≠ some (.directory access)) :
    t.walk .create links loc steps slash = .ok (.entry loc') := by
  induction links, loc, steps, slash using t.walk_induction .follow with
  | nil links loc slash =>
    rw [walk_nil] at h ⊢
    exact h
  | stop hmove =>
    rw [walk_cons, hmove] at h
    dsimp only at h
    subst h
    obtain ⟨_, _, hinspect⟩ := move_eq_stop_entry hmove
    cases hinspect
  | @go links loc step rest slash links' loc'' steps' slash' hmove ih =>
    by_cases hend : rest = [] ∧ slash = true
    · obtain ⟨rfl, rfl⟩ := hend
      obtain ⟨access, hget⟩ := walk_endsInSlash h
      exact absurd hget (hfile access)
    · rw [walk_cons, hmove] at h
      rw [walk_cons, move_create hend, hmove]
      exact ih h

/-! ## The last step -/

theorem enter_append (t : FileTree) (purpose : Purpose) (links : Nat) (loc : Location)
    (name : FileName) (rest : List Bytes) (last : Bytes) (slash slash' : Bool) :
    t.enter purpose links loc name (rest ++ [last]) slash' =
      (t.enter .follow links loc name rest slash).before last slash' := by
  have hrest : rest ++ [last] ≠ [] := List.append_ne_nil_of_right_ne_nil rest (List.cons_ne_nil _ _)
  unfold enter
  rcases t.get? (loc ++ [name]) with _ | (⟨c, a⟩ | a | target)
  · by_cases hnil : rest = []
    · simp only [if_neg hrest, if_pos hnil]
      rfl
    · simp only [if_neg hrest, if_neg hnil]
      rfl
  · rfl
  · rfl
  · simp only [hrest, false_and, if_false, reduceCtorEq, and_false]
    cases links with
    | zero => rfl
    | succ links =>
      simp only [Move.before, List.append_assoc]

/-- A step that is not the last one does the same whatever the path is for. -/
theorem move_append (t : FileTree) (purpose : Purpose) (links : Nat) (loc : Location) (step : Bytes)
    (rest : List Bytes) (last : Bytes) (slash slash' : Bool) :
    t.move purpose links loc step (rest ++ [last]) slash' =
      (t.move .follow links loc step rest slash).before last slash' := by
  have hrest : rest ++ [last] ≠ [] := List.append_ne_nil_of_right_ne_nil rest (List.cons_ne_nil _ _)
  unfold move
  cases t.checkSearch loc with
  | error e => rfl
  | ok _ =>
    by_cases hdot : step = dot
    · simp only [if_pos hdot]
      rfl
    by_cases hdotDot : step = dotDot
    · simp only [if_neg hdot, if_pos hdotDot]
      rfl
    simp only [if_neg hdot, if_neg hdotDot, hrest, false_and, and_false, if_false, reduceCtorEq]
    cases nameOfStep step with
    | error e => rfl
    | ok name => exact t.enter_append purpose links loc name rest last slash slash'

/-- No step is taken where nothing can be searched. -/
theorem checkSearch_of_walk {links : Nat} {loc : Location} {step : Bytes} {rest : List Bytes}
    {slash : Bool} {r : Reached} (h : t.walk purpose links loc (step :: rest) slash = .ok r) :
    t.checkSearch loc = .ok () := by
  rw [walk_cons] at h
  rcases t.move_cases purpose links loc step rest slash with ⟨e, hmove⟩ | ⟨hsearch, _⟩
  · rw [hmove] at h
    cases h
  · exact hsearch

/-- **A path leads somewhere through the directory that the steps before the last one lead to**, and
the last step is taken from there. -/
theorem walk_append {links : Nat} {loc : Location} {steps : List Bytes} (slash : Bool)
    {last : Bytes} {slash' : Bool} {r : Reached}
    (h : t.walk purpose links loc (steps ++ [last]) slash' = .ok r) :
    ∃ links' loc', t.walk .follow links loc steps slash = .ok (.entry loc') ∧
      t.checkSearch loc' = .ok () ∧ t.walk purpose links' loc' [last] slash' = .ok r := by
  induction links, loc, steps, slash using t.walk_induction .follow with
  | nil links loc slash =>
    have hsearch := checkSearch_of_walk h
    refine ⟨links, loc, ?_, hsearch, h⟩
    rw [walk_nil, checkEnd_of_checkSearch hsearch]
  | @stop links loc step rest slash answer hmove =>
    rw [List.cons_append, walk_cons, t.move_append purpose links loc step rest last slash, hmove] at h
    cases answer <;> cases h
  | @go links loc step rest slash links' loc' steps' slash'' hmove ih =>
    rw [List.cons_append, walk_cons, t.move_append purpose links loc step rest last slash, hmove] at h
    rw [walk_cons, hmove]
    exact ih h

/-- A path that leads somewhere leads on from there, if one more step comes. -/
theorem walk_append_of_walk {links : Nat} {loc loc' : Location} {steps : List Bytes} {slash : Bool}
    (h : t.walk .follow links loc steps slash = .ok (.entry loc')) :
    ∃ links', ∀ purpose last slash',
      t.walk purpose links loc (steps ++ [last]) slash' =
        t.walk purpose links' loc' [last] slash' := by
  induction links, loc, steps, slash using t.walk_induction .follow with
  | nil links loc slash =>
    have hloc : loc' = loc := by
      rw [walk_nil] at h
      unfold checkEnd at h
      cases slash with
      | false =>
        cases h
        rfl
      | true =>
        simp only [if_true] at h
        split at h
        · cases h
          rfl
        · cases h
        · cases h
    subst hloc
    exact ⟨links, fun _ _ _ => rfl⟩
  | @stop links loc step rest slash answer hmove =>
    rw [walk_cons, hmove] at h
    dsimp only at h
    subst h
    obtain ⟨_, _, hinspect⟩ := move_eq_stop_entry hmove
    cases hinspect
  | @go links loc step rest slash links' loc'' steps' slash' hmove ih =>
    rw [walk_cons, hmove] at h
    obtain ⟨links'', heq⟩ := ih h
    refine ⟨links'', fun purpose last slash'' => ?_⟩
    rw [List.cons_append, walk_cons, t.move_append purpose links loc step rest last slash, hmove]
    exact heq purpose last slash''

theorem bytes_of_nameOfStep {step : Bytes} {name : FileName} (h : nameOfStep step = .ok name) :
    name.bytes = step := by
  unfold nameOfStep FileName.ofBytes? at h
  by_cases hlong : 255 < step.length
  · rw [if_pos hlong] at h
    cases h
  rw [if_neg hlong] at h
  by_cases hvalid : isFileName step = true
  · rw [dif_pos hvalid] at h
    cases h
    rfl
  · rw [dif_neg hvalid] at h
    cases h

theorem nameOfStep_bytes (name : FileName) : nameOfStep name.bytes = .ok name := by
  have hlength : name.bytes.length ≤ 255 := by
    have := name.valid
    simp only [isFileName, Bool.and_eq_true, decide_eq_true_iff] at this
    exact this.1.1.1.1.2
  unfold nameOfStep FileName.ofBytes?
  rw [if_neg (Nat.not_lt.mpr hlength), dif_pos name.valid]

/-- A step that is taken and is no dot name is the name of an entry. -/
theorem name_of_walk {links : Nat} {loc : Location} {step : Bytes} {rest : List Bytes} {slash : Bool}
    {loc' : Location} (hdot : step ≠ dot) (hdotDot : step ≠ dotDot)
    (h : t.walk purpose links loc (step :: rest) slash = .ok (.entry loc')) :
    ∃ name : FileName, name.bytes = step := by
  rw [walk_cons] at h
  rcases t.move_cases purpose links loc step rest slash with
    ⟨e, hmove⟩ | ⟨_, ⟨hstep, _⟩ | ⟨hstep, _⟩ | ⟨name, hname, _⟩⟩
  · rw [hmove] at h
    cases h
  · exact absurd hstep hdot
  · exact absurd hstep hdotDot
  · exact ⟨name, bytes_of_nameOfStep hname⟩

/-- A last step to a name leads to the entry of this name, or on from it if it is a link. -/
theorem walk_name {links : Nat} {loc loc' : Location} {name : FileName}
    (h : t.walk .follow links loc [name.bytes] false = .ok (.entry loc')) :
    ∃ e, t.get? (loc ++ [name]) = some e ∧ ((∃ target, e = .link target) ∨ loc' = loc ++ [name]) := by
  rw [walk_cons] at h
  rcases t.move_cases .follow links loc name.bytes [] false with
    ⟨e, hmove⟩ | ⟨_, ⟨hdot, _⟩ | ⟨hdotDot, _⟩ | ⟨name', hname, hmove⟩⟩
  · rw [hmove] at h
    cases h
  · exact absurd hdot name.bytes_ne_dot
  · exact absurd hdotDot name.bytes_ne_dotDot
  · obtain rfl : name' = name := FileName.ext (bytes_of_nameOfStep hname)
    rcases t.enter_cases .follow links loc name' [] false with
      ⟨e, henter⟩ | henter | ⟨_, _, hinspect, _⟩ | ⟨e, hentry, henter⟩ |
        ⟨target, _, hentry, _, _⟩
    · rw [hmove, henter] at h
      cases h
    · rw [hmove, henter] at h
      cases h
    · cases hinspect
    · rw [hmove, henter] at h
      dsimp only at h
      rw [walk_nil] at h
      cases h
      exact ⟨e, hentry, .inr rfl⟩
    · exact ⟨_, hentry, .inl ⟨target, rfl⟩⟩

/-! ## Whole paths -/

/-- A path that leads somewhere can be one, and its steps lead there. -/
theorem resolve_eq_ok_iff {p : Path} {r : Reached} :
    t.resolve purpose p = .ok r ↔
      0 ∉ p.bytes ∧ p.bytes ≠ [] ∧ p.bytes.length < maxPathLength ∧
        t.walk purpose maxLinks
          (if (Route.ofBytes p.bytes).absolute then [] else t.workingDirectory)
          (Route.ofBytes p.bytes).steps (Route.ofBytes p.bytes).endsInSlash = .ok r := by
  unfold resolve
  by_cases hnul : 0 ∈ p.bytes
  · rw [if_pos (List.contains_iff_mem.mpr hnul)]
    exact ⟨(fun h => by cases h), fun h => absurd hnul h.1⟩
  rw [if_neg fun h => hnul (List.contains_iff_mem.mp h)]
  by_cases hempty : p.bytes = []
  · rw [if_pos hempty]
    exact ⟨(fun h => by cases h), fun h => absurd hempty h.2.1⟩
  rw [if_neg hempty]
  by_cases hlong : maxPathLength ≤ p.bytes.length
  · rw [if_pos hlong]
    exact ⟨(fun h => by cases h), fun h => absurd h.2.2.1 (Nat.not_lt.mpr hlong)⟩
  rw [if_neg hlong]
  exact ⟨fun h => ⟨hnul, hempty, Nat.lt_of_not_le hlong, h⟩, fun h => h.2.2.2⟩

/-- A last step to what is no link leads there. -/
theorem walk_name_of_get? (links : Nat) {loc : Location} {name : FileName} {e : Entry}
    (hsearch : t.checkSearch loc = .ok ()) (hget : t.get? (loc ++ [name]) = some e)
    (hlink : ∀ target, e ≠ .link target) :
    t.walk .follow links loc [name.bytes] false = .ok (.entry (loc ++ [name])) := by
  have hmove : t.move .follow links loc name.bytes [] false = .go links (loc ++ [name]) [] false := by
    simp only [move, hsearch, if_neg name.bytes_ne_dot, if_neg name.bytes_ne_dotDot, reduceCtorEq,
      false_and, if_false, nameOfStep_bytes, enter, hget]
  rw [walk_cons, hmove]
  dsimp only
  rw [walk_nil]
  rfl

end FileTree

end WidgetMigration
