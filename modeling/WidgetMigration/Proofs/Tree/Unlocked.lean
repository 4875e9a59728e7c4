import WidgetMigration.Proofs.Tree.Listing

/-!
# What access bits hide

`FileTree.unlocked` is a tree with all access bits set. In the tree as it is, a path leads to the same
place, or the system refuses to follow it, as a directory on the way cannot be searched
(`resolve_unlocked`). So what the unlocked tree knows of a path (that it is there, that it is a file,
that it is a directory), the tree as it is knows too, unless it refuses the path
(`isThere_of_unlocked`, `isFile_of_unlocked`, `isDirectory_unlocked`). Read bits hide nothing but
listings and texts: a listing that is given has the same names (`list_unlocked`).
-/

namespace WidgetMigration.FileTree

variable {t : FileTree} {p : Path}

/-- The system refuses to follow a path, for the lack of a search bit. -/
def Refuses (t : FileTree) (p : Path) : Prop :=
  t.resolve .follow p = .error .permissionDenied

theorem get?_unlocked (t : FileTree) (loc : Location) :
    t.unlocked.get? loc = (t.get? loc).map Entry.unlocked := by
  cases loc with
  | nil => rfl
  | cons name loc =>
    show (t.entries.map _).lookup _ = (t.entries.lookup _).map _
    induction t.entries with
    | nil => rfl
    | cons p entries ih =>
      rw [List.map_cons, List.lookup_cons, List.lookup_cons, ih]
      cases name :: loc == p.1 <;> rfl

/-! ## Following a path -/

theorem checkSearch_unlocked (t : FileTree) (loc : Location) :
    t.checkSearch loc = t.unlocked.checkSearch loc ∨
      t.checkSearch loc = .error .permissionDenied := by
  unfold checkSearch
  rw [get?_unlocked]
  rcases t.get? loc with _ | (⟨content, access⟩ | access | target)
  · exact .inl rfl
  · exact .inl rfl
  · cases hsearch : access.search with
    | false => exact .inr (by simp only [hsearch, Bool.false_eq_true, if_false])
    | true => exact .inl (by simp only [hsearch, if_true, Option.map_some, Entry.unlocked,
        Access.full])
  · exact .inl rfl

theorem checkEnd_unlocked (t : FileTree) (loc : Location) (endsInSlash : Bool) :
    t.checkEnd loc endsInSlash = t.unlocked.checkEnd loc endsInSlash := by
  unfold checkEnd
  rw [get?_unlocked]
  rcases t.get? loc with _ | (_ | _ | _) <;> rfl

theorem enter_unlocked (t : FileTree) (purpose : Purpose) (links : Nat) (loc : Location)
    (name : FileName) (rest : List Bytes) (slash : Bool) :
    t.enter purpose links loc name rest slash =
      t.unlocked.enter purpose links loc name rest slash := by
  unfold enter
  rw [get?_unlocked]
  rcases t.get? (loc ++ [name]) with _ | (_ | _ | _) <;> rfl

theorem move_unlocked (t : FileTree) (purpose : Purpose) (links : Nat) (loc : Location)
    (step : Bytes) (rest : List Bytes) (slash : Bool) :
    t.move purpose links loc step rest slash = t.unlocked.move purpose links loc step rest slash ∨
      t.move purpose links loc step rest slash = .stop (.error .permissionDenied) := by
  unfold move
  rcases t.checkSearch_unlocked loc with hsearch | hsearch
  · rw [hsearch]
    simp only [fun name => t.enter_unlocked purpose links loc name rest slash]
    exact .inl trivial
  · rw [hsearch]
    exact .inr rfl

theorem walk_unlocked (t : FileTree) (purpose : Purpose) (links : Nat) (loc : Location)
    (steps : List Bytes) (slash : Bool) :
    t.walk purpose links loc steps slash = t.unlocked.walk purpose links loc steps slash ∨
      t.walk purpose links loc steps slash = .error .permissionDenied := by
  induction links, loc, steps, slash using t.walk_induction purpose with
  | nil links loc slash =>
    rw [walk_nil, walk_nil]
    exact .inl (t.checkEnd_unlocked loc slash)
  | @stop links loc step rest slash answer hmove =>
    rw [walk_cons, walk_cons, hmove]
    rcases t.move_unlocked purpose links loc step rest slash with hsame | hrefused
    · rw [← hsame, hmove]
      exact .inl rfl
    · rw [hmove] at hrefused
      exact .inr (Move.stop.inj hrefused)
  | @go links loc step rest slash _ _ _ _ hmove ih =>
    rw [walk_cons, walk_cons, hmove]
    rcases t.move_unlocked purpose links loc step rest slash with hsame | hrefused
    · rw [← hsame, hmove]
      exact ih
    · rw [hmove] at hrefused
      cases hrefused

/-- **A path leads to the same place, or the system refuses to follow it.** -/
theorem resolve_unlocked (t : FileTree) (purpose : Purpose) (p : Path) :
    t.resolve purpose p = t.unlocked.resolve purpose p ∨
      t.resolve purpose p = .error .permissionDenied := by
  unfold resolve
  by_cases hnul : p.bytes.contains 0 = true
  · rw [if_pos hnul, if_pos hnul]
    exact .inl rfl
  by_cases hempty : p.bytes = []
  · rw [if_neg hnul, if_neg hnul, if_pos hempty, if_pos hempty]
    exact .inl rfl
  by_cases hlong : maxPathLength ≤ p.bytes.length
  · rw [if_neg hnul, if_neg hnul, if_neg hempty, if_neg hempty, if_pos hlong, if_pos hlong]
    exact .inl rfl
  · rw [if_neg hnul, if_neg hnul, if_neg hempty, if_neg hempty, if_neg hlong, if_neg hlong]
    exact t.walk_unlocked purpose maxLinks _ _ _

theorem enter_inspect (t : FileTree) (links : Nat) (loc : Location) (name : FileName)
    (rest : List Bytes) (slash : Bool) :
    t.enter .inspect links loc name rest slash = t.enter .follow links loc name rest slash ∨
      t.enter .inspect links loc name rest slash = .stop (.ok (.entry (loc ++ [name]))) := by
  unfold enter
  rcases t.get? (loc ++ [name]) with _ | (_ | _ | target)
  · exact .inl rfl
  · exact .inl rfl
  · exact .inl rfl
  · by_cases hend : rest = [] ∧ slash = false
    · exact .inr (by simp only [hend, and_self, if_true])
    · exact .inl (by simp only [and_true, if_neg hend, reduceCtorEq, and_false, if_false])

/-- To ask about a link itself is to follow the path up to the link. -/
theorem move_inspect (t : FileTree) (links : Nat) (loc : Location) (step : Bytes)
    (rest : List Bytes) (slash : Bool) :
    t.move .inspect links loc step rest slash = t.move .follow links loc step rest slash ∨
      ∃ loc', t.move .inspect links loc step rest slash = .stop (.ok (.entry loc')) := by
  unfold move
  cases t.checkSearch loc with
  | error e => exact .inl rfl
  | ok _ =>
    by_cases hdot : step = dot
    · simp only [if_pos hdot]
      exact .inl trivial
    by_cases hdotDot : step = dotDot
    · simp only [if_neg hdot, if_pos hdotDot]
      exact .inl trivial
    simp only [if_neg hdot, if_neg hdotDot, reduceCtorEq, false_and, if_false]
    cases nameOfStep step with
    | error e => exact .inl rfl
    | ok name =>
      rcases t.enter_inspect links loc name rest slash with hsame | hlink
      · exact .inl hsame
      · exact .inr ⟨_, hlink⟩

theorem walk_inspect_refused {links : Nat} {loc : Location} {steps : List Bytes} {slash : Bool}
    (h : t.walk .inspect links loc steps slash = .error .permissionDenied) :
    t.walk .follow links loc steps slash = .error .permissionDenied := by
  induction links, loc, steps, slash using t.walk_induction .inspect with
  | nil links loc slash =>
    rw [walk_nil] at h ⊢
    exact h
  | @stop links loc step rest slash answer hmove =>
    rw [walk_cons, hmove] at h
    dsimp only at h
    subst h
    rcases t.move_inspect links loc step rest slash with hsame | ⟨loc', hlink⟩
    · rw [walk_cons, ← hsame, hmove]
    · rw [hmove] at hlink
      cases hlink
  | @go links loc step rest slash _ _ _ _ hmove ih =>
    rw [walk_cons, hmove] at h
    rcases t.move_inspect links loc step rest slash with hsame | ⟨loc', hlink⟩
    · rw [walk_cons, ← hsame, hmove]
      exact ih h
    · rw [hmove] at hlink
      cases hlink

/-- A path that cannot be asked about cannot be followed. -/
theorem refuses_of_inspect (h : t.resolve .inspect p = .error .permissionDenied) :
    t.Refuses p := by
  unfold Refuses
  unfold resolve at h ⊢
  by_cases hnul : p.bytes.contains 0 = true
  · rw [if_pos hnul] at h
    cases h
  by_cases hempty : p.bytes = []
  · rw [if_neg hnul, if_pos hempty] at h
    cases h
  by_cases hlong : maxPathLength ≤ p.bytes.length
  · rw [if_neg hnul, if_neg hempty, if_pos hlong] at h
    cases h
  · rw [if_neg hnul, if_neg hempty, if_neg hlong] at h ⊢
    exact walk_inspect_refused h

/-! ## Search bits -/

/-- Every directory can be searched. -/
def Searchable (t : FileTree) : Prop :=
  ∀ loc access, t.get? loc = some (.directory access) → access.search = true

theorem nameOfStep_ne_permissionDenied (step : Bytes) :
    nameOfStep step ≠ .error .permissionDenied := by
  unfold nameOfStep
  split
  · exact fun h => nomatch h
  · split <;> exact fun h => nomatch h

theorem enter_ne_permissionDenied (t : FileTree) (purpose : Purpose) (links : Nat) (loc : Location)
    (name : FileName) (rest : List Bytes) (slash : Bool) :
    t.enter purpose links loc name rest slash ≠ .stop (.error .permissionDenied) := by
  unfold enter
  intro h
  rcases hget : t.get? (loc ++ [name]) with _ | (_ | _ | target)
  · rw [hget] at h
    by_cases hrest : rest = []
    · simp [hrest] at h
    · simp [hrest] at h
  · simp [hget] at h
  · simp [hget] at h
  · rw [hget] at h
    dsimp only at h
    split at h
    · cases h
    · cases links <;> cases h

theorem Searchable.checkSearch (h : t.Searchable) (loc : Location) :
    t.checkSearch loc ≠ .error .permissionDenied := by
  unfold FileTree.checkSearch
  rcases hget : t.get? loc with _ | (_ | access | _)
  · exact fun h => nomatch h
  · exact fun h => nomatch h
  · dsimp only
    rw [if_pos (h loc access hget)]
    exact fun h => nomatch h
  · exact fun h => nomatch h

theorem Searchable.move (h : t.Searchable) (purpose : Purpose) (links : Nat) (loc : Location)
    (step : Bytes) (rest : List Bytes) (slash : Bool) :
    t.move purpose links loc step rest slash ≠ .stop (.error .permissionDenied) := by
  unfold FileTree.move
  cases hsearch : t.checkSearch loc with
  | error e =>
    rintro ⟨⟩
    exact h.checkSearch loc hsearch
  | ok _ =>
    dsimp only
    split
    · exact fun h => nomatch h
    split
    · exact fun h => nomatch h
    split
    · exact fun h => nomatch h
    cases hname : nameOfStep step with
    | error e =>
      rintro ⟨⟩
      exact nameOfStep_ne_permissionDenied step hname
    | ok name => exact t.enter_ne_permissionDenied purpose links loc name rest slash

theorem Searchable.walk (h : t.Searchable) (purpose : Purpose) (links : Nat) (loc : Location)
    (steps : List Bytes) (slash : Bool) :
    t.walk purpose links loc steps slash ≠ .error .permissionDenied := by
  induction links, loc, steps, slash using t.walk_induction purpose with
  | nil links loc slash =>
    rw [walk_nil]
    unfold checkEnd
    split
    · split <;> exact fun h => nomatch h
    · exact fun h => nomatch h
  | stop hmove =>
    rw [walk_cons, hmove]
    rintro rfl
    exact h.move _ _ _ _ _ _ hmove
  | go hmove ih =>
    rw [walk_cons, hmove]
    exact ih

/-- **Nothing is refused where every directory can be searched.** -/
theorem Searchable.not_refuses (h : t.Searchable) (p : Path) : ¬ t.Refuses p := by
  unfold Refuses resolve
  split
  · exact fun h => nomatch h
  split
  · exact fun h => nomatch h
  split
  · exact fun h => nomatch h
  · exact h.walk _ _ _ _ _

/-! ## What is at a path -/

/-- What all access bits show at a path is there, or the path is refused. -/
theorem lookup_of_unlocked {purpose : Purpose} {loc : Location} {e : Entry}
    (h : t.unlocked.lookup purpose p = .ok (loc, e)) :
    (∃ e', t.lookup purpose p = .ok (loc, e') ∧ e'.unlocked = e) ∨
      t.resolve purpose p = .error .permissionDenied := by
  obtain ⟨hres, hget⟩ := lookup_eq_ok_iff.mp h
  rw [get?_unlocked] at hget
  obtain ⟨e', hget', rfl⟩ := Option.map_eq_some_iff.mp hget
  rcases t.resolve_unlocked purpose p with hsame | hrefused
  · exact .inl ⟨e', lookup_eq_ok_iff.mpr ⟨hsame.trans hres, hget'⟩, rfl⟩
  · exact .inr hrefused

theorem isThere_of_unlocked (h : t.unlocked.isThere p = true) :
    t.isThere p = true ∨ t.Refuses p := by
  have hfound : ∀ purpose, (t.unlocked.lookup purpose p).isOk = true →
      (t.lookup purpose p).isOk = true ∨ t.resolve purpose p = .error .permissionDenied := by
    intro purpose hok
    cases hlookup : t.unlocked.lookup purpose p with
    | error e =>
      rw [hlookup] at hok
      cases hok
    | ok found =>
      rcases lookup_of_unlocked hlookup with ⟨e', heq, _⟩ | hrefused
      · rw [heq]
        exact .inl rfl
      · exact .inr hrefused
  unfold isThere at h ⊢
  rw [Bool.or_eq_true] at h ⊢
  rcases h with hinspect | hfollow
  · rcases hfound .inspect hinspect with hok | hrefused
    · exact .inl (.inl hok)
    · exact .inr (refuses_of_inspect hrefused)
  · rcases hfound .follow hfollow with hok | hrefused
    · exact .inl (.inr hok)
    · exact .inr hrefused

theorem isFile_of_unlocked (h : t.unlocked.isFile p = true) :
    t.isFile p = true ∨ t.Refuses p := by
  obtain ⟨loc, content, access, hres, hget⟩ := isFile_iff.mp h
  rcases lookup_of_unlocked (lookup_eq_ok_iff.mpr ⟨hres, hget⟩) with ⟨e, hlookup, he⟩ | hrefused
  · cases e with
    | file content' access' =>
      obtain ⟨hres', hget'⟩ := lookup_eq_ok_iff.mp hlookup
      exact .inl (isFile_iff.mpr ⟨loc, content', access', hres', hget'⟩)
    | directory access' => cases he
    | link target => cases he
  · exact .inr hrefused

theorem isDirectory_unlocked (t : FileTree) (p : Path) :
    t.isDirectory p = t.unlocked.isDirectory p ∨ t.Refuses p := by
  rcases t.resolve_unlocked .follow p with hsame | hrefused
  · refine .inl ?_
    unfold isDirectory lookup
    rw [hsame]
    rcases t.unlocked.resolve .follow p with e | (loc | ⟨directory, name⟩)
    · rfl
    · simp only [get?_unlocked]
      rcases t.get? loc with _ | (_ | _ | _) <;> rfl
    · rfl
  · exact .inr hrefused

/-- A listing that is given has the names that are there. -/
theorem list_unlocked {es : List (FileName × Entry)} (h : t.list p = .ok es) :
    ∃ es', t.unlocked.list p = .ok es' ∧
      ∀ name e', (name, e') ∈ es' ↔ ∃ e, (name, e) ∈ es ∧ e.unlocked = e' := by
  obtain ⟨loc, access, hres, hget, _, rfl⟩ := list_eq_ok_iff.mp h
  have hres' : t.unlocked.resolve .follow p = .ok (.entry loc) := by
    rcases t.resolve_unlocked .follow p with hsame | hrefused
    · exact hsame.symm.trans hres
    · rw [hres] at hrefused
      cases hrefused
  have hget' : t.unlocked.get? loc = some (.directory .full) := by
    rw [get?_unlocked, hget]
    rfl
  refine ⟨_, list_eq_ok_iff.mpr ⟨loc, .full, hres', hget', rfl, rfl⟩, fun name e' => ?_⟩
  simp only [mem_children_iff, get?_unlocked, Option.map_eq_some_iff]

end WidgetMigration.FileTree
