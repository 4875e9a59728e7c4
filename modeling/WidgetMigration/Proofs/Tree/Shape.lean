import WidgetMigration.Proofs.Tree.Entries
import WidgetMigration.Proofs.Tree.Steps

/-!
# Trees of one shape

Where a path leads hangs on the directories, the links and their access bits, and not on what is in
the files or who may use them. Two trees that differ in nothing else are of one shape (`SameShape`),
and every path leads to the same place in both (`SameShape.resolve`).

`FileTree.mapFiles` gives every file a new content and keeps the shape. A tree that a migration has
come to is written as the first tree with its files mapped, so what was known of a path before the
migration stays known.
-/

namespace WidgetMigration

/-- An entry without what is in a file and who may use it. -/
def Entry.shape : Entry → Entry
  | .file _ _ => .file [] .full
  | .directory access => .directory access
  | .link target => .link target

/-- An entry with another content, if it is a file. The content may depend on the old one and on who
may use the file. -/
def Entry.mapContent (f : Bytes → Access → Bytes) : Entry → Entry
  | .file content access => .file (f content access) access
  | .directory access => .directory access
  | .link target => .link target

namespace FileTree

/-- The two trees differ at most in the contents and the access bits of files. -/
structure SameShape (t t' : FileTree) : Prop where
  workingDirectory : t.workingDirectory = t'.workingDirectory
  get? : ∀ loc, (t.get? loc).map Entry.shape = (t'.get? loc).map Entry.shape

namespace SameShape

variable {t t' : FileTree}

theorem get?_cases (h : SameShape t t') (loc : Location) :
    (t.get? loc = none ∧ t'.get? loc = none) ∨
      (∃ access, t.get? loc = some (.directory access) ∧ t'.get? loc = some (.directory access)) ∨
      (∃ target, t.get? loc = some (.link target) ∧ t'.get? loc = some (.link target)) ∨
      (∃ c a c' a', t.get? loc = some (.file c a) ∧ t'.get? loc = some (.file c' a')) := by
  have hs := h.get? loc
  cases ht : t.get? loc with
  | none =>
    cases ht' : t'.get? loc with
    | none => exact .inl ⟨rfl, rfl⟩
    | some e' => simp [ht, ht'] at hs
  | some e =>
    cases ht' : t'.get? loc with
    | none => simp [ht, ht'] at hs
    | some e' =>
      cases e <;> cases e' <;> simp_all [Entry.shape]

theorem checkSearch (h : SameShape t t') (loc : Location) :
    t.checkSearch loc = t'.checkSearch loc := by
  unfold FileTree.checkSearch
  rcases h.get?_cases loc with ⟨h₁, h₂⟩ | ⟨_, h₁, h₂⟩ | ⟨_, h₁, h₂⟩ | ⟨_, _, _, _, h₁, h₂⟩ <;>
    rw [h₁, h₂]

theorem checkEnd (h : SameShape t t') (loc : Location) (endsInSlash : Bool) :
    t.checkEnd loc endsInSlash = t'.checkEnd loc endsInSlash := by
  unfold FileTree.checkEnd
  rcases h.get?_cases loc with ⟨h₁, h₂⟩ | ⟨_, h₁, h₂⟩ | ⟨_, h₁, h₂⟩ | ⟨_, _, _, _, h₁, h₂⟩ <;>
    rw [h₁, h₂]

theorem move (h : SameShape t t') (purpose : Purpose) (links : Nat) (loc : Location) (step : Bytes)
    (rest : List Bytes) (slash : Bool) :
    t.move purpose links loc step rest slash = t'.move purpose links loc step rest slash := by
  have henter : ∀ name, t.enter purpose links loc name rest slash =
      t'.enter purpose links loc name rest slash := by
    intro name
    unfold enter
    rcases h.get?_cases (loc ++ [name]) with
      ⟨h₁, h₂⟩ | ⟨_, h₁, h₂⟩ | ⟨_, h₁, h₂⟩ | ⟨_, _, _, _, h₁, h₂⟩ <;> rw [h₁, h₂]
  unfold FileTree.move
  simp only [h.checkSearch, henter]

theorem walk (h : SameShape t t') (purpose : Purpose) (links : Nat) (loc : Location)
    (steps : List Bytes) (slash : Bool) :
    t.walk purpose links loc steps slash = t'.walk purpose links loc steps slash := by
  induction links, loc, steps, slash using t.walk_induction purpose with
  | nil links loc slash => rw [walk_nil, walk_nil, h.checkEnd]
  | stop hmove => rw [walk_cons, walk_cons, ← h.move, hmove]
  | go hmove ih => rw [walk_cons, walk_cons, ← h.move, hmove]; exact ih

/-- **Every path leads to the same place** in trees of one shape. -/
theorem resolve (h : SameShape t t') (purpose : Purpose) (p : Path) :
    t.resolve purpose p = t'.resolve purpose p := by
  unfold FileTree.resolve
  simp only [h.walk, h.workingDirectory]

/-- What a path leads to is the same up to what is in files. -/
theorem lookup_cases (h : SameShape t t') (purpose : Purpose) (p : Path) :
    (∃ e, t.lookup purpose p = .error e ∧ t'.lookup purpose p = .error e) ∨
      (∃ loc access, t.lookup purpose p = .ok (loc, .directory access) ∧
        t'.lookup purpose p = .ok (loc, .directory access)) ∨
      (∃ loc target, t.lookup purpose p = .ok (loc, .link target) ∧
        t'.lookup purpose p = .ok (loc, .link target)) ∨
      (∃ loc c a c' a', t.lookup purpose p = .ok (loc, .file c a) ∧
        t'.lookup purpose p = .ok (loc, .file c' a')) := by
  unfold lookup
  rw [h.resolve]
  rcases t'.resolve purpose p with e | (loc | ⟨directory, name⟩)
  · exact .inl ⟨e, rfl, rfl⟩
  · rcases h.get?_cases loc with
      ⟨h₁, h₂⟩ | ⟨access, h₁, h₂⟩ | ⟨target, h₁, h₂⟩ | ⟨c, a, c', a', h₁, h₂⟩
    · simp only [h₁, h₂]
      exact .inl ⟨_, rfl, rfl⟩
    · simp only [h₁, h₂]
      exact .inr (.inl ⟨loc, access, rfl, rfl⟩)
    · simp only [h₁, h₂]
      exact .inr (.inr (.inl ⟨loc, target, rfl, rfl⟩))
    · simp only [h₁, h₂]
      exact .inr (.inr (.inr ⟨loc, c, a, c', a', rfl, rfl⟩))
  · exact .inl ⟨_, rfl, rfl⟩

theorem isFile (h : SameShape t t') (p : Path) : t.isFile p = t'.isFile p := by
  unfold FileTree.isFile
  rcases h.lookup_cases .follow p with
    ⟨_, h₁, h₂⟩ | ⟨_, _, h₁, h₂⟩ | ⟨_, _, h₁, h₂⟩ | ⟨_, _, _, _, _, h₁, h₂⟩ <;> rw [h₁, h₂]

theorem isDirectory (h : SameShape t t') (p : Path) : t.isDirectory p = t'.isDirectory p := by
  unfold FileTree.isDirectory
  rcases h.lookup_cases .follow p with
    ⟨_, h₁, h₂⟩ | ⟨_, _, h₁, h₂⟩ | ⟨_, _, h₁, h₂⟩ | ⟨_, _, _, _, _, h₁, h₂⟩ <;> rw [h₁, h₂]

theorem isThere (h : SameShape t t') (p : Path) : t.isThere p = t'.isThere p := by
  have hlookup : ∀ purpose, (t.lookup purpose p).isOk = (t'.lookup purpose p).isOk := by
    intro purpose
    rcases h.lookup_cases purpose p with
      ⟨_, h₁, h₂⟩ | ⟨_, _, h₁, h₂⟩ | ⟨_, _, h₁, h₂⟩ | ⟨_, _, _, _, _, h₁, h₂⟩ <;>
      simp only [h₁, h₂, Except.isOk, Except.toBool]
  unfold FileTree.isThere
  rw [hlookup, hlookup]

end SameShape

/-! ## New contents -/

/-- The tree with a new content in every file. -/
def mapFiles (t : FileTree) (f : Location → Bytes → Access → Bytes) : FileTree where
  entries := t.entries.map fun p => (p.1, p.2.mapContent (f p.1))
  workingDirectory := t.workingDirectory
  unique := by
    rw [List.map_map]
    exact t.unique

variable (t : FileTree) (f : Location → Bytes → Access → Bytes)

theorem get?_mapFiles (loc : Location) :
    (t.mapFiles f).get? loc = (t.get? loc).map (Entry.mapContent (f loc)) := by
  cases loc with
  | nil => rfl
  | cons name loc =>
    show (t.entries.map _).lookup _ = (t.entries.lookup _).map _
    induction t.entries with
    | nil => rfl
    | cons p entries ih =>
      rw [List.map_cons, List.lookup_cons, List.lookup_cons, ih]
      by_cases hp : name :: loc = p.1
      · rw [hp, beq_self_eq_true]
        rfl
      · rw [beq_eq_false_iff_ne.mpr hp]

theorem sameShape_mapFiles : SameShape t (t.mapFiles f) where
  workingDirectory := rfl
  get? loc := by
    rw [get?_mapFiles, Option.map_map]
    rcases t.get? loc with _ | (_ | _ | _) <;> rfl

/-- The entries say everything about a tree, and they are what is mapped. -/
theorem mapFiles_eq_of_entries {t t' : FileTree} {f : Location → Bytes → Access → Bytes}
    (hdir : t'.workingDirectory = t.workingDirectory)
    (h : t'.entries = t.entries.map fun p => (p.1, p.2.mapContent (f p.1))) :
    t' = t.mapFiles f := by
  cases t'
  simp only at hdir h
  subst hdir h
  rfl

theorem mapFiles_self : (t.mapFiles fun _ content _ => content) = t := by
  refine (mapFiles_eq_of_entries rfl ?_).symm
  refine (List.map_id _).symm.trans (List.map_congr_left fun p _ => ?_)
  obtain ⟨loc, e⟩ := p
  cases e <;> rfl

theorem mapFiles_mapFiles (g : Location → Bytes → Access → Bytes) :
    (t.mapFiles f).mapFiles g =
      t.mapFiles fun loc content access => g loc (f loc content access) access := by
  refine mapFiles_eq_of_entries rfl ?_
  show (t.entries.map _).map _ = _
  rw [List.map_map]
  refine List.map_congr_left fun p _ => ?_
  obtain ⟨loc, e⟩ := p
  cases e <;> rfl

variable {t}

/-- Only what is made of the contents that are there matters. -/
theorem mapFiles_congr {g : Location → Bytes → Access → Bytes}
    (h : ∀ loc content access, (loc, .file content access) ∈ t.entries →
      f loc content access = g loc content access) : t.mapFiles f = t.mapFiles g := by
  refine mapFiles_eq_of_entries rfl (List.map_congr_left fun p hp => ?_)
  obtain ⟨loc, e⟩ := p
  cases e with
  | file content access => simp only [Entry.mapContent, h loc content access hp]
  | directory access => rfl
  | link target => rfl

/-- Putting a new content in the place of a file changes the content of this one file. -/
theorem set_eq_mapFiles {loc : Location} {content : Bytes} {access : Access} (hloc : loc ≠ [])
    (h : t.get? loc = some (.file content access)) (new : Bytes) :
    t.set loc (.file new access) =
      t.mapFiles fun loc' old _ => if loc' = loc then new else old := by
  have hmem := (mem_entries_iff hloc).mpr h
  have hkey : loc ∈ t.entries.map Prod.fst := List.mem_map_of_mem hmem
  unfold set
  rw [dif_pos hkey]
  refine mapFiles_eq_of_entries rfl ?_
  refine List.map_congr_left fun p hp => ?_
  obtain ⟨loc', e⟩ := p
  by_cases hloc' : loc' = loc
  · subst hloc'
    obtain rfl := eq_of_mem_entries hp hmem
    simp only [if_true, Entry.mapContent]
  · simp only [if_neg hloc']
    cases e <;> rfl

end FileTree

end WidgetMigration
