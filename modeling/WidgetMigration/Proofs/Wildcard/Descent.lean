import WidgetMigration.Proofs.Tree.Listing
import WidgetMigration.Wildcard.Walk

/-!
# Walking below a directory

What `descend` visits, told without the walk. Names lead down from a directory if each directory on
the way can be listed and its listing has the next name for a directory (`Descends`); the walk visits
the entries of each directory that names lead down to, or that it cannot be listed
(`mem_descend_iff`). No path is visited twice, though links may lead to one directory on many paths
(`pairwise_descend`): the names on the way tell the visits apart.

`descend_induction` is the induction that goes with the walk.
-/

namespace WidgetMigration

/-- The path of what some names lead to below a directory. -/
def Path.below (directory : Path) (names : List FileName) : Path :=
  directory.along (names.map FileName.bytes)

theorem Path.below_append_singleton (directory : Path) (names : List FileName) (name : FileName) :
    directory.below (names ++ [name]) = (directory.below names).child name.bytes := by
  unfold below
  rw [List.map_append, along_append]
  rfl

theorem Path.isStep_of_mem_map {names : List FileName} : ∀ s ∈ names.map FileName.bytes, IsStep s := by
  intro s hs
  obtain ⟨name, _, rfl⟩ := List.mem_map.mp hs
  exact name.isStep

theorem Path.Spelled.below_inj {directory : Path} (h : directory.Spelled) {names names' : List FileName}
    (heq : directory.below names = directory.below names') : names = names' := by
  have hbytes := h.along_inj isStep_of_mem_map isStep_of_mem_map heq
  exact List.map_injective_iff.mpr (fun _ _ => FileName.ext) hbytes

theorem FileName.isName (name : FileName) : Path.IsName name.bytes :=
  ⟨name.isStep, name.bytes_ne_dot, name.bytes_ne_dotDot⟩

theorem Path.Spelled.sortKey_below_inj {directory : Path} (h : directory.Spelled)
    {names names' : List FileName}
    (heq : (directory.below names).sortKey = (directory.below names').sortKey) : names = names' := by
  have hname : ∀ {names : List FileName}, ∀ s ∈ names.map FileName.bytes, IsName s := by
    intro names s hs
    obtain ⟨name, _, rfl⟩ := List.mem_map.mp hs
    exact name.isName
  have hbytes := h.sortKey_along_inj hname hname heq
  exact List.map_injective_iff.mpr (fun _ _ => FileName.ext) hbytes

namespace FileTree

variable {t : FileTree}

/-! ## The walk, one directory at a time -/

theorem descend_eq (t : FileTree) (directory : Path) :
    t.descend directory =
      match t.list directory with
      | .error e => [.unreadable directory e]
      | .ok es =>
        es.flatMap fun entry =>
          .entry (t.entryPlace directory entry) entry.1 ::
            if (t.entryPlace directory entry).isDirectory then
              t.descend (directory.child entry.1.bytes)
            else [] := by
  rw [descend]
  split
  · rename_i h
    simp only [h]
  · rename_i h
    simp only [h]
    rfl

/-- Induction along the walk: from the directories of a listing to the directory that was listed. It
ends because a path that can be listed is not too long. -/
@[elab_as_elim]
theorem descend_induction (t : FileTree) {motive : Path → Prop}
    (step : ∀ directory, (∀ es, t.list directory = .ok es → ∀ entry ∈ es,
      motive (directory.child entry.1.bytes)) → motive directory)
    (directory : Path) : motive directory := by
  refine step directory fun es hlist entry _ => ?_
  have : room (entryPath directory entry.1) < room directory :=
    room_entryPath_lt entry.1 (length_lt_of_list hlist)
  exact descend_induction t step (directory.child entry.1.bytes)
termination_by room directory

/-- Names lead down from a directory: each directory before the last one can be listed, and its
listing has the next name for a directory. -/
inductive Descends (t : FileTree) : Path → List FileName → Prop where
  | here (directory : Path) : Descends t directory []
  | down {directory : Path} {name : FileName} {e : Entry} {es : List (FileName × Entry)}
      {names : List FileName} (hlist : t.list directory = .ok es) (hmem : (name, e) ∈ es)
      (hdir : (t.entryPlace directory (name, e)).isDirectory = true)
      (hbelow : Descends t (directory.child name.bytes) names) :
      Descends t directory (name :: names)

/-- What a walk visits at a directory. -/
def VisitsAt (t : FileTree) (directory : Path) : Visit → Prop
  | .entry place name => ∃ es e, t.list directory = .ok es ∧ (name, e) ∈ es ∧
      place = t.entryPlace directory (name, e)
  | .unreadable path error => path = directory ∧ t.list directory = .error error

section Listed

variable {directory : Path} {es : List (FileName × Entry)} {v : Visit}

theorem visitsAt_of_ok (hlist : t.list directory = .ok es) :
    t.VisitsAt directory v ↔ ∃ entry ∈ es, v = .entry (t.entryPlace directory entry) entry.1 := by
  constructor
  · intro hv
    cases v with
    | entry place name =>
      obtain ⟨es', e, hlist', hmem, rfl⟩ := hv
      rw [hlist] at hlist'
      cases hlist'
      exact ⟨_, hmem, rfl⟩
    | unreadable path error =>
      obtain ⟨_, herror⟩ := hv
      rw [hlist] at herror
      cases herror
  · rintro ⟨⟨name, e⟩, hmem, rfl⟩
    exact ⟨es, e, hlist, hmem, rfl⟩

theorem visitsAt_of_error {error : FileError} (hlist : t.list directory = .error error) :
    t.VisitsAt directory v ↔ v = .unreadable directory error := by
  constructor
  · intro hv
    cases v with
    | entry place name =>
      obtain ⟨es', e, hlist', _⟩ := hv
      rw [hlist] at hlist'
      cases hlist'
    | unreadable path error' =>
      obtain ⟨rfl, herror⟩ := hv
      rw [hlist] at herror
      cases herror
      rfl
  · rintro rfl
    exact ⟨rfl, hlist⟩

theorem descends_cons_iff (hlist : t.list directory = .ok es) {name : FileName}
    {names : List FileName} :
    t.Descends directory (name :: names) ↔
      ∃ e, (name, e) ∈ es ∧ (t.entryPlace directory (name, e)).isDirectory = true ∧
        t.Descends (directory.child name.bytes) names := by
  constructor
  · intro h
    cases h with
    | down hlist' hmem hdir hbelow =>
      rw [hlist] at hlist'
      cases hlist'
      exact ⟨_, hmem, hdir, hbelow⟩
  · rintro ⟨e, hmem, hdir, hbelow⟩
    exact .down hlist hmem hdir hbelow

theorem Descends.eq_nil {error : FileError} (hlist : t.list directory = .error error)
    {names : List FileName} (h : t.Descends directory names) : names = [] := by
  cases h with
  | here => rfl
  | down hlist' _ _ _ =>
    rw [hlist] at hlist'
    cases hlist'

theorem mem_descend_of_ok (hlist : t.list directory = .ok es) :
    v ∈ t.descend directory ↔ ∃ entry ∈ es,
      v = .entry (t.entryPlace directory entry) entry.1 ∨
        (t.entryPlace directory entry).isDirectory = true ∧
          v ∈ t.descend (directory.child entry.1.bytes) := by
  rw [descend_eq, hlist]
  simp only [List.mem_flatMap, List.mem_cons, List.mem_ite_nil_right]

end Listed

/-- **What the walk visits**, at every directory that names lead down to. -/
theorem mem_descend_iff {directory : Path} {v : Visit} :
    v ∈ t.descend directory ↔
      ∃ names, t.Descends directory names ∧ t.VisitsAt (directory.below names) v := by
  induction directory using t.descend_induction with
  | step directory ih =>
    cases hlist : t.list directory with
    | error error =>
      have hhere : v ∈ t.descend directory ↔ v = .unreadable directory error := by
        rw [descend_eq, hlist]
        exact List.mem_singleton
      rw [hhere, ← visitsAt_of_error hlist]
      constructor
      · exact fun hv => ⟨[], .here directory, hv⟩
      · rintro ⟨names, hnames, hv⟩
        rwa [hnames.eq_nil hlist] at hv
    | ok es =>
      rw [mem_descend_of_ok hlist]
      constructor
      · rintro ⟨entry, hmem, hv | ⟨hdir, hv⟩⟩
        · exact ⟨[], .here directory, (visitsAt_of_ok hlist).mpr ⟨entry, hmem, hv⟩⟩
        · obtain ⟨names, hnames, hvisit⟩ := (ih es hlist entry hmem).mp hv
          exact ⟨entry.1 :: names, .down hlist hmem hdir hnames, hvisit⟩
      · rintro ⟨names, hnames, hvisit⟩
        cases names with
        | nil =>
          obtain ⟨entry, hmem, hv⟩ := (visitsAt_of_ok hlist).mp hvisit
          exact ⟨entry, hmem, .inl hv⟩
        | cons name names =>
          obtain ⟨e, hmem, hdir, hbelow⟩ := (descends_cons_iff hlist).mp hnames
          exact ⟨(name, e), hmem, .inr ⟨hdir, (ih es hlist _ hmem).mpr ⟨names, hbelow, hvisit⟩⟩⟩

/-! ## Directories that can be listed -/

theorem entryPlace_isDirectory_iff {directory : Path} {name : FileName} {e : Entry} :
    (t.entryPlace directory (name, e)).isDirectory = true ↔
      (∃ access, e = .directory access) ∨
        (∃ target, e = .link target) ∧ t.isDirectory (directory.child name.bytes) = true := by
  cases e with
  | file content access => simp [entryPlace]
  | directory access => simp [entryPlace]
  | link target =>
    simp only [reduceCtorEq, exists_false, Entry.link.injEq, exists_eq', true_and, false_or]
    rfl

/-- A child that is a directory is in the listing as one. -/
theorem entry_of_isDirectory_child {directory : Path} (hne : directory.bytes ≠ [])
    {es : List (FileName × Entry)} (hlist : t.list directory = .ok es) {name : FileName}
    (h : t.isDirectory (directory.child name.bytes) = true) :
    ∃ e, (name, e) ∈ es ∧ (t.entryPlace directory (name, e)).isDirectory = true := by
  obtain ⟨loc, access, hres, hget⟩ := isDirectory_iff.mp h
  rcases mem_list_of_resolve_child hne hlist hres hget with hmem | ⟨target, hmem⟩
  · exact ⟨_, hmem, entryPlace_isDirectory_iff.mpr (.inl ⟨access, rfl⟩)⟩
  · exact ⟨_, hmem, entryPlace_isDirectory_iff.mpr (.inr ⟨⟨target, rfl⟩, h⟩)⟩

/-- **Names lead down to a directory that can be listed exactly if every directory on the way can
be.** So it does not take the walk to say which directories these are. -/
theorem descends_and_list_iff {directory : Path} (hne : directory.Spelled)
    {names : List FileName} :
    (t.Descends directory names ∧ ∃ es, t.list (directory.below names) = .ok es) ↔
      ∀ before, before <+: names → ∃ es, t.list (directory.below before) = .ok es := by
  induction names generalizing directory with
  | nil =>
    constructor
    · rintro ⟨_, hlist⟩ before hbefore
      rwa [List.prefix_nil.mp hbefore]
    · exact fun h => ⟨.here directory, h [] List.nil_prefix⟩
  | cons name names ih =>
    have hchild := hne.spelled_child name.isStep
    constructor
    · rintro ⟨hnames, hlist⟩ before hbefore
      cases hnames with
      | @down _ _ e es _ hhere hmem hdir hbelow =>
        rcases List.prefix_cons_iff.mp hbefore with rfl | ⟨before', rfl, hbefore'⟩
        · exact ⟨es, hhere⟩
        · exact (ih hchild).mp ⟨hbelow, hlist⟩ before' hbefore'
    · intro h
      obtain ⟨es, hhere⟩ := h [] List.nil_prefix
      obtain ⟨es', hlist⟩ := h [name] (List.cons_prefix_cons.mpr ⟨rfl, List.nil_prefix⟩)
      obtain ⟨e, hmem, hdir⟩ :=
        entry_of_isDirectory_child hne.ne_nil hhere (isDirectory_of_list hlist)
      obtain ⟨hbelow, hlist⟩ := (ih hchild).mpr fun before hbefore =>
        h (name :: before) (List.cons_prefix_cons.mpr ⟨rfl, hbefore⟩)
      exact ⟨.down hhere hmem hdir hbelow, hlist⟩

/-! ## No visit twice -/

/-- What tells visits apart: whether an entry is visited, and the path. -/
def Visit.key : Visit → Bool × Path
  | .entry place _ => (true, place.path)
  | .unreadable path _ => (false, path)

/-- A visit is at some names below the directory, and an entry is below it. -/
theorem key_of_mem_descend {directory : Path} {v : Visit} (hv : v ∈ t.descend directory) :
    ∃ names, v.key.2 = directory.below names ∧ (v.key.1 = true → names ≠ []) := by
  obtain ⟨names, _, hvisit⟩ := mem_descend_iff.mp hv
  cases v with
  | entry place name =>
    obtain ⟨_, e, _, _, rfl⟩ := hvisit
    refine ⟨names ++ [name], (Path.below_append_singleton directory names name).symm, fun _ => ?_⟩
    exact List.append_ne_nil_of_right_ne_nil names (List.cons_ne_nil _ _)
  | unreadable path error =>
    obtain ⟨rfl, _⟩ := hvisit
    exact ⟨names, rfl, fun h => by cases h⟩

/-- **No path is visited twice.** -/
theorem pairwise_descend {directory : Path} (hspelled : directory.Spelled) :
    (t.descend directory).Pairwise fun v w => v.key ≠ w.key := by
  induction directory using t.descend_induction with
  | step directory ih =>
    rw [descend_eq]
    cases hlist : t.list directory with
    | error error => exact List.pairwise_singleton _ _
    | ok es =>
      -- Everything that is visited for an entry lies at names that begin with its own.
      have hblock : ∀ entry ∈ es, ∀ v ∈ (.entry (t.entryPlace directory entry) entry.1 ::
          if (t.entryPlace directory entry).isDirectory then
            t.descend (directory.child entry.1.bytes) else [] : List Visit),
          ∃ names, v.key.2 = directory.below (entry.1 :: names) := by
        intro entry _ v hv
        rcases List.mem_cons.mp hv with rfl | hv
        · exact ⟨[], rfl⟩
        · obtain ⟨_, hv⟩ := List.mem_ite_nil_right.mp hv
          obtain ⟨names, hkey, _⟩ := key_of_mem_descend hv
          exact ⟨names, hkey⟩
      refine List.pairwise_flatMap.mpr ⟨?_, ?_⟩
      · intro entry hmem
        refine List.pairwise_cons.mpr ⟨?_, ?_⟩
        · intro w hw hkey
          obtain ⟨_, hw⟩ := List.mem_ite_nil_right.mp hw
          obtain ⟨names, hpath, hne⟩ := key_of_mem_descend hw
          have hnames : [entry.1] = entry.1 :: names := hspelled.below_inj
            ((congrArg Prod.snd hkey).trans hpath)
          exact hne (congrArg Prod.fst hkey).symm (List.cons.inj hnames).2.symm
        · split
          · exact ih es hlist entry hmem (hspelled.spelled_child entry.1.isStep)
          · exact List.Pairwise.nil
      · refine (List.pairwise_map.mp (nodup_list hlist)).imp_of_mem ?_
        intro entry entry' hmem hmem' hne v hv w hw hkey
        obtain ⟨names, hv⟩ := hblock entry hmem v hv
        obtain ⟨names', hw⟩ := hblock entry' hmem' w hw
        have hnames := hspelled.below_inj (hv.symm.trans ((congrArg Prod.snd hkey).trans hw))
        exact hne (List.cons.inj hnames).1

end FileTree

end WidgetMigration
