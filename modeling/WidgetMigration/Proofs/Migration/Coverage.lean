import WidgetMigration.Proofs.Migration.Entries
import WidgetMigration.Proofs.Migration.Finding
import WidgetMigration.Proofs.Wildcard.Coverage

/-!
# Which source files a report accounts for

The source files of a target are those that would be found with all access bits set. A report accounts
for one by an entry of its own, or by a failed entry for what is above it (`AccountedFor`).

A source file is accounted for, unless the system refuses to follow its path or one above it
(`source_accounted`). Only a directory that cannot be searched makes it do so, and what lies in such a
directory can be missing from the report without a word (`source_file_lost`): a path that is refused
looks like one that leads to no regular file. A directory that cannot be listed hides nothing.
-/

namespace WidgetMigration

open FileTree Wildcard

/-- A report on what was discovered accounts for a path. -/
def AccountedFor (d : Discovery) (r : Report) (p : Path) : Prop :=
  (∃ e, (p, e) ∈ d.paths.zip r.files) ∨
    ∃ q e, (q, e) ∈ d.paths.zip r.files ∧ e.outcome.isFailed = true ∧ q.Covers p

/-! ## From the walk to the report -/

section

variable {t : FileTree} {target : Target} {dryRun : Bool} {d : Discovery} {r : Report}

theorem Tells.accountedFor_of_mem_files (htells : Tells t target dryRun d r) {p : Path}
    (h : p ∈ d.files) : AccountedFor d r p := by
  rw [← map_fst_turns dryRun d.files t] at h
  obtain ⟨turn, hturn, rfl⟩ := List.mem_map.mp h
  refine .inl ⟨target.entryOf dryRun turn, ?_⟩
  rw [htells.files, zip_entries]
  exact List.mem_append_right _ (List.mem_map.mpr ⟨turn, hturn, rfl⟩)

theorem Tells.accountedFor_of_mem_unreadable (htells : Tells t target dryRun d r)
    {p q : Path} {f : Failure} (h : (q, f) ∈ d.unreadable) (hcovers : q.Covers p) :
    AccountedFor d r p := by
  refine .inr ⟨q, target.entryOfUnreadable (q, f), ?_, rfl, hcovers⟩
  rw [htells.files, zip_entries]
  exact List.mem_append_left _ (List.mem_map.mpr ⟨(q, f), h, rfl⟩)

/-- **What a walk with all access bits finds**, the walk as it is finds or tells to be hidden. -/
theorem mem_matching_of_unlocked {text : String} {pattern : Pattern}
    (hparse : Pattern.parse text = .ok pattern) {q : Place}
    (h : .place q ∈ t.unlocked.matching pattern) :
    .place q ∈ t.matching pattern ∨
      t.Hidden (fun r e => .unreadable r e ∈ t.matching pattern) q.path := by
  obtain ⟨hfind, hcounts⟩ := List.mem_filter.mp h
  have hleads := leads_of_mem_expand hfind
  -- The place where the walk begins may be refused already.
  rcases t.place_unlocked (t.startPlace pattern).path with hstart | hrefused
  · change t.startPlace pattern = t.unlocked.startPlace pattern at hstart
    rw [← hstart] at hleads
    rcases mem_expand_of_unlocked (isStep_of_parse hparse) hleads with hfound | hhidden
    · exact .inl (List.mem_filter.mpr ⟨hfound, hcounts⟩)
    · exact .inr (hhidden.mono fun r e hfind => List.mem_filter.mpr ⟨hfind, rfl⟩)
  · exact .inr (.refused hrefused (hleads.covers (isStep_of_parse hparse)))

/-- What would be discovered along a pattern with all access bits set is accounted for or refused. -/
theorem Tells.accountedFor_or_refuses {text : String} {pattern : Pattern}
    (hparse : Pattern.parse text = .ok pattern)
    (htells : Tells t target dryRun (Target.discoveryOf t (t.matching pattern)) r) {p : Path}
    (hp : p ∈ (Target.discoveryOf t.unlocked (t.unlocked.matching pattern)).files) :
    AccountedFor (Target.discoveryOf t (t.matching pattern)) r p ∨
      ∃ q, t.Refuses q ∧ q.Covers p := by
  obtain ⟨q, hfind, hfile, rfl⟩ := mem_files_discoveryOf.mp hp
  rcases mem_matching_of_unlocked hparse hfind with hfound | hhidden
  · rcases isFile_of_unlocked hfile with hfile' | hrefused
    · exact .inl (htells.accountedFor_of_mem_files
        (mem_files_discoveryOf.mpr ⟨q, hfound, hfile', rfl⟩))
    · exact .inr ⟨q.path, hrefused, .self⟩
  · cases hhidden with
    | unreadable hfind hcovers =>
      exact .inl (htells.accountedFor_of_mem_unreadable
        (mem_unreadable_discoveryOf.mpr ⟨_, hfind, rfl⟩) hcovers)
    | refused hrefused hcovers => exact .inr ⟨_, hrefused, hcovers⟩

end

/-- **A source file is accounted for**, unless the system refuses its path or one above it. If every
directory can be searched, none is missing. -/
theorem source_accounted (t : FileTree) (target : Target) (dryRun : Bool) {all : Discovery}
    (h : target.discover t.unlocked = .ok all) :
    ∃ d r, target.discover t = .ok d ∧ (migrate t target dryRun).1 = .ok r ∧
      r.files.map FileReport.file = d.paths.map target.nameOf ∧
      (∀ p ∈ all.files, AccountedFor d r p ∨ ∃ q, t.Refuses q ∧ q.Covers p) ∧
      (t.Searchable → ∀ p ∈ all.files, AccountedFor d r p) := by
  obtain ⟨base, pattern, hbase, hparse, rfl⟩ := discover_eq_ok_iff.mp h
  have hd : target.discover t = .ok (Target.discoveryOf t (t.matching pattern)) :=
    discover_eq_ok_iff.mpr ⟨base, pattern, hbase, hparse, rfl⟩
  obtain ⟨r, hr, htells⟩ := migrate_of_discover hd dryRun
  refine ⟨_, r, hd, hr, ?_, fun p hp => htells.accountedFor_or_refuses hparse hp,
    fun hsearch p hp => ?_⟩
  · rw [htells.files, map_file_entries]
  · exact (htells.accountedFor_or_refuses hparse hp).resolve_right
      fun ⟨q, hrefused, _⟩ => hsearch.not_refuses q hrefused

/-! ## A project with one directory -/

namespace Project

def appName : FileName := ⟨Utf8.encode "app", by decide⟩

def libName : FileName := ⟨Utf8.encode "lib", by decide⟩

def featuresName : FileName := ⟨Utf8.encode "features", by decide⟩

def keptName : FileName := ⟨Utf8.encode "kept", by decide⟩

def features : Location := [appName, libName, featuresName]

def file : Entry := .file (Utf8.encode "onPressed: go") .full

/-- A project with a single source file, in a directory of its own. -/
def tree (access : Access) : FileTree where
  entries := [([appName], .directory .full), ([appName, libName], .directory .full),
    (features, .directory .full), (features ++ [keptName], .directory access),
    (features ++ [keptName, Sample.fileName], file)]
  workingDirectory := []
  unique := by
    show [[appName], [appName, libName], features, features ++ [keptName],
      features ++ [keptName, Sample.fileName]].Nodup
    decide

/-- The directory cannot be listed. -/
def unlisted : FileTree := tree ⟨false, true, true⟩

/-- The directory can be listed, but not searched. -/
def unsearched : FileTree := tree ⟨true, false, false⟩

def base : BaseSpelling where
  absolute := false
  components := ["app".toList, "lib".toList, "features".toList]
  ne_nil := List.cons_ne_nil _ _
  valid c hc := by
    simp only [List.mem_cons, List.not_mem_nil, or_false] at hc
    rcases hc with rfl | rfl | rfl <;> exact ⟨by decide, by decide, by decide⟩

def target : Target := .forRoot (.ofString "app")

def keptPath : Path := .ofString "app/lib/features/kept"

def filePath : Path := .ofString "app/lib/features/kept/a.dart"

theorem target_eq : target = ⟨.ofString "app", base.path, "dart"⟩ := by decide +kernel

theorem listed (access : Access) (way : List (List Char)) (c : List Char)
    (h : way ++ [c] <+: base.components) :
    ∃ es, (tree access).list (Path.upTo false way) = .ok es := by
  have hway : way = base.components.take way.length :=
    List.prefix_iff_eq_take.mp ((List.prefix_append way [c]).trans h)
  have hlength : way.length < 3 := by
    have := h.length_le
    rwa [List.length_append] at this
  have happ : Path.upTo false ["app".toList] = .ofString "app" := by decide +kernel
  have hlib : Path.upTo false ["app".toList, "lib".toList] = .ofString "app/lib" := by decide +kernel
  generalize way.length = n at hway hlength
  subst hway
  match n, hlength with
  | 0, _ => exact ⟨[(appName, .directory .full)], by show (tree access).list Path.here = _; cbv⟩
  | 1, _ =>
    refine ⟨[(libName, .directory .full)], ?_⟩
    show (tree access).list (Path.upTo false ["app".toList]) = _
    rw [happ]
    cbv
  | 2, _ =>
    refine ⟨[(featuresName, .directory .full)], ?_⟩
    show (tree access).list (Path.upTo false ["app".toList, "lib".toList]) = _
    rw [hlib]
    cbv

/-- What is discovered in the project is what is found below the directory. -/
theorem discover_tree (access : Access) :
    target.discover (tree access) = .ok (Target.discoveryOf (tree access)
      (((tree access).descend keptPath).flatMap (findsOf "dart".toList))) := by
  obtain ⟨isDirectory, hflag, hdiscover⟩ := @discover_eq (tree access) base (.ofString "app") "dart"
    isExtension_dart fun way c h _ => listed access way c h
  have hentered : isDirectory = true := hflag.mpr (.inl (by cbv))
  have hlist : (tree access).list base.path = .ok [(keptName, .directory access)] := by cbv
  have hchild : base.path.child keptName.bytes = keptPath := by decide +kernel
  have hname : findsOf "dart".toList (.entry ((tree access).entryPlace base.path
      (keptName, .directory access)) keptName) = [] := by cbv
  rw [target_eq, hdiscover, hentered, if_pos rfl, descend_eq, hlist]
  simp only [List.flatMap_cons, List.flatMap_nil, List.append_nil, hname, List.nil_append]
  show Except.ok (Target.discoveryOf _ (List.flatMap _ ((tree access).descend
    (base.path.child keptName.bytes)))) = _
  rw [hchild]

/-- What is discovered if the directory can be listed. -/
theorem discover_listed {access : Access} (hread : access.read = true) :
    target.discover (tree access) = .ok ⟨if access.search then [filePath] else [], []⟩ := by
  have hlist : (tree access).list keptPath = .ok [(Sample.fileName, file)] := by
    obtain ⟨read, write, search⟩ := access
    cases hread
    cbv
  have hfile : (tree access).isFile filePath = access.search := by
    obtain ⟨read, write, search⟩ := access
    cases search <;> cbv
  have hfinds : findsOf "dart".toList (.entry ((tree access).entryPlace keptPath
      (Sample.fileName, file)) Sample.fileName) = [.place ⟨filePath, false⟩] := by
    cbv
  have hplace : ((tree access).entryPlace keptPath (Sample.fileName, file)).isDirectory = false := rfl
  rw [discover_tree, descend_eq, hlist]
  simp only [List.flatMap_cons, List.flatMap_nil, List.append_nil, hplace, Bool.false_eq_true,
    if_false, hfinds]
  cases hsearch : access.search <;> simp [Target.discoveryOf, hfile, hsearch, Path.sort]

theorem discover_unlisted {access : Access} (hread : access.read = false) :
    target.discover (tree access) =
      .ok ⟨[], [(keptPath, Target.unreadableDirectory keptPath .permissionDenied)]⟩ := by
  have hlist : (tree access).list keptPath = .error .permissionDenied := by
    obtain ⟨read, write, search⟩ := access
    cases hread
    cbv
  rw [discover_tree, descend_eq, hlist]
  simp [findsOf, Target.discoveryOf, Path.sort]

theorem searchable_tree {access : Access} (hsearch : access.search = true) :
    (tree access).Searchable := by
  intro loc access' hget
  by_cases hloc : loc = []
  · subst hloc
    cases hget
    rfl
  · have hmem := (mem_entries_iff hloc).mpr hget
    simp only [tree, file, List.mem_cons, Prod.mk.injEq, Entry.directory.injEq, reduceCtorEq,
      and_false, List.not_mem_nil, or_false] at hmem
    rcases hmem with ⟨_, rfl⟩ | ⟨_, rfl⟩ | ⟨_, rfl⟩ | ⟨_, rfl⟩
    · rfl
    · rfl
    · rfl
    · exact hsearch

/-- A source file in a directory that cannot be listed is accounted for by the entry of the
directory. -/
theorem source_accounted_unlisted :
    ∃ all d r, target.discover unlisted.unlocked = .ok all ∧ filePath ∈ all.files ∧
      target.discover unlisted = .ok d ∧ d.files = [] ∧ (migrate unlisted target false).1 = .ok r ∧
      AccountedFor d r filePath := by
  have hall : target.discover unlisted.unlocked = .ok ⟨[filePath], []⟩ := @discover_listed .full rfl
  obtain ⟨d, r, hd, hr, _, _, haccounted⟩ := source_accounted unlisted target false hall
  have hfile : filePath ∈ [filePath] := List.mem_singleton.mpr rfl
  refine ⟨_, d, r, hall, hfile, hd, ?_, hr, haccounted (searchable_tree rfl) filePath hfile⟩
  have hnone := hd.symm.trans (discover_unlisted rfl)
  cases hnone
  rfl

/-- **A source file can be lost**: in a directory that can be listed but not searched, it has no entry,
and neither has anything above it. -/
theorem source_file_lost :
    ∃ all d r, target.discover unsearched.unlocked = .ok all ∧ filePath ∈ all.files ∧
      target.discover unsearched = .ok d ∧ (migrate unsearched target false).1 = .ok r ∧
      r.files = [] ∧ ¬ AccountedFor d r filePath := by
  have hall : target.discover unsearched.unlocked = .ok ⟨[filePath], []⟩ :=
    @discover_listed .full rfl
  have hd : target.discover unsearched = .ok ⟨[], []⟩ := discover_listed rfl
  obtain ⟨r, hr, htells⟩ := migrate_of_discover hd false
  have hnone : r.files = [] := htells.files
  refine ⟨_, _, r, hall, List.mem_singleton.mpr rfl, hd, hr, hnone, ?_⟩
  unfold AccountedFor
  rw [hnone, List.zip_nil_right]
  rintro (⟨e, hmem⟩ | ⟨q, e, hmem, _⟩)
  · cases hmem
  · cases hmem

end Project

end WidgetMigration
