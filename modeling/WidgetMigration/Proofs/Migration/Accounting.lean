import WidgetMigration.Proofs.Migration.Effect
import WidgetMigration.Proofs.Migration.Entries
import WidgetMigration.Proofs.Rule.Hits

/-!
# What a report adds up to

The entries of a report, in their order and number, and its four numbers, told by what was discovered
and by the turns of the files (`Accounts`). The law is `migrate_accounts`.

That no change is lost between the rules and the report rests on one fact about a turn
(`changes_entryOf`): the entry of a file tells of as many changes as the rules made in its text, and of
none if the file could not be processed. An entry that says unchanged stands for a text in which
nothing was counted.
-/

namespace WidgetMigration

open FileTree Wildcard

/-- The text of a file that is processed in its turn without an error. -/
def processedText? (dryRun : Bool) (turn : Path × FileTree) : Option String :=
  match (migrateFile turn.2 dryRun turn.1).1 with
  | .error _ => none
  | .ok _ => (turn.2.read turn.1).toOption

/-- A report accounts for a migration: what was discovered on the walk, one entry after the other, and
what the rules did. -/
structure Accounts (t : FileTree) (target : Target) (dryRun : Bool) (d : Discovery) (r : Report) :
    Prop where
  walk : ∃ base pattern, target.baseDir.toString? = some base ∧
    Pattern.parse (Target.pattern base target.extension) = .ok pattern ∧
    d.unreadable.map Prod.fst = (t.matching pattern).filterMap Find.unreadablePath? ∧
    d.files.Perm ((t.matching pattern).filterMap t.foundFile?)
  sorted : d.files.Pairwise fun p q => p.le q = true
  once : (turns dryRun d.files t).map Prod.fst = d.files
  entries : r.files = d.unreadable.map target.entryOfUnreadable ++
    (turns dryRun d.files t).map (target.entryOf dryRun)
  filesFound : r.filesFound = d.files.length
  filesModified : r.filesModified = r.files.countP fun f => f.outcome.isModified
  filesModified_le : r.filesModified ≤ r.filesFound
  filesFailed : r.filesFailed = r.files.countP fun f => f.outcome.isFailed
  totalChanges : r.totalChanges = (r.files.map fun f => f.outcome.changes).sum
  processed : ∀ turn ∈ turns dryRun d.files t, ∀ change,
    (migrateFile turn.2 dryRun turn.1).1 = .ok change → ∃ text, processedText? dryRun turn = some text
  totalProcessed : r.totalChanges =
    (((turns dryRun d.files t).filterMap (processedText? dryRun)).map
      fun text => (applyAll text).total).sum
  itemized : ∀ file changes hits, ⟨file, .modified changes hits⟩ ∈ r.files → Itemized changes hits

/-! ## One turn -/

section

variable (target : Target) (dryRun : Bool) (turn : Path × FileTree)

/-- The three ways in which the turn of a file ends. -/
theorem turn_cases :
    (∃ f, (migrateFile turn.2 dryRun turn.1).1 = .error f ∧ processedText? dryRun turn = none) ∨
    ∃ text change, (migrateFile turn.2 dryRun turn.1).1 = .ok change ∧
      processedText? dryRun turn = some text ∧
        ((applyAll text).content = text ∧ change.outcome = .unchanged ∨
          (applyAll text).content ≠ text ∧
            change.outcome = .modified (applyAll text).total (applyAll text).hits) := by
  unfold processedText?
  rcases migrateFile_cases turn.2 dryRun turn.1 with
    ⟨e, _, h⟩ | ⟨text, hread, ⟨hsame, h⟩ | ⟨hdiff, t', _, h⟩ | ⟨_, _, e, _, h⟩⟩
  · rw [h]
    exact .inl ⟨_, rfl, rfl⟩
  · rw [h, hread]
    exact .inr ⟨text, _, rfl, rfl, .inl ⟨hsame, rfl⟩⟩
  · rw [h, hread]
    exact .inr ⟨text, _, rfl, rfl, .inr ⟨hdiff, rfl⟩⟩
  · rw [h]
    exact .inl ⟨_, rfl, rfl⟩

theorem exists_processedText {change : FileChange}
    (h : (migrateFile turn.2 dryRun turn.1).1 = .ok change) :
    ∃ text, processedText? dryRun turn = some text := by
  rcases turn_cases dryRun turn with ⟨f, herror, _⟩ | ⟨text, _, _, htext, _⟩
  · rw [h] at herror
    cases herror
  · exact ⟨text, htext⟩

/-- **No change is lost**: an entry tells of what the rules did, if the file was processed. -/
theorem changes_entryOf :
    (target.entryOf dryRun turn).outcome.changes =
      ((processedText? dryRun turn).map fun text => (applyAll text).total).getD 0 := by
  unfold Target.entryOf
  rcases turn_cases dryRun turn with
    ⟨f, hresult, htext⟩ | ⟨text, change, hresult, htext, ⟨hsame, h⟩ | ⟨_, h⟩⟩
  · rw [hresult, htext]
    rfl
  · rw [hresult, htext]
    show change.outcome.changes = _
    rw [h]
    exact ((total_applyRules_eq_zero_iff Rule.all text).mpr hsame).symm
  · rw [hresult, htext]
    show change.outcome.changes = _
    rw [h]
    rfl

theorem itemized_entryOf {changes : Nat} {hits : List RuleHit}
    (h : (target.entryOf dryRun turn).outcome = .modified changes hits) : Itemized changes hits := by
  unfold Target.entryOf at h
  rcases turn_cases dryRun turn with
    ⟨f, hresult, _⟩ | ⟨text, change, hresult, _, ⟨_, h'⟩ | ⟨hdiff, h'⟩⟩
  · rw [hresult] at h
    cases h
  · rw [hresult] at h
    cases h'.symm.trans h
  · rw [hresult] at h
    cases h'.symm.trans h
    exact itemized_applyAll hdiff

end

/-- A sum over what a partial function gives is the sum with nothing in the gaps. -/
theorem sum_filterMap {α β : Type} (f : α → Option β) (g : β → Nat) (l : List α) :
    ((l.filterMap f).map g).sum = (l.map fun a => ((f a).map g).getD 0).sum := by
  induction l with
  | nil => rfl
  | cons a l ih =>
    rw [List.map_cons, List.sum_cons, ← ih]
    cases h : f a with
    | none => rw [List.filterMap_cons_none h, Option.map_none, Option.getD_none, Nat.zero_add]
    | some b =>
      rw [List.filterMap_cons_some h, List.map_cons, List.sum_cons, Option.map_some,
        Option.getD_some]

/-! ## The whole report -/

section

variable {target : Target} {dryRun : Bool} {t : FileTree}

/-- Only entries of files can tell of a modification. -/
theorem countP_isModified_le (target : Target) (t : FileTree) (dryRun : Bool) (d : Discovery) :
    (target.entries t dryRun d).countP (fun f => f.outcome.isModified) ≤ d.files.length := by
  have hunreadable :
      (d.unreadable.map target.entryOfUnreadable).countP (fun f => f.outcome.isModified) = 0 := by
    rw [List.countP_map, List.countP_eq_zero]
    exact fun _ _ => Bool.false_ne_true
  have hlength := congrArg List.length (map_fst_turns dryRun d.files t)
  rw [List.length_map] at hlength
  rw [Target.entries, List.countP_append, hunreadable, Nat.zero_add, ← hlength]
  exact List.countP_le_length.trans_eq (List.length_map _)

/-- **The changes that the entries tell of** are those that the rules made. -/
theorem sum_changes_entries (target : Target) (t : FileTree) (dryRun : Bool) (d : Discovery) :
    ((target.entries t dryRun d).map fun f => f.outcome.changes).sum =
      (((turns dryRun d.files t).filterMap (processedText? dryRun)).map
        fun text => (applyAll text).total).sum := by
  have hunreadable :
      ((d.unreadable.map target.entryOfUnreadable).map fun f => f.outcome.changes).sum = 0 := by
    rw [List.map_map]
    exact List.sum_map_zero
  rw [sum_filterMap, Target.entries, List.map_append, List.sum_append, hunreadable, Nat.zero_add,
    List.map_map]
  exact congrArg List.sum (List.map_congr_left fun turn _ => changes_entryOf target dryRun turn)

/-- Only the turn of a file can end in a modification. -/
theorem itemized_of_mem_entries {d : Discovery} {file : String} {changes : Nat}
    {hits : List RuleHit} (h : ⟨file, .modified changes hits⟩ ∈ target.entries t dryRun d) :
    Itemized changes hits := by
  rcases List.mem_append.mp h with hmem | hmem
  · obtain ⟨_, _, heq⟩ := List.mem_map.mp hmem
    cases heq
  · obtain ⟨turn, _, heq⟩ := List.mem_map.mp hmem
    exact itemized_entryOf target dryRun turn (congrArg FileReport.outcome heq)

/-- **A report accounts for the migration**, for every tree and every target. -/
theorem migrate_accounts {r : Report} (h : (migrate t target dryRun).1 = .ok r) :
    ∃ d, target.discover t = .ok d ∧ Accounts t target dryRun d r := by
  obtain ⟨d, hd, htells⟩ := discover_of_migrate h
  refine ⟨d, hd, ?_⟩
  obtain ⟨base, pattern, hbase, hparse, rfl⟩ := discover_eq_ok_iff.mp hd
  exact {
    walk := ⟨base, pattern, hbase, hparse, paths_unreadable_discoveryOf t _,
      List.mergeSort_perm _ Path.le⟩
    sorted := Path.pairwise_le_sort _
    once := map_fst_turns _ _ _
    entries := htells.files
    filesFound := htells.filesFound
    filesModified := htells.balanced.filesModified
    filesModified_le := by
      rw [htells.balanced.filesModified, htells.files, htells.filesFound]
      exact countP_isModified_le _ _ _ _
    filesFailed := htells.balanced.filesFailed
    totalChanges := htells.balanced.totalChanges
    processed := fun turn _ change => exists_processedText dryRun turn
    totalProcessed := by rw [htells.balanced.totalChanges, htells.files, sum_changes_entries]
    itemized := fun file changes hits hmem => itemized_of_mem_entries (htells.files ▸ hmem) }

end

/-! ## The small tree -/

namespace Sample

/-- The entries of the report on the small tree. -/
def entries : List FileReport :=
  [⟨"[d]/c", .failed "IO error (list [d]/c): Permission denied (os error 13)"⟩,
    ⟨"[d]/a.dart", .modified 1 [⟨"onpressed-rename", 1⟩]⟩, ⟨"[d]/b.dart", .unchanged⟩]

theorem entries_tree : target.entries tree false discovery = entries := by
  have hread : tree.read (.ofString "[d]/a.dart") = .ok "onPressed:" := by cbv
  obtain ⟨hcontent, htotal, hhits⟩ := applyAll_onPressed
  have hagain : (applyAll "onPress:").content = "onPress:" := by decide +kernel
  have hne : "onPress:" ≠ "onPressed:" := by decide
  obtain ⟨t', hwrite, hread'⟩ : ∃ t', tree.write? (.ofString "[d]/a.dart") "onPress:" = .ok t' ∧
      t'.read (.ofString "[d]/b.dart") = .ok "onPress:" :=
    ⟨tree.set [directoryName, fileName] (.file (Utf8.encode "onPress:") .full), by cbv, by cbv⟩
  have hfirst : migrateFile tree false (.ofString "[d]/a.dart") =
      (.ok ⟨1, [⟨"onpressed-rename", 1⟩], true⟩, t') := by
    simp only [migrateFile, readText, hread, hcontent, hne, writeText, hwrite, htotal, hhits,
      Bool.false_eq_true, if_false]
  have hsecond : FileOutcome.ofResult (migrateFile t' false (.ofString "[d]/b.dart")).1 =
      .unchanged := by
    simp only [migrateFile, readText, hread', hagain, if_true]
    rfl
  have hnames : discovery.paths.map target.nameOf = ["[d]/c", "[d]/a.dart", "[d]/b.dart"] := by cbv
  obtain ⟨hc, ha, hb⟩ : target.nameOf (.ofString "[d]/c") = "[d]/c" ∧
      target.nameOf (.ofString "[d]/a.dart") = "[d]/a.dart" ∧
      target.nameOf (.ofString "[d]/b.dart") = "[d]/b.dart" := by
    simpa [discovery, Discovery.paths] using hnames
  have hmessage : (Target.unreadableDirectory (.ofString "[d]/c") .permissionDenied).message =
      "IO error (list [d]/c): Permission denied (os error 13)" := by
    decide +kernel
  simp only [Target.entries, discovery, turns, hfirst, List.map_cons, List.map_nil, Target.entryOf,
    hsecond, Target.entryOfUnreadable, hc, ha, hb, hmessage]
  rfl

end Sample

/-- The report on the small tree: the directory that cannot be listed comes first, the changes of the
file are counted where the first of two paths leads to it, and the second finds nothing to do. -/
theorem migrate_accounts_sample :
    ∃ r, (migrate Sample.tree Sample.target false).1 = .ok r ∧ r.files = Sample.entries ∧
      (r.filesFound, r.filesModified, r.filesFailed, r.totalChanges) = (2, 1, 1, 1) ∧
      ∃ d, Sample.target.discover Sample.tree = .ok d ∧
        Accounts Sample.tree Sample.target false d r := by
  have hrun := migrate_eq_ok_iff.mpr ⟨Sample.discovery, Sample.discover_tree,
    congrArg (Report.recordAll ((Report.start Sample.target.baseDir.display false).found 2))
      Sample.entries_tree.symm⟩
  exact ⟨_, hrun, rfl, rfl, migrate_accounts hrun⟩

end WidgetMigration
