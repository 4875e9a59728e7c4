import Mathlib
import WidgetMigration.Proofs.Wildcard.Base

/-!
# What is found for a target

The files of a target and the directories that could not be listed, told by what the system says of
the paths below the base directory (`Finds`). `discover_finds` is the law of `discover`, for every
tree with its links, cycles of links and access bits: a file is found exactly once if each directory
from the base to it can be listed, and each directory that the walk comes to and cannot list is
reported exactly once. A directory on the way to the base that cannot be listed would be reported
too, so the law asks for those before the base.
-/

namespace WidgetMigration

open FileTree Wildcard WidgetMigration.Path

/-- A source file below a base directory: each directory from the base on can be listed, the last of
them has an entry whose name is a text that ends in a dot and the extension, and the path of the
entry leads to a regular file. -/
def IsSource (t : FileTree) (base : Path) (extension : List Char) (p : Path) : Prop :=
  ∃ names name text es e, (∀ before, before <+: names → ∃ es, t.list (base.below before) = .ok es) ∧
    t.list (base.below names) = .ok es ∧ (name, e) ∈ es ∧ Utf8.decode? name.bytes = some text ∧
    '.' :: extension <:+ text.toList ∧ p = base.below (names ++ [name]) ∧ t.isFile p = true

/-- A discovery has found what there is below a base. -/
structure Finds (t : FileTree) (b : BaseSpelling) (extension : List Char) (d : Discovery) : Prop where
  sorted : d.files.Pairwise fun p q => p.sortKey < q.sortKey
  files : ∀ p, p ∈ d.files ↔ IsSource t b.path extension p
  once : (d.unreadable.map Prod.fst).Nodup
  unreadable : ∀ p failure, (p, failure) ∈ d.unreadable ↔
    t.Entered b.absolute b.components ∧ ∃ names e, t.Descends b.path names ∧
      p = b.path.below names ∧ t.list p = .error e ∧ failure = Target.unreadableDirectory p e
  missing : t.lookup .follow b.path = .error .notFound → d = ⟨[], []⟩

/-! ## What a visit contributes -/

/-- The path of the source file that a visit has come upon. -/
def sourcePath? (t : FileTree) (extension : List Char) : Visit → Option Path
  | .entry place name =>
    if accepts (sourcePart extension) name && t.isFile place.path then some place.path else none
  | .unreadable .. => none

/-- The report of the directory that a visit could not list. -/
def unreadable? : Visit → Option (Path × Failure)
  | .entry .. => none
  | .unreadable path e => some (path, Target.unreadableDirectory path e)

/-- What the walk for source files finds with a visit. -/
def findsOf (extension : List Char) : Visit → List Find
  | .entry place name => if accepts (sourcePart extension) name then [.place place] else []
  | .unreadable path e => [.unreadable path e]

/-- A fold of what is found with each visit is a fold of the visits. -/
theorem filterMap_flatMap_eq {α β γ : Type} {f : β → Option γ} {g : α → List β} {k : α → Option γ}
    (h : ∀ a, (g a).filterMap f = (k a).toList) (l : List α) :
    (l.flatMap g).filterMap f = l.filterMap k := by
  rw [List.filterMap_flatMap, List.filterMap_eq_flatMap_toList]
  exact List.flatMap_congr fun a _ => h a

/-- What is discovered on a walk below a directory. -/
theorem discoveryOf_findsOf (t : FileTree) (extension : List Char) (visits : List Visit) :
    Target.discoveryOf t (visits.flatMap (findsOf extension)) =
      ⟨Path.sort (visits.filterMap (sourcePath? t extension)), visits.filterMap unreadable?⟩ := by
  unfold Target.discoveryOf
  congr 1
  · congr 1
    refine filterMap_flatMap_eq (fun v => ?_) visits
    cases v with
    | entry place name =>
      cases haccepts : accepts (sourcePart extension) name
      · simp [findsOf, sourcePath?, haccepts]
      · cases hfile : t.isFile place.path <;> simp [findsOf, sourcePath?, haccepts, hfile]
    | unreadable path e => rfl
  · refine filterMap_flatMap_eq (fun v => ?_) visits
    cases v with
    | entry place name => cases haccepts : accepts (sourcePart extension) name <;>
        simp [findsOf, unreadable?, haccepts]
    | unreadable path e => rfl

/-! ## The walk of a target -/

theorem expand_recursive (t : FileTree) (extension : List Char) (p : Path) (isDirectory : Bool) :
    t.expand [.recursive, sourcePart extension] ⟨p, isDirectory⟩ =
      if isDirectory then (t.descend p).flatMap (findsOf extension) else [] := by
  rw [expand]
  congr 2
  funext v
  cases v with
  | entry place name =>
    show (if accepts (sourcePart extension) name then t.expand [] place else []) = _
    rw [expand]
    rfl
  | unreadable path e => rfl

/-- The discovery of a target is that of the walk below its base, if this is a directory. -/
theorem discover_eq {t : FileTree} {b : BaseSpelling} (root : Path) {extension : String}
    (hextension : IsExtension extension.toList)
    (hlisted : ∀ way c, way ++ [c] <+: b.components → t.Entered b.absolute way →
      ∃ es, t.list (upTo b.absolute way) = .ok es) :
    ∃ isDirectory, (isDirectory = true ↔ t.Entered b.absolute b.components) ∧
      (⟨root, b.path, extension⟩ : Target).discover t =
        .ok (Target.discoveryOf t (if isDirectory then
          (t.descend b.path).flatMap (findsOf extension.toList) else [])) := by
  obtain ⟨isDirectory, hflag, hexpand⟩ := @expand_base t b.absolute [] b.components b.valid hlisted _
    entered_nil_iff.symm [sourcePart extension.toList]
  refine ⟨isDirectory, hflag, ?_⟩
  have htext : b.path.toString? = some b.text := Utf8.decode?_encode b.text
  have hmatching : t.matching ⟨b.absolute,
      b.components.map partOf ++ [.recursive, sourcePart extension.toList], false⟩ =
        if isDirectory then (t.descend b.path).flatMap (findsOf extension.toList) else [] := by
    rw [List.nil_append, ← b.path_eq_upTo, expand_recursive] at hexpand
    unfold matching
    rw [List.filter_eq_self.mpr]
    · exact hexpand
    · intro find _
      cases find <;> rfl
  unfold Target.discover
  simp only [htext, parse_pattern (text_ne_nil b) hextension, head?_text, baseParts_text, hmatching]

/-! ## What is found -/

variable {t : FileTree} {b : BaseSpelling} {extension : List Char}

theorem accepts_sourcePart_iff {name : FileName} :
    accepts (sourcePart extension) name = true ↔
      ∃ text, Utf8.decode? name.bytes = some text ∧ '.' :: extension <:+ text.toList := by
  unfold accepts
  cases Utf8.decode? name.bytes with
  | none => simp
  | some text => simp [accepts_sourcePart]

theorem sourcePath?_eq_some_iff {v : Visit} {p : Path} :
    sourcePath? t extension v = some p ↔
      ∃ place name, v = .entry place name ∧ accepts (sourcePart extension) name = true ∧
        t.isFile p = true ∧ p = place.path := by
  cases v with
  | entry place name =>
    simp only [sourcePath?, Visit.entry.injEq]
    constructor
    · intro h
      by_cases hboth : (accepts (sourcePart extension) name && t.isFile place.path) = true
      · rw [if_pos hboth] at h
        cases h
        obtain ⟨haccepts, hfile⟩ := Bool.and_eq_true_iff.mp hboth
        exact ⟨place, name, ⟨rfl, rfl⟩, haccepts, hfile, rfl⟩
      · rw [if_neg hboth] at h
        cases h
    · rintro ⟨_, _, ⟨rfl, rfl⟩, haccepts, hfile, rfl⟩
      exact if_pos (Bool.and_eq_true_iff.mpr ⟨haccepts, hfile⟩)
  | unreadable path e => simp [sourcePath?]

/-- **The files of a walk** are the source files below the directory where it begins. -/
theorem mem_filterMap_sourcePath?_iff {directory : Path} (hspelled : directory.Spelled) {p : Path} :
    p ∈ (t.descend directory).filterMap (sourcePath? t extension) ↔
      IsSource t directory extension p := by
  rw [List.mem_filterMap]
  constructor
  · rintro ⟨v, hv, hp⟩
    obtain ⟨place, name, rfl, haccepts, hfile, rfl⟩ := sourcePath?_eq_some_iff.mp hp
    obtain ⟨names, hnames, es, e, hlist, hmem, rfl⟩ := mem_descend_iff.mp hv
    obtain ⟨text, htext, hsuffix⟩ := accepts_sourcePart_iff.mp haccepts
    exact ⟨names, name, text, es, e, (descends_and_list_iff hspelled).mp ⟨hnames, es, hlist⟩, hlist,
      hmem, htext, hsuffix, (Path.below_append_singleton directory names name).symm, hfile⟩
  · rintro ⟨names, name, text, es, e, hway, hlist, hmem, htext, hsuffix, rfl, hfile⟩
    obtain ⟨hnames, _⟩ := (descends_and_list_iff hspelled).mpr hway
    refine ⟨.entry (t.entryPlace (directory.below names) (name, e)) name,
      mem_descend_iff.mpr ⟨names, hnames, es, e, hlist, hmem, rfl⟩, ?_⟩
    refine sourcePath?_eq_some_iff.mpr ⟨_, name, rfl,
      accepts_sourcePart_iff.mpr ⟨text, htext, hsuffix⟩, hfile, ?_⟩
    exact Path.below_append_singleton directory names name

theorem mem_filterMap_unreadable?_iff {directory : Path} {p : Path} {failure : Failure} :
    (p, failure) ∈ (t.descend directory).filterMap unreadable? ↔
      ∃ names e, t.Descends directory names ∧ p = directory.below names ∧ t.list p = .error e ∧
        failure = Target.unreadableDirectory p e := by
  rw [List.mem_filterMap]
  constructor
  · rintro ⟨v, hv, hp⟩
    cases v with
    | entry place name => cases hp
    | unreadable path e =>
      cases hp
      obtain ⟨names, hnames, rfl, hlist⟩ := mem_descend_iff.mp hv
      exact ⟨names, e, hnames, rfl, hlist, rfl⟩
  · rintro ⟨names, e, hnames, rfl, hlist, rfl⟩
    exact ⟨.unreadable _ e, mem_descend_iff.mpr ⟨names, hnames, rfl, hlist⟩, rfl⟩

/-- The paths of the files on a walk all compare differently. -/
theorem pairwise_filterMap_sourcePath? {directory : Path} (hspelled : directory.Spelled) :
    ((t.descend directory).filterMap (sourcePath? t extension)).Pairwise
      fun p q => p.sortKey ≠ q.sortKey := by
  refine List.pairwise_filterMap.mpr ((pairwise_descend hspelled).imp_of_mem ?_)
  intro v w hv hw hne p hp q hq hkey
  obtain ⟨_, _, rfl, _, _, rfl⟩ := sourcePath?_eq_some_iff.mp hp
  obtain ⟨_, _, rfl, _, _, rfl⟩ := sourcePath?_eq_some_iff.mp hq
  obtain ⟨names, hpath, _⟩ := key_of_mem_descend hv
  obtain ⟨names', hpath', _⟩ := key_of_mem_descend hw
  have hnames : names = names' := hspelled.sortKey_below_inj (by rwa [← hpath, ← hpath'])
  refine hne (Prod.ext rfl ?_)
  rw [hpath, hpath', hnames]

theorem nodup_filterMap_unreadable? {directory : Path} (hspelled : directory.Spelled) :
    (((t.descend directory).filterMap unreadable?).map Prod.fst).Nodup := by
  rw [List.Nodup, List.pairwise_map]
  refine List.pairwise_filterMap.mpr ((pairwise_descend hspelled).imp ?_)
  intro v w hne p hp q hq heq
  cases v with
  | entry place name => cases hp
  | unreadable path e =>
    cases w with
    | entry place name => cases hq
    | unreadable path' e' =>
      cases hp
      cases hq
      exact hne (Prod.ext rfl heq)

/-- A source file lies below a directory that can be listed. -/
theorem IsSource.list_base {base p : Path} (h : IsSource t base extension p) :
    ∃ es, t.list base = .ok es := by
  obtain ⟨names, _, _, _, _, hway, _⟩ := h
  exact hway [] List.nil_prefix

/-- Nothing is found if the walk does not come to the base. -/
theorem finds_nothing (h : ¬ t.Entered b.absolute b.components) :
    Finds t b extension ⟨[], []⟩ where
  sorted := List.Pairwise.nil
  files p := by
    refine ⟨fun hmem => absurd hmem List.not_mem_nil, fun hsource => ?_⟩
    obtain ⟨es, hlist⟩ := hsource.list_base
    rw [b.path_eq_upTo] at hlist
    exact absurd (.inl (isDirectory_of_list hlist)) h
  once := List.nodup_nil
  unreadable _ _ := ⟨fun hmem => absurd hmem List.not_mem_nil, fun hfound => absurd hfound.1 h⟩
  missing _ := rfl

/-- What is found if the walk comes to the base. -/
theorem finds_descend (h : t.Entered b.absolute b.components) :
    Finds t b extension ⟨Path.sort ((t.descend b.path).filterMap (sourcePath? t extension)),
      (t.descend b.path).filterMap unreadable?⟩ := by
  have hspelled : b.path.Spelled := by
    rw [b.path_eq_upTo]
    exact spelled_upTo b.ne_nil b.valid
  exact {
    sorted := pairwise_sort (pairwise_filterMap_sourcePath? hspelled)
    files := fun p => List.mem_mergeSort.trans (mem_filterMap_sourcePath?_iff hspelled)
    once := nodup_filterMap_unreadable? hspelled
    unreadable := fun p failure => mem_filterMap_unreadable?_iff.trans (and_iff_right h).symm
    missing := fun hmissing => by
      rw [b.path_eq_upTo] at hmissing
      exact absurd h (not_entered_of_notFound b.valid hmissing) }

/-- **Discovery finds what there is**, once and in order, for every plainly spelled base directory
whose directories on the way can be listed. -/
theorem discover_finds (t : FileTree) (root : Path) (b : BaseSpelling) {extension : String}
    (hextension : IsExtension extension.toList)
    (hlisted : ∀ way c, way ++ [c] <+: b.components → t.Entered b.absolute way →
      ∃ es, t.list (upTo b.absolute way) = .ok es) :
    ∃ d, (⟨root, b.path, extension⟩ : Target).discover t = .ok d ∧
      Finds t b extension.toList d := by
  obtain ⟨isDirectory, hflag, hdiscover⟩ := discover_eq root hextension hlisted
  refine ⟨_, hdiscover, ?_⟩
  cases isDirectory with
  | true =>
    rw [if_pos rfl, discoveryOf_findsOf]
    exact finds_descend (hflag.mp rfl)
  | false =>
    have hnothing : Target.discoveryOf t [] = ⟨[], []⟩ := by
      simp [Target.discoveryOf, Path.sort]
    rw [if_neg Bool.false_ne_true, hnothing]
    exact finds_nothing fun h => absurd (hflag.mpr h) Bool.false_ne_true

/-! ## A small tree -/

namespace Sample

def directoryName : FileName := ⟨Utf8.encode "[d]", by decide⟩

def fileName : FileName := ⟨Utf8.encode "a.dart", by decide⟩

def linkName : FileName := ⟨Utf8.encode "b.dart", by decide⟩

def lockedName : FileName := ⟨Utf8.encode "c", by decide⟩

/-- A directory whose name means something in a pattern, with a file, a link to the file, and a
directory that cannot be listed. -/
def tree : FileTree where
  entries := [([directoryName], .directory .full),
    ([directoryName, fileName], .file (Utf8.encode "onPressed:") .full),
    ([directoryName, linkName], .link (Utf8.encode "a.dart")),
    ([directoryName, lockedName], .directory ⟨false, true, true⟩)]
  workingDirectory := []
  unique := by decide

/-- The directory of the small tree. -/
def base : BaseSpelling where
  absolute := false
  components := ["[d]".toList]
  ne_nil := List.cons_ne_nil _ _
  valid c hc := by
    rw [List.mem_singleton.mp hc]
    exact ⟨by decide, by decide, by decide⟩

def target : Target := ⟨here, base.path, "dart"⟩

/-- What is found in the small tree. -/
def discovery : Discovery where
  files := [.ofString "[d]/a.dart", .ofString "[d]/b.dart"]
  unreadable := [(.ofString "[d]/c",
    Target.unreadableDirectory (.ofString "[d]/c") .permissionDenied)]

theorem prefix_base {way : List (List Char)} {c : List Char} (h : way ++ [c] <+: base.components) :
    way = [] := by
  have hlength := h.length_le
  simp only [List.length_append, List.length_cons, List.length_nil, base] at hlength
  exact List.length_eq_zero_iff.mp (by omega)

theorem listed (way : List (List Char)) (c : List Char) (h : way ++ [c] <+: base.components) :
    ∃ es, tree.list (upTo false way) = .ok es := by
  rw [prefix_base h]
  exact ⟨[(directoryName, .directory .full)], by cbv⟩

theorem descend_base : tree.descend base.path =
    [.entry ⟨.ofString "[d]/a.dart", false⟩ fileName,
      .entry ⟨.ofString "[d]/b.dart", false⟩ linkName,
      .entry ⟨.ofString "[d]/c", true⟩ lockedName,
      .unreadable (.ofString "[d]/c") .permissionDenied] := by
  have hlist : tree.list base.path = .ok [(fileName, .file (Utf8.encode "onPressed:") .full),
      (linkName, .link (Utf8.encode "a.dart")), (lockedName, .directory ⟨false, true, true⟩)] := by
    cbv
  have hlink : tree.entryPlace base.path (linkName, .link (Utf8.encode "a.dart")) =
      ⟨.ofString "[d]/b.dart", false⟩ := by
    cbv
  have hlocked : tree.descend (.ofString "[d]/c") =
      [.unreadable (.ofString "[d]/c") .permissionDenied] := by
    have herror : tree.list (.ofString "[d]/c") = .error .permissionDenied := by cbv
    rw [descend_eq, herror]
  have hchild : base.path.child lockedName.bytes = .ofString "[d]/c" := by cbv
  rw [descend_eq, hlist]
  simp only [List.flatMap_cons, List.flatMap_nil, hlink, Bool.false_eq_true, if_false, hchild,
    hlocked]
  rfl

theorem discover_tree : target.discover tree = .ok discovery := by
  obtain ⟨isDirectory, hflag, hdiscover⟩ := discover_eq here isExtension_dart
    fun way c h _ => listed way c h
  have hentered : isDirectory = true := hflag.mpr (.inl (by cbv))
  rw [target, hdiscover, hentered, if_pos rfl, descend_base]
  cbv

/-- The law of discovery in the small tree. -/
theorem discover_finds_tree :
    target.discover tree = .ok discovery ∧ Finds tree base "dart".toList discovery := by
  obtain ⟨d, hdiscover, hfinds⟩ := discover_finds tree here base isExtension_dart
    fun way c h _ => listed way c h
  change target.discover tree = .ok d at hdiscover
  rw [discover_tree] at hdiscover
  cases hdiscover
  exact ⟨discover_tree, hfinds⟩

/-- Two files in the directory. The first one is given. -/
def pair (content : Bytes) (access : Access) : FileTree where
  entries := [([directoryName], .directory .full),
    ([directoryName, fileName], .file content access),
    ([directoryName, linkName], .file (Utf8.encode "onPressed:") .full)]
  workingDirectory := []
  unique := by
    show [[directoryName], [directoryName, fileName], [directoryName, linkName]].Nodup
    decide

/-- Both files are found, whatever the first one is. -/
theorem discover_pair (content : Bytes) (access : Access) :
    target.discover (pair content access) =
      .ok ⟨[.ofString "[d]/a.dart", .ofString "[d]/b.dart"], []⟩ := by
  have hlisted : ∀ way c, way ++ [c] <+: base.components →
      ∃ es, (pair content access).list (Path.upTo false way) = .ok es := by
    intro way c h
    rw [prefix_base h]
    exact ⟨[(directoryName, .directory .full)], by cbv⟩
  obtain ⟨isDirectory, hflag, hdiscover⟩ := discover_eq Path.here isExtension_dart
    fun way c h _ => hlisted way c h
  have hentered : isDirectory = true := hflag.mpr (.inl (by cbv))
  have hlist : (pair content access).list base.path = .ok [(fileName, .file content access),
      (linkName, .file (Utf8.encode "onPressed:") .full)] := by
    cbv
  rw [target, hdiscover, hentered, if_pos rfl, descend_eq, hlist]
  cbv

end Sample

end WidgetMigration
