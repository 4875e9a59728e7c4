import WidgetMigration.Proofs.Tree.Unlocked
import WidgetMigration.Proofs.Wildcard.Leads

/-!
# A walk with some access bits

What a walk finds in a tree with all access bits set, it finds in the tree as it is, unless it says
that something above cannot be listed, or the system refuses to follow the path or one above it
(`Hidden`). The walk does not say what was refused: to it, a path that cannot be followed looks like one
that leads to nothing.

A step of the walk with all access bits is a step of the walk as it is, or its end is hidden
(`onward_of_unlocked`). By induction along the steps this becomes the law of the walk along a pattern
(`mem_expand_of_unlocked`).
-/

namespace WidgetMigration.FileTree

open Wildcard

variable {t : FileTree}

/-- A path is hidden: it lies at or below one that is told to be unreadable, or one that the system
refuses to follow. -/
inductive Hidden (t : FileTree) (told : Path → FileError → Prop) (p : Path) : Prop where
  | unreadable {r : Path} {e : FileError} (h : told r e) (hcovers : r.Covers p)
  | refused {r : Path} (h : t.Refuses r) (hcovers : r.Covers p)

theorem Hidden.mono {told told' : Path → FileError → Prop} {p : Path} (h : t.Hidden told p)
    (hmono : ∀ r e, told r e → told' r e) : t.Hidden told' p := by
  cases h with
  | unreadable h hcovers => exact .unreadable (hmono _ _ h) hcovers
  | refused h hcovers => exact .refused h hcovers

/-! ## Below a directory -/

theorem entryPlace_unlocked (t : FileTree) (directory : Path) (name : FileName) (e : Entry) :
    t.entryPlace directory (name, e) = t.unlocked.entryPlace directory (name, e.unlocked) ∨
      t.Refuses (directory.child name.bytes) := by
  cases e with
  | file content access => exact .inl rfl
  | directory access => exact .inl rfl
  | link target =>
    rcases t.isDirectory_unlocked (directory.child name.bytes) with hsame | hrefused
    · exact .inl (congrArg (Place.mk (directory.child name.bytes)) hsame)
    · exact .inr hrefused

/-- **What is visited below a directory with all access bits** is visited, or it is hidden. -/
theorem mem_descend_of_unlocked {directory : Path} {q : Place} {name : FileName}
    (h : .entry q name ∈ t.unlocked.descend directory) :
    .entry q name ∈ t.descend directory ∨
      t.Hidden (fun r e => .unreadable r e ∈ t.descend directory) q.path := by
  induction directory using t.descend_induction with
  | step directory ih =>
    cases hlist : t.list directory with
    | error e =>
      have hvisit : .unreadable directory e ∈ t.descend directory := by
        rw [descend_eq, hlist]
        exact List.mem_singleton.mpr rfl
      exact .inr (.unreadable hvisit (covers_of_mem_descend h))
    | ok es =>
      obtain ⟨es', hlist', hnames⟩ := list_unlocked hlist
      obtain ⟨⟨name', e'⟩, hmem', hvisit⟩ := (mem_descend_of_ok hlist').mp h
      obtain ⟨e, hmem, rfl⟩ := (hnames name' e').mp hmem'
      rcases t.entryPlace_unlocked directory name' e with hsame | hrefused
      · rw [← hsame] at hvisit
        rcases hvisit with hhere | ⟨hdir, hbelow⟩
        · exact .inl ((mem_descend_of_ok hlist).mpr ⟨_, hmem, .inl hhere⟩)
        · rcases ih es hlist _ hmem hbelow with hvisit | hhidden
          · exact .inl ((mem_descend_of_ok hlist).mpr ⟨_, hmem, .inr ⟨hdir, hvisit⟩⟩)
          · exact .inr (hhidden.mono fun r e hvisit =>
              (mem_descend_of_ok hlist).mpr ⟨_, hmem, .inr ⟨hdir, hvisit⟩⟩)
      · rcases hvisit with hhere | ⟨_, hbelow⟩
        · cases hhere
          exact .inr (.refused hrefused .self)
        · exact .inr (.refused hrefused (covers_of_mem_descend hbelow))

/-! ## Along a pattern -/

theorem place_unlocked (t : FileTree) (p : Path) :
    (⟨p, t.isDirectory p⟩ : Place) = ⟨p, t.unlocked.isDirectory p⟩ ∨ t.Refuses p := by
  rcases t.isDirectory_unlocked p with hsame | hrefused
  · exact .inl (congrArg (Place.mk p) hsame)
  · exact .inr hrefused

/-- **A step of the walk with all access bits** is a step of the walk as it is, or its end is hidden. -/
theorem onward_of_unlocked {parts parts' : List Part} {p q : Place}
    (h : t.unlocked.Onward parts p parts' q) :
    t.Onward parts p parts' q ∨ t.Hidden (t.Blocked parts p) q.path := by
  cases h with
  | @literal name parts p q h =>
    obtain ⟨hthere, rfl⟩ := literalPlace?_eq_some_iff.mp h
    rcases t.place_unlocked (p.path.child (stepOf name)) with hsame | hrefused
    · by_cases hdot : stepOf name = dot ∨ stepOf name = dotDot
      · rw [if_pos hdot] at hthere
        refine .inl (.literal (literalPlace?_eq_some_iff.mpr ⟨?_, hsame.symm⟩))
        rwa [if_pos hdot]
      · rw [if_neg hdot] at hthere
        rcases isThere_of_unlocked hthere with hthere | hrefused
        · refine .inl (.literal (literalPlace?_eq_some_iff.mpr ⟨?_, hsame.symm⟩))
          rwa [if_neg hdot]
        · exact .inr (.refused hrefused .self)
    · exact .inr (.refused hrefused .self)
  | descend hdir hvisit haccepts =>
    rcases mem_descend_of_unlocked hvisit with hvisit | hhidden
    · exact .inl (.descend hdir hvisit haccepts)
    · exact .inr (hhidden.mono fun r e hvisit => .descend hdir hvisit)
  | descendLast hdir hvisit hq =>
    rcases mem_descend_of_unlocked hvisit with hvisit | hhidden
    · exact .inl (.descendLast hdir hvisit hq)
    · exact .inr (hhidden.mono fun r e hvisit => .descend hdir hvisit)
  | @listed tokens parts p es' entry hdir hlist' hmem' haccepts =>
    cases hlist : t.list p.path with
    | error e =>
      exact .inr (.unreadable (.list hdir hlist) (Path.Covers.self.child entry.1.slash_not_mem))
    | ok es =>
      obtain ⟨es'', hlist'', hnames⟩ := list_unlocked hlist
      rw [hlist'] at hlist''
      cases hlist''
      obtain ⟨name, e'⟩ := entry
      obtain ⟨e, hmem, rfl⟩ := (hnames name e').mp hmem'
      rcases t.entryPlace_unlocked p.path name e with hsame | hrefused
      · rw [← hsame]
        exact .inl (.listed hdir hlist hmem haccepts)
      · exact .inr (.refused hrefused .self)
  | @dotted tokens parts p q es' hdir hlist' hq =>
    cases hlist : t.list p.path with
    | error e => exact .inr (.unreadable (.list hdir hlist) (covers_of_mem_dotPlaces hq))
    | ok es =>
      obtain ⟨hleads, name, hname, haccepts, rfl⟩ := mem_dotPlaces_iff.mp hq
      rcases t.place_unlocked (p.path.join (Path.ofString name)) with hsame | hrefused
      · exact .inl (.dotted hdir hlist
          (mem_dotPlaces_iff.mpr ⟨hleads, name, hname, haccepts, hsame.symm⟩))
      · exact .inr (.refused hrefused .self)

/-- **What is found along a pattern with all access bits** is found, or it is hidden. -/
theorem mem_expand_of_unlocked {parts : List Part} (hparts : ∀ part ∈ parts, part.IsStep)
    {p q : Place} (h : t.unlocked.Leads parts p q) :
    .place q ∈ t.expand parts p ∨
      t.Hidden (fun r e => .unreadable r e ∈ t.expand parts p) q.path := by
  induction h with
  | done p =>
    rw [expand]
    exact .inl (List.mem_singleton.mpr rfl)
  | onward hstep hrest ih =>
    obtain ⟨_, hparts'⟩ := hstep.covers hparts
    rcases onward_of_unlocked hstep with hstep' | hhidden
    · rcases ih hparts' with hfound | hhidden
      · exact .inl (hstep'.subset hfound)
      · exact .inr (hhidden.mono fun r e hfind => hstep'.subset hfind)
    · have hcovers := hrest.covers hparts'
      cases hhidden with
      | unreadable h hr => exact .inr (.unreadable h.mem_expand (hr.trans hcovers))
      | refused h hr => exact .inr (.refused h (hr.trans hcovers))

end WidgetMigration.FileTree
