import WidgetMigration.Proofs.Path.Spelling
import WidgetMigration.Proofs.Wildcard.Descent
import WidgetMigration.Proofs.Wildcard.Literals

/-!
# Walking along a pattern, part by part

`FileTree.expand` walks along the parts of a pattern in one recursion. Here a single step of it is told
as a relation: `Onward` says to which places the first parts lead from a place, `Blocked` what they
cannot list there. The walk finds what is behind a step (`Onward.subset`) and what blocks one
(`Blocked.mem_expand`), and no place but those that steps lead to (`leads_of_mem_expand`). So a law of
the steps becomes a law of the walk by induction on `Leads`.

Everything that is found lies below the place where the walk begins (`Leads.covers`).
-/

namespace WidgetMigration.FileTree

open Wildcard

variable {t : FileTree}

/-- A part without wildcards leads to a child, if it is there. -/
theorem literalPlace?_eq_some_iff {p q : Place} {name : List Char} :
    t.literalPlace? p name = some q ↔
      (if stepOf name = dot ∨ stepOf name = dotDot then p.isDirectory
        else t.isThere (p.path.child (stepOf name))) = true ∧
      q = ⟨p.path.child (stepOf name), t.isDirectory (p.path.child (stepOf name))⟩ := by
  show (if _ then some _ else none) = some q ↔ _
  rw [Option.ite_none_right_eq_some]
  exact and_congr_right fun _ => ⟨fun h => (Option.some.inj h).symm, fun h => congrArg some h.symm⟩

/-- A part with wildcards leads to a dot name, if it accepts the name. -/
theorem mem_dotPlaces_iff {p q : Place} {part : Part} :
    q ∈ t.dotPlaces p part ↔
      part.leadsWithDot = true ∧ ∃ name ∈ ["..", "."], part.accepts name.toList = true ∧
        q = ⟨p.path.join (Path.ofString name), t.isDirectory (p.path.join (Path.ofString name))⟩ := by
  unfold dotPlaces
  rw [List.mem_ite_nil_right, List.mem_map]
  refine and_congr_right fun _ => exists_congr fun name => ?_
  rw [List.mem_filter, and_assoc]
  exact and_congr_right fun _ => and_congr_right fun _ => eq_comm

/-- One step of the walk: the first parts lead from a place to another, and the others remain. A
recursive part goes down to any depth and takes the part behind it along. -/
inductive Onward (t : FileTree) : List Part → Place → List Part → Place → Prop where
  | literal {name : List Char} {parts : List Part} {p q : Place}
      (h : t.literalPlace? p name = some q) : Onward t (.literal name :: parts) p parts q
  | descend {part : Part} {parts : List Part} {p q : Place} {name : FileName}
      (hdir : p.isDirectory = true) (hvisit : .entry q name ∈ t.descend p.path)
      (haccepts : accepts part name = true) : Onward t (.recursive :: part :: parts) p parts q
  | descendLast {p q : Place} {name : FileName} (hdir : p.isDirectory = true)
      (hvisit : .entry q name ∈ t.descend p.path) (hq : q.isDirectory = true) :
      Onward t [.recursive] p [] q
  | listed {tokens : List Token} {parts : List Part} {p : Place} {es : List (FileName × Entry)}
      {entry : FileName × Entry} (hdir : p.isDirectory = true) (hlist : t.list p.path = .ok es)
      (hmem : entry ∈ es) (haccepts : accepts (.wildcard tokens) entry.1 = true) :
      Onward t (.wildcard tokens :: parts) p parts (t.entryPlace p.path entry)
  | dotted {tokens : List Token} {parts : List Part} {p q : Place} {es : List (FileName × Entry)}
      (hdir : p.isDirectory = true) (hlist : t.list p.path = .ok es)
      (hq : q ∈ t.dotPlaces p (.wildcard tokens)) : Onward t (.wildcard tokens :: parts) p parts q

/-- The first part of a pattern has to list a directory, and cannot. -/
inductive Blocked (t : FileTree) : List Part → Place → Path → FileError → Prop where
  | descend {parts : List Part} {p : Place} {r : Path} {e : FileError}
      (hdir : p.isDirectory = true) (hvisit : .unreadable r e ∈ t.descend p.path) :
      Blocked t (.recursive :: parts) p r e
  | list {tokens : List Token} {parts : List Part} {p : Place} {e : FileError}
      (hdir : p.isDirectory = true) (hlist : t.list p.path = .error e) :
      Blocked t (.wildcard tokens :: parts) p p.path e

/-- What is found behind a step is found. -/
theorem Onward.subset {parts parts' : List Part} {p q : Place} (h : t.Onward parts p parts' q) :
    t.expand parts' q ⊆ t.expand parts p := by
  intro find hfind
  cases h with
  | literal h =>
    rw [expand, h]
    exact hfind
  | descend hdir hvisit haccepts =>
    rw [expand, if_pos hdir]
    exact List.mem_flatMap.mpr ⟨_, hvisit, by simpa only [haccepts, if_true] using hfind⟩
  | descendLast hdir hvisit hq =>
    rw [expand, List.mem_singleton] at hfind
    rw [expand, if_pos hdir]
    refine List.mem_flatMap.mpr ⟨_, hvisit, ?_⟩
    simp only [hq, if_true, hfind, List.mem_singleton]
  | @listed tokens parts p es entry hdir hlist hmem haccepts =>
    rw [expand, if_pos hdir]
    simp only [hlist]
    refine List.mem_append_right _ (List.mem_flatMap.mpr ⟨entry, hmem, ?_⟩)
    rwa [if_pos haccepts]
  | dotted hdir hlist hq =>
    rw [expand, if_pos hdir]
    simp only [hlist]
    exact List.mem_append_left _ (List.mem_flatMap.mpr ⟨q, hq, hfind⟩)

theorem Blocked.mem_expand {parts : List Part} {p : Place} {r : Path} {e : FileError}
    (h : t.Blocked parts p r e) : .unreadable r e ∈ t.expand parts p := by
  cases h with
  | descend hdir hvisit =>
    rw [expand, if_pos hdir]
    exact List.mem_flatMap.mpr ⟨_, hvisit, List.mem_singleton.mpr rfl⟩
  | list hdir hlist =>
    rw [expand, if_pos hdir]
    simp only [hlist, List.mem_singleton]

/-- What is found behind some parts is found behind a step. -/
theorem onward_of_mem_expand {part : Part} {parts : List Part} {p q : Place}
    (h : .place q ∈ t.expand (part :: parts) p) :
    ∃ parts' p', parts'.length ≤ parts.length ∧ t.Onward (part :: parts) p parts' p' ∧
      .place q ∈ t.expand parts' p' := by
  cases part with
  | literal name =>
    rw [expand] at h
    cases hplace : t.literalPlace? p name with
    | none =>
      rw [hplace] at h
      cases h
    | some p' =>
      rw [hplace] at h
      exact ⟨parts, p', Nat.le_refl _, .literal hplace, h⟩
  | recursive =>
    rw [expand] at h
    obtain ⟨hdir, h⟩ := List.mem_ite_nil_right.mp h
    obtain ⟨visit, hvisit, hfind⟩ := List.mem_flatMap.mp h
    cases visit with
    | unreadable r e => cases List.mem_singleton.mp hfind
    | entry p' name =>
      cases parts with
      | nil =>
        obtain ⟨hp', hfind⟩ := List.mem_ite_nil_right.mp hfind
        exact ⟨[], p', Nat.le_refl _, .descendLast hdir hvisit hp', by rwa [expand]⟩
      | cons part parts =>
        obtain ⟨haccepts, hfind⟩ := List.mem_ite_nil_right.mp hfind
        exact ⟨parts, p', Nat.le_succ _, .descend hdir hvisit haccepts, hfind⟩
  | wildcard tokens =>
    rw [expand] at h
    obtain ⟨hdir, h⟩ := List.mem_ite_nil_right.mp h
    cases hlist : t.list p.path with
    | error e =>
      rw [hlist] at h
      cases List.mem_singleton.mp h
    | ok es =>
      rw [hlist] at h
      rcases List.mem_append.mp h with h | h
      · obtain ⟨p', hp', hfind⟩ := List.mem_flatMap.mp h
        exact ⟨parts, p', Nat.le_refl _, .dotted hdir hlist hp', hfind⟩
      · obtain ⟨entry, hmem, hfind⟩ := List.mem_flatMap.mp h
        obtain ⟨haccepts, hfind⟩ := List.mem_ite_nil_right.mp hfind
        exact ⟨parts, _, Nat.le_refl _, .listed hdir hlist hmem haccepts, hfind⟩

/-- The parts of a pattern lead from a place to another. -/
inductive Leads (t : FileTree) : List Part → Place → Place → Prop where
  | done (p : Place) : Leads t [] p p
  | onward {parts parts' : List Part} {p p' q : Place} (h : t.Onward parts p parts' p')
      (hrest : Leads t parts' p' q) : Leads t parts p q

/-- **What is found is led to**, step by step. -/
theorem leads_of_mem_expand {parts : List Part} {p q : Place} (h : .place q ∈ t.expand parts p) :
    t.Leads parts p q := by
  match parts with
  | [] =>
    rw [expand, List.mem_singleton] at h
    cases h
    exact .done p
  | part :: parts =>
    obtain ⟨parts', p', hlength, hstep, hrest⟩ := onward_of_mem_expand h
    exact .onward hstep (leads_of_mem_expand hrest)
termination_by parts.length
decreasing_by
  exact Nat.lt_succ_of_le hlength

/-! ## Whatever is found lies below -/

theorem covers_below (directory : Path) (names : List FileName) :
    directory.Covers (directory.below names) := by
  refine Path.covers_along directory fun s hs => ?_
  obtain ⟨name, _, rfl⟩ := List.mem_map.mp hs
  exact name.slash_not_mem

theorem covers_of_mem_descend {directory : Path} {q : Place} {name : FileName}
    (h : .entry q name ∈ t.descend directory) : directory.Covers q.path := by
  obtain ⟨names, hpath, _⟩ := key_of_mem_descend h
  change q.path = _ at hpath
  rw [hpath]
  exact covers_below directory names

theorem covers_of_mem_dotPlaces {p q : Place} {part : Part} (h : q ∈ t.dotPlaces p part) :
    p.path.Covers q.path := by
  obtain ⟨_, name, hname, _, rfl⟩ := mem_dotPlaces_iff.mp h
  have hslash : slash ∉ (Path.ofString name).bytes := by
    simp only [List.mem_cons, List.not_mem_nil, or_false] at hname
    rcases hname with rfl | rfl <;> decide
  exact Path.Covers.self.join hslash

theorem Onward.covers {parts parts' : List Part} (hparts : ∀ part ∈ parts, part.IsStep)
    {p q : Place} (h : t.Onward parts p parts' q) :
    p.path.Covers q.path ∧ ∀ part ∈ parts', part.IsStep := by
  cases h with
  | literal h =>
    obtain ⟨hname, hparts⟩ := List.forall_mem_cons.mp hparts
    obtain ⟨_, rfl⟩ := literalPlace?_eq_some_iff.mp h
    exact ⟨Path.Covers.self.child (slash_not_mem_stepOf hname), hparts⟩
  | descend hdir hvisit haccepts =>
    exact ⟨covers_of_mem_descend hvisit,
      (List.forall_mem_cons.mp (List.forall_mem_cons.mp hparts).2).2⟩
  | descendLast hdir hvisit hq =>
    exact ⟨covers_of_mem_descend hvisit, fun _ hmem => absurd hmem List.not_mem_nil⟩
  | @listed tokens parts p es entry hdir hlist hmem haccepts =>
    exact ⟨Path.Covers.self.child entry.1.slash_not_mem, (List.forall_mem_cons.mp hparts).2⟩
  | dotted hdir hlist hq =>
    exact ⟨covers_of_mem_dotPlaces hq, (List.forall_mem_cons.mp hparts).2⟩

theorem Leads.covers {parts : List Part} (hparts : ∀ part ∈ parts, part.IsStep) {p q : Place}
    (h : t.Leads parts p q) : p.path.Covers q.path := by
  induction h with
  | done p => exact .self
  | onward hstep _ ih =>
    obtain ⟨hcovers, hparts'⟩ := hstep.covers hparts
    exact hcovers.trans (ih hparts')

end WidgetMigration.FileTree
