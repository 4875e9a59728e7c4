import Mathlib.Data.List.Sort
import WidgetMigration.Proofs.Tree.Shape
import WidgetMigration.Proofs.Wildcard.Descent

/-!
# Walking trees of one shape

A walk asks what is there, what is a directory and what a directory lists, and never what is in a file.
So it comes upon the same in trees of one shape (`SameShape.matching`). A listing does tell of the
entries themselves, and is the same up to what is in files and who may use them
(`SameShape.list_cases`); a walk makes no use of more.
-/

namespace WidgetMigration.FileTree

open Wildcard

/-- What a listing tells of an entry, without what is in a file. -/
def shapeOf (entry : FileName × Entry) : FileName × Entry := (entry.1, entry.2.shape)

/-- A directory lists its entries in the order of their names. -/
theorem pairwise_children (t : FileTree) (loc : Location) :
    (t.children loc).Pairwise fun a b => a.1.bytes < b.1.bytes := by
  have hle : (t.children loc).Pairwise fun a b => FileName.le a.1 b.1 = true := by
    refine List.pairwise_mergeSort (fun a b c h h' => ?_) (fun a b => ?_) _
    · simp only [FileName.le, decide_eq_true_iff] at h h' ⊢
      exact Std.le_trans h h'
    · simp only [FileName.le, Bool.or_eq_true, decide_eq_true_iff]
      exact Std.le_total
  have hne := List.pairwise_map.mp (t.nodup_children loc)
  refine (hle.and hne).imp fun {a b} h => ?_
  exact Std.lt_of_le_of_ne (of_decide_eq_true h.1) fun heq => h.2 (FileName.ext heq)

/-- The place of an entry does not depend on what is in a file. -/
theorem entryPlace_shapeOf (t : FileTree) (directory : Path) (entry : FileName × Entry) :
    t.entryPlace directory (shapeOf entry) = t.entryPlace directory entry := by
  obtain ⟨name, e⟩ := entry
  cases e <;> rfl

/-- What does not depend on what is in files, is the same for listings of one shape. -/
theorem flatMap_eq_of_shapes {α : Type} {es es' : List (FileName × Entry)}
    (h : es.map shapeOf = es'.map shapeOf) {f : FileName × Entry → List α}
    (hf : ∀ entry, f (shapeOf entry) = f entry) : es.flatMap f = es'.flatMap f := by
  have hmap : ∀ es : List (FileName × Entry), (es.map shapeOf).flatMap f = es.flatMap f :=
    fun es => (List.flatMap_map ..).trans (List.flatMap_congr fun entry _ => hf entry)
  rw [← hmap es, ← hmap es', h]

namespace SameShape

variable {t t' : FileTree}

/-! ## What a walk asks -/

theorem symm (h : SameShape t t') : SameShape t' t :=
  ⟨h.workingDirectory.symm, fun loc => (h.get? loc).symm⟩

theorem children (h : SameShape t t') (loc : Location) :
    (t.children loc).map shapeOf = (t'.children loc).map shapeOf := by
  -- Both are sorted by names that are all different, so it is enough that they have the same members.
  have hsubset : ∀ {t t' : FileTree}, SameShape t t' →
      ∀ c ∈ (t.children loc).map shapeOf, c ∈ (t'.children loc).map shapeOf := by
    intro t t' h c hc
    obtain ⟨⟨name, e⟩, hmem, rfl⟩ := List.mem_map.mp hc
    have hget := h.get? (loc ++ [name])
    rw [mem_children_iff.mp hmem] at hget
    obtain ⟨e', hget', he⟩ := Option.map_eq_some_iff.mp hget.symm
    exact List.mem_map.mpr ⟨(name, e'), mem_children_iff.mpr hget', Prod.ext rfl he⟩
  have hsorted : ∀ t : FileTree, ((t.children loc).map shapeOf).Pairwise
      fun a b => a.1.bytes < b.1.bytes := fun t => List.pairwise_map.mpr (t.pairwise_children loc)
  have : Std.Irrefl fun a b : FileName × Entry => a.1.bytes < b.1.bytes :=
    ⟨fun _ => Std.lt_irrefl⟩
  have : Std.Antisymm fun a b : FileName × Entry => a.1.bytes < b.1.bytes :=
    ⟨fun _ _ h h' => absurd (Std.lt_trans h h') Std.lt_irrefl⟩
  exact (hsorted t).eq_of_mem_iff (hsorted t') fun c => ⟨hsubset h c, hsubset h.symm c⟩

/-- **A listing is the same up to what is in files.** -/
theorem list_cases (h : SameShape t t') (p : Path) :
    (∃ e, t.list p = .error e ∧ t'.list p = .error e) ∨
      ∃ es es', t.list p = .ok es ∧ t'.list p = .ok es' ∧ es.map shapeOf = es'.map shapeOf := by
  unfold FileTree.list
  rcases h.lookup_cases .follow p with
    ⟨e, h₁, h₂⟩ | ⟨loc, access, h₁, h₂⟩ | ⟨_, _, h₁, h₂⟩ | ⟨_, _, _, _, _, h₁, h₂⟩
  · rw [h₁, h₂]
    exact .inl ⟨e, rfl, rfl⟩
  · simp only [h₁, h₂]
    by_cases hread : access.read = true
    · simp only [if_pos hread]
      exact .inr ⟨_, _, rfl, rfl, h.children loc⟩
    · simp only [if_neg hread]
      exact .inl ⟨_, rfl, rfl⟩
  · rw [h₁, h₂]
    exact .inl ⟨_, rfl, rfl⟩
  · rw [h₁, h₂]
    exact .inl ⟨_, rfl, rfl⟩

/-! ## The walk -/

theorem entryPlace (h : SameShape t t') : t.entryPlace = t'.entryPlace := by
  funext directory entry
  simp only [FileTree.entryPlace, h.isDirectory]

/-- **The walk below a directory** visits the same. -/
theorem descend (h : SameShape t t') (directory : Path) : t.descend directory = t'.descend directory := by
  induction directory using t.descend_induction with
  | step directory ih =>
    rw [descend_eq, descend_eq, h.entryPlace]
    rcases h.list_cases directory with ⟨e, h₁, h₂⟩ | ⟨es, es', h₁, h₂, hshapes⟩
    · rw [h₁, h₂]
    · simp only [h₁, h₂]
      rw [← flatMap_eq_of_shapes hshapes fun entry => by rw [entryPlace_shapeOf]; rfl]
      refine List.flatMap_congr fun entry hmem => ?_
      rw [ih es h₁ entry hmem]

theorem literalPlace? (h : SameShape t t') : t.literalPlace? = t'.literalPlace? := by
  funext p name
  simp only [FileTree.literalPlace?, h.isThere, h.isDirectory]

theorem dotPlaces (h : SameShape t t') : t.dotPlaces = t'.dotPlaces := by
  funext p part
  simp only [FileTree.dotPlaces, h.isDirectory]

/-- **The walk along a pattern** finds the same. -/
theorem expand (h : SameShape t t') (parts : List Part) (p : Place) :
    t.expand parts p = t'.expand parts p := by
  match parts with
  | [] => rw [FileTree.expand, FileTree.expand]
  | .literal name :: parts =>
    rw [FileTree.expand, FileTree.expand, h.literalPlace?]
    cases t'.literalPlace? p name with
    | none => rfl
    | some q => exact h.expand parts q
  | [.recursive] => rw [FileTree.expand, FileTree.expand, h.descend]
  | .recursive :: part :: parts =>
    have hlater : t.expand parts = t'.expand parts := funext fun q => h.expand parts q
    rw [FileTree.expand, FileTree.expand, h.descend]
    dsimp only
    rw [hlater]
  | .wildcard tokens :: parts =>
    have hlater : t.expand parts = t'.expand parts := funext fun q => h.expand parts q
    rw [FileTree.expand, FileTree.expand, h.dotPlaces, hlater, h.entryPlace]
    rcases h.list_cases p.path with ⟨e, h₁, h₂⟩ | ⟨es, es', h₁, h₂, hshapes⟩
    · rw [h₁, h₂]
    · simp only [h₁, h₂]
      rw [flatMap_eq_of_shapes hshapes fun entry => by rw [entryPlace_shapeOf]; rfl]

/-- **A pattern matches the same** in trees of one shape. -/
theorem matching (h : SameShape t t') (pattern : Pattern) :
    t.matching pattern = t'.matching pattern := by
  simp only [FileTree.matching, startPlace, h.expand, h.isDirectory]

end SameShape

end WidgetMigration.FileTree
