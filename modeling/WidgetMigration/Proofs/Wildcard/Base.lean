import WidgetMigration.Proofs.Wildcard.Descent
import WidgetMigration.Proofs.Wildcard.SourcePattern

/-!
# Walking to the base directory

A component without wildcards is asked about, an escaped one is looked up in the listing of its
directory. Either way the walk comes to the path that the component spells, and knows whether it is a
directory (`expand_partOf`). The two ways differ in what they can know: a listing also tells of a
directory whose path is too long to be asked about. `Entered` says when the walk takes what some
components lead to for a directory.

If the directories on the way can be listed, the walk comes to the base and to nothing else
(`expand_base`).
-/

namespace WidgetMigration.FileTree

open Wildcard WidgetMigration.Path

variable {t : FileTree} {absolute : Bool}

/-- Whether the walk along some components comes to a directory: the system says that it is one, or
the listing of the directory before it does, which is read for the sake of a special character. -/
def Entered (t : FileTree) (absolute : Bool) (components : List (List Char)) : Prop :=
  t.isDirectory (upTo absolute components) = true ∨
    ∃ before c es name access, components = before ++ [c] ∧ c.any isSpecial = true ∧
      t.list (upTo absolute before) = .ok es ∧ name.bytes = stepOf c ∧
        (name, Entry.directory access) ∈ es

theorem entered_nil_iff : t.Entered absolute [] ↔ t.isDirectory (start absolute) = true := by
  constructor
  · rintro (h | ⟨before, c, _, _, _, heq, _⟩)
    · exact h
    · exact absurd heq.symm (List.append_ne_nil_of_right_ne_nil before (List.cons_ne_nil c _))
  · exact .inl

theorem entered_append_iff {before : List (List Char)} {c : List Char} :
    t.Entered absolute (before ++ [c]) ↔
      t.isDirectory ((upTo absolute before).child (stepOf c)) = true ∨
        c.any isSpecial = true ∧ ∃ es name access, t.list (upTo absolute before) = .ok es ∧
          name.bytes = stepOf c ∧ (name, Entry.directory access) ∈ es := by
  unfold Entered
  rw [upTo_append_singleton]
  refine or_congr_right ⟨?_, ?_⟩
  · rintro ⟨before', c', es, name, access, heq, hspecial, hlist, hname, hmem⟩
    obtain ⟨rfl, hc⟩ := List.append_inj' heq rfl
    cases hc
    exact ⟨hspecial, es, name, access, hlist, hname, hmem⟩
  · rintro ⟨hspecial, es, name, access, hlist, hname, hmem⟩
    exact ⟨before, c, es, name, access, rfl, hspecial, hlist, hname, hmem⟩

/-- A directory is come to through the directory before it. -/
theorem Entered.before {before : List (List Char)} {c : List Char}
    (hbefore : ∀ d ∈ before, IsComponent d) (hc : IsComponent c)
    (h : t.Entered absolute (before ++ [c])) : t.Entered absolute before := by
  rcases entered_append_iff.mp h with hdir | ⟨_, es, _, _, hlist, _⟩
  · obtain ⟨loc, _, hres, _⟩ := isDirectory_iff.mp hdir
    exact .inl (isDirectory_of_resolve_child (upTo_ne_nil hbefore) hc.isStep hres)
  · exact .inl (isDirectory_of_list hlist)

/-- The walk does not come to what is missing, whatever a listing says. -/
theorem not_entered_of_notFound {components : List (List Char)}
    (hcomponents : ∀ c ∈ components, IsComponent c)
    (h : t.lookup .follow (upTo absolute components) = .error .notFound) :
    ¬ t.Entered absolute components := by
  rintro (hdir | ⟨before, c, es, name, access, rfl, _, hlist, hname, hmem⟩)
  · unfold isDirectory at hdir
    rw [h] at hdir
    cases hdir
  · have hbefore : ∀ d ∈ before, IsComponent d := fun d hd =>
      hcomponents d (List.mem_append_left _ hd)
    rw [upTo_append_singleton, ← hname] at h
    exact lookup_child_ne_notFound (upTo_ne_nil hbefore) hlist hmem h

/-! ## One component -/

/-- A special character stands in no dot name. -/
theorem stepOf_ne_of_isSpecial {c : List Char} (h : c.any isSpecial = true) :
    stepOf c ≠ dot ∧ stepOf c ≠ dotDot := by
  refine ⟨fun heq => ?_, fun heq => ?_⟩
  · have hc : c = ['.'] := stepOf_injective (heq.trans rfl)
    rw [hc] at h
    exact absurd h (by decide)
  · have hc : c = ['.', '.'] := stepOf_injective (heq.trans rfl)
    rw [hc] at h
    exact absurd h (by decide)

theorem stepOf_ne_nil_of_isSpecial {c : List Char} (h : c.any isSpecial = true) : stepOf c ≠ [] := by
  intro hnil
  rw [show c = [] from stepOf_injective (hnil.trans rfl)] at h
  cases h

theorem accepts_partOf_iff {c : List Char} {name : FileName} :
    accepts (partOf c) name = true ↔ name.bytes = stepOf c := by
  unfold accepts
  cases htext : Utf8.decode? name.bytes with
  | none =>
    simp only [Bool.false_eq_true, false_iff]
    intro heq
    rw [heq, stepOf, Utf8.decode?_encode] at htext
    cases htext
  | some text =>
    simp only [accepts_partOf]
    rw [← Utf8.decode?_eq_some_iff.mp htext, stepOf]
    constructor
    · rintro rfl
      rw [String.ofList_toList]
    · intro heq
      rw [Utf8.encode_injective heq, String.toList_ofList]

/-- An escaped component stands for no dot name, though it may begin with a dot. -/
theorem dotPlaces_partOf {c : List Char} (h : c.any isSpecial = true) (p : Place) :
    t.dotPlaces p (partOf c) = [] := by
  have hnone : ["..", "."].filter (fun name => (partOf c).accepts name.toList) = [] := by
    rw [List.filter_eq_nil_iff]
    intro name hname haccepts
    rw [accepts_partOf] at haccepts
    simp only [List.mem_cons, List.not_mem_nil, or_false] at hname
    rcases hname with rfl | rfl
    · rw [← haccepts] at h
      exact absurd h (by decide)
    · rw [← haccepts] at h
      exact absurd h (by decide)
  unfold dotPlaces
  rw [hnone]
  cases (partOf c).leadsWithDot <;> rfl

section Listed

variable {before : List (List Char)} {c : List Char} {es : List (FileName × Entry)}

/-- What a listing says of an entry is whether the walk comes to a directory there. -/
theorem entryPlace_isDirectory_iff_entered (hbefore : ∀ d ∈ before, IsComponent d)
    (hspecial : c.any isSpecial = true) (hlist : t.list (upTo absolute before) = .ok es)
    {name : FileName} {e : Entry} (hname : name.bytes = stepOf c) (hmem : (name, e) ∈ es) :
    (t.entryPlace (upTo absolute before) (name, e)).isDirectory = true ↔
      t.Entered absolute (before ++ [c]) := by
  rw [entryPlace_isDirectory_iff, entered_append_iff]
  constructor
  · rintro (⟨access, rfl⟩ | ⟨_, hdir⟩)
    · exact .inr ⟨hspecial, es, name, access, hlist, hname, hmem⟩
    · exact .inl (hname ▸ hdir)
  · rintro (hdir | ⟨_, es', name', access, hlist', hname', hmem'⟩)
    · rw [← hname] at hdir
      obtain ⟨loc, access, hres, hget⟩ := isDirectory_iff.mp hdir
      rcases mem_list_of_resolve_child (upTo_ne_nil hbefore) hlist hres hget with
        hentry | ⟨target, hentry⟩
      · exact .inl ⟨access, eq_of_mem_list hlist hmem hentry⟩
      · exact .inr ⟨⟨target, eq_of_mem_list hlist hmem hentry⟩, hdir⟩
    · rw [hlist] at hlist'
      cases hlist'
      obtain rfl : name' = name := FileName.ext (hname'.trans hname.symm)
      exact .inl ⟨access, eq_of_mem_list hlist hmem hmem'⟩

/-- The walk does not come to what is not in the listing. -/
theorem not_entered_of_not_mem (hbefore : ∀ d ∈ before, IsComponent d) (hc : IsComponent c)
    (hspecial : c.any isSpecial = true) (hlist : t.list (upTo absolute before) = .ok es)
    (hnone : ∀ name e, (name, e) ∈ es → name.bytes ≠ stepOf c) :
    ¬ t.Entered absolute (before ++ [c]) := by
  intro hentered
  rcases entered_append_iff.mp hentered with hdir | ⟨_, es', name, access, hlist', hname, hmem⟩
  · obtain ⟨loc, access, hres, hget⟩ := isDirectory_iff.mp hdir
    obtain ⟨hdot, hdotDot⟩ := stepOf_ne_of_isSpecial hspecial
    obtain ⟨_, _, _, _, hwalk⟩ := resolve_child (upTo_ne_nil hbefore) hc.isStep hres
    obtain ⟨name, hname⟩ := name_of_walk hdot hdotDot hwalk
    rw [← hname] at hres
    rcases mem_list_of_resolve_child (upTo_ne_nil hbefore) hlist hres hget with
      hentry | ⟨target, hentry⟩
    · exact hnone _ _ hentry hname
    · exact hnone _ _ hentry hname
  · rw [hlist] at hlist'
    cases hlist'
    exact hnone _ _ hmem hname

end Listed

/-- In a list that has a key once, only its entry contributes to what hangs on the key. -/
theorem flatMap_eq_of_key {α β γ : Type} {es : List (α × β)} (hnodup : (es.map Prod.fst).Nodup)
    {a : α} {b : β} (hmem : (a, b) ∈ es) {f : α × β → List γ}
    (hother : ∀ p ∈ es, p.1 ≠ a → f p = []) : es.flatMap f = f (a, b) := by
  obtain ⟨l₁, l₂, rfl⟩ := List.append_of_mem hmem
  have hkeys : ∀ p ∈ l₁ ++ l₂, p.1 ≠ a := by
    intro p hp heq
    rw [List.map_append, List.map_cons, List.nodup_middle, List.nodup_cons] at hnodup
    refine hnodup.1 ?_
    rw [← List.map_append]
    exact List.mem_map.mpr ⟨p, hp, heq⟩
  have hnil : ∀ l : List (α × β), (∀ p ∈ l, p ∈ l₁ ++ l₂) → l.flatMap f = [] := by
    intro l hl
    refine List.flatMap_eq_nil_iff.mpr fun p hp => hother p ?_ (hkeys p (hl p hp))
    rcases List.mem_append.mp (hl p hp) with hp | hp
    · exact List.mem_append_left _ hp
    · exact List.mem_append_right _ (List.mem_cons_of_mem _ hp)
  rw [List.flatMap_append, List.flatMap_cons, hnil l₁ fun p hp => List.mem_append_left _ hp,
    hnil l₂ fun p hp => List.mem_append_right _ hp, List.append_nil, List.nil_append]

/-- What a walk finds when it has come along some components: it goes on at the path they lead to,
and knows whether it is a directory; or it has ended, and there is no directory. -/
def FindsBehind (t : FileTree) (absolute : Bool) (way : List (List Char)) (parts : List Part)
    (finds : List Find) : Prop :=
  (∃ isDirectory, (isDirectory = true ↔ t.Entered absolute way) ∧
    finds = t.expand parts ⟨upTo absolute way, isDirectory⟩) ∨
  (¬ t.Entered absolute way ∧ finds = [])

section Component

variable {before : List (List Char)} {c : List Char} {isDirectory : Bool}

/-- An escaped component is looked up in the listing of the directory before it. -/
theorem expand_escaped {es : List (FileName × Entry)} (hbefore : ∀ d ∈ before, IsComponent d)
    (hc : IsComponent c) (hspecial : c.any isSpecial = true)
    (hlist : t.list (upTo absolute before) = .ok es) (parts : List Part) :
    t.FindsBehind absolute (before ++ [c]) parts
      (t.expand (partOf c :: parts) ⟨upTo absolute before, true⟩) := by
  have hpart : partOf c = .wildcard (c.map elementOf) := by rw [partOf, hspecial, if_pos rfl]
  have hexpand : t.expand (partOf c :: parts) ⟨upTo absolute before, true⟩ =
      es.flatMap fun entry => if accepts (partOf c) entry.1 then
        t.expand parts (t.entryPlace (upTo absolute before) entry) else [] := by
    rw [hpart, expand]
    simp only [if_true, hlist]
    rw [← hpart, dotPlaces_partOf hspecial, List.flatMap_nil, List.nil_append]
  rw [hexpand]
  by_cases hmem : ∃ name e, (name, e) ∈ es ∧ name.bytes = stepOf c
  · obtain ⟨name, e, hmem, hname⟩ := hmem
    refine .inl ⟨_, entryPlace_isDirectory_iff_entered hbefore hspecial hlist hname hmem, ?_⟩
    rw [flatMap_eq_of_key (nodup_list hlist) hmem]
    · rw [if_pos (accepts_partOf_iff.mpr hname), upTo_append_singleton, ← hname]
      rfl
    · intro p _ hp
      refine if_neg fun haccepts => hp (FileName.ext ?_)
      exact (accepts_partOf_iff.mp haccepts).trans hname.symm
  · have hnone : ∀ name e, (name, e) ∈ es → name.bytes ≠ stepOf c :=
      fun name e h hname => hmem ⟨name, e, h, hname⟩
    refine .inr ⟨not_entered_of_not_mem hbefore hc hspecial hlist hnone, ?_⟩
    refine List.flatMap_eq_nil_iff.mpr fun p hp => if_neg fun haccepts => ?_
    exact hnone p.1 p.2 hp (accepts_partOf_iff.mp haccepts)

/-- A component without special characters is asked about. -/
theorem expand_asked (hbefore : ∀ d ∈ before, IsComponent d) (hc : IsComponent c)
    (hspecial : c.any isSpecial = false) (hflag : isDirectory = true ↔ t.Entered absolute before)
    (parts : List Part) :
    t.FindsBehind absolute (before ++ [c]) parts
      (t.expand (partOf c :: parts) ⟨upTo absolute before, isDirectory⟩) := by
  have hpart : partOf c = .literal c := by rw [partOf, hspecial]; rfl
  have hentered : t.Entered absolute (before ++ [c]) ↔
      t.isDirectory ((upTo absolute before).child (stepOf c)) = true := by
    rw [entered_append_iff, hspecial]
    simp
  rw [hpart, expand]
  by_cases hthere : (if stepOf c = dot ∨ stepOf c = dotDot then isDirectory
      else t.isThere ((upTo absolute before).child (stepOf c))) = true
  · refine .inl ⟨_, hentered.symm, ?_⟩
    have hplace : t.literalPlace? ⟨upTo absolute before, isDirectory⟩ c =
        some ⟨(upTo absolute before).child (stepOf c),
          t.isDirectory ((upTo absolute before).child (stepOf c))⟩ := if_pos hthere
    rw [hplace, upTo_append_singleton]
  · have hplace : t.literalPlace? ⟨upTo absolute before, isDirectory⟩ c = none := if_neg hthere
    refine .inr ⟨fun h => hthere ?_, by rw [hplace]⟩
    by_cases hstep : stepOf c = dot ∨ stepOf c = dotDot
    · rw [if_pos hstep]
      exact hflag.mpr (h.before hbefore hc)
    · rw [if_neg hstep]
      exact isThere_of_isDirectory (hentered.mp h)

/-- **One component of the base.** -/
theorem expand_partOf (hbefore : ∀ d ∈ before, IsComponent d) (hc : IsComponent c)
    (hlisted : t.Entered absolute before → ∃ es, t.list (upTo absolute before) = .ok es)
    (hflag : isDirectory = true ↔ t.Entered absolute before) (parts : List Part) :
    t.FindsBehind absolute (before ++ [c]) parts
      (t.expand (partOf c :: parts) ⟨upTo absolute before, isDirectory⟩) := by
  cases hspecial : c.any isSpecial with
  | false => exact expand_asked hbefore hc hspecial hflag parts
  | true =>
    cases isDirectory with
    | true =>
      obtain ⟨es, hlist⟩ := hlisted (hflag.mp rfl)
      exact expand_escaped hbefore hc hspecial hlist parts
    | false =>
      refine .inr ⟨fun h => ?_, ?_⟩
      · exact absurd (hflag.mpr (h.before hbefore hc)) Bool.false_ne_true
      · rw [partOf, hspecial, if_pos rfl, expand]
        rfl

end Component

/-- A walk that has not come to a directory does not come to one behind it. -/
theorem Entered.of_append {before after : List (List Char)}
    (h : ∀ c ∈ before ++ after, IsComponent c) (hentered : t.Entered absolute (before ++ after)) :
    t.Entered absolute before := by
  induction after using List.reverseRecOn with
  | nil => rwa [List.append_nil] at hentered
  | append_singleton after c ih =>
    rw [← List.append_assoc] at h hentered
    have hbefore : ∀ d ∈ before ++ after, IsComponent d := fun d hd =>
      h d (List.mem_append_left _ hd)
    exact ih hbefore (hentered.before hbefore (h c (List.mem_append_right _ List.mem_cons_self)))

/-- **The walk comes to the base and to nothing else**, if the directories on the way can be listed:
what comes behind the base is walked from there. -/
theorem expand_base {before after : List (List Char)}
    (h : ∀ c ∈ before ++ after, IsComponent c)
    (hlisted : ∀ way c, way ++ [c] <+: before ++ after → t.Entered absolute way →
      ∃ es, t.list (upTo absolute way) = .ok es)
    {isDirectory : Bool} (hflag : isDirectory = true ↔ t.Entered absolute before)
    (parts : List Part) :
    ∃ isDirectory', (isDirectory' = true ↔ t.Entered absolute (before ++ after)) ∧
      t.expand (after.map partOf ++ .recursive :: parts) ⟨upTo absolute before, isDirectory⟩ =
        t.expand (.recursive :: parts) ⟨upTo absolute (before ++ after), isDirectory'⟩ := by
  induction after generalizing before isDirectory with
  | nil =>
    rw [List.append_nil]
    exact ⟨isDirectory, hflag, rfl⟩
  | cons c after ih =>
    have hassoc : before ++ c :: after = (before ++ [c]) ++ after := by
      rw [List.append_assoc, List.singleton_append]
    rw [hassoc] at h hlisted ⊢
    have hbefore : ∀ d ∈ before, IsComponent d := fun d hd =>
      h d (List.mem_append_left _ (List.mem_append_left _ hd))
    have hc : IsComponent c :=
      h c (List.mem_append_left _ (List.mem_append_right _ List.mem_cons_self))
    rw [List.map_cons, List.cons_append]
    rcases expand_partOf hbefore hc (hlisted before c (List.prefix_append _ _)) hflag
      (after.map partOf ++ .recursive :: parts) with ⟨isDirectory', hflag', heq⟩ | ⟨hnot, heq⟩
    · rw [heq]
      exact ih h hlisted hflag'
    · refine ⟨false, ?_, ?_⟩
      · simp only [Bool.false_eq_true, false_iff]
        exact fun hentered => hnot (hentered.of_append h)
      · rw [heq, expand]
        rfl

end WidgetMigration.FileTree
