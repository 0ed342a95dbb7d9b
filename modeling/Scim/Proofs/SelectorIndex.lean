import Scim.Selector
import Scim.Proofs.AttributePath

set_option autoImplicit false

/-!
# The index of a selector

A selector is built once from attribute paths, as an index with one entry per named attribute.  An
entry remembers whether the attribute was named on its own and which of its sub-attributes were.
This module shows that the index answers as if the paths were searched anew for every question, so
that nothing about them matters but which attributes and sub-attributes they name.

## Main definitions

* `Scim.AttributePath.Names` — a path names an attribute, on its own or through a sub-attribute.
* `Scim.AttributePath.resolved` — what a path names, as keys.
* `Scim.Selection.ofSubs?` — the entry of an attribute, from what was named of it.

## Main results

* `Scim.Selector.get?_index` — the entry under a key is made of the paths to that attribute.
* `Scim.Selector.answers_eq_scan` — a selector answers like a search of its paths.
-/

namespace Scim

/-! ## What a path names -/

namespace AttributePath

/-- A path names an attribute, with or without a sub-attribute of it, when a path without schema
belongs to `default`. -/
def Names (default : String) (path : AttributePath) (schema name : String) : Prop :=
  SameName (path.schemaOr default) schema ∧ SameName path.name name

/-- What a path names, as keys: the attribute, and the sub-attribute if there is one. -/
def resolved (default : String) (path : AttributePath) :
    (List Char × List Char) × Option (List Char) :=
  (path.target default, path.sub.map caseKey)

/-- A path names the attribute of its target. -/
lemma names_iff {default schema name : String} {path : AttributePath} :
    path.Names default schema name ↔ path.target default = (caseKey schema, caseKey name) := by
  rw [target, Prod.mk.injEq]
  rfl

/-- A path resolves to an attribute on its own when it names just that. -/
lemma resolved_eq_none_iff {default schema name : String} {path : AttributePath} :
    path.resolved default = ((caseKey schema, caseKey name), none) ↔
      path.Names default schema name ∧ path.sub = none := by
  rw [resolved, Prod.mk.injEq, ← names_iff, Option.map_eq_none_iff]

/-- A path resolves to a sub-attribute when it names exactly that. -/
lemma resolved_eq_some_iff {default schema name sub : String} {path : AttributePath} :
    path.resolved default = ((caseKey schema, caseKey name), some (caseKey sub)) ↔
      path.Names default schema name ∧ ∃ x, path.sub = some x ∧ SameName x sub := by
  rw [resolved, Prod.mk.injEq, ← names_iff, Option.map_eq_some_iff]
  rfl

end AttributePath

/-! ## Entries -/

namespace Selection

/-- The entry of an attribute with the given key, from the sub-attributes that were named of it one
after the other; nothing named is no entry. -/
def ofSubs? (k : List Char × List Char) (subs : List (Option String)) : Option Selection :=
  if subs.isEmpty then none else some (subs.foldl extend ⟨k.1, k.2, false, []⟩)

/-- An entry stays that of its attribute. -/
lemma key_extend (s : Selection) (sub : Option String) : (s.extend sub).key = s.key := by
  cases sub with
  | none => rfl
  | some sub =>
    rw [extend]
    split <;> rfl

/-- An attribute is whole when it was, or when it is named on its own. -/
lemma whole_extend (s : Selection) (sub : Option String) :
    (s.extend sub).whole = true ↔ s.whole = true ∨ sub = none := by
  cases sub with
  | none => simp [extend]
  | some sub =>
    rw [extend]
    split <;> simp

/-- An entry holds the sub-attributes that it held, and the one that is named. -/
lemma mem_subs_extend (s : Selection) (sub : Option String) (x : List Char) :
    x ∈ (s.extend sub).subs ↔ x ∈ s.subs ∨ sub.map caseKey = some x := by
  cases sub with
  | none => simp [extend]
  | some sub =>
    rw [extend]
    split
    · rename_i hmem
      refine ⟨.inl, fun h => h.elim id fun hsub => ?_⟩
      rwa [← Option.some.inj hsub]
    · rw [List.mem_append, List.mem_singleton, Option.map_some, Option.some.injEq, eq_comm (a := x)]

/-- Naming several sub-attributes one after the other. -/
lemma foldl_extend_spec (s : Selection) (subs : List (Option String)) :
    (subs.foldl extend s).key = s.key ∧
    ((subs.foldl extend s).whole = true ↔ s.whole = true ∨ none ∈ subs) ∧
    ∀ x, x ∈ (subs.foldl extend s).subs ↔ x ∈ s.subs ∨ some x ∈ subs.map (Option.map caseKey) := by
  induction subs generalizing s with
  | nil => simp
  | cons sub subs ih =>
    obtain ⟨hkey, hwhole, hsubs⟩ := ih (s.extend sub)
    rw [List.foldl_cons]
    refine ⟨hkey.trans (s.key_extend sub), ?_, fun x => ?_⟩
    · rw [hwhole, whole_extend, or_assoc, List.mem_cons, eq_comm (a := none)]
    · rw [hsubs, mem_subs_extend, or_assoc, List.map_cons, List.mem_cons, eq_comm (a := some x)]

/-- One more sub-attribute is named of an attribute, whether it has an entry or not. -/
lemma ofSubs?_append (k : List Char × List Char) (subs : List (Option String))
    (sub : Option String) : ofSubs? k (subs ++ [sub]) =
      some (((ofSubs? k subs).getD ⟨k.1, k.2, false, []⟩).extend sub) := by
  rw [ofSubs?, if_neg (by simp), List.foldl_append, ofSubs?]
  cases subs <;> rfl

end Selection

/-! ## The index -/

namespace Selector

open AttributePath

variable {default schema name sub : String} {paths : List AttributePath}

/-- The sub-attributes that paths name of an attribute, in order; none for the attribute itself. -/
def subsOf (default : String) (k : List Char × List Char) (paths : List AttributePath) :
    List (Option String) :=
  (paths.filter fun path => decide (path.target default = k)).map AttributePath.sub

/-- What is named of an attribute is what paths resolve to. -/
lemma mem_subsOf {k : List Char × List Char} {o : Option (List Char)} :
    o ∈ (subsOf default k paths).map (Option.map caseKey) ↔
      (k, o) ∈ paths.map (resolved default) := by
  simp only [subsOf, List.mem_map, List.mem_filter, decide_eq_true_eq, resolved, Prod.mk.injEq]
  constructor
  · rintro ⟨_, ⟨path, ⟨hpath, hk⟩, rfl⟩, ho⟩
    exact ⟨path, hpath, hk, ho⟩
  · rintro ⟨path, hpath, hk, ho⟩
    exact ⟨_, ⟨path, ⟨hpath, hk⟩, rfl⟩, ho⟩

/-- What one more path names. -/
lemma subsOf_append (default : String) (k : List Char × List Char) (paths : List AttributePath)
    (path : AttributePath) : subsOf default k (paths ++ [path]) =
      subsOf default k paths ++ if path.target default = k then [path.sub] else [] := by
  rw [subsOf, subsOf, List.filter_append, List.map_append]
  by_cases hk : path.target default = k <;> simp [hk]

/-- One more path changes the entry of its attribute, or makes it one, and leaves all others. -/
lemma get?_extend (default : String) (k : List Char × List Char) (index : List Selection)
    (path : AttributePath) : Keyed.get? Selection.key k (extend default index path) =
      if path.target default = k then
        some (((Keyed.get? Selection.key k index).getD ⟨k.1, k.2, false, []⟩).extend path.sub)
      else Keyed.get? Selection.key k index := by
  have hkey : (((Keyed.get? Selection.key (path.target default) index).getD
      ⟨caseKey (path.schemaOr default), caseKey path.name, false, []⟩).extend path.sub).key =
        path.target default := by
    rw [Selection.key_extend]
    cases hfound : Keyed.get? Selection.key (path.target default) index with
    | none => rfl
    | some known => exact Keyed.key_of_get? hfound
  rw [extend, Keyed.get?_insert]
  change (if (((Keyed.get? Selection.key (path.target default) index).getD _).extend _).key = k
    then _ else _) = _
  rw [hkey]
  split
  · rename_i hk
    subst hk
    rfl
  · rfl

/-- **The entry under a key is made of the paths to that attribute.**

**Proof sketch.**  Induction on the paths from the back: the last path names one more sub-attribute
of its own attribute. -/
theorem get?_index (default : String) (k : List Char × List Char) (paths : List AttributePath) :
    Keyed.get? Selection.key k (paths.foldl (extend default) []) =
      Selection.ofSubs? k (subsOf default k paths) := by
  induction paths using List.reverseRecOn with
  | nil => rfl
  | append_singleton paths path ih =>
    rw [List.foldl_append, List.foldl_cons, List.foldl_nil, get?_extend, ih, subsOf_append]
    by_cases hk : path.target default = k
    · rw [if_pos hk, if_pos hk, Selection.ofSubs?_append]
    · rw [if_neg hk, if_neg hk, List.append_nil]

/-- What a selector holds of an attribute: nothing when no path leads to it, and otherwise whether
one leads to it alone, and the sub-attributes to which paths lead. -/
lemma selection?_ofPaths (default schema name : String) (hne : paths ≠ []) :
    ((ofPaths default paths).selection? schema name = none ∧
      ∀ o, ((caseKey schema, caseKey name), o) ∉ paths.map (resolved default)) ∨
    ∃ s, (ofPaths default paths).selection? schema name = some s ∧
      (∃ o, ((caseKey schema, caseKey name), o) ∈ paths.map (resolved default)) ∧
      (s.whole = true ↔ ((caseKey schema, caseKey name), none) ∈ paths.map (resolved default)) ∧
      ∀ x, x ∈ s.subs ↔
        ((caseKey schema, caseKey name), some x) ∈ paths.map (resolved default) := by
  have hindex : (ofPaths default paths).selection? schema name =
      Selection.ofSubs? (caseKey schema, caseKey name)
        (subsOf default (caseKey schema, caseKey name) paths) := by
    rw [← get?_index]
    cases paths with
    | nil => exact absurd rfl hne
    | cons path paths => rfl
  simp only [hindex, ← mem_subsOf]
  by_cases hempty : subsOf default (caseKey schema, caseKey name) paths = []
  · refine .inl ⟨by rw [hempty]; rfl, fun o ho => ?_⟩
    rw [hempty] at ho
    cases ho
  · obtain ⟨-, hwhole, hsubs⟩ := Selection.foldl_extend_spec
      ⟨caseKey schema, caseKey name, false, []⟩
      (subsOf default (caseKey schema, caseKey name) paths)
    refine .inr ⟨_, if_neg (by simpa using hempty), ?_, ?_, fun x => ?_⟩
    · obtain ⟨sub, hsub⟩ := List.exists_mem_of_ne_nil _ hempty
      exact ⟨_, List.mem_map_of_mem hsub⟩
    · rw [hwhole]
      simp
    · rw [hsubs]
      simp

/-- A selector of some paths does not select everything by itself. -/
lemma isUnrestricted_ofPaths (hne : paths ≠ []) :
    (ofPaths default paths).isUnrestricted = false := by
  cases paths with
  | nil => exact absurd rfl hne
  | cons path paths => rfl

/-- An attribute is selected when some path leads to it or to a sub-attribute of it. -/
lemma matchesAttribute_ofPaths (hne : paths ≠ []) :
    (ofPaths default paths).matchesAttribute schema name = true ↔
      ∃ o, ((caseKey schema, caseKey name), o) ∈ paths.map (resolved default) := by
  rw [matchesAttribute, isUnrestricted_ofPaths hne, Bool.false_or]
  rcases selection?_ofPaths default schema name hne with
    ⟨hnone, hnot⟩ | ⟨s, hsome, hnamed, -⟩
  · rw [hnone]
    exact iff_of_false Bool.false_ne_true fun ⟨o, ho⟩ => hnot o ho
  · rw [hsome]
    exact iff_of_true rfl hnamed

/-- A sub-attribute is selected when some path leads to it or to its attribute. -/
lemma matchesSub_ofPaths (hne : paths ≠ []) :
    (ofPaths default paths).matchesSub schema name sub = true ↔
      ((caseKey schema, caseKey name), none) ∈ paths.map (resolved default) ∨
      ((caseKey schema, caseKey name), some (caseKey sub)) ∈ paths.map (resolved default) := by
  rw [matchesSub, isUnrestricted_ofPaths hne, Bool.false_or]
  rcases selection?_ofPaths default schema name hne with
    ⟨hnone, hnot⟩ | ⟨s, hsome, -, hwhole, hsubs⟩
  · rw [hnone]
    exact iff_of_false Bool.false_ne_true fun h => h.elim (hnot _) (hnot _)
  · rw [hsome]
    dsimp only
    rw [Selection.includes, Bool.or_eq_true, List.contains_iff_mem, hwhole, hsubs]

/-- An attribute is selected through sub-attributes only when paths lead to it and none of them
leads to it alone. -/
lemma hasSubFilter_ofPaths (hne : paths ≠ []) :
    (ofPaths default paths).hasSubFilter schema name = true ↔
      (∃ o, ((caseKey schema, caseKey name), o) ∈ paths.map (resolved default)) ∧
        ((caseKey schema, caseKey name), none) ∉ paths.map (resolved default) := by
  rw [hasSubFilter]
  rcases selection?_ofPaths default schema name hne with
    ⟨hnone, hnot⟩ | ⟨s, hsome, hnamed, hwhole, -⟩
  · rw [hnone]
    exact iff_of_false Bool.false_ne_true fun ⟨⟨o, ho⟩, _⟩ => hnot o ho
  · rw [hsome]
    dsimp only
    rw [Bool.not_eq_true', Bool.eq_false_iff, ne_eq, hwhole, and_iff_right hnamed]

/-- **A selector answers like a search of its paths.**  Let paths without schema belong to a default
schema, and compare names without regard to case.  An attribute takes part exactly when some path
names it, with or without a sub-attribute.  A sub-attribute takes part exactly when some path names
its attribute on its own, or names exactly that sub-attribute.  An attribute takes part through
sub-attributes only exactly when some path names it and every such path has a sub-attribute.  So two
lists of paths, whatever their default schemas, answer alike when the same attributes and
sub-attributes are named in them, in any order, number, spelling and qualification.

**Proof sketch.**  The entry of an attribute is made of the paths to it, one after the other.  It
remembers whether one of them has no sub-attribute and which sub-attributes the others have. -/
theorem answers_eq_scan (default : String) {paths : List AttributePath} (hne : paths ≠ []) :
    (∀ schema name, (ofPaths default paths).matchesAttribute schema name = true ↔
      ∃ path ∈ paths, path.Names default schema name) ∧
    (∀ schema name sub, (ofPaths default paths).matchesSub schema name sub = true ↔
      ∃ path ∈ paths, path.Names default schema name ∧
        (path.sub = none ∨ ∃ x, path.sub = some x ∧ SameName x sub)) ∧
    (∀ schema name, (ofPaths default paths).hasSubFilter schema name = true ↔
      (∃ path ∈ paths, path.Names default schema name) ∧
        ∀ path ∈ paths, path.Names default schema name → path.sub ≠ none) ∧
    ∀ (default' : String) (paths' : List AttributePath),
      (∀ k, k ∈ paths.map (resolved default) ↔ k ∈ paths'.map (resolved default')) →
      ∀ schema name sub,
        (ofPaths default paths).matchesAttribute schema name =
            (ofPaths default' paths').matchesAttribute schema name ∧
          (ofPaths default paths).matchesSub schema name sub =
            (ofPaths default' paths').matchesSub schema name sub ∧
          (ofPaths default paths).hasSubFilter schema name =
            (ofPaths default' paths').hasSubFilter schema name := by
  have hnamed : ∀ schema name,
      (∃ o, ((caseKey schema, caseKey name), o) ∈ paths.map (resolved default)) ↔
        ∃ path ∈ paths, path.Names default schema name := by
    intro schema name
    simp only [List.mem_map, names_iff]
    constructor
    · rintro ⟨_, path, hpath, hresolved⟩
      exact ⟨path, hpath, congrArg Prod.fst hresolved⟩
    · rintro ⟨path, hpath, htarget⟩
      exact ⟨_, path, hpath, Prod.ext htarget rfl⟩
  refine ⟨fun schema name => ?_, fun schema name sub => ?_, fun schema name => ?_,
    fun default' paths' hsame schema name sub => ?_⟩
  · rw [matchesAttribute_ofPaths hne, hnamed]
  · rw [matchesSub_ofPaths hne, List.mem_map, List.mem_map]
    simp only [resolved_eq_none_iff, resolved_eq_some_iff, and_or_left, exists_or]
  · rw [hasSubFilter_ofPaths hne, hnamed, List.mem_map]
    simp only [resolved_eq_none_iff, not_exists, not_and]
  · have hne' : paths' ≠ [] := by
      rintro rfl
      obtain ⟨path, hpath⟩ := List.exists_mem_of_ne_nil _ hne
      exact List.not_mem_nil ((hsame _).mp (List.mem_map_of_mem hpath))
    refine ⟨?_, ?_, ?_⟩ <;> rw [Bool.eq_iff_iff]
    · simp only [matchesAttribute_ofPaths hne, matchesAttribute_ofPaths hne', hsame]
    · rw [matchesSub_ofPaths hne, matchesSub_ofPaths hne', hsame, hsame]
    · simp only [hasSubFilter_ofPaths hne, hasSubFilter_ofPaths hne', hsame]

/-- The e-mail addresses, first in part and then as a whole, and one part of the name. -/
def contactPaths : List AttributePath :=
  [⟨none, "emails", some "value"⟩, ⟨some "URN:U", "Emails", none⟩,
    ⟨some "urn:u", "name", some "givenName"⟩]

/-- The same in another order, with other spellings and qualifications, and in part twice. -/
def respelledPaths : List AttributePath :=
  [⟨none, "Name", some "GIVENNAME"⟩, ⟨none, "EMAILS", none⟩, ⟨some "urn:U", "emails", some "Value"⟩,
    ⟨some "urn:u", "name", some "givenname"⟩]

/-- A sub-attribute that no path names is selected with its attribute; the name is selected in part
only, and an attribute of another schema is not. -/
theorem answers_eq_scan_contact : contactPaths ≠ [] ∧
    (ofPaths "urn:u" contactPaths).matchesSub "urn:u" "emails" "display" = true ∧
    (ofPaths "urn:u" contactPaths).hasSubFilter "urn:u" "NAME" = true ∧
    ¬(ofPaths "urn:u" contactPaths).matchesAttribute "urn:v" "name" = true ∧
    ∀ schema name sub,
      (ofPaths "urn:u" contactPaths).matchesSub schema name sub =
        (ofPaths "urn:u" respelledPaths).matchesSub schema name sub := by
  have hne : contactPaths ≠ [] := List.cons_ne_nil _ _
  obtain ⟨hattribute, hsub, hfilter, hsame⟩ := answers_eq_scan "urn:u" hne
  refine ⟨hne, ?_, ?_, ?_, fun schema name sub => ?_⟩
  · rw [hsub]
    refine ⟨⟨some "URN:U", "Emails", none⟩, by simp [contactPaths], ?_, .inl rfl⟩
    exact ⟨by decide, by decide⟩
  · rw [hfilter]
    refine ⟨⟨⟨some "urn:u", "name", some "givenName"⟩, by simp [contactPaths], ?_⟩, ?_⟩
    · exact ⟨by decide, by decide⟩
    rintro path hpath ⟨-, hname⟩ hnone
    simp only [contactPaths, List.mem_cons, List.not_mem_nil, or_false] at hpath
    rcases hpath with rfl | rfl | rfl
    · cases hnone
    · exact absurd hname (by decide)
    · cases hnone
  · rw [hattribute]
    rintro ⟨path, hpath, hschema, -⟩
    simp only [contactPaths, List.mem_cons, List.not_mem_nil, or_false] at hpath
    rcases hpath with rfl | rfl | rfl <;> exact absurd hschema (by decide)
  · have hresolved : (∀ k ∈ contactPaths.map (resolved "urn:u"),
          k ∈ respelledPaths.map (resolved "urn:u")) ∧
        ∀ k ∈ respelledPaths.map (resolved "urn:u"), k ∈ contactPaths.map (resolved "urn:u") := by
      decide
    exact (hsame "urn:u" respelledPaths (fun k => ⟨hresolved.1 k, hresolved.2 k⟩)
      schema name sub).2.1

end Selector

end Scim
