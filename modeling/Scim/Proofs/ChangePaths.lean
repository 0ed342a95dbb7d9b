import Scim.Proofs.AttributePath
import Scim.Proofs.Projection

set_option autoImplicit false

/-!
# Paths and selected parts of one attribute

A change is made of paths of an attribute and of its selected parts.  The paths of an attribute
all name it, in whatever schema it is, and they are told apart by their sub-attributes.  The
selected parts of its values are restrictions of their entries; what an attribute of the source
only deletes is read off them.

## Main definitions

* `Scim.Change.picked`, `dropped` — the selected sub-attributes, and those that are removed one by
  one.

## Main results

* `Scim.Change.target_path` — a path names the attribute that it was made for.
* `Scim.Selector.mem_pickEntries` — the selected entries are the restrictions that are not empty.
* `Scim.Selector.parts_eq_pickEntries` — they are the parts that a projection keeps.
* `Scim.Change.deletionsOf_eq` — the deletions of an attribute of the source only.
-/

namespace Scim

/-! ## Paths -/

namespace Change

variable {core : String} {s : Selector} {d : Descriptor} {a : Attribute}

@[simp] lemma path_name (core : String) (a : Attribute) (sub : Option String) :
    (path core a sub).name = a.name := by
  rw [path, AttributePath.relativeTo]
  split
  · split <;> rfl
  · rfl

@[simp] lemma path_sub (core : String) (a : Attribute) (sub : Option String) :
    (path core a sub).sub = sub := by
  rw [path, AttributePath.relativeTo]
  split
  · split <;> rfl
  · rfl

/-- A path names its attribute by the descriptor. -/
lemma path_congr (core : String) (ha : a.descriptor = d) (sub : Option String) :
    path core a sub = path core ⟨d, []⟩ sub := by
  rw [← ha]
  rfl

/-- The schema of a path is that of its attribute, unless it is left out as the core schema. -/
lemma path_schema (core : String) (sub : Option String) (h : a.schema ≠ "") :
    (path core a sub).schema = if SameName a.schema core then none else some a.schema := by
  have hparts : AttributePath.ofParts (some a.schema) a.name sub =
      ⟨some a.schema, a.name, sub⟩ := by
    simp [AttributePath.ofParts, Option.filter, h]
  rw [path, hparts, AttributePath.relativeTo]
  dsimp only
  split <;> rfl

/-- A path names the attribute that it was made for. -/
lemma target_path (sub : Option String) (h : a.schema ≠ "") :
    (path core a sub).target core = a.key := by
  rw [AttributePath.target, AttributePath.schemaOr, path_schema core sub h, path_name]
  refine Prod.ext ?_ rfl
  split
  · rename_i hsame
    exact SameName.symm hsame
  · rfl

/-- A path names the attribute that it was made for, unless an extension without URI takes an
attribute of another core schema for its own. -/
lemma target_path_of (sub : Option String)
    (h : a.schema = "" → core = "") : (path core a sub).target core = a.key := by
  by_cases hschema : a.schema = ""
  · have hparts : AttributePath.ofParts (some a.schema) a.name sub = ⟨none, a.name, sub⟩ := by
      simp [AttributePath.ofParts, Option.filter, hschema]
    rw [path, hparts, AttributePath.relativeTo, AttributePath.target, AttributePath.schemaOr,
      Option.getD_none, h hschema, ← hschema]
    rfl
  · exact target_path sub hschema

/-- All paths of an attribute have one target. -/
lemma target_path_sub (core : String) (a : Attribute) (m n : Option String) :
    (path core a m).target core = (path core a n).target core := by
  rw [path, path, AttributePath.ofParts, AttributePath.ofParts, AttributePath.relativeTo,
    AttributePath.relativeTo]
  dsimp only
  split
  · split <;> rfl
  · rfl

/-- A path can be written when its names can. -/
lemma wellFormed_path {sub : Option String} (hschema : a.schema ≠ "")
    (hname : AttributePath.IsName a.name)
    (hsub : ∀ name, sub = some name → AttributePath.IsName name) :
    (path core a sub).WellFormed := by
  refine ⟨by rwa [path_name], by rwa [path_sub], fun schema h => ?_⟩
  rw [path_schema core sub hschema] at h
  split at h
  · cases h
  · cases h
    exact hschema

/-- Equal paths of sub-attributes name one sub-attribute. -/
lemma sameName_of_path_beq {m n : String}
    (h : (path core a (some m) == path core a (some n)) = true) : SameName m n := by
  have hkey := congrArg (fun k => k.2.2) (AttributePath.beq_iff.mp h)
  simp only [AttributePath.key, path_sub, Option.map_some, Option.some.injEq] at hkey
  exact hkey

end Change

/-! ## Selected entries -/

namespace Selector

variable {s : Selector} {d : Descriptor} {a : Attribute} {e : Entry}

/-- The selected part of a complex value is a restriction. -/
lemma pickEntry?_eq (s : Selector) (a : Attribute) {v : Value} (hv : v.UniqueNames) :
    (s.pickEntry? a v).map Value.complex = v.restrict? (s.selects a.descriptor) := by
  cases v with
  | simple j => rfl
  | complex e =>
    have hunique := ((Value.uniqueNames_complex e).mp hv).restrict (s.selects a.descriptor)
    have hlist : Entry.ofList (s.pick a (.complex e)) = e.restrict (s.selects a.descriptor) :=
      Entry.ofList_eq (Entry.uniqueNames_iff.mp hunique).1
    rw [Selector.pickEntry?, hlist, Value.restrict?]
    split <;> rfl

/-- A complex value is selected in part when its restriction is not empty. -/
lemma pickEntry?_eq_some_iff (had : a.descriptor = d) {v : Value} (hv : v.UniqueNames) :
    s.pickEntry? a v = some e ↔
      ∃ f, v = .complex f ∧ e = f.restrict (s.selects d) ∧ e.isEmpty = false := by
  have hrestrict : s.pickEntry? a v = some e ↔ v.restrict? (s.selects d) = some (.complex e) := by
    rw [← had, ← s.pickEntry?_eq a hv]
    cases s.pickEntry? a v <;> simp
  rw [hrestrict, Value.restrict?_eq_some_iff]
  refine exists_congr fun f => and_congr_right fun _ => ?_
  rw [Value.complex.injEq]
  exact and_congr_right fun he => by rw [he]

/-- The selected entries of an attribute are the restrictions that are not empty. -/
lemma mem_pickEntries (had : a.descriptor = d) (hau : ∀ v ∈ a.values, v.UniqueNames) :
    e ∈ s.pickEntries a ↔ ∃ f, Value.complex f ∈ a.values ∧ e = f.restrict (s.selects d) ∧
      e.isEmpty = false := by
  rw [pickEntries, List.mem_filterMap]
  constructor
  · rintro ⟨v, hv, hve⟩
    obtain ⟨f, rfl, hf⟩ := (pickEntry?_eq_some_iff had (hau v hv)).mp hve
    exact ⟨f, hv, hf⟩
  · rintro ⟨f, hf, h⟩
    exact ⟨_, hf, (pickEntry?_eq_some_iff had (hau _ hf)).mpr ⟨f, rfl, h⟩⟩

/-- Selected entries have unique names. -/
lemma uniqueNames_of_mem_pickEntries (hau : ∀ v ∈ a.values, v.UniqueNames)
    (h : e ∈ s.pickEntries a) : e.UniqueNames := by
  obtain ⟨f, hf, rfl, -⟩ := (mem_pickEntries rfl hau).mp h
  exact ((Value.uniqueNames_complex f).mp (hau _ hf)).restrict _

/-- The parts of complex values are their restrictions. -/
lemma parts_eq_filterMap {vs : List Value} (hcomplex : ∀ v ∈ vs, v.isComplex = true) :
    s.parts d vs = vs.filterMap (Value.restrict? (s.selects d)) := by
  rw [parts]
  cases hmatches : s.matchesAttribute d.schema d.name with
  | true =>
    rw [if_pos rfl]
    refine List.filterMap_congr fun v hv => ?_
    have hv := hcomplex v hv
    cases v with
    | simple j => cases hv
    | complex e => rfl
  | false =>
    rw [if_neg Bool.false_ne_true, eq_comm, List.filterMap_eq_nil_iff]
    intro v _
    cases v with
    | simple j => rfl
    | complex e =>
      have hempty : (e.restrict (s.selects d)).isEmpty = true := by
        rw [Entry.isEmpty_iff]
        intro k
        rw [Entry.lookup_restrict, selects_of_not_matches hmatches, if_neg Bool.false_ne_true]
      rw [Value.restrict?, if_pos hempty]

/-- The parts of a complex attribute are its selected entries. -/
lemma parts_eq_pickEntries (had : a.descriptor = d) (hau : ∀ v ∈ a.values, v.UniqueNames)
    (hcomplex : ∀ v ∈ a.values, v.isComplex = true) :
    s.parts d a.values = (s.pickEntries a).map Value.complex := by
  rw [parts_eq_filterMap hcomplex, pickEntries, List.map_filterMap]
  refine List.filterMap_congr fun v hv => ?_
  rw [s.pickEntry?_eq a (hau v hv), had]

end Selector

namespace Change

variable {core : String} {s : Selector} {d : Descriptor} {a : Attribute}

/-- Selected entries of a regular attribute are regular values. -/
lemma regular_of_mem_pickEntries (ha : a.Regular d) {es : List Entry}
    (hes : ∀ e ∈ es, e ∈ s.pickEntries a) : ∀ v ∈ es.map Value.complex, v.Regular := by
  intro v hv
  obtain ⟨e, he, rfl⟩ := List.mem_map.mp hv
  have hmem := hes e he
  obtain ⟨_, -, -, hne⟩ := (Selector.mem_pickEntries ha.descriptor_eq ha.uniqueNames).mp hmem
  exact Value.regular_complex.mpr ⟨s.uniqueNames_of_mem_pickEntries ha.uniqueNames hmem, hne⟩

/-! ## Selected sub-attributes -/

/-- The selected sub-attributes of an entry. -/
lemma pick_eq (had : a.descriptor = d) (s : Selector) (e : Entry) : s.pick a (.complex e) =
    e.subAttributes.filter fun x => s.matchesSub d.schema d.name x.name := by
  rw [← had]
  rfl

/-- Selected sub-attributes are sub-attributes of an entry. -/
lemma mem_pick {v : Value} {sub : Attribute} (h : sub ∈ s.pick a v) :
    ∃ e, v = .complex e ∧ sub ∈ e.subAttributes ∧ s.selects a.descriptor sub.nameKey = true := by
  cases v with
  | simple j => simp [Selector.pick] at h
  | complex e =>
    obtain ⟨hmem, hselects⟩ := List.mem_filter.mp h
    exact ⟨e, rfl, hmem, hselects⟩

/-- The selected sub-attributes of all values of an attribute. -/
def picked (s : Selector) (a : Attribute) : List Attribute := a.values.flatMap (s.pick a)

/-- The selected sub-attributes that are removed one by one when the attribute goes. -/
def dropped (s : Selector) (a : Attribute) : List Attribute :=
  if a.descriptor.isMultiValued then (picked s a).filter fun sub => !isNormative sub.name
  else picked s a

/-- What is removed one by one is selected. -/
lemma mem_picked_of_mem_dropped {sub : Attribute} (h : sub ∈ dropped s a) : sub ∈ picked s a := by
  rw [dropped] at h
  split at h
  · exact (List.mem_filter.mp h).1
  · exact h

/-- The deletions of an attribute of the source only. -/
lemma deletionsOf_eq (core : String) (s : Selector) (a : Attribute) :
    deletionsOf core s a =
      if !a.descriptor.isComplex ||
          (a.descriptor.isMultiValued && !s.hasSubFilter a.schema a.name) then
        [path core a none]
      else if a.descriptor.isMultiValued && (dropped s a).isEmpty && !(picked s a).isEmpty then
        [path core a none]
      else (dropped s a).map fun sub => path core a (some sub.name) := rfl

/-- The deletions of an attribute of the source only are paths of it. -/
lemma exists_path_of_mem_deletionsOf {q : AttributePath} (h : q ∈ deletionsOf core s a) :
    ∃ sub, q = path core a sub := by
  rw [deletionsOf_eq] at h
  split at h
  · exact ⟨none, List.mem_singleton.mp h⟩
  · split at h
    · exact ⟨none, List.mem_singleton.mp h⟩
    · obtain ⟨sub, -, rfl⟩ := List.mem_map.mp h
      exact ⟨some sub.name, rfl⟩

end Change

end Scim
