import Scim.Proofs.ChangePaths
import Scim.Proofs.Registration

set_option autoImplicit false

/-!
# The change of one attribute

A change concerns one attribute: its deletions name that attribute or sub-attributes of it, and
its only update is a regular attribute of the same descriptor.  So a body applies it as one step
from the attribute of the source.  This module describes the changes of attributes that conform
to a descriptor, kind by kind.  That they fit their descriptor is shown in
`Scim.Proofs.FittingChanges`, and where their paths and values come from in
`Scim.Proofs.ChangeOrigins`.

## Main definitions

* `Scim.Descriptor.IsMark` — a sub-attribute that marks entries for removal.
* `Scim.Change.applyTo` — what a service provider makes of an attribute.
* `Scim.Change.written` — what a body carries of a change.
* `Scim.Change.ofPair` — the change of an attribute that source, target or both may lack.
* `Scim.Change.gone`, `fresh` — the selected entries that only one of the two has.
* `Scim.Change.Collapses` — the entries of an attribute are removed by removing the attribute.
* `Scim.Change.Kind` — the kinds of changes of an attribute that both resources have.

## Main results

* `Scim.Change.ofPair_cases`, `common_cases` — the forms that a change can have.
* `Scim.Change.ofEntries_of_collapses`, `ofEntries_of_not_collapses` — the change of a
  multi-valued complex attribute.
* `Scim.Change.exists_kind` — every change of conforming attributes is of one of the kinds.
-/

namespace Scim

/-! ## Marks -/

/-- A sub-attribute that marks entries of an attribute for removal. -/
structure Descriptor.IsMark (d : Descriptor) (mark : Attribute) : Prop where
  deleteMarker : d.deleteMarker = .ok mark
  nameKey : mark.nameKey = caseKey operationName
  values : mark.values = [.string deleteOperation]

/-- The sub-attribute `operation` with the text for removals is a mark. -/
lemma Descriptor.isMark_single {d operation : Descriptor}
    (h : d.sub? operationName = some operation) :
    d.IsMark (.single operation (.string deleteOperation)) :=
  ⟨by rw [deleteMarker, h], sameName_of_sub? h, rfl⟩

/-- Entries of a registered resource type can be marked. -/
lemma ResourceType.IsRegistered.exists_mark {t : ResourceType} (h : t.IsRegistered)
    {d : Descriptor} (hd : d ∈ t.descriptors) (hmulti : d.isMultiValued = true)
    (hcomplex : d.isComplex = true) : ∃ mark, d.IsMark mark := by
  obtain ⟨operation, hoperation, -⟩ := h.exists_operation hd hmulti hcomplex
  exact ⟨_, Descriptor.isMark_single hoperation⟩

/-- A mark has unique names. -/
lemma Descriptor.IsMark.uniqueNames {d : Descriptor} {mark : Attribute} (h : d.IsMark mark) :
    mark.UniqueNames := by
  rw [Attribute.uniqueNames_iff, h.values]
  intro v hv
  rw [List.mem_singleton.mp hv]
  exact Value.uniqueNames_simple _

/-- A marked entry without `operation` selects what it was before. -/
lemma Descriptor.IsMark.removal? {d : Descriptor} {mark : Attribute} (h : d.IsMark mark)
    {e : Entry} (he : e.get? operationName = none) :
    (Value.complex (e.insert mark).2).removal? = some e :=
  Value.removal?_insert (v := .string deleteOperation) h.nameKey
    (by rw [Attribute.first?, h.values]; rfl) rfl he

namespace Change

variable {core : String} {s : Selector} {d : Descriptor} {a b : Attribute}
  {o p : Option Attribute}

/-! ## One step -/

/-- What a service provider makes of an attribute, when a body holds its change. -/
def applyTo (c : Change) (o : Option Attribute) : Option Attribute :=
  (c.updates.head?.elim id Attribute.updated)
    ((Keyed.distinct c.deletions).foldl (fun o p => Attribute.removed p.sub o) o)

/-- What a body carries of a change.  Updates that cannot be written are left out, as a service
provider ignores them. -/
def written (c : Change) : Change :=
  ⟨c.deletions, c.updates.filter fun u => !u.descriptor.isReadOnly⟩

/-- The change of an attribute that both resources have, or none if it has a defect. -/
def common (core : String) (s : Selector) (a b : Attribute) : Change :=
  (ofCommon core s a b).toOption.getD unchanged

/-- The change of an attribute that source, target or both may lack. -/
def ofPair (core : String) (s : Selector) : Option Attribute → Option Attribute → Change
  | some a, some b => if s.matchesAttribute a.schema a.name then common core s a b else unchanged
  | some a, none => if s.matchesAttribute a.schema a.name then ofRemoved core s a else unchanged
  | none, some b => if s.matchesAttribute b.schema b.name then ofAdded s b else unchanged
  | none, none => unchanged

@[simp] lemma applyTo_unchanged (o : Option Attribute) : unchanged.applyTo o = o := rfl

/-- What holds of no change and of the changes of attributes that source, target or both have,
holds of all changes. -/
lemma ofPair_cases {P : Change → Prop} (hunchanged : P unchanged)
    (hadded : ∀ b, p = some b → P (ofAdded s b))
    (hremoved : ∀ a, o = some a → P (ofRemoved core s a))
    (hcommon : ∀ a b, o = some a → p = some b → P (common core s a b)) :
    P (ofPair core s o p) := by
  cases o with
  | none =>
    cases p with
    | none => exact hunchanged
    | some b =>
      rw [ofPair]
      split
      · exact hadded b rfl
      · exact hunchanged
  | some a =>
    cases p with
    | none =>
      rw [ofPair]
      split
      · exact hremoved a rfl
      · exact hunchanged
    | some b =>
      rw [ofPair]
      split
      · exact hcommon a b rfl rfl
      · exact hunchanged

/-! ## Updates -/

/-- An update with some values is made. -/
lemma updateWith_of_ne_nil {values : List Value} (h : values ≠ []) :
    updateWith d values = [⟨d, values⟩] := by
  cases values with
  | nil => exact absurd rfl h
  | cons v vs => rfl

/-- An update is left out when it has no values. -/
lemma updateWith_eq_nil_iff {values : List Value} : updateWith d values = [] ↔ values = [] := by
  rw [updateWith]
  cases values <;> simp

/-- An update is the attribute with all its values, of which there are some. -/
lemma mem_updateWith_iff {values : List Value} {u : Attribute} :
    u ∈ updateWith d values ↔ values ≠ [] ∧ u = ⟨d, values⟩ := by
  rw [updateWith]
  cases values <;> simp

/-- There is at most one update. -/
lemma length_updateWith_le (d : Descriptor) (values : List Value) :
    (updateWith d values).length ≤ 1 := by
  cases values <;> simp [updateWith]

/-- An attribute of the target only makes no deletions. -/
@[simp] lemma deletions_ofAdded (s : Selector) (b : Attribute) : (ofAdded s b).deletions = [] := by
  rw [ofAdded]
  split <;> rfl

/-! ## Multi-valued complex attributes -/

/-- The selected entries of the source that the target lacks. -/
def gone (s : Selector) (a b : Attribute) : List Entry :=
  (Keyed.reconcile (Keyed.distinct (s.pickEntries a)) (Keyed.distinct (s.pickEntries b))).1

/-- The selected entries of the target that the source lacks. -/
def fresh (s : Selector) (a b : Attribute) : List Entry :=
  (Keyed.reconcile (Keyed.distinct (s.pickEntries a)) (Keyed.distinct (s.pickEntries b))).2

/-- The entries of an attribute are removed by removing the attribute: there are selected ones,
and the target has none of them. -/
def Collapses (s : Selector) (a b : Attribute) : Prop :=
  s.pickEntries a ≠ [] ∧ ∀ e ∈ s.pickEntries a, ¬ Listed (s.pickEntries b) e

section Entries

variable (ha : a.Regular d) (hb : b.Regular d)

include ha hb

/-- Entries are gone when the source has them and the target does not. -/
lemma mem_gone_iff {e : Entry} : e ∈ gone s a b ↔
    e ∈ Keyed.distinct (s.pickEntries a) ∧ ¬ Listed (s.pickEntries b) e :=
  Keyed.mem_gone_iff Entry.equivOn (fun _ h => s.uniqueNames_of_mem_pickEntries ha.uniqueNames h)
    (fun _ h => s.uniqueNames_of_mem_pickEntries hb.uniqueNames h)

/-- Entries are fresh when the target has them and the source does not. -/
lemma mem_fresh_iff {e : Entry} : e ∈ fresh s a b ↔
    e ∈ Keyed.distinct (s.pickEntries b) ∧ ¬ Listed (s.pickEntries a) e :=
  Keyed.mem_fresh_iff Entry.equivOn (fun _ h => s.uniqueNames_of_mem_pickEntries ha.uniqueNames h)
    (fun _ h => s.uniqueNames_of_mem_pickEntries hb.uniqueNames h)

/-- What is gone was there. -/
lemma gone_subset : ∀ e ∈ gone s a b, e ∈ s.pickEntries a :=
  fun _ he => Keyed.mem_of_mem_distinct ((mem_gone_iff ha hb).mp he).1

/-- What is fresh is in the target. -/
lemma fresh_subset : ∀ e ∈ fresh s a b, e ∈ s.pickEntries b :=
  fun _ he => Keyed.mem_of_mem_distinct ((mem_fresh_iff ha hb).mp he).1

/-- The test for the removal of the whole attribute. -/
lemma collapses_iff : Collapses s a b ↔
    (!(Keyed.distinct (s.pickEntries a)).isEmpty &&
      (gone s a b).length == (Keyed.distinct (s.pickEntries a)).length) = true := by
  rw [Bool.and_eq_true, beq_iff_eq, gone,
    Keyed.length_gone_eq_iff Entry.equivOn
      (fun _ h => s.uniqueNames_of_mem_pickEntries ha.uniqueNames h)
      (fun _ h => s.uniqueNames_of_mem_pickEntries hb.uniqueNames h), Collapses]
  simp

/-- The change when the attribute is removed as a whole. -/
lemma ofEntries_of_collapses (h : Collapses s a b) : ofEntries core s a b =
    .ok ⟨[path core a none], updateWith a.descriptor ((fresh s a b).map .complex)⟩ := by
  rw [collapses_iff ha hb] at h
  exact if_pos h

/-- The change when entries are marked one by one. -/
lemma ofEntries_of_not_collapses (h : ¬ Collapses s a b) {mark : Attribute}
    (hmark : d.IsMark mark) : ofEntries core s a b = .ok ⟨[], updateWith a.descriptor
      ((((gone s a b).map fun e => (e.insert mark).2) ++ fresh s a b).map .complex)⟩ := by
  rw [collapses_iff ha hb] at h
  have hmarked : ((gone s a b).mapM fun e => do
      return (e.insert (← a.descriptor.deleteMarker)).2) =
      Except.ok ((gone s a b).map fun e => (e.insert mark).2) := by
    refine Outcome.mapM_eq_ok fun e _ => ?_
    rw [ha.descriptor_eq, hmark.deleteMarker]
    rfl
  exact (if_neg h).trans (Outcome.bind_eq_ok_iff.mpr ⟨_, hmarked, rfl⟩)

end Entries

/-! ## Single-valued complex attributes -/

/-- The selected sub-attributes of one entry that another lacks. -/
def lost (s : Selector) (a : Attribute) (e f : Entry) : List Attribute :=
  (s.pick a (.complex e)).filter fun sub => !f.contains sub.name

/-- The selected sub-attributes of one entry that differ in another or are not there. -/
def changed (s : Selector) (b : Attribute) (e f : Entry) : Entry :=
  Entry.ofList <| (s.pick b (.complex f)).filter fun sub => !(e.get? sub.name == some sub)

/-- The change of a single entry. -/
lemma ofEntry_eq (core : String) (s : Selector) (a b : Attribute) (e f : Entry) :
    ofEntry core s a b e f = ⟨(lost s a e f).map fun sub => path core a (some sub.name),
      if (changed s b e f).isEmpty then []
      else [.single b.descriptor (.complex (changed s b e f))]⟩ :=
  rfl

/-- The update of a single entry holds what changed in it, unless nothing did. -/
lemma mem_updates_ofEntry_iff {e f : Entry} {u : Attribute} :
    u ∈ (ofEntry core s a b e f).updates ↔ (changed s b e f).isEmpty = false ∧
      u = .single b.descriptor (.complex (changed s b e f)) := by
  rw [ofEntry_eq]
  cases (changed s b e f).isEmpty <;> simp

/-- A changed entry makes at most one update. -/
lemma length_ofEntry_le (core : String) (s : Selector) (a b : Attribute) (e f : Entry) :
    (ofEntry core s a b e f).updates.length ≤ 1 := by
  rw [ofEntry_eq]
  dsimp only
  split <;> simp

/-- The changed sub-attributes in terms of restrictions. -/
lemma changed_eq {e f : Entry} (hf : f.UniqueNames) : changed s b e f =
    ⟨(f.restrict (s.selects b.descriptor)).subAttributes.filter fun sub =>
      !(e.lookup sub.nameKey == some sub)⟩ := by
  have hnodup := (Entry.uniqueNames_iff.mp (hf.restrict (s.selects b.descriptor))).1
  exact Entry.ofList_eq (hnodup.sublist (List.filter_sublist.map _))

/-- The changed sub-attributes repeat no name. -/
lemma uniqueNames_changed {e f : Entry} (hf : f.UniqueNames) : (changed s b e f).UniqueNames := by
  obtain ⟨hnodup, hsubs⟩ := Entry.uniqueNames_iff.mp (hf.restrict (s.selects b.descriptor))
  rw [changed_eq hf, Entry.uniqueNames_iff]
  exact ⟨hnodup.sublist (List.filter_sublist.map _), fun x hx => hsubs x (List.mem_filter.mp hx).1⟩

/-- A changed sub-attribute is one of the target that the source does not have like that. -/
lemma lookup_changed {e f : Entry} (hf : f.UniqueNames) (k : List Char) :
    (changed s b e f).lookup k = if s.selects b.descriptor k then
      (f.lookup k).filter fun sub => !(e.lookup k == some sub) else none := by
  have hnodup := (Entry.uniqueNames_iff.mp (hf.restrict (s.selects b.descriptor))).1
  have hrestrict := Entry.lookup_restrict (s.selects b.descriptor) f k
  rw [changed_eq hf, Entry.lookup, Keyed.get?_filter hnodup]
  change ((f.restrict (s.selects b.descriptor)).lookup k).filter _ = _
  rw [hrestrict]
  split
  · cases hfound : f.lookup k with
    | none => rfl
    | some x =>
      have hkey := Entry.nameKey_of_lookup hfound
      simp [Option.filter, hkey]
  · rfl

/-! ## Kind by kind -/

section Common

variable (ha : a.descriptor = d)

/-- Equal attributes need no change. -/
lemma common_of_beq (h : (a == b) = true) : common core s a b = unchanged := by
  rw [common, ofCommon, if_pos h]
  rfl

/-- A change without a defect is the change. -/
lemma common_of_ok {c : Change} (h : ofCommon core s a b = .ok c) : common core s a b = c := by
  rw [common, h]
  rfl

include ha

/-- Different values of a simple single-valued attribute. -/
lemma ofCommon_simple (h : ¬ (a == b) = true) (hmulti : d.isMultiValued = false)
    (hcomplex : d.isComplex = false) : ofCommon core s a b = .ok ⟨[], [b]⟩ := by
  rw [ofCommon, if_neg h, ha, hmulti, hcomplex]
  rfl

/-- Different values of a complex single-valued attribute. -/
lemma ofCommon_complex (h : ¬ (a == b) = true) (hmulti : d.isMultiValued = false)
    (hcomplex : d.isComplex = true) : ofCommon core s a b = .ok (ofComplex core s a b) := by
  rw [ofCommon, if_neg h, ha, hmulti, hcomplex]
  rfl

/-- Different values of a simple multi-valued attribute. -/
lemma ofCommon_scalars (h : ¬ (a == b) = true) (hmulti : d.isMultiValued = true)
    (hcomplex : d.isComplex = false) : ofCommon core s a b = .ok (ofScalars core a b) := by
  rw [ofCommon, if_neg h, ha, hmulti, hcomplex]
  rfl

/-- Different values of a complex multi-valued attribute. -/
lemma ofCommon_entries (h : ¬ (a == b) = true) (hmulti : d.isMultiValued = true)
    (hcomplex : d.isComplex = true) : ofCommon core s a b = ofEntries core s a b := by
  rw [ofCommon, if_neg h, ha, hmulti, hcomplex]
  rfl

end Common

/-- The change of a conforming single complex value is that of its entry. -/
lemma ofComplex_eq {e f : Entry} (ha : a.values = [.complex e]) (hb : b.values = [.complex f]) :
    ofComplex core s a b = ofEntry core s a b e f := by
  rw [ofComplex, Attribute.first?, Attribute.first?, ha, hb]
  rfl

/-! ## What an attribute can change into -/

/-- The entries of an attribute are removed with it or one by one, and what has to be there is one
update. -/
lemma exists_of_ofEntries {c : Change} (h : ofEntries core s a b = .ok c) :
    ∃ paths values, paths ⊆ [path core a none] ∧ c = ⟨paths, updateWith a.descriptor values⟩ := by
  rw [ofEntries] at h
  split at h
  · cases h
    exact ⟨_, _, List.Subset.refl _, rfl⟩
  · obtain ⟨marked, -, h⟩ := Outcome.bind_eq_ok_iff.mp h
    cases h
    exact ⟨_, _, List.nil_subset _, rfl⟩

/-- What holds of all forms of changes holds of the change of an attribute that both resources
have, whatever it looks like: it may not conform, and there may be a defect. -/
lemma common_cases {P : Change → Prop} (hunchanged : P unchanged)
    (hwhole : ∀ paths, paths ⊆ [path core a none] → P ⟨paths, [b]⟩)
    (hwith : ∀ paths values, paths ⊆ [path core a none] →
      P ⟨paths, updateWith a.descriptor values⟩)
    (hentry : ∀ e f, P (ofEntry core s a b e f)) (hremoved : P (ofRemoved core s a))
    (hadded : P (ofAdded s b)) : P (common core s a b) := by
  cases h : ofCommon core s a b with
  | error e =>
    rw [common, h]
    exact hunchanged
  | ok c =>
    rw [common_of_ok h]
    rw [ofCommon] at h
    split at h
    · cases h
      exact hunchanged
    · split at h
      · -- several values, complex or simple
        split at h
        · obtain ⟨paths, values, hpaths, rfl⟩ := exists_of_ofEntries h
          exact hwith paths values hpaths
        · cases h
          rw [ofScalars]
          split
          · exact hwith _ _ (List.nil_subset _)
          · exact hwhole _ (List.Subset.refl _)
      · -- a single value; the first of a complex attribute need not be an entry
        split at h
        · cases h
          rw [ofComplex]
          split
          · exact hentry _ _
          · exact hwhole _ (List.nil_subset _)
          · exact hremoved
          · exact hadded
        · cases h
          exact hwhole _ (List.nil_subset _)

/-- The entry of a conforming single-valued complex attribute. -/
lemma exists_entry (ha : a.Conforms d) (hmulti : d.isMultiValued = false)
    (hcomplex : d.isComplex = true) : ∃ e, a.values = [.complex e] ∧ e.Conforms d := by
  obtain ⟨v, hv⟩ := List.length_eq_one_iff.mp (ha.arity.single hmulti)
  obtain ⟨e, rfl, he⟩ := ha.entries hcomplex v (by simp [hv])
  exact ⟨e, hv, he⟩

/-- The change of an attribute that both resources have, by the kind of the attribute and of the
difference. -/
inductive Kind (core : String) (s : Selector) (d : Descriptor) (a b : Attribute) : Change → Prop
  /-- Equal attributes do not change. -/
  | same : Kind core s d a b unchanged
  /-- A single scalar is replaced. -/
  | scalar (hmulti : d.isMultiValued = false) (hcomplex : d.isComplex = false) :
      Kind core s d a b ⟨[], [b]⟩
  /-- A single entry loses some sub-attributes and gets others. -/
  | entry {e f : Entry} (hmulti : d.isMultiValued = false) (hcomplex : d.isComplex = true)
      (ha : a.values = [.complex e]) (hb : b.values = [.complex f]) :
      Kind core s d a b (ofEntry core s a b e f)
  /-- Scalars are added to those that are there. -/
  | more (hmulti : d.isMultiValued = true) (hcomplex : d.isComplex = false) :
      Kind core s d a b ⟨[], updateWith d
        (Keyed.reconcile (Keyed.distinct a.values) (Keyed.distinct b.values)).2⟩
  /-- Scalars are replaced by others, as one of them has to go. -/
  | replaced (hmulti : d.isMultiValued = true) (hcomplex : d.isComplex = false) :
      Kind core s d a b ⟨[path core a none], [b]⟩
  /-- All selected entries have to go, and with them the attribute. -/
  | collapsed (hmulti : d.isMultiValued = true) (hcomplex : d.isComplex = true)
      (h : Collapses s a b) :
      Kind core s d a b ⟨[path core a none], updateWith d ((fresh s a b).map .complex)⟩
  /-- The entries that have to go are marked. -/
  | marked {mark : Attribute} (hmulti : d.isMultiValued = true) (hcomplex : d.isComplex = true)
      (h : ¬ Collapses s a b) (hmark : d.IsMark mark) :
      Kind core s d a b ⟨[], updateWith d
        ((((gone s a b).map fun e => (e.insert mark).2) ++ fresh s a b).map .complex)⟩

section Kind

variable (core s) (ha : a.Conforms d) (hb : b.Conforms d)
  (hmark : d.isMultiValued = true → d.isComplex = true → ∃ mark, d.IsMark mark)

include ha hb hmark

/-- **The change of conforming attributes has no defect** and is of one of the kinds. -/
theorem exists_kind : ∃ c, ofCommon core s a b = .ok c ∧ Kind core s d a b c := by
  have had := ha.descriptor_eq
  by_cases hbeq : (a == b) = true
  · exact ⟨unchanged, by rw [ofCommon, if_pos hbeq], .same⟩
  cases hmulti : d.isMultiValued <;> cases hcomplex : d.isComplex
  · exact ⟨_, ofCommon_simple had hbeq hmulti hcomplex, .scalar hmulti hcomplex⟩
  · obtain ⟨e, hav, -⟩ := exists_entry ha hmulti hcomplex
    obtain ⟨f, hbv, -⟩ := exists_entry hb hmulti hcomplex
    refine ⟨_, ofCommon_complex had hbeq hmulti hcomplex, ?_⟩
    rw [ofComplex_eq hav hbv]
    exact .entry hmulti hcomplex hav hbv
  · refine ⟨_, ofCommon_scalars had hbeq hmulti hcomplex, ?_⟩
    rw [ofScalars, had]
    split
    · exact .more hmulti hcomplex
    · exact .replaced hmulti hcomplex
  · obtain ⟨mark, hmark⟩ := hmark hmulti hcomplex
    rw [ofCommon_entries had hbeq hmulti hcomplex, ← had]
    by_cases hcollapses : Collapses s a b
    · refine ⟨_, ofEntries_of_collapses ha.regular hb.regular hcollapses, ?_⟩
      rw [had]
      exact .collapsed hmulti hcomplex hcollapses
    · refine ⟨_, ofEntries_of_not_collapses ha.regular hb.regular hcollapses hmark, ?_⟩
      rw [had]
      exact .marked hmulti hcomplex hcollapses hmark

/-- The change of conforming attributes has no defect. -/
lemma ofCommon_eq_common : ofCommon core s a b = .ok (common core s a b) := by
  obtain ⟨c, hc, -⟩ := exists_kind core s ha hb hmark
  rw [common_of_ok hc, hc]

end Kind

/-! ## Attributes that take part -/

/-- Whether an attribute takes part depends on its descriptor. -/
lemma matchesAttribute_of_conforms (s : Selector) (ha : a.Conforms d) :
    s.matchesAttribute a.schema a.name = s.matchesAttribute d.schema d.name := by
  rw [Attribute.schema, Attribute.name, ha.descriptor_eq]

section Matches

variable (core : String) (hmatches : s.matchesAttribute d.schema d.name = true)

include hmatches

/-- The change of an attribute of the target only. -/
lemma ofPair_added (hb : b.Conforms d) : ofPair core s none (some b) = ofAdded s b := by
  rw [ofPair, matchesAttribute_of_conforms s hb, if_pos hmatches]

/-- The change of an attribute of the source only. -/
lemma ofPair_removed (ha : a.Conforms d) : ofPair core s (some a) none = ofRemoved core s a := by
  rw [ofPair, matchesAttribute_of_conforms s ha, if_pos hmatches]

/-- The change of an attribute that both resources have. -/
lemma ofPair_common (ha : a.Conforms d) (b : Attribute) :
    ofPair core s (some a) (some b) = common core s a b := by
  rw [ofPair, matchesAttribute_of_conforms s ha, if_pos hmatches]

end Matches

/-- An attribute that does not take part does not change. -/
lemma ofPair_of_not_matches (core : String) (ho : ∀ a, o = some a → a.Conforms d)
    (hp : ∀ b, p = some b → b.Conforms d)
    (h : s.matchesAttribute d.schema d.name = false) : ofPair core s o p = unchanged := by
  cases o with
  | none =>
    cases p with
    | none => rfl
    | some b =>
      rw [ofPair, matchesAttribute_of_conforms s (hp b rfl), h, if_neg Bool.false_ne_true]
  | some a =>
    cases p <;>
      rw [ofPair, matchesAttribute_of_conforms s (ho a rfl), h, if_neg Bool.false_ne_true]

end Change

end Scim
