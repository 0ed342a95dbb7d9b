import Scim.Proofs.Reproduction

set_option autoImplicit false

/-!
# What a selector keeps out of a difference

A selector restricts a difference to some attributes and sub-attributes.  The restriction is made
anew for every kind of change, and some changes copy values of the target.  Still nothing that is
not selected is mentioned, apart from the marks of entries that have to go, and applying the body
leaves every other attribute as it was.

## Main definitions

* `Scim.Selector.CoversPath`, `CoversUpdate` — a path or an update mentions selected parts only,
  apart from marks.
* `Scim.Change.Confined` — a change mentions only selected sub-attributes of its attribute.

## Main results

* `Scim.Change.confined_ofPair` — every change is confined.
* `Scim.Diff.confined` — so is a whole difference, and its body touches nothing else.
-/

namespace Scim

namespace Selector

variable {s : Selector}

/-- A path, in a resource with the given core schema, names an attribute that takes part, and if
it names a sub-attribute, one that takes part. -/
structure CoversPath (s : Selector) (core : String) (p : AttributePath) : Prop where
  selected : s.matchesAttribute (p.schemaOr core) p.name = true
  sub : ∀ sub, p.sub = some sub → s.matchesSub (p.schemaOr core) p.name sub = true

/-- A sub-attribute may stand in an update of an attribute: it takes part, or it is the mark for the
removal of an entry of a multi-valued attribute. -/
def AllowsSub (s : Selector) (d : Descriptor) (sub : Attribute) : Prop :=
  s.matchesSub d.schema d.name sub.name = true ∨
    d.isMultiValued = true ∧ d.deleteMarker = .ok sub

/-- An update is one of an attribute that takes part, and its entries hold nothing but
sub-attributes that take part and marks. -/
structure CoversUpdate (s : Selector) (u : Attribute) : Prop where
  selected : s.matchesAttribute u.schema u.name = true
  sub : ∀ e, Value.complex e ∈ u.values → ∀ sub ∈ e.subAttributes, s.AllowsSub u.descriptor sub

/-! ## Questions to a selector -/

section Congr

variable {schema schema' name name' : String} (hschema : caseKey schema = caseKey schema')
  (hname : caseKey name = caseKey name')

include hschema hname

/-- What is selected of an attribute does not depend on the spelling of its names. -/
lemma selection?_congr : s.selection? schema name = s.selection? schema' name' := by
  cases s with
  | all => rfl
  | named index => rw [selection?, selection?, hschema, hname]

/-- Whether an attribute takes part does not depend on the spelling of its names. -/
lemma matchesAttribute_congr :
    s.matchesAttribute schema name = s.matchesAttribute schema' name' := by
  rw [matchesAttribute, matchesAttribute, selection?_congr hschema hname]

/-- Whether a sub-attribute takes part does not depend on the spelling of the names. -/
lemma matchesSub_congr (sub : String) :
    s.matchesSub schema name sub = s.matchesSub schema' name' sub := by
  rw [matchesSub, matchesSub, selection?_congr hschema hname]

end Congr

end Selector

/-! ## One attribute -/

namespace Change

variable {core : String} {s : Selector} {d : Descriptor} {a b : Attribute}
  {o p : Option Attribute}

/-- A change mentions only sub-attributes of its attribute that are selected, apart from marks. -/
structure Confined (s : Selector) (d : Descriptor) (c : Change) : Prop where
  deletions : ∀ p ∈ c.deletions, ∀ sub, p.sub = some sub → s.matchesSub d.schema d.name sub = true
  updates : ∀ u ∈ c.updates, ∀ e, Value.complex e ∈ u.values → ∀ sub ∈ e.subAttributes,
    s.AllowsSub d sub

/-- The removal of the attribute as a whole names no sub-attribute. -/
lemma matchesSub_of_path {path : AttributePath} (h : path ∈ [Change.path core a none]) :
    ∀ sub, path.sub = some sub → s.matchesSub d.schema d.name sub = true := by
  intro sub hsub
  rw [List.mem_singleton.mp h, path_sub] at hsub
  cases hsub

/-- The removal of selected sub-attributes. -/
lemma matchesSub_of_picked (had : a.descriptor = d) {subs : List Attribute}
    (hsubs : ∀ sub ∈ subs, ∃ v, sub ∈ s.pick a v) {path : AttributePath}
    (h : path ∈ subs.map fun sub => Change.path core a (some sub.name)) :
    ∀ sub, path.sub = some sub → s.matchesSub d.schema d.name sub = true := by
  intro sub hsub
  obtain ⟨x, hx, rfl⟩ := List.mem_map.mp h
  rw [path_sub] at hsub
  cases hsub
  obtain ⟨v, hv⟩ := hsubs x hx
  obtain ⟨-, -, -, hselects⟩ := mem_pick hv
  rw [← had]
  exact hselects

/-- The deletions of an attribute of the source only. -/
lemma matchesSub_ofRemoved (had : a.descriptor = d) {path : AttributePath}
    (h : path ∈ (ofRemoved core s a).deletions) :
    ∀ sub, path.sub = some sub → s.matchesSub d.schema d.name sub = true := by
  rw [ofRemoved, deletionsOf_eq] at h
  dsimp only at h
  split at h
  · exact matchesSub_of_path h
  · split at h
    · exact matchesSub_of_path h
    · refine matchesSub_of_picked had (fun sub hsub => ?_) h
      obtain ⟨v, -, hv⟩ := List.mem_flatMap.mp (mem_picked_of_mem_dropped hsub)
      exact ⟨v, hv⟩

/-- The deletions of the change of an attribute that both resources have. -/
lemma matchesSub_common (ha : a.Conforms d) (hb : b.Conforms d)
    (hmark : d.isMultiValued = true → d.isComplex = true → ∃ mark, d.IsMark mark)
    {path : AttributePath} (h : path ∈ (common core s a b).deletions) :
    ∀ sub, path.sub = some sub → s.matchesSub d.schema d.name sub = true := by
  obtain ⟨c, hc, hkind⟩ := exists_kind core s ha hb hmark
  rw [common_of_ok hc] at h
  cases hkind with
  | same | scalar | more | marked => exact absurd h List.not_mem_nil
  | entry =>
    exact matchesSub_of_picked ha.descriptor_eq
      (fun sub hsub => ⟨_, (List.mem_filter.mp hsub).1⟩) h
  | replaced | collapsed => exact matchesSub_of_path h

/-- What an update writes takes part, apart from marks. -/
lemma Origin.allowsSub {e : Entry} (h : Origin s d o p (.complex e))
    (hp : ∀ b, p = some b → b.Conforms d) : ∀ sub ∈ e.subAttributes, s.AllowsSub d sub := by
  have hselected : ∀ {f : Entry}, ∀ sub ∈ (f.restrict (s.selects d)).subAttributes,
      s.AllowsSub d sub := fun sub hsub => .inl (List.mem_filter.mp hsub).2
  intro sub hsub
  cases h with
  | scalar hb hcomplex hv =>
    obtain ⟨j, hj, -⟩ := (hp _ hb).scalars hcomplex _ hv
    cases hj
  | part _ _ _ _ hpart => exact hselected sub (hpart.subset hsub)
  | marked _ hmulti _ _ _ hmark =>
    rcases Keyed.mem_insert hsub with rfl | hsub
    · exact .inr ⟨hmulti, hmark.deleteMarker⟩
    · exact hselected sub hsub

/-- **Every change is confined** to the selected sub-attributes. -/
theorem confined_ofPair (core : String) (s : Selector) (ho : ∀ a, o = some a → a.Conforms d)
    (hp : ∀ b, p = some b → b.Conforms d)
    (hmark : d.isMultiValued = true → d.isComplex = true → ∃ mark, d.IsMark mark) :
    (ofPair core s o p).Confined s d where
  deletions := by
    refine ofPair_cases (P := fun c => ∀ path ∈ c.deletions, ∀ sub, path.sub = some sub →
      s.matchesSub d.schema d.name sub = true) (fun _ h => absurd h List.not_mem_nil)
      (fun b _ path h => ?_) (fun a ha _ h => matchesSub_ofRemoved (ho a ha).descriptor_eq h)
      fun a b ha hb _ h => matchesSub_common (ho a ha) (hp b hb) hmark h
    rw [deletions_ofAdded] at h
    exact absurd h List.not_mem_nil
  updates := fun u hu _ he => (origin_ofPair core s ho hp hmark u hu _ he).allowsSub hp

/-- Only an attribute of the source makes deletions. -/
lemma exists_source_of_deletion {path : AttributePath} :
    path ∈ (ofPair core s o p).deletions → ∃ a, o = some a := by
  refine ofPair_cases (P := fun c => path ∈ c.deletions → ∃ a, o = some a)
    (fun h => absurd h List.not_mem_nil) (fun b _ h => ?_) (fun a ha _ => ⟨a, ha⟩)
    fun a _ ha _ _ => ⟨a, ha⟩
  rw [deletions_ofAdded] at h
  exact absurd h List.not_mem_nil

end Change

/-! ## Whole differences -/

namespace Diff

open Standard

variable {t : ResourceType} {source target : AttributeMap} {s : Selector}

section Between

variable (hregistered : t.IsRegistered) (hs : source.Conforms t) (ht : target.Conforms t)

include hs ht

/-- An attribute whose change mentions something takes part. -/
lemma matches_of_ofPair_ne (s : Selector) {k : List Char × List Char} {d : Descriptor}
    (hd : t.descriptor? k = some d)
    (h : Change.ofPair t.core s (source.lookup k) (target.lookup k) ≠ Change.unchanged) :
    s.matchesAttribute d.schema d.name = true := by
  by_contra hnot
  exact h (Change.ofPair_of_not_matches t.core (hs.conforms_of_lookup hd)
    (ht.conforms_of_lookup hd) (by simpa using hnot))

include hregistered

/-- The change of a key is confined. -/
lemma confined_of_descriptor? (s : Selector) {k : List Char × List Char} {d : Descriptor}
    (hd : t.descriptor? k = some d) :
    (Change.ofPair t.core s (source.lookup k) (target.lookup k)).Confined s d :=
  Change.confined_ofPair t.core s (hs.conforms_of_lookup hd) (ht.conforms_of_lookup hd)
    (hregistered.exists_mark (ResourceType.mem_of_descriptor? hd))

/-- Updates mention selected parts only. -/
lemma coversUpdate_of_mem_allUpdates {u : Attribute} (hu : u ∈ allUpdates t.core s source target) :
    s.CoversUpdate u := by
  obtain ⟨d, hd, hmem⟩ := exists_of_mem_allUpdates hs ht s hu
  have hdescriptor := ((fits_ofPair hregistered hs ht s hd).updates u hmem).descriptor_eq
  subst hdescriptor
  refine ⟨matches_of_ofPair_ne hs ht s hd fun hnone => ?_,
    (confined_of_descriptor? hregistered hs ht s hd).updates u hmem⟩
  rw [hnone] at hmem
  exact List.not_mem_nil hmem

/-- Deletions name attributes of the source, and selected parts only. -/
lemma coversPath_of_mem_allDeletions (haddressable : t.IsAddressable) {p : AttributePath}
    (hp : p ∈ allDeletions t.core s source target) :
    source.contains (p.schemaOr t.core) p.name = true ∧ s.CoversPath t.core p := by
  obtain ⟨d, hd, hmem⟩ := exists_of_mem_allDeletions hregistered hs ht haddressable s hp
  have hkey : (caseKey d.schema, caseKey d.name) = (caseKey (p.schemaOr t.core), caseKey p.name) :=
    ResourceType.key_of_descriptor? hd
  obtain ⟨hschema, hname⟩ := Prod.mk.inj hkey
  obtain ⟨a, ha⟩ := Change.exists_source_of_deletion hmem
  refine ⟨?_, ?_, fun sub hsub => ?_⟩
  · rw [AttributeMap.contains_eq_lookup]
    exact Option.isSome_iff_exists.mpr ⟨a, ha⟩
  · rw [← Selector.matchesAttribute_congr hschema hname]
    refine matches_of_ofPair_ne hs ht s hd fun hnone => ?_
    rw [hnone] at hmem
    exact List.not_mem_nil hmem
  · rw [← Selector.matchesSub_congr hschema hname]
    exact (confined_of_descriptor? hregistered hs ht s hd).deletions p hmem sub hsub

end Between

/-- **A difference stays within its selector.**  For every registered resource type, any two of its
resources and any selector, the difference exists, its body can be written, and a service provider
can apply the body to the source.  Each written deletion reads as a path of an attribute of the
source that takes part, and of a sub-attribute that takes part if it names one.  Each update is one
of an attribute that takes part, and holds nothing but sub-attributes that take part and marks.
Every attribute that does not take part is afterwards exactly what it was. -/
theorem confined (hregistered : t.IsRegistered) (haddressable : t.IsAddressable)
    (hmeta : t.HasCommonMeta) {sourceJson targetJson : Json}
    (hsource : AttributeMap.ofJson t sourceJson = .ok source)
    (htarget : AttributeMap.ofJson t targetJson = .ok target) (s : Selector) :
    ∃ d body m, between t source target s = .ok d ∧ d.patch = .ok body ∧
      AttributeMap.patched? t.core source body = some m ∧
      (∀ text ∈ d.deletedPaths, ∃ p, AttributePath.parse text = .ok p ∧
        source.contains (p.schemaOr t.core) p.name = true ∧ s.CoversPath t.core p) ∧
      (∀ u ∈ d.updates, s.CoversUpdate u) ∧
      ∀ schema name, s.matchesAttribute schema name = false →
        m.get? schema name = source.get? schema name := by
  have hs := AttributeMap.conforms_of_ofJson hsource
  have ht := AttributeMap.conforms_of_ofJson htarget
  have hbetween := between_eq hregistered hs ht s
  obtain ⟨d, body, hbetween', hpatch, happly⟩ :=
    exists_applied hregistered hs ht haddressable hmeta s
  obtain ⟨m, hm, -, hlookup⟩ := happly source hs.regular
  refine ⟨d, body, m, hbetween', hpatch, hm, ?_⟩
  rw [hbetween] at hbetween'
  cases hbetween'
  refine ⟨fun text htext => ?_, fun u hu => coversUpdate_of_mem_allUpdates hregistered hs ht hu,
    fun schema name hnot => ?_⟩
  · obtain ⟨p, hp, rfl⟩ := List.mem_map.mp htext
    have hmem := Keyed.mem_of_mem_distinct hp
    have hwritten := wellFormed_of_mem_allDeletions hregistered hs ht haddressable s p hmem
    exact ⟨p, AttributePath.parse_render hwritten,
      coversPath_of_mem_allDeletions hregistered hs ht haddressable hmem⟩
  · rw [AttributeMap.get?_eq_lookup, AttributeMap.get?_eq_lookup, hlookup]
    have hunchanged : Change.ofPair t.core s (source.lookup (caseKey schema, caseKey name))
        (target.lookup (caseKey schema, caseKey name)) = Change.unchanged := by
      cases hd : t.descriptor? (caseKey schema, caseKey name) with
      | none => exact ofPair_of_none hs ht s hd
      | some d =>
        have hkey : (caseKey d.schema, caseKey d.name) = (caseKey schema, caseKey name) :=
          ResourceType.key_of_descriptor? hd
        obtain ⟨hschema, hname⟩ := Prod.mk.inj hkey
        rw [← Selector.matchesAttribute_congr hschema hname] at hnot
        exact Change.ofPair_of_not_matches t.core (hs.conforms_of_lookup hd)
          (ht.conforms_of_lookup hd) hnot
    rw [hunchanged]
    rfl

/-- Two groups with different names are compared by `$ref` and `value` of their members.  A member
that has to go is marked, and the name stays what it was. -/
theorem confined_members : ∃ d body m,
    between groupType (namedGroup "a" [[("type", "User"), ("value", "1")], [("value", "2")]])
      (namedGroup "b" [[("value", "2")]]) refAndValue = .ok d ∧
    d.patch = .ok body ∧
    AttributeMap.patched? groupType.core
      (namedGroup "a" [[("type", "User"), ("value", "1")], [("value", "2")]]) body = some m ∧
    (∀ u ∈ d.updates, refAndValue.CoversUpdate u) ∧
    m.get? groupId "displayName" =
      some (.single displayNameDescriptor (.string "a")) := by
  have hsource : AttributeMap.ofJson groupType
      (namedGroupJson "a" [[("type", "User"), ("value", "1")], [("value", "2")]]) =
      .ok (namedGroup "a" [[("type", "User"), ("value", "1")], [("value", "2")]]) := rfl
  have htarget : AttributeMap.ofJson groupType (namedGroupJson "b" [[("value", "2")]]) =
      .ok (namedGroup "b" [[("value", "2")]]) := rfl
  obtain ⟨d, body, m, hbetween, hpatch, hm, -, hupdates, hrest⟩ :=
    confined isRegistered_groupType isAddressable_groupType hasCommonMeta_groupType hsource htarget
      refAndValue
  exact ⟨d, body, m, hbetween, hpatch, hm, hupdates, hrest groupId "displayName" rfl⟩

end Diff

end Scim
