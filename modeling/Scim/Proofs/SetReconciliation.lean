import Scim.Proofs.AlikeChanges
import Scim.Proofs.AttributeShares

set_option autoImplicit false

/-!
# Multi-valued attributes as sets

The values of a multi-valued attribute are compared by walking over the target, erasing what is
found from a list of the values of the source and collecting the rest.  What comes of it is stated
here in terms of sets: what either side lacks, in the order in which it first occurs.  The only
choice that is left is between marking entries one by one and removing the attribute as a whole.

## Main definitions

* `Scim.Selector.shown` — the selected parts of the entries of an attribute, each once.
* `Scim.Change.ofEntrySets` — what has to change between two lists of entries, seen as sets.
* `Scim.Change.ofValueSets` — the same for simple values, which cannot be marked.

## Main results

* `Scim.Change.ofCommon_eq_ofEntrySets`, `ofCommon_eq_ofValueSets` — one attribute.
* `Scim.Diff.share_of_entries`, `share_of_values` — a whole difference.
-/

namespace Scim

/-! ## Entries -/

namespace Selector

variable {s : Selector} {d : Descriptor} {a : Attribute}

/-- The selected parts of the entries of an attribute that are not empty, each once, in the order
in which they first occur. -/
def shown (s : Selector) (a : Attribute) : List Entry :=
  Keyed.distinct ((a.entries.map (s.projectEntry a)).filter fun e => !e.isEmpty)

/-- The parts that are shown are the picked ones, without repetitions. -/
lemma shown_eq (ha : ∀ v ∈ a.values, v.UniqueNames) :
    s.shown a = Keyed.distinct (s.pickEntries a) := by
  rw [shown, pickEntries, Attribute.entries, List.map_filterMap, List.filter_filterMap]
  congr 1
  refine List.filterMap_congr fun v hv => ?_
  cases v with
  | simple j => rfl
  | complex e =>
    have hunique := ((Value.uniqueNames_complex e).mp (ha _ hv)).restrict (s.selects a.descriptor)
    have hpart : Entry.ofList (s.pick a (.complex e)) = s.projectEntry a e :=
      Entry.ofList_eq (Entry.uniqueNames_iff.mp hunique).1
    rw [Selector.pickEntry?, hpart]
    cases hempty : (s.projectEntry a e).isEmpty <;> simp [Value.entry?, Option.filter, hempty]

/-- The parts that are shown have unique names. -/
lemma uniqueNames_of_mem_shown (ha : ∀ v ∈ a.values, v.UniqueNames) :
    ∀ e ∈ s.shown a, e.UniqueNames := by
  intro e he
  rw [shown_eq ha] at he
  exact s.uniqueNames_of_mem_pickEntries ha (Keyed.mem_of_mem_distinct he)

end Selector

namespace Change

variable {core : String} {s : Selector} {d : Descriptor} {a b mark : Attribute}

/-- What has to change so that the entries of an attribute, seen as a set, become others.  When
the sets are equal, nothing has to.  When they share nothing, and there are old entries at all,
the attribute is removed and gets the new entries, if there are any.  Otherwise each entry that
has to go is marked, and those that are new follow. -/
def ofEntrySets (core : String) (a mark : Attribute) (old new : List Entry) : Change :=
  if SameListed old new then unchanged
  else if old ≠ [] ∧ ∀ e ∈ old, ¬ Listed new e then
    ⟨[path core a none], if new = [] then [] else [⟨a.descriptor, new.map .complex⟩]⟩
  else
    ⟨[], [⟨a.descriptor, ((old.removeAll new).map (fun e => (e.insert mark).2) ++
      new.removeAll old).map .complex⟩]⟩

section Entries

variable (ha : a.Conforms d) (hb : b.Conforms d)

include ha hb

/-- The attribute goes as a whole when entries are shown, and the target shows none of them. -/
lemma collapses_iff_shown : Collapses s a b ↔
    s.shown a ≠ [] ∧ ∀ e ∈ s.shown a, ¬ Listed (s.shown b) e := by
  have hau := ha.regular.uniqueNames
  have hbu := hb.regular.uniqueNames
  rw [Collapses, Selector.shown_eq hau, Selector.shown_eq hbu, ne_eq, ne_eq,
    Keyed.distinct_eq_nil_iff, forall_not_listed_distinct_iff Entry.equivOn
      (fun _ he => s.uniqueNames_of_mem_pickEntries hau he)
      fun _ he => s.uniqueNames_of_mem_pickEntries hbu he]

/-- What is gone and what is fresh are the differences of what is shown. -/
lemma gone_and_fresh_eq : gone s a b = (s.shown a).removeAll (s.shown b) ∧
    fresh s a b = (s.shown b).removeAll (s.shown a) := by
  have hau := ha.regular.uniqueNames
  have hbu := hb.regular.uniqueNames
  rw [gone, fresh, Selector.shown_eq hau, Selector.shown_eq hbu,
    Keyed.reconcile_eq_removeAll Entry.equivOn
      (fun _ he => s.uniqueNames_of_mem_pickEntries hau he)
      fun _ he => s.uniqueNames_of_mem_pickEntries hbu he]
  exact ⟨rfl, rfl⟩

/-- Equal attributes show the same. -/
lemma sameListed_shown_of_beq (h : (a == b) = true) : SameListed (s.shown a) (s.shown b) := by
  have hau := ha.regular.uniqueNames
  have hbu := hb.regular.uniqueNames
  have hsame := Value.sameSet_of_forall₂ hau hbu (Attribute.beq_iff.mp h).2
  rw [Selector.shown_eq hau, Selector.shown_eq hbu, sameListed_distinct_iff Entry.equivOn
    (fun _ he => s.uniqueNames_of_mem_pickEntries hau he)
    fun _ he => s.uniqueNames_of_mem_pickEntries hbu he]
  exact sameListed_pickEntries ha hb hsame s

/-- **Entries change as sets.** -/
theorem ofCommon_eq_ofEntrySets (core : String) (hmulti : d.isMultiValued = true)
    (hcomplex : d.isComplex = true) (hmark : d.IsMark mark) :
    ofCommon core s a b = .ok (ofEntrySets core a mark (s.shown a) (s.shown b)) := by
  have hSU := Selector.uniqueNames_of_mem_shown (s := s) ha.regular.uniqueNames
  have hTU := Selector.uniqueNames_of_mem_shown (s := s) hb.regular.uniqueNames
  obtain ⟨hgone, hfresh⟩ := gone_and_fresh_eq (s := s) ha hb
  by_cases hbeq : (a == b) = true
  · rw [ofCommon, if_pos hbeq, ofEntrySets, if_pos (sameListed_shown_of_beq ha hb hbeq)]
  rw [ofCommon_entries ha.descriptor_eq hbeq hmulti hcomplex]
  by_cases hcollapses : Collapses s a b
  · obtain ⟨hne, hnot⟩ := (collapses_iff_shown ha hb).mp hcollapses
    have hdiffer : ¬ SameListed (s.shown a) (s.shown b) := by
      intro hsame
      obtain ⟨e, he⟩ := List.exists_mem_of_ne_nil _ hne
      exact hnot e he (hsame.1 e he)
    have hall : fresh s a b = s.shown b := hfresh.trans <|
      (removeAll_eq_self_iff Entry.equivOn hTU hSU).mpr
        (forall_not_listed_symm Entry.equivOn hSU hTU hnot)
    rw [ofEntries_of_collapses ha.regular hb.regular hcollapses, hall, ofEntrySets,
      if_neg hdiffer, if_pos ⟨hne, hnot⟩]
    cases s.shown b <;> rfl
  · rw [ofEntries_of_not_collapses ha.regular hb.regular hcollapses hmark, hgone, hfresh]
    rw [collapses_iff_shown ha hb] at hcollapses
    by_cases hsame : SameListed (s.shown a) (s.shown b)
    · obtain ⟨hnone, hnone'⟩ := (sameListed_iff_removeAll Entry.equivOn hSU hTU).mp hsame
      rw [hnone, hnone', ofEntrySets, if_pos hsame]
      rfl
    · rw [ofEntrySets, if_neg hsame, if_neg hcollapses, updateWith_of_ne_nil]
      intro hnil
      rw [List.map_eq_nil_iff, List.append_eq_nil_iff, List.map_eq_nil_iff] at hnil
      exact hsame ((sameListed_iff_removeAll Entry.equivOn hSU hTU).mpr hnil)

end Entries

/-! ## Simple values -/

/-- What has to change so that the simple values of an attribute, seen as a set, become those of
another.  When the sets are equal, nothing has to.  When values are missing only, these are added.
Otherwise the attribute is removed and comes back as the target has it. -/
def ofValueSets (core : String) (a b : Attribute) : Change :=
  if SameListed a.values b.values then unchanged
  else if ∀ v ∈ a.values, Listed b.values v then
    ⟨[], [⟨a.descriptor, (Keyed.distinct b.values).removeAll a.values⟩]⟩
  else ⟨[path core a none], [b]⟩

/-- **Simple values change as sets.** -/
theorem ofCommon_eq_ofValueSets (core : String) (ha : a.Conforms d) (hb : b.Conforms d)
    (hmulti : d.isMultiValued = true) (hcomplex : d.isComplex = false) :
    ofCommon core s a b = .ok (ofValueSets core a b) := by
  have hau := ha.regular.uniqueNames
  have hbu := hb.regular.uniqueNames
  by_cases hbeq : (a == b) = true
  · have hsame := Value.sameSet_of_forall₂ hau hbu (Attribute.beq_iff.mp hbeq).2
    rw [ofCommon, if_pos hbeq, ofValueSets, if_pos (Value.sameSet_iff_sameListed.mp hsame)]
  have hgone := Keyed.gone_eq_nil_iff Value.equivOn hau hbu
  have hfresh := Keyed.fresh_eq_nil_iff Value.equivOn hau hbu
  have hadded : (Keyed.reconcile (Keyed.distinct a.values) (Keyed.distinct b.values)).2 =
      (Keyed.distinct b.values).removeAll a.values := by
    rw [Keyed.reconcile_distinct Value.equivOn hau hbu, removeAll_eq_filter Value.equivOn
      (fun v hv => hbu v (Keyed.mem_of_mem_distinct hv)) hau]
  rw [ofCommon_scalars ha.descriptor_eq hbeq hmulti hcomplex, ofScalars, ofValueSets]
  simp only [List.isEmpty_iff, hgone]
  by_cases hall : ∀ v ∈ a.values, Listed b.values v
  · rw [if_pos hall, if_pos hall]
    by_cases hsame : SameListed a.values b.values
    · rw [if_pos hsame, hfresh.mpr hsame.2]
      rfl
    · rw [if_neg hsame, ← hadded, updateWith_of_ne_nil]
      exact fun hnil => hsame ⟨hall, hfresh.mp hnil⟩
  · rw [if_neg hall, if_neg hall, if_neg fun hsame => hall hsame.1]

end Change

/-! ## Whole resources -/

namespace Standard

/-- The sub-attribute `value` of the members of a group. -/
def memberValues : Selector := .ofPaths groupId [⟨none, "members", some "value"⟩]

end Standard

namespace Diff

open Standard

variable {t : ResourceType} {source target : AttributeMap} {sourceJson targetJson : Json}

/-- **The entries of an attribute as sets.**  For every registered resource type, any two of its
resources, each multi-valued complex attribute that both have and every selector that takes part
of it, the attribute's share of the difference is what has to change between two sets: the selected
parts of its entries in source and target that are not empty, each once.  When the sets are equal,
it has no share.  When the first is not empty and shares nothing with the second, the attribute is
deleted and updated to exactly the second, unless that is empty.  Otherwise there is no deletion and
one update.  Its values are the entries of the first set that the second lacks, each with its
sub-attribute `operation` set to the text for removals and otherwise as it was, and then those of
the second that the first lacks, all in the order in which they first occur.

**Proof sketch.**  Among values with unique names `==` is an equivalence, so that erasing what is
found is taking a difference.  The test for the removal of the whole attribute compares the numbers
of entries before and after, which are equal exactly when nothing was found. -/
theorem share_of_entries (hregistered : t.IsRegistered)
    (hsource : AttributeMap.ofJson t sourceJson = .ok source)
    (htarget : AttributeMap.ofJson t targetJson = .ok target) (s : Selector)
    {schema name : String} {a b : Attribute} (ha : source.get? schema name = some a)
    (hb : target.get? schema name = some b) (hmulti : a.isMultiValued = true)
    (hcomplex : a.descriptor.isComplex = true)
    (hmatches : s.matchesAttribute a.schema a.name = true) :
    ∃ operation, a.descriptor.sub? operationName = some operation ∧
      (∀ (e : Entry) (sub : String),
        (e.insert (.single operation (.string deleteOperation))).2.get? sub =
          if SameName sub operationName then some (.single operation (.string deleteOperation))
          else e.get? sub) ∧
      Share t s source target a.key (Change.ofEntrySets t.core a
        (.single operation (.string deleteOperation)) (s.shown a) (s.shown b)) := by
  have hs := AttributeMap.conforms_of_ofJson hsource
  have ht := AttributeMap.conforms_of_ofJson htarget
  obtain ⟨hlookup, hlookup', d, hd, had, hbd⟩ := exists_conforms_of_get? hs ht ha hb
  rw [Attribute.isMultiValued, had.descriptor_eq] at hmulti
  rw [had.descriptor_eq] at hcomplex ⊢
  obtain ⟨operation, hoperation, -⟩ := hregistered.exists_operation hd hmulti hcomplex
  have hmark := Descriptor.isMark_single hoperation
  refine ⟨operation, hoperation, fun e sub => ?_, ?_⟩
  · rw [Entry.get?_eq_lookup, Entry.lookup_insert, hmark.nameKey, ← Entry.get?_eq_lookup]
    exact if_congr ⟨SameName.symm, SameName.symm⟩ rfl rfl
  · refine share_of_common hs ht hlookup hlookup' hmatches
      (Change.ofCommon_eq_ofEntrySets had hbd t.core hmulti hcomplex hmark) ?_
    rw [Change.ofEntrySets]
    split
    · exact .nil
    · split
      · exact List.pairwise_singleton _ _
      · exact .nil

/-- Of four members two have one value, and one has none.  One value goes, one stays and one comes,
though twice. -/
theorem share_of_entries_members :
    Share groupType memberValues
      (groupOf [[("$ref", "r"), ("value", "1")], [("value", "1")], [("$ref", "q")],
        [("value", "2")]])
      (groupOf [[("value", "2")], [("value", "3")], [("$ref", "p"), ("value", "3")]])
      membersDescriptor.key
      ⟨[], [⟨membersDescriptor, [member [("value", "1"), ("operation", "delete")],
        member [("value", "3")]]⟩]⟩ := by
  have hsource : AttributeMap.ofJson groupType (groupJson [[("$ref", "r"), ("value", "1")],
      [("value", "1")], [("$ref", "q")], [("value", "2")]]) =
      .ok (groupOf [[("$ref", "r"), ("value", "1")], [("value", "1")], [("$ref", "q")],
        [("value", "2")]]) := rfl
  have htarget : AttributeMap.ofJson groupType (groupJson [[("value", "2")], [("value", "3")],
      [("$ref", "p"), ("value", "3")]]) =
      .ok (groupOf [[("value", "2")], [("value", "3")], [("$ref", "p"), ("value", "3")]]) := rfl
  obtain ⟨operation, hoperation, -, hshare⟩ := share_of_entries isRegistered_groupType
    hsource htarget memberValues (show AttributeMap.get? _ groupId "members" = some _ from rfl)
    rfl rfl rfl (by decide +kernel)
  cases hoperation
  with_unfolding_all exact hshare

/-- **Simple values as sets.**  For any two resources of a type, each multi-valued simple attribute
that both have and every selector that takes it, the attribute has no share of the difference when
its values in source and target are the same set.  When the target has all those of the source and
more, there is no deletion and one update with those that the source lacks, each once, in the order
in which they first occur.  Otherwise the attribute is deleted and updated to what it is in the
target, with repetitions and in the same order. -/
theorem share_of_values (hsource : AttributeMap.ofJson t sourceJson = .ok source)
    (htarget : AttributeMap.ofJson t targetJson = .ok target) (s : Selector)
    {schema name : String} {a b : Attribute} (ha : source.get? schema name = some a)
    (hb : target.get? schema name = some b) (hmulti : a.isMultiValued = true)
    (hsimple : a.descriptor.isComplex = false)
    (hmatches : s.matchesAttribute a.schema a.name = true) :
    Share t s source target a.key (Change.ofValueSets t.core a b) := by
  have hs := AttributeMap.conforms_of_ofJson hsource
  have ht := AttributeMap.conforms_of_ofJson htarget
  obtain ⟨hlookup, hlookup', d, -, had, hbd⟩ := exists_conforms_of_get? hs ht ha hb
  rw [Attribute.isMultiValued, had.descriptor_eq] at hmulti
  rw [had.descriptor_eq] at hsimple
  refine share_of_common hs ht hlookup hlookup' hmatches
    (Change.ofCommon_eq_ofValueSets t.core had hbd hmulti hsimple) ?_
  rw [Change.ofValueSets]
  split
  · exact .nil
  · split
    · exact .nil
    · exact List.pairwise_singleton _ _

/-- A resource type with a multi-valued simple attribute. -/
def flagType : ResourceType :=
  .ofSchemas "Flag" "Flags"
    ⟨"urn:flag", "Flag", "", [{ name := "colors", type := .string, multiValued := true }]⟩ []

/-- The attribute `colors` of flags. -/
def colorsDescriptor : Descriptor := (flagType.attribute? "urn:flag" "colors").get rfl

/-- The attributes of a flag of some colors. -/
def flagOf (colors : List String) : AttributeMap :=
  .ofList [⟨colorsDescriptor, colors.map .string⟩]

/-- The document of a flag of some colors. -/
def flagJson (colors : List String) : Json := .object [("colors", .array (colors.map .string))]

/-- A flag keeps both of its colors, one of them listed twice, and gets two more. -/
theorem share_of_values_colors :
    Share flagType .all (flagOf ["red", "blue", "red"])
      (flagOf ["blue", "white", "white", "red", "green"]) colorsDescriptor.key
      ⟨[], [⟨colorsDescriptor, [.string "white", .string "green"]⟩]⟩ := by
  have hsource : AttributeMap.ofJson flagType (flagJson ["red", "blue", "red"]) =
      .ok (flagOf ["red", "blue", "red"]) := rfl
  have htarget : AttributeMap.ofJson flagType
      (flagJson ["blue", "white", "white", "red", "green"]) =
      .ok (flagOf ["blue", "white", "white", "red", "green"]) := rfl
  have hshare := share_of_values hsource htarget .all
    (show AttributeMap.get? _ "urn:flag" "colors" = some _ from rfl) rfl rfl rfl rfl
  with_unfolding_all exact hshare

end Diff

end Scim
