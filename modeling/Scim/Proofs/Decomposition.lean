import Scim.Proofs.Emptiness

set_option autoImplicit false

/-!
# A difference as the differences of its attributes

The comparison walks over both resources with one list of deletions in which no path is repeated.
Still the attributes do not influence each other: a difference is the concatenation, in the order
of traversal, of the differences that each attribute would have on its own.

## Main definitions

* `Scim.AttributeMap.only` — a resource reduced to the attribute of one key.
* `Scim.Diff.deletionKeys`, `updateKeys` — the keys in the order in which their deletions and
  updates are listed.

## Main results

* `Scim.Keyed.distinct_append`, `distinct_flatMap` — distinct elements of lists one after the
  other.
* `Scim.Diff.allDeletions_eq`, `allUpdates_eq` — the lists of a difference, key by key.
* `Scim.Diff.eq_concatenation` — a difference is the concatenation of those of its attributes.
-/

namespace Scim

/-! ## Distinct elements of lists one after the other -/

namespace Keyed

variable {α β : Type} [BEq β]

/-- After the distinct elements of the first list stand those of the second that are not in the
first. -/
lemma distinct_append (xs ys : List β) :
    distinct (xs ++ ys) = distinct xs ++ (distinct ys).filter fun y => !xs.any (· == y) := by
  induction xs with
  | nil => simp [distinct]
  | cons x xs ih =>
    rw [List.cons_append, distinct, distinct, ih, List.filter_append, List.filter_filter,
      List.cons_append]
    congr 2
    refine List.filter_congr fun y _ => ?_
    rw [List.any_cons, Bool.not_or]

/-- When the lists of different sources share nothing, repetitions may be dropped in each list on
its own. -/
lemma distinct_flatMap {f : α → List β} {ks : List α}
    (h : ks.Pairwise fun k l => ∀ x ∈ f k, ∀ y ∈ f l, (x == y) = false) :
    distinct (ks.flatMap f) = ks.flatMap fun k => distinct (f k) := by
  induction ks with
  | nil => rfl
  | cons k ks ih =>
    obtain ⟨hhead, htail⟩ := List.pairwise_cons.mp h
    rw [List.flatMap_cons, List.flatMap_cons, distinct_append, ih htail]
    congr 1
    refine List.filter_eq_self.mpr fun y hy => ?_
    obtain ⟨l, hl, hy⟩ := List.mem_flatMap.mp hy
    have hnone : (f k).any (· == y) = false :=
      List.any_eq_false.mpr fun x hx => by
        simp [hhead l hl x hx y (mem_of_mem_distinct hy)]
    rw [hnone, Bool.not_false]

end Keyed

/-! ## One attribute of a resource -/

namespace AttributeMap

variable {t : ResourceType} {m : AttributeMap}

/-- The map with the attribute of one key, if there is one, and nothing else. -/
def only (k : List Char × List Char) (m : AttributeMap) : AttributeMap :=
  ofList (m.lookup k).toList

/-- Under its key the map is as before, and otherwise it is empty. -/
lemma lookup_only (hm : m.WellFormed) (k l : List Char × List Char) :
    (m.only k).lookup l = if k = l then m.lookup k else none := by
  have hnodup : ((m.lookup k).toList.map Attribute.key).Nodup := by
    cases m.lookup k <;> simp
  rw [only, lookup_ofList hnodup]
  cases ha : m.lookup k with
  | none => simp [Keyed.get?]
  | some a => simp [Keyed.get?, hm.key_of_lookup ha]

/-- The attributes of the map. -/
lemma toList_only (m : AttributeMap) (k : List Char × List Char) :
    (m.only k).toList = (m.lookup k).toList := by
  rw [only]
  cases m.lookup k <;> rfl

/-- The attribute conforms as before. -/
lemma Conforms.only (h : m.Conforms t) (k : List Char × List Char) : (m.only k).Conforms t := by
  refine conforms_ofList fun a ha => ?_
  obtain ⟨hmem, -⟩ := h.wellFormed.lookup_eq_some_iff.mp (Option.mem_toList.mp ha)
  exact ⟨h.described a hmem, h.attributes a hmem⟩

end AttributeMap

/-! ## The lists of a difference -/

namespace Diff

open Standard

variable {t : ResourceType} {source target : AttributeMap} {s : Selector}

/-- The keys that may have deletions: those of the source only, then those of both resources. -/
def deletionKeys (s : Selector) (source target : AttributeMap) : List (List Char × List Char) :=
  (sourceOnly s source target).map Attribute.key ++ (common s source target).map fun p => p.1.key

/-- The keys that may have updates: those of the target only, then those of both resources. -/
def updateKeys (s : Selector) (source target : AttributeMap) : List (List Char × List Char) :=
  (targetOnly s source target).map Attribute.key ++ (common s source target).map fun p => p.1.key

section

variable (hs : source.WellFormed) (ht : target.WellFormed)

/-- An attribute of the source only is selected and missing in the target. -/
lemma of_mem_sourceOnly {a : Attribute} (h : a ∈ sourceOnly s source target) :
    s.matchesAttribute a.schema a.name = true ∧ target.lookup a.key = none := by
  have hcond := (List.mem_filter.mp h).2
  rw [Bool.and_eq_true, Bool.not_eq_true', AttributeMap.contains_eq_lookup,
    Option.isSome_eq_false_iff, Option.isNone_iff_eq_none] at hcond
  exact hcond

include hs

/-- The change of a selected pair is that of its key. -/
lemma ofPair_of_mem_common (core : String) {p : Attribute × Attribute}
    (h : p ∈ common s source target) :
    Change.ofPair core s (source.lookup p.1.key) (target.lookup p.1.key) =
      Change.common core s p.1 p.2 := by
  obtain ⟨hsource, hmatches, htarget⟩ := (mem_common_iff hs).mp h
  rw [hsource, htarget, Change.ofPair, if_pos hmatches]

/-- The deletions of a difference, key by key. -/
lemma allDeletions_eq (core : String) : allDeletions core s source target =
    (deletionKeys s source target).flatMap fun k =>
      (Change.ofPair core s (source.lookup k) (target.lookup k)).deletions := by
  rw [allDeletions, deletionKeys, List.flatMap_append, List.flatMap_map, List.flatMap_map]
  congr 1
  · refine List.flatMap_congr fun a ha => ?_
    obtain ⟨hmatches, hnone⟩ := of_mem_sourceOnly ha
    rw [lookup_of_mem_sourceOnly hs ha, hnone, Change.ofPair, if_pos hmatches]
  · refine List.flatMap_congr fun p hp => ?_
    rw [ofPair_of_mem_common hs core hp]

include ht

/-- The updates of a difference, key by key. -/
lemma allUpdates_eq (core : String) : allUpdates core s source target =
    (updateKeys s source target).flatMap fun k =>
      (Change.ofPair core s (source.lookup k) (target.lookup k)).updates := by
  rw [allUpdates, updateKeys, List.flatMap_append, List.flatMap_map, List.flatMap_map]
  congr 1
  · refine List.flatMap_congr fun b hb => ?_
    obtain ⟨hmatches, hnone⟩ := of_mem_sourceOnly hb
    rw [lookup_of_mem_sourceOnly ht hb, hnone, Change.ofPair, if_pos hmatches]
  · refine List.flatMap_congr fun p hp => ?_
    rw [ofPair_of_mem_common hs core hp]

/-- The selected attributes of one key that only the first map has. -/
lemma sourceOnly_only (k : List Char × List Char) :
    sourceOnly s (source.only k) (target.only k) = (source.lookup k).toList.filter fun a =>
      s.matchesAttribute a.schema a.name && (target.lookup k).isNone := by
  rw [sourceOnly, AttributeMap.toList_only]
  refine List.filter_congr fun a ha => ?_
  have hkey : (caseKey a.schema, caseKey a.name) = k := hs.key_of_lookup (Option.mem_toList.mp ha)
  rw [AttributeMap.contains_eq_lookup, hkey, AttributeMap.lookup_only ht, if_pos rfl]
  cases target.lookup k <;> rfl

/-- The selected pair of one key. -/
lemma common_only (k : List Char × List Char) :
    common s (source.only k) (target.only k) =
      ((source.lookup k).toList.filter fun a => s.matchesAttribute a.schema a.name).filterMap
        fun a => (target.lookup k).map fun b => (a, b) := by
  rw [common, AttributeMap.toList_only]
  refine List.filterMap_congr fun a ha => ?_
  have hkey : (caseKey a.schema, caseKey a.name) = k :=
    hs.key_of_lookup (Option.mem_toList.mp (List.mem_filter.mp ha).1)
  rw [AttributeMap.get?_eq_lookup, hkey, AttributeMap.lookup_only ht, if_pos rfl]

/-- The deletions for the attributes of one key are those of their change. -/
lemma allDeletions_only (core : String) (k : List Char × List Char) :
    allDeletions core s (source.only k) (target.only k) =
      (Change.ofPair core s (source.lookup k) (target.lookup k)).deletions := by
  rw [allDeletions, sourceOnly_only hs ht, common_only hs ht]
  cases source.lookup k with
  | none =>
    cases target.lookup k with
    | none => rfl
    | some b =>
      rw [Change.ofPair]
      split <;> simp [Change.unchanged]
  | some a =>
    cases target.lookup k <;> cases hmatches : s.matchesAttribute a.schema a.name <;>
      simp [Change.ofPair, hmatches, Change.unchanged]

/-- The updates for the attributes of one key are those of their change. -/
lemma allUpdates_only (core : String) (k : List Char × List Char) :
    allUpdates core s (source.only k) (target.only k) =
      (Change.ofPair core s (source.lookup k) (target.lookup k)).updates := by
  rw [allUpdates, targetOnly, sourceOnly_only ht hs, common_only hs ht]
  cases source.lookup k with
  | none =>
    cases target.lookup k with
    | none => rfl
    | some b =>
      cases hmatches : s.matchesAttribute b.schema b.name <;>
        simp [Change.ofPair, hmatches, Change.unchanged]
  | some a =>
    cases target.lookup k <;> cases hmatches : s.matchesAttribute a.schema a.name <;>
      simp [Change.ofPair, hmatches, Change.unchanged, Change.ofRemoved]

end

/-! ## The difference of a resource -/

section Resources

variable (hregistered : t.IsRegistered) (hs : source.Conforms t) (ht : target.Conforms t)

include hs

/-- A key occurs at most once among the keys with deletions. -/
lemma nodup_deletionKeys : (deletionKeys s source target).Nodup := by
  rw [deletionKeys, List.nodup_append]
  refine ⟨nodup_sourceOnly hs.wellFormed, nodup_common hs.wellFormed, fun k hk l hl hkl => ?_⟩
  obtain ⟨a, ha, rfl⟩ := List.mem_map.mp hk
  obtain ⟨p, hp, rfl⟩ := List.mem_map.mp hl
  have htarget := (lookup_of_mem_common hs.wellFormed hp).2
  rw [← hkl, (of_mem_sourceOnly ha).2] at htarget
  cases htarget

include ht hregistered

omit hregistered ht in
/-- The deletions under a key name its attribute, unless an extension without URI takes an
attribute of another core schema for its own. -/
lemma target_of_mem_deletions {k : List Char × List Char} {p : AttributePath}
    (hschema : k.1 = [] → t.core = "")
    (hp : p ∈ (Change.ofPair t.core s (source.lookup k) (target.lookup k)).deletions) :
    p.target t.core = k := by
  obtain ⟨a, ha, sub, rfl⟩ := Change.exists_path_of_mem_ofPair hp
  have hkey := hs.wellFormed.key_of_lookup ha
  rw [Change.target_path_of sub fun hnone => hschema ?_, hkey]
  rw [← hkey]
  exact caseKey_eq_nil_iff.mpr hnone

omit ht in
/-- When all schemas have URIs, the deletions are the distinct ones of each key. -/
lemma distinct_allDeletions (hschemas : ∀ schema ∈ t.schemas, schema ≠ "") :
    Keyed.distinct (allDeletions t.core s source target) =
      (deletionKeys s source target).flatMap fun k => Keyed.distinct
        (Change.ofPair t.core s (source.lookup k) (target.lookup k)).deletions := by
  have hnames : ∀ k, ∀ p ∈ (Change.ofPair t.core s (source.lookup k)
      (target.lookup k)).deletions, p.target t.core = k := by
    intro k p hp
    obtain ⟨a, ha, -⟩ := Change.exists_path_of_mem_ofPair hp
    obtain ⟨d, hd, -⟩ := hs.exists_descriptor ha
    refine target_of_mem_deletions hs (fun hnil => ?_) hp
    rw [← ResourceType.key_of_descriptor? hd] at hnil
    exact absurd (caseKey_eq_nil_iff.mp hnil)
      (hschemas _ (hregistered.isBuilt.schema_mem (ResourceType.mem_of_descriptor? hd)))
  rw [allDeletions_eq hs.wellFormed]
  refine Keyed.distinct_flatMap ((nodup_deletionKeys hs).imp fun hkl p hp q hq => ?_)
  rw [Bool.eq_false_iff]
  intro hpq
  rw [← hnames _ p hp, ← hnames _ q hq] at hkl
  exact hkl (AttributePath.target_congr t.core hpq)

/-- The difference of the attributes of one key exists and has the change of that key. -/
lemma between_only (s : Selector) (k : List Char × List Char) :
    between t (source.only k) (target.only k) s = .ok
      ⟨t, Keyed.distinct (Change.ofPair t.core s (source.lookup k) (target.lookup k)).deletions,
        (Change.ofPair t.core s (source.lookup k) (target.lookup k)).updates⟩ := by
  rw [between_eq hregistered (hs.only k) (ht.only k), allDeletions_only hs.wellFormed ht.wellFormed,
    allUpdates_only hs.wellFormed ht.wellFormed]

/-- Nothing changes under a key exactly when the selected parts agree. -/
lemma ofPair_empty_iff_agrees (s : Selector) (k : List Char × List Char) :
    (Change.ofPair t.core s (source.lookup k) (target.lookup k)).deletions = [] ∧
        (Change.ofPair t.core s (source.lookup k) (target.lookup k)).updates = [] ↔
      Option.Rel (fun a b => a.agrees b = true) ((s.project source).lookup k)
        ((s.project target).lookup k) := by
  rw [Selector.lookup_project hs.wellFormed, Selector.lookup_project ht.wellFormed]
  cases hd : t.descriptor? k with
  | none =>
    rw [ofPair_of_none hs ht s hd, hs.regular.lookup_eq_none hd, ht.regular.lookup_eq_none hd]
    exact iff_of_true ⟨rfl, rfl⟩ .none
  | some d =>
    rw [Selector.agrees_project_iff (hs.regular.regularAt hd) (ht.regular.regularAt hd)]
    exact Change.ofPair_empty_iff t.core (hs.conforms_of_lookup hd) (ht.conforms_of_lookup hd)
      (hregistered.exists_mark (ResourceType.mem_of_descriptor? hd))

end Resources

/-- **A difference is the concatenation of those of its attributes.**  For every registered resource
type whose schemas have URIs, any two of its resources and any selector, the difference exists, and
so does the one of the attributes of each key on their own.  The deletions are those of the
selected keys of the source only, in the order of the source, then those of the common ones.  The
updates are those of the selected keys of the target only, in the order of the target, then those
of the common ones in the order of the source.  No attribute is updated twice.  What the attributes
of a key contribute is empty exactly when their selected parts agree, and in particular when they
are not selected.

**Proof sketch.**  Before repetitions are dropped both lists are concatenations by construction.
Paths of different keys are different, as all schemas have URIs, so a path is only ever repeated
among the deletions of one key. -/
theorem eq_concatenation {t : ResourceType} {source target : AttributeMap}
    {sourceJson targetJson : Json} (hregistered : t.IsRegistered)
    (hschemas : ∀ schema ∈ t.schemas, schema ≠ "")
    (hsource : AttributeMap.ofJson t sourceJson = .ok source)
    (htarget : AttributeMap.ofJson t targetJson = .ok target) (s : Selector) :
    ∃ (d : Diff) (part : List Char × List Char → Diff),
      between t source target s = .ok d ∧
      (∀ k, between t (source.only k) (target.only k) s = .ok (part k)) ∧
      d.deletions = ((sourceOnly s source target).map Attribute.key ++
        (common s source target).map fun p => p.1.key).flatMap (fun k => (part k).deletions) ∧
      d.updates = ((targetOnly s source target).map Attribute.key ++
        (common s source target).map fun p => p.1.key).flatMap (fun k => (part k).updates) ∧
      (d.updates.map Attribute.key).Nodup ∧
      (∀ k, (part k).isEmpty = true ↔ Option.Rel (fun a b => a.agrees b = true)
        ((s.project source).lookup k) ((s.project target).lookup k)) ∧
      ∀ k, (∀ a, source.lookup k = some a ∨ target.lookup k = some a →
        s.matchesAttribute a.schema a.name = false) → (part k).isEmpty = true := by
  have hs := AttributeMap.conforms_of_ofJson hsource
  have ht := AttributeMap.conforms_of_ofJson htarget
  refine ⟨_, fun k =>
    ⟨t, Keyed.distinct (Change.ofPair t.core s (source.lookup k) (target.lookup k)).deletions,
      (Change.ofPair t.core s (source.lookup k) (target.lookup k)).updates⟩,
    between_eq hregistered hs ht s, between_only hregistered hs ht s,
    distinct_allDeletions hregistered hs hschemas,
    allUpdates_eq hs.wellFormed ht.wellFormed t.core,
    nodup_allUpdates hs.wellFormed ht.wellFormed t.core s, fun k => ?_, fun k hnot => ?_⟩
  · rw [← ofPair_empty_iff_agrees hregistered hs ht s k, isEmpty, Bool.and_eq_true,
      List.isEmpty_iff, List.isEmpty_iff, Keyed.distinct_eq_nil_iff]
  · have hunchanged : Change.ofPair t.core s (source.lookup k) (target.lookup k) = .unchanged := by
      cases ha : source.lookup k with
      | none =>
        cases hb : target.lookup k with
        | none => rfl
        | some b => rw [Change.ofPair, hnot b (.inr hb), if_neg Bool.false_ne_true]
      | some a =>
        cases target.lookup k <;>
          rw [Change.ofPair, hnot a (.inl ha), if_neg Bool.false_ne_true]
    dsimp only
    rw [hunchanged]
    rfl

/-- A group loses its name and gets a second member. -/
theorem eq_concatenation_group : ∃ (d : Diff) (part : List Char × List Char → Diff),
    between groupType (namedGroup "a" [[("value", "1")]])
      (groupOf [[("value", "1")], [("value", "2")]]) .all = .ok d ∧
    (∀ k, between groupType ((namedGroup "a" [[("value", "1")]]).only k)
      ((groupOf [[("value", "1")], [("value", "2")]]).only k) .all = .ok (part k)) ∧
    d.deletions = (part displayNameDescriptor.key).deletions ++
      (part membersDescriptor.key).deletions ∧
    d.updates = (part membersDescriptor.key).updates := by
  have hsource : AttributeMap.ofJson groupType (namedGroupJson "a" [[("value", "1")]]) =
      .ok (namedGroup "a" [[("value", "1")]]) := rfl
  have htarget : AttributeMap.ofJson groupType (groupJson [[("value", "1")], [("value", "2")]]) =
      .ok (groupOf [[("value", "1")], [("value", "2")]]) := rfl
  obtain ⟨d, part, hd, hpart, hdeletions, hupdates, -⟩ := eq_concatenation isRegistered_groupType
    isAddressable_groupType.schema hsource htarget .all
  have hkeys : (sourceOnly .all (namedGroup "a" [[("value", "1")]])
      (groupOf [[("value", "1")], [("value", "2")]])).map Attribute.key ++
        (common .all (namedGroup "a" [[("value", "1")]])
          (groupOf [[("value", "1")], [("value", "2")]])).map (fun p => p.1.key) =
      [displayNameDescriptor.key, membersDescriptor.key] := rfl
  have hkeys' : (targetOnly .all (namedGroup "a" [[("value", "1")]])
      (groupOf [[("value", "1")], [("value", "2")]])).map Attribute.key ++
        (common .all (namedGroup "a" [[("value", "1")]])
          (groupOf [[("value", "1")], [("value", "2")]])).map (fun p => p.1.key) =
      [membersDescriptor.key] := rfl
  refine ⟨d, part, hd, hpart, ?_, ?_⟩
  · rw [hdeletions, hkeys]
    simp
  · rw [hupdates, hkeys']
    simp

end Diff

end Scim
