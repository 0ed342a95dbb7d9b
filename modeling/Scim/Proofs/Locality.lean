import Scim.Patch
import Scim.Proofs.ChangeOrigins
import Scim.Proofs.FittingChanges

set_option autoImplicit false

/-!
# Differences and their bodies, key by key

A difference is made of the changes of single attributes.  Those under different keys do not
meet: neither in the lists of a difference, nor in the body that is written from it, nor when a
service provider applies that body.

## Main results

* `Scim.Diff.between_eq` — the difference exists.
* `Scim.Diff.filter_allDeletions`, `filter_allUpdates` — under each key it holds the change of the
  attributes there.
* `Scim.Diff.nodup_allUpdates`, `descriptor?_of_mem_allUpdates` — no key has two updates, and each
  update has the descriptor of its key.
* `Scim.Diff.isEmpty_iff` — a difference is empty when no key has a change.
* `Scim.Diff.exists_body` — the body exists and lists what has to be removed.
* `Scim.Diff.exists_applied` — a service provider can apply the body to any resource, and makes
  of each attribute what the body carries of its change.
* `Scim.Diff.exists_patched` — applied to the source, the body makes of each writable attribute
  what its change says.
-/

namespace Scim

/-- The attribute `meta` of a resource type is the one under its key. -/
lemma ResourceType.metaAttribute?_eq_descriptor? (t : ResourceType) :
    t.metaAttribute? = t.descriptor? (AttributeMap.metaKey t.core) := by
  rw [metaAttribute?, attribute?_eq_descriptor?]
  rfl

namespace Diff

variable {t : ResourceType} {source target : AttributeMap} {s : Selector}
  {k : List Char × List Char}

/-! ## Attributes by key -/

/-- An attribute of the source only, by its key. -/
lemma get?_sourceOnly (hs : source.WellFormed) (k : List Char × List Char) :
    Keyed.get? Attribute.key k (sourceOnly s source target) =
      (source.lookup k).filter fun a =>
        s.matchesAttribute a.schema a.name && (target.lookup k).isNone := by
  rw [sourceOnly, Keyed.get?_filter hs.nodup_toList, ← hs.lookup_eq_get?]
  cases ha : source.lookup k with
  | none => rfl
  | some a =>
    have hkey : (caseKey a.schema, caseKey a.name) = k := hs.key_of_lookup ha
    simp only [Option.filter, AttributeMap.contains_eq_lookup, hkey]
    cases target.lookup k <;> rfl

/-- A selected pair of attributes, by its key. -/
lemma get?_common (hs : source.WellFormed) (k : List Char × List Char) :
    Keyed.get? (fun p : Attribute × Attribute => p.1.key) k (common s source target) =
      ((source.lookup k).filter fun a => s.matchesAttribute a.schema a.name).bind fun a =>
        (target.lookup k).map fun b => (a, b) := by
  have hfiltered : ((source.toList.filter fun a => s.matchesAttribute a.schema a.name).map
      Attribute.key).Nodup := hs.nodup_toList.sublist (List.filter_sublist.map _)
  rw [common, Keyed.get?_filterMap _ hfiltered, Keyed.get?_filter hs.nodup_toList,
    ← hs.lookup_eq_get?]
  · cases ha : source.lookup k with
    | none => rfl
    | some a =>
      have hkey : (caseKey a.schema, caseKey a.name) = k := hs.key_of_lookup ha
      simp only [Option.filter, AttributeMap.get?_eq_lookup]
      split
      · simp only [Option.bind_some, hkey]
      · rfl
  · intro a p hp
    obtain ⟨b, -, rfl⟩ := Option.map_eq_some_iff.mp hp
    rfl

/-- The keys of the attributes of the source only stand in the order of the source. -/
lemma sublist_sourceOnly : ((sourceOnly s source target).map Attribute.key).Sublist
    (source.toList.map Attribute.key) :=
  List.filter_sublist.map _

/-- No key occurs twice among the attributes of the source only. -/
lemma nodup_sourceOnly (hs : source.WellFormed) :
    ((sourceOnly s source target).map Attribute.key).Nodup :=
  hs.nodup_toList.sublist sublist_sourceOnly

/-- The keys of the common attributes stand in the order of the source. -/
lemma sublist_common : ((common s source target).map fun p => p.1.key).Sublist
    (source.toList.map Attribute.key) := by
  have hkey : ∀ (a : Attribute) (p : Attribute × Attribute),
      (target.get? a.schema a.name).map (fun b => (a, b)) = some p → p.1.key = a.key := by
    intro a p hp
    obtain ⟨b, -, rfl⟩ := Option.map_eq_some_iff.mp hp
    rfl
  exact (Keyed.map_filterMap_sublist hkey _).trans (List.filter_sublist.map _)

/-- No key occurs twice among the common attributes. -/
lemma nodup_common (hs : source.WellFormed) :
    ((common s source target).map fun p => p.1.key).Nodup :=
  hs.nodup_toList.sublist sublist_common

/-- The selected pairs are those of one key in both resources. -/
lemma mem_common_iff (hs : source.WellFormed) {p : Attribute × Attribute} :
    p ∈ common s source target ↔ source.lookup p.1.key = some p.1 ∧
      s.matchesAttribute p.1.schema p.1.name = true ∧ target.lookup p.1.key = some p.2 := by
  constructor
  · intro h
    obtain ⟨a, ha, hp⟩ := List.mem_filterMap.mp h
    obtain ⟨b, hb, rfl⟩ := Option.map_eq_some_iff.mp hp
    obtain ⟨hmem, hmatches⟩ := List.mem_filter.mp ha
    rw [AttributeMap.get?_eq_lookup] at hb
    exact ⟨hs.lookup_eq_some_iff.mpr ⟨hmem, rfl⟩, hmatches, hb⟩
  · rintro ⟨hsource, hmatches, htarget⟩
    refine List.mem_filterMap.mpr ⟨p.1, List.mem_filter.mpr
      ⟨(hs.lookup_eq_some_iff.mp hsource).1, hmatches⟩, ?_⟩
    rw [AttributeMap.get?_eq_lookup]
    change (target.lookup p.1.key).map _ = _
    rw [htarget]
    rfl

/-- A selected pair stands under one key in both resources. -/
lemma lookup_of_mem_common (hs : source.WellFormed) {p : Attribute × Attribute}
    (h : p ∈ common s source target) :
    source.lookup p.1.key = some p.1 ∧ target.lookup p.1.key = some p.2 := by
  obtain ⟨hsource, -, htarget⟩ := (mem_common_iff hs).mp h
  exact ⟨hsource, htarget⟩

/-- An attribute of the source only stands under its key. -/
lemma lookup_of_mem_sourceOnly (hs : source.WellFormed) {a : Attribute}
    (h : a ∈ sourceOnly s source target) : source.lookup a.key = some a :=
  hs.lookup_eq_some_iff.mpr ⟨(List.mem_filter.mp h).1, rfl⟩

/-! ## The difference -/

/-- The deletions of all changes, in order and with repetitions. -/
def allDeletions (core : String) (s : Selector) (source target : AttributeMap) :
    List AttributePath :=
  (sourceOnly s source target).flatMap (fun a => (Change.ofRemoved core s a).deletions) ++
    (common s source target).flatMap fun p => (Change.common core s p.1 p.2).deletions

/-- The updates of all changes, in order. -/
def allUpdates (core : String) (s : Selector) (source target : AttributeMap) : List Attribute :=
  (targetOnly s source target).flatMap (fun b => (Change.ofAdded s b).updates) ++
    (common s source target).flatMap fun p => (Change.common core s p.1 p.2).updates

/-- The deletions under a key are those of the change there. -/
lemma deletions_ofPair (hs : source.WellFormed) (core : String) (k : List Char × List Char) :
    ((Keyed.get? Attribute.key k (sourceOnly s source target)).map
        fun a => (Change.ofRemoved core s a).deletions).getD [] ++
      ((Keyed.get? (fun p : Attribute × Attribute => p.1.key) k (common s source target)).map
        fun p => (Change.common core s p.1 p.2).deletions).getD [] =
      (Change.ofPair core s (source.lookup k) (target.lookup k)).deletions := by
  rw [get?_sourceOnly hs, get?_common hs]
  cases source.lookup k with
  | none =>
    cases target.lookup k with
    | none => rfl
    | some b =>
      rw [Change.ofPair]
      split
      · rw [Change.deletions_ofAdded]
        rfl
      · rfl
  | some a =>
    cases target.lookup k <;> cases hmatches : s.matchesAttribute a.schema a.name <;>
      simp [Change.ofPair, Option.filter, hmatches, Change.unchanged]

/-- The updates under a key are those of the change there. -/
lemma updates_ofPair (hs : source.WellFormed) (ht : target.WellFormed) (core : String)
    (k : List Char × List Char) :
    ((Keyed.get? Attribute.key k (sourceOnly s target source)).map
        fun b => (Change.ofAdded s b).updates).getD [] ++
      ((Keyed.get? (fun p : Attribute × Attribute => p.1.key) k (common s source target)).map
        fun p => (Change.common core s p.1 p.2).updates).getD [] =
      (Change.ofPair core s (source.lookup k) (target.lookup k)).updates := by
  rw [get?_sourceOnly ht, get?_common hs]
  cases source.lookup k with
  | none =>
    cases target.lookup k with
    | none => rfl
    | some b =>
      cases hmatches : s.matchesAttribute b.schema b.name <;>
        simp [Change.ofPair, Option.filter, hmatches, Change.unchanged]
  | some a =>
    cases target.lookup k <;> cases hmatches : s.matchesAttribute a.schema a.name <;>
      simp [Change.ofPair, Option.filter, hmatches, Change.unchanged, Change.ofRemoved]

/-- The deletions are those of the changes of all keys. -/
lemma mem_allDeletions_iff (hs : source.WellFormed) (core : String) {p : AttributePath} :
    p ∈ allDeletions core s source target ↔
      ∃ k, p ∈ (Change.ofPair core s (source.lookup k) (target.lookup k)).deletions := by
  rw [allDeletions, List.mem_append, List.mem_flatMap, List.mem_flatMap]
  simp only [← deletions_ofPair hs, List.mem_append, exists_or]
  refine or_congr ⟨fun ⟨a, ha, hp⟩ => ⟨a.key, ?_⟩, fun ⟨k, hk⟩ => ?_⟩
    ⟨fun ⟨q, hq, hp⟩ => ⟨q.1.key, ?_⟩, fun ⟨k, hk⟩ => ?_⟩
  · rw [(Keyed.get?_eq_some_iff (nodup_sourceOnly hs)).mpr ⟨ha, rfl⟩]
    exact hp
  · cases hfound : Keyed.get? Attribute.key k (sourceOnly s source target) with
    | none =>
      rw [hfound] at hk
      exact absurd hk List.not_mem_nil
    | some a =>
      rw [hfound] at hk
      exact ⟨a, Keyed.mem_of_get? hfound, hk⟩
  · rw [(Keyed.get?_eq_some_iff (nodup_common hs)).mpr ⟨hq, rfl⟩]
    exact hp
  · cases hfound : Keyed.get? (fun q : Attribute × Attribute => q.1.key) k
        (common s source target) with
    | none =>
      rw [hfound] at hk
      exact absurd hk List.not_mem_nil
    | some q =>
      rw [hfound] at hk
      exact ⟨q, Keyed.mem_of_get? hfound, hk⟩

/-- The deletions of a key are those of its change, unless an extension without URI takes an
attribute of another core schema for its own. -/
lemma filter_allDeletions_of_schema (hs : source.WellFormed) {core : String}
    (hschema : ∀ a ∈ source.toList, a.schema = "" → core = "") (s : Selector)
    (k : List Char × List Char) :
    (allDeletions core s source target).filter (fun p => decide (p.target core = k)) =
      (Change.ofPair core s (source.lookup k) (target.lookup k)).deletions := by
  have hremoved : ∀ a ∈ sourceOnly s source target,
      ∀ p ∈ (Change.ofRemoved core s a).deletions, p.target core = a.key := by
    intro a ha p hp
    obtain ⟨sub, rfl⟩ := Change.exists_path_of_mem_deletionsOf hp
    exact Change.target_path_of sub (hschema a (List.mem_filter.mp ha).1)
  have hcommon : ∀ q ∈ common s source target,
      ∀ p ∈ (Change.common core s q.1 q.2).deletions, p.target core = q.1.key := by
    intro q hq p hp
    obtain ⟨sub, rfl⟩ := (Change.concerns_common core s q.1 q.2).deletions p hp
    have hmem := (hs.lookup_eq_some_iff.mp (lookup_of_mem_common hs hq).1).1
    exact Change.target_path_of sub (hschema q.1 hmem)
  rw [allDeletions, List.filter_append,
    Keyed.filter_flatMap (nodup_sourceOnly hs) hremoved,
    Keyed.filter_flatMap (nodup_common hs) hcommon]
  exact deletions_ofPair hs core k

/-- The updates of a key are those of its change. -/
lemma filter_allUpdates (hs : source.WellFormed) (ht : target.WellFormed) (core : String)
    (s : Selector) (k : List Char × List Char) :
    (allUpdates core s source target).filter (fun u => decide (u.key = k)) =
      (Change.ofPair core s (source.lookup k) (target.lookup k)).updates := by
  have hkey : ∀ {u a : Attribute}, u.descriptor = a.descriptor → u.key = a.key := by
    intro u a h
    rw [Attribute.key, Attribute.key, h]
  have hadded : ∀ b ∈ sourceOnly s target source, ∀ u ∈ (Change.ofAdded s b).updates,
      u.key = b.key :=
    fun _ _ _ hu => hkey (Change.descriptor_eq_of_mem_ofAdded hu)
  have hcommon : ∀ p ∈ common s source target, ∀ u ∈ (Change.common core s p.1 p.2).updates,
      u.key = p.1.key := by
    intro p hp u hu
    rcases (Change.concerns_common core s p.1 p.2).updates u hu with h | h
    · exact hkey h
    · rw [hkey h]
      exact ht.key_of_lookup (lookup_of_mem_common hs hp).2
  rw [allUpdates, targetOnly, List.filter_append,
    Keyed.filter_flatMap (nodup_sourceOnly ht) hadded,
    Keyed.filter_flatMap (nodup_common hs) hcommon]
  exact updates_ofPair hs ht core k

/-- The updates have different keys. -/
lemma nodup_allUpdates (hs : source.WellFormed) (ht : target.WellFormed) (core : String)
    (s : Selector) : ((allUpdates core s source target).map Attribute.key).Nodup := by
  refine Keyed.nodup_of_length_le fun k => ?_
  rw [filter_allUpdates hs ht]
  exact Change.length_ofPair_le core s _ _

/-- **When the difference exists.**  No change of a selected pair has a defect, and then the
difference is made of the changes. -/
lemma between_eq_ok_iff {d : Diff} : between t source target s = .ok d ↔
    (∀ p ∈ common s source target,
      Change.ofCommon t.core s p.1 p.2 = .ok (Change.common t.core s p.1 p.2)) ∧
    d = ⟨t, Keyed.distinct (allDeletions t.core s source target),
      allUpdates t.core s source target⟩ := by
  have hrun : (∀ p ∈ common s source target,
      Change.ofCommon t.core s p.1 p.2 = .ok (Change.common t.core s p.1 p.2)) →
      between t source target s = .ok ⟨t, Keyed.distinct (allDeletions t.core s source target),
        allUpdates t.core s source target⟩ := by
    intro hcommon
    refine Outcome.bind_eq_ok_iff.mpr ⟨_, Outcome.mapM_eq_ok hcommon, ?_⟩
    simp only [allDeletions, allUpdates, List.flatMap_append, List.flatMap_map]
    rfl
  constructor
  · intro h
    obtain ⟨changes, hchanges, -⟩ := Outcome.bind_eq_ok_iff.mp h
    have hcommon : ∀ p ∈ common s source target,
        Change.ofCommon t.core s p.1 p.2 = .ok (Change.common t.core s p.1 p.2) := by
      intro p hp
      obtain ⟨c, hc⟩ := Outcome.exists_of_mapM_eq_ok hchanges p hp
      rw [Change.common_of_ok hc, hc]
    rw [hrun hcommon] at h
    cases h
    exact ⟨hcommon, rfl⟩
  · rintro ⟨hcommon, rfl⟩
    exact hrun hcommon

/-- The attribute `meta` that is made for a body, read back. -/
lemma exists_deletionMeta_of_sub? {d : Diff} {m list : Descriptor}
    (hmeta : d.type.metaAttribute? = some m) (hlist : m.sub? deletionListName = some list) : ∃ a,
    d.deletionMeta = .ok a ∧ a.key = m.key ∧
      ∃ v sub, a.first? = some v ∧ v.sub? deletionListName = some sub ∧
        sub.values = d.deletedPaths.map Value.string := by
  have hname := Descriptor.sameName_of_sub? hlist
  refine ⟨.single m (.complex (.ofList [⟨list, d.deletedPaths.map Value.string⟩])),
    by simp only [deletionMeta, hmeta, hlist], rfl, _,
    ⟨list, d.deletedPaths.map Value.string⟩, rfl, ?_, rfl⟩
  change (Entry.ofList [⟨list, d.deletedPaths.map Value.string⟩]).get? deletionListName = _
  rw [Entry.ofList_eq (by simp), Entry.get?, Keyed.get?]
  exact if_pos hname

section Between

variable (hregistered : t.IsRegistered) (hs : source.Conforms t) (ht : target.Conforms t)

include hregistered hs ht

/-- **The difference exists.**  No change of conforming attributes has a defect, as the registered
resource type has all the marks. -/
theorem between_eq (s : Selector) : between t source target s =
    .ok ⟨t, Keyed.distinct (allDeletions t.core s source target),
      allUpdates t.core s source target⟩ := by
  refine between_eq_ok_iff.mpr ⟨fun p hp => ?_, rfl⟩
  obtain ⟨hsource, htarget⟩ := lookup_of_mem_common hs.wellFormed hp
  obtain ⟨d, hd, ha⟩ := hs.exists_descriptor hsource
  exact Change.ofCommon_eq_common t.core s ha (ht.conforms_of_lookup hd _ htarget)
    (hregistered.exists_mark (ResourceType.mem_of_descriptor? hd))

/-- The change under a key fits the descriptor of that key. -/
lemma fits_ofPair (s : Selector) {d : Descriptor} (hd : t.descriptor? k = some d) :
    (Change.ofPair t.core s (source.lookup k) (target.lookup k)).Fits t.core d :=
  Change.fits_ofPair t.core s (hs.conforms_of_lookup hd) (ht.conforms_of_lookup hd)
    (hregistered.exists_mark (ResourceType.mem_of_descriptor? hd))

omit hregistered in
/-- Without a descriptor there is no change. -/
lemma ofPair_of_none (s : Selector) (hd : t.descriptor? k = none) :
    Change.ofPair t.core s (source.lookup k) (target.lookup k) = Change.unchanged := by
  rw [hs.regular.lookup_eq_none hd, ht.regular.lookup_eq_none hd]
  rfl

omit hregistered in
/-- **A difference is empty when no key has a change.** -/
theorem isEmpty_iff {d : Diff} (h : between t source target s = .ok d)
    (hregistered : t.IsRegistered) : d.isEmpty = true ↔
      ∀ k, (Change.ofPair t.core s (source.lookup k) (target.lookup k)).deletions = [] ∧
        (Change.ofPair t.core s (source.lookup k) (target.lookup k)).updates = [] := by
  rw [between_eq hregistered hs ht s] at h
  cases h
  have hwf := hs.wellFormed
  rw [isEmpty, Bool.and_eq_true, List.isEmpty_iff, List.isEmpty_iff, Keyed.distinct_eq_nil_iff,
    forall_and]
  refine and_congr ?_ ?_
  · rw [allDeletions, List.append_eq_nil_iff, Keyed.flatMap_eq_nil_iff (nodup_sourceOnly hwf),
      Keyed.flatMap_eq_nil_iff (nodup_common hwf), ← forall_and]
    refine forall_congr' fun k => ?_
    rw [← deletions_ofPair hwf, List.append_eq_nil_iff]
  · rw [allUpdates, targetOnly, List.append_eq_nil_iff,
      Keyed.flatMap_eq_nil_iff (nodup_sourceOnly ht.wellFormed),
      Keyed.flatMap_eq_nil_iff (nodup_common hwf), ← forall_and]
    refine forall_congr' fun k => ?_
    rw [← updates_ofPair hwf ht.wellFormed t.core, List.append_eq_nil_iff]

omit hregistered in
/-- Each update is one of the change of its key. -/
lemma exists_of_mem_allUpdates (s : Selector) {u : Attribute}
    (hu : u ∈ allUpdates t.core s source target) :
    ∃ d, t.descriptor? u.key = some d ∧
      u ∈ (Change.ofPair t.core s (source.lookup u.key) (target.lookup u.key)).updates := by
  have hmem : u ∈ (Change.ofPair t.core s (source.lookup u.key) (target.lookup u.key)).updates := by
    rw [← filter_allUpdates hs.wellFormed ht.wellFormed]
    exact List.mem_filter.mpr ⟨hu, decide_eq_true rfl⟩
  cases hd : t.descriptor? u.key with
  | none =>
    rw [ofPair_of_none hs ht s hd] at hmem
    exact absurd hmem List.not_mem_nil
  | some d => exact ⟨d, rfl, hmem⟩

omit hregistered in
/-- **An update has the descriptor that the resource type has under its key**, as the attributes of
both resources do. -/
lemma descriptor?_of_mem_allUpdates (s : Selector) {u : Attribute}
    (hu : u ∈ allUpdates t.core s source target) : t.descriptor? u.key = some u.descriptor := by
  obtain ⟨d, hd, hmem⟩ := exists_of_mem_allUpdates hs ht s hu
  obtain ⟨a, ha, hdescriptor⟩ := Change.exists_descriptor_of_mem_ofPair hmem
  rw [hd, hdescriptor]
  rcases ha with ha | ha
  · rw [(hs.conforms_of_lookup hd a ha).descriptor_eq]
  · rw [(ht.conforms_of_lookup hd a ha).descriptor_eq]

omit hregistered in
/-- No update that can be written stands under the key of a `meta` that cannot. -/
lemma key_ne_of_mem_allUpdates {m : Descriptor} (hmeta : t.metaAttribute? = some m)
    (hreadOnly : m.isReadOnly = true) (s : Selector) {u : Attribute}
    (hu : u ∈ allUpdates t.core s source target) (hwritable : u.descriptor.isReadOnly = false) :
    u.key ≠ AttributeMap.metaKey t.core := by
  intro hkey
  have hfound := descriptor?_of_mem_allUpdates hs ht s hu
  rw [hkey, ← t.metaAttribute?_eq_descriptor?, hmeta] at hfound
  cases hfound
  exact Bool.false_ne_true (hwritable.symm.trans hreadOnly)

variable (haddressable : t.IsAddressable)

include haddressable

omit ht in
/-- The deletions of a key are those of its change. -/
lemma filter_allDeletions (s : Selector) :
    (allDeletions t.core s source target).filter (fun p => decide (p.target t.core = k)) =
      (Change.ofPair t.core s (source.lookup k) (target.lookup k)).deletions := by
  refine filter_allDeletions_of_schema hs.wellFormed (fun a ha hnone => ?_) s k
  obtain ⟨d, hd, ha⟩ :=
    hs.exists_descriptor (hs.wellFormed.lookup_eq_some_iff.mpr ⟨ha, rfl⟩)
  rw [Attribute.schema, ha.descriptor_eq] at hnone
  exact absurd hnone (haddressable.schema _
    (hregistered.exists_withOperation (ResourceType.mem_of_descriptor? hd)).1)

/-- Each deletion is one of the change of the attribute that it names. -/
lemma exists_of_mem_allDeletions (s : Selector) {p : AttributePath}
    (hp : p ∈ allDeletions t.core s source target) :
    ∃ d, t.descriptor? (p.target t.core) = some d ∧
      p ∈ (Change.ofPair t.core s (source.lookup (p.target t.core))
        (target.lookup (p.target t.core))).deletions := by
  have hmem : p ∈ (Change.ofPair t.core s (source.lookup (p.target t.core))
      (target.lookup (p.target t.core))).deletions := by
    rw [← filter_allDeletions hregistered hs haddressable]
    exact List.mem_filter.mpr ⟨hp, decide_eq_true rfl⟩
  cases hd : t.descriptor? (p.target t.core) with
  | none =>
    rw [ofPair_of_none hs ht s hd] at hmem
    exact absurd hmem List.not_mem_nil
  | some d => exact ⟨d, rfl, hmem⟩

/-- The deletions can be written. -/
lemma wellFormed_of_mem_allDeletions (s : Selector) :
    ∀ p ∈ allDeletions t.core s source target, p.WellFormed := by
  intro p hp
  obtain ⟨d, hd, hmem⟩ := exists_of_mem_allDeletions hregistered hs ht haddressable s hp
  obtain ⟨sub, rfl, hname⟩ := (fits_ofPair hregistered hs ht s hd).deletions p hmem
  have hmem := ResourceType.mem_of_descriptor? hd
  refine Change.wellFormed_path (haddressable.schema _ (hregistered.exists_withOperation hmem).1)
    (haddressable.name d hmem) fun name hsub => ?_
  obtain ⟨x, hx, rfl⟩ := hname name hsub
  exact haddressable.sub d hmem x hx

/-! ## The body -/

variable (hmeta : t.HasCommonMeta)

include hmeta

omit hregistered hs ht haddressable in
/-- The descriptor under the key of `meta` cannot be written. -/
lemma isReadOnly_of_metaKey {d : Descriptor}
    (hd : t.descriptor? (AttributeMap.metaKey t.core) = some d) : d.isReadOnly = true := by
  obtain ⟨d', -, hd', -, -, hread, -⟩ := hmeta.exists_deletionList
  rw [t.metaAttribute?_eq_descriptor?, hd] at hd'
  cases hd'
  exact hread

omit haddressable in
/-- Under the key of `meta` a body carries no update. -/
lemma updates_written_metaKey (s : Selector) :
    (Change.ofPair t.core s (source.lookup (AttributeMap.metaKey t.core))
      (target.lookup (AttributeMap.metaKey t.core))).written.updates = [] := by
  cases hd : t.descriptor? (AttributeMap.metaKey t.core) with
  | none =>
    rw [ofPair_of_none hs ht s hd]
    rfl
  | some d =>
    exact (fits_ofPair hregistered hs ht s hd).updates_written_eq_nil
      (isReadOnly_of_metaKey hmeta hd)

omit hregistered haddressable in
/-- No writable update is one of `meta`. -/
lemma metaKey_not_mem (s : Selector) : AttributeMap.metaKey t.core ∉
    ((allUpdates t.core s source target).filter fun u => !u.descriptor.isReadOnly).map
      Attribute.key := by
  intro hmem
  obtain ⟨u, hu, hkey⟩ := List.mem_map.mp hmem
  obtain ⟨hu, hwritable⟩ := List.mem_filter.mp hu
  obtain ⟨m, -, hm, -, -, hreadOnly, -⟩ := hmeta.exists_deletionList
  exact key_ne_of_mem_allUpdates hs ht hm hreadOnly s hu (by simpa using hwritable) hkey

omit hregistered hs ht haddressable in
/-- The attribute `meta` that lists some deletions, read back. -/
lemma exists_deletionMeta (d : Diff) (htype : d.type = t) : ∃ a,
    d.deletionMeta = .ok a ∧ a.key = AttributeMap.metaKey t.core ∧
      ∃ v list, a.first? = some v ∧ v.sub? deletionListName = some list ∧
        list.values = d.deletedPaths.map Value.string := by
  obtain ⟨m, list, hmeta, hschema, hname, -, hlist, -⟩ := hmeta.exists_deletionList
  have hkey : m.key = AttributeMap.metaKey t.core := by
    rw [Descriptor.key, hschema, hname]
    rfl
  rw [← hkey]
  exact exists_deletionMeta_of_sub? (htype ▸ hmeta) hlist

omit hregistered hs ht haddressable hmeta in
/-- The paths that `meta` lists are read back as they were. -/
lemma deletionPaths?_of_meta {core : String} {body : AttributeMap} {a : Attribute} {v : Value}
    {list : Attribute} {paths : List AttributePath}
    (hget : body.lookup (AttributeMap.metaKey core) = some a) (hfirst : a.first? = some v)
    (hlist : v.sub? deletionListName = some list)
    (hvalues : list.values = (paths.map AttributePath.render).map Value.string)
    (hpaths : ∀ p ∈ paths, p.WellFormed) :
    AttributeMap.deletionPaths? core body = some paths := by
  have htexts : list.values.mapM Value.string? = some (paths.map AttributePath.render) := by
    rw [hvalues]
    exact Outcome.mapM_map_eq_some fun _ _ => rfl
  have hmeta : body.get? core metaName = some a := by
    rw [AttributeMap.get?_eq_lookup]
    exact hget
  rw [AttributeMap.deletionPaths?, AttributeMap.deletionTexts?, hmeta, Option.bind_some, hfirst]
  simp only [hlist]
  rw [htexts]
  refine Outcome.mapM_map_eq_some fun p hp => ?_
  rw [AttributePath.parse_render (hpaths p hp)]
  rfl

omit hregistered hs ht haddressable in
/-- **A body, read back.**  When the deletions can be written and the writable updates have
different keys, none of them that of `meta`, the body exists.  It lists the deletions and holds
the writable updates. -/
lemma exists_patch {d : Diff} (htype : d.type = t) (hwritten : ∀ p ∈ d.deletions, p.WellFormed)
    (hnodup : (d.writableUpdates.map Attribute.key).Nodup)
    (hnot : AttributeMap.metaKey t.core ∉ d.writableUpdates.map Attribute.key) :
    ∃ body, d.patch = .ok body ∧ body.WellFormed ∧
      AttributeMap.deletionPaths? t.core body = some d.deletions ∧
      ∀ k, k ≠ AttributeMap.metaKey t.core →
        body.lookup k = Keyed.get? Attribute.key k d.writableUpdates := by
  by_cases hempty : d.deletions = []
  · -- without deletions nothing stands under `meta`
    refine ⟨.ofList d.writableUpdates, by rw [patch, if_pos (by simpa using hempty)]; rfl,
      AttributeMap.wellFormed_ofList _, ?_, fun k _ => AttributeMap.lookup_ofList hnodup k⟩
    have hnone : (AttributeMap.ofList d.writableUpdates).get? t.core metaName = none := by
      rw [AttributeMap.get?_eq_lookup, AttributeMap.lookup_ofList hnodup]
      exact Keyed.get?_eq_none_iff.mpr hnot
    rw [AttributeMap.deletionPaths?, AttributeMap.deletionTexts?, hnone, hempty]
    rfl
  · obtain ⟨a, ha, hkey, v, list, hfirst, hlist, hvalues⟩ := exists_deletionMeta hmeta d htype
    have hcons : ((a :: d.writableUpdates).map Attribute.key).Nodup := by
      rw [List.map_cons, List.nodup_cons, hkey]
      exact ⟨hnot, hnodup⟩
    refine ⟨.ofList (a :: d.writableUpdates),
      by rw [patch, if_neg (by simpa using hempty), ha]; rfl,
      AttributeMap.wellFormed_ofList _, ?_, fun k hk => ?_⟩
    · refine deletionPaths?_of_meta ?_ hfirst hlist hvalues hwritten
      rw [AttributeMap.lookup_ofList hcons, Keyed.get?]
      exact if_pos hkey
    · rw [AttributeMap.lookup_ofList hcons, Keyed.get?, if_neg (by rw [hkey]; exact Ne.symm hk)]

/-- **The body of the difference.**  It lists the deletions, and holds under every other key the
writable update of that key. -/
theorem exists_body (s : Selector) (d : Diff) (hd : between t source target s = .ok d) :
    ∃ body, d.patch = .ok body ∧ body.WellFormed ∧
      AttributeMap.deletionPaths? t.core body = some d.deletions ∧
      ∀ k, k ≠ AttributeMap.metaKey t.core → body.lookup k =
        (Change.ofPair t.core s (source.lookup k) (target.lookup k)).written.updates.head? := by
  rw [between_eq hregistered hs ht s] at hd
  cases hd
  have hnodup := nodup_allUpdates hs.wellFormed ht.wellFormed t.core s
  have hwritable := hnodup.sublist ((List.filter_sublist
    (p := fun u : Attribute => !u.descriptor.isReadOnly)).map Attribute.key)
  have hwritten := wellFormed_of_mem_allDeletions hregistered hs ht haddressable s
  obtain ⟨body, hpatch, hbody, hpaths, hlookup⟩ := exists_patch hmeta
    (d := ⟨t, Keyed.distinct (allDeletions t.core s source target),
      allUpdates t.core s source target⟩) rfl
    (fun p hp => hwritten p (Keyed.mem_of_mem_distinct hp)) hwritable
    (metaKey_not_mem hs ht hmeta s)
  refine ⟨body, hpatch, hbody, hpaths, fun k hk => ?_⟩
  rw [hlookup k hk, writableUpdates, ← Keyed.head?_filter, List.filter_comm,
    filter_allUpdates hs.wellFormed ht.wellFormed]
  rfl

/-! ## The patched resource -/

/-- **Applying the body to any resource.**  The difference of conforming resources exists, so does
its body, and a service provider can apply it to every regular resource, whether it is the source
or has changed meanwhile.  The result is regular, and each of its attributes is what the body
carries of the change of its key. -/
theorem exists_applied (s : Selector) :
    ∃ d body, between t source target s = .ok d ∧ d.patch = .ok body ∧
      ∀ stored : AttributeMap, stored.Regular t → ∃ m,
        AttributeMap.patched? t.core stored body = some m ∧ m.Regular t ∧
        ∀ k, m.lookup k = (Change.ofPair t.core s (source.lookup k)
          (target.lookup k)).written.applyTo (stored.lookup k) := by
  have hbetween := between_eq hregistered hs ht s
  obtain ⟨body, hpatch, hbody, hpaths, hupdate⟩ :=
    exists_body hregistered hs ht haddressable hmeta s _ hbetween
  have hdeletions : ∀ k, (Keyed.distinct (allDeletions t.core s source target)).filter
      (fun p => decide (p.target t.core = k)) = Keyed.distinct
        (Change.ofPair t.core s (source.lookup k) (target.lookup k)).deletions := by
    intro k
    rw [← filter_allDeletions hregistered hs haddressable]
    refine (Keyed.distinct_filter fun p _ q _ hpq => ?_).symm
    rw [AttributePath.target_congr t.core hpq]
  have hcarried : ∀ k, (if k = AttributeMap.metaKey t.core then none else body.lookup k) =
      (Change.ofPair t.core s (source.lookup k) (target.lookup k)).written.updates.head? := by
    intro k
    by_cases hk : k = AttributeMap.metaKey t.core
    · rw [if_pos hk, hk, updates_written_metaKey hregistered hs ht hmeta]
      rfl
    · rw [if_neg hk, hupdate k hk]
  refine ⟨_, body, hbetween, hpatch, fun stored hstored => ?_⟩
  obtain ⟨m, hm, hwf, hlookup⟩ := AttributeMap.exists_patched hstored.wellFormed hbody hpaths
  have happlied : ∀ k, m.lookup k = (Change.ofPair t.core s (source.lookup k)
      (target.lookup k)).written.applyTo (stored.lookup k) := by
    intro k
    rw [hlookup, hdeletions, hcarried]
    rfl
  refine ⟨m, hm, ⟨hwf, fun k a ha => ?_⟩, happlied⟩
  rw [happlied] at ha
  cases hd : t.descriptor? k with
  | none =>
    rw [ofPair_of_none hs ht s hd, hstored.lookup_eq_none hd] at ha
    cases ha
  | some d =>
    have hfits := fits_ofPair hregistered hs ht s hd
    exact ⟨d, rfl, hfits.written.regularAt_applyTo (hstored.regularAt hd) a ha⟩

/-- **Applying the body to the source.**  Each writable attribute of the result is what the change
of its key makes of the attribute of the source. -/
theorem exists_patched (s : Selector) :
    ∃ d body m, between t source target s = .ok d ∧ d.patch = .ok body ∧
      AttributeMap.patched? t.core source body = some m ∧ m.Regular t ∧
      ∀ k d, t.descriptor? k = some d → d.isReadOnly = false →
        m.lookup k = (Change.ofPair t.core s (source.lookup k) (target.lookup k)).applyTo
          (source.lookup k) := by
  obtain ⟨d, body, hbetween, hpatch, happly⟩ :=
    exists_applied hregistered hs ht haddressable hmeta s
  obtain ⟨m, hm, hregular, hlookup⟩ := happly source hs.regular
  refine ⟨d, body, m, hbetween, hpatch, hm, hregular, fun k d hd hread => ?_⟩
  rw [hlookup, (fits_ofPair hregistered hs ht s hd).written_eq_self hread]

end Between

end Diff

end Scim
