import Scim.Proofs.BodyConformance
import Scim.Proofs.DeletionLists

set_option autoImplicit false

/-!
# What bodies hold

Attributes are put into a body one after the other, and of two with one key only the later one
stays.  The list of deletions comes first, so that an update of `meta` would take its place.  As
long as the attribute `meta` cannot be written this does not happen: a body holds that list and
all updates that can be written, each of them once, and nothing else.

## Main definitions

* `Scim.Diff.listing` — the attribute that lists the deletions.
* `Scim.Diff.parts` — what is put into a body.

## Main results

* `Scim.Diff.body_contents` — what a body holds, and what a user reads off it.
-/

namespace Scim

/-! ## Resources made of maps -/

/-- A resource has the type and the attributes that it is made of. -/
lemma Resource.eq_of_ofAttributes {t : ResourceType} {m : AttributeMap} {r : Resource}
    (h : ofAttributes t m = .ok r) : r.type = t ∧ r.attributes = m := by
  unfold ofAttributes at h
  split at h
  · cases h
    exact ⟨rfl, rfl⟩
  · cases h

/-- So does a user. -/
lemma UserResource.eq_of_ofAttributes {t : ResourceType} {m : AttributeMap} {u : UserResource}
    (h : ofAttributes t m = .ok u) : u.base.type = t ∧ u.base.attributes = m := by
  obtain ⟨-, -, h⟩ := Outcome.bind_eq_ok_iff.mp h
  obtain ⟨r, hr, h⟩ := Outcome.bind_eq_ok_iff.mp h
  cases h
  exact Resource.eq_of_ofAttributes hr

/-- Attributes that fit a type of users make a user. -/
lemma UserResource.ofAttributes_eq_ok {t : ResourceType} {m : AttributeMap}
    (hcore : t.isCore Standard.userId = true) (hcheck : t.check m = .ok ()) :
    ofAttributes t m = .ok ⟨⟨t, m, hcheck⟩⟩ := by
  have htype : checkType t = .ok () := if_pos hcore
  rw [ofAttributes, htype, Resource.ofAttributes_eq_ok hcheck]
  rfl

namespace Diff

variable {t : ResourceType} {m list : Descriptor} {source target : AttributeMap} {s : Selector}
  {d : Diff} {u : Attribute}

/-- A difference belongs to the type for which it is made. -/
lemma type_of_between (hd : between t source target s = .ok d) : d.type = t := by
  obtain ⟨-, rfl⟩ := between_eq_ok_iff.mp hd
  rfl

/-! ## The parts of a body -/

/-- The attribute that lists the deletions: `meta` with one entry that has nothing but the list. -/
def listing (m list : Descriptor) (d : Diff) : Attribute :=
  .single m (.complex ⟨[⟨list, d.deletedPaths.map Value.string⟩]⟩)

/-- What is put into a body: the list of the deletions, if there are any, and the writable
updates. -/
def parts (m list : Descriptor) (d : Diff) : List Attribute :=
  (if d.deletions.isEmpty then [] else [d.listing m list]) ++ d.writableUpdates

/-- The list is a part when there are deletions, and so are the writable updates. -/
lemma mem_parts {a : Attribute} :
    a ∈ d.parts m list ↔ d.deletions ≠ [] ∧ a = d.listing m list ∨ a ∈ d.writableUpdates := by
  rw [parts, List.mem_append]
  refine or_congr_left ?_
  split
  · rename_i hempty
    simp [List.isEmpty_iff.mp hempty]
  · rename_i hne
    have hne' : d.deletions ≠ [] := by simpa using hne
    rw [List.mem_singleton, and_iff_right hne']

/-- A body is made of its parts. -/
lemma patch_eq (hmeta : d.type.metaAttribute? = some m)
    (hlist : m.sub? deletionListName = some list) : d.patch = .ok (.ofList (d.parts m list)) := by
  rw [patch, parts]
  split
  · rfl
  · have hdeletionMeta : d.deletionMeta = .ok (d.listing m list) := by
      simp only [deletionMeta, hmeta, hlist]
      rw [Entry.ofList_eq (by simp), listing]
    rw [hdeletionMeta]
    rfl

section

variable (hs : source.Conforms t) (ht : target.Conforms t)

variable (hd : between t source target s = .ok d) (hmeta : t.metaAttribute? = some m)
  (hreadOnly : m.isReadOnly = true)

include hs ht hd hmeta hreadOnly

/-- No update that can be written stands under the key of a `meta` that cannot. -/
lemma key_ne_of_mem_writableUpdates (hu : u ∈ d.writableUpdates) :
    u.key ≠ AttributeMap.metaKey t.core := by
  obtain ⟨-, rfl⟩ := between_eq_ok_iff.mp hd
  obtain ⟨hmem, hwritable⟩ := List.mem_filter.mp hu
  exact key_ne_of_mem_allUpdates hs ht hmeta hreadOnly s hmem (by simpa using hwritable)

/-- The parts of a body have different keys, so that none takes the place of another. -/
lemma nodup_parts (list : Descriptor) : ((d.parts m list).map Attribute.key).Nodup := by
  have hupdates : (d.updates.map Attribute.key).Nodup := by
    obtain ⟨-, rfl⟩ := between_eq_ok_iff.mp hd
    exact nodup_allUpdates hs.wellFormed ht.wellFormed t.core s
  have hwritable : (d.writableUpdates.map Attribute.key).Nodup :=
    hupdates.sublist (List.filter_sublist.map _)
  rw [parts]
  split
  · exact hwritable
  · refine List.nodup_cons.mpr ⟨fun hmem => ?_, hwritable⟩
    obtain ⟨u, hu, hkey⟩ := List.mem_map.mp hmem
    exact key_ne_of_mem_writableUpdates hs ht hd hmeta hreadOnly hu
      (hkey.trans (ResourceType.key_of_metaAttribute? hmeta))

/-- Under the key of `meta` a body has the list of deletions and nothing else. -/
lemma get?_meta_parts (list : Descriptor) :
    (AttributeMap.ofList (d.parts m list)).get? t.core metaName =
      if d.deletions.isEmpty then none else some (d.listing m list) := by
  have hnodup := nodup_parts hs ht hd hmeta hreadOnly list
  rw [AttributeMap.get?_eq_lookup, AttributeMap.lookup_ofList hnodup, ← AttributeMap.metaKey]
  split
  · rename_i hempty
    refine Keyed.get?_eq_none_iff.mpr fun hmem => ?_
    obtain ⟨u, hu, hkey⟩ := List.mem_map.mp hmem
    rcases mem_parts.mp hu with ⟨hne, -⟩ | hu
    · exact hne (List.isEmpty_iff.mp hempty)
    · exact key_ne_of_mem_writableUpdates hs ht hd hmeta hreadOnly hu hkey
  · rename_i hne
    exact (Keyed.get?_eq_some_iff hnodup).mpr ⟨mem_parts.mpr (.inl ⟨by simpa using hne, rfl⟩),
      ResourceType.key_of_metaAttribute? hmeta⟩

end

/-! ## Reading a body -/

/-- A partial resource is what its factory makes of the body. -/
lemma partialResource_eq_ok_iff {R : Type} {factory : ResourceFactory R} {body : AttributeMap}
    {r : R} (hpatch : d.patch = .ok body) :
    d.partialResource factory = .ok (.ok r) ↔ factory d.type body = .ok r := by
  rw [partialResource, hpatch, Except.map]
  cases factory d.type body <;> simp [Except.mapError]

/-- A user that has no `meta` but the list of deletions answers the deletions. -/
lemma deletedAttributes_eq {user : UserResource} (hlist : m.sub? deletionListName = some list)
    (hcore : user.base.core? metaName =
      if d.deletions.isEmpty then none else some (d.listing m list)) :
    user.deletedAttributes = d.deletedPaths := by
  have hname := Descriptor.sameName_of_sub? hlist
  by_cases hempty : d.deletions.isEmpty = true
  · rw [if_pos hempty] at hcore
    rw [UserResource.deletedAttributes, Resource.coreValue?, hcore, deletedPaths,
      List.isEmpty_iff.mp hempty]
    rfl
  · rw [if_neg hempty] at hcore
    have hread : (user.base.coreValue? metaName).bind (Value.sub? · deletionListName) =
        some ⟨list, d.deletedPaths.map Value.string⟩ := by
      rw [Resource.coreValue?, hcore]
      exact if_pos hname
    have htexts : Value.string? ∘ Value.string = some := rfl
    rw [UserResource.deletedAttributes, hread]
    dsimp only
    rw [List.filterMap_map, htexts, List.filterMap_some]

/-- **What a body holds.**  Let `meta` be an attribute of the core schema that cannot be written and
has a sub-attribute for the deletions.  For any two resources read as that type and any selector the
difference exists when the type is registered.  Whenever it exists, so does its body.  The body
holds the list of deletions if there are any, as the only sub-attribute of the only value of `meta`,
and all updates that can be written, with their values, and nothing else.  So each such update is
found in the body, and no attribute but that `meta` is one that cannot be written.  When the body
makes a user, the user answers the deletions in order.

**Proof sketch.**  Each key has one change, which updates at most one attribute, and each update has
the descriptor of its key.  So the updates have different keys, and none that can be written has
that of `meta`.  Put into a body, such attributes do not replace each other. -/
theorem body_contents {t : ResourceType} {m list : Descriptor} (hmeta : t.metaAttribute? = some m)
    (hreadOnly : m.isReadOnly = true) (hlist : m.sub? deletionListName = some list)
    {source target : AttributeMap} {sourceJson targetJson : Json}
    (hsource : AttributeMap.ofJson t sourceJson = .ok source)
    (htarget : AttributeMap.ofJson t targetJson = .ok target) (s : Selector) :
    (t.IsRegistered → ∃ d, between t source target s = .ok d) ∧
    ∀ d, between t source target s = .ok d → ∃ body, d.patch = .ok body ∧
      body.toList.Perm
        ((if d.deletions.isEmpty then []
          else [.single m (.complex ⟨[⟨list, d.deletedPaths.map Value.string⟩]⟩)]) ++
        d.updates.filter fun u => !u.descriptor.isReadOnly) ∧
      (∀ u ∈ d.updates, u.descriptor.isReadOnly = false →
        body.get? u.schema u.name = some u) ∧
      (∀ a ∈ body.toList, a.descriptor.isReadOnly = true → d.deletions ≠ [] ∧
        a = .single m (.complex ⟨[⟨list, d.deletedPaths.map Value.string⟩]⟩)) ∧
      ∀ user, d.partialResource UserResource.ofAttributes = .ok (.ok user) →
        user.deletedAttributes = d.deletedPaths := by
  have hs := AttributeMap.conforms_of_ofJson hsource
  have ht := AttributeMap.conforms_of_ofJson htarget
  refine ⟨fun hregistered => ⟨_, between_eq hregistered hs ht s⟩, fun d hd => ?_⟩
  have htype := type_of_between hd
  have hpatch := patch_eq (d := d) (by rw [htype, hmeta]) hlist
  have hnodup := nodup_parts hs ht hd hmeta hreadOnly list
  have hperm := AttributeMap.perm_ofList hnodup
  refine ⟨_, hpatch, hperm, fun u hu hwritable => ?_, fun a ha hread => ?_, fun user huser => ?_⟩
  · have hmem : u ∈ d.writableUpdates := List.mem_filter.mpr ⟨hu, by rw [hwritable]; rfl⟩
    rw [AttributeMap.get?_eq_lookup, AttributeMap.lookup_ofList hnodup]
    exact Keyed.get?_of_mem hnodup (mem_parts.mpr (.inr hmem))
  · rcases mem_parts.mp (hperm.mem_iff.mp ha) with hlisting | ha
    · exact hlisting
    · have hwritable := (List.mem_filter.mp ha).2
      rw [hread] at hwritable
      exact absurd hwritable Bool.false_ne_true
  · obtain ⟨hcore, hattributes⟩ := UserResource.eq_of_ofAttributes
      ((partialResource_eq_ok_iff hpatch).mp huser)
    refine deletedAttributes_eq hlist ?_
    rw [Resource.core?, hattributes, hcore, htype]
    exact get?_meta_parts hs ht hd hmeta hreadOnly list

end Diff

/-! ## Users with two attributes -/

/-- A User schema that keeps little. -/
def guestSchema : Schema where
  id := Standard.userId
  name := "User"
  attributes := [Standard.plain "title", Standard.plain "displayName"]

/-- The resource type that is built from that schema. -/
def guestType : ResourceType :=
  .ofSchemas "User" "Users" (guestSchema.withCommon Standard.common).withOperations []

/-- The empty registry with that schema. -/
def guestRegistry : Registry := Registry.empty.addSchema guestSchema

/-- That registry registers it. -/
lemma register_guest : guestRegistry.register "User" "Users" Standard.userId [] =
    .ok (guestType, guestRegistry.afterRegister "User" "Users" Standard.userId []) :=
  rfl

/-- Guests have the common `meta`. -/
lemma hasCommonMeta_guestType : guestType.HasCommonMeta := by
  have hcore : guestRegistry.findSchema Standard.userId = .ok guestSchema := rfl
  exact ResourceType.hasCommonMeta_of_register register_guest hcore rfl

/-- Guests have text marks. -/
lemma hasTextMarks_guestType : guestType.HasTextMarks := by
  unfold ResourceType.HasTextMarks
  decide +kernel

/-- A guest with a title only. -/
def titledJson : Json := .object [("title", .string "Guide")]

/-- A guest with a name to display and two attributes that cannot be written. -/
def displayedJson : Json :=
  .object [("displayName", .string "Babs"), ("id", .string "1"),
    ("meta", .object [("resourceType", .string "User")])]

/-- A guest loses the title.  Of the attributes that come new, the identifier and `meta` cannot be
written, so that the body has the display name only, and the list of deletions as `meta`. -/
theorem Diff.body_contents_guest : ∃ source target d body u,
    AttributeMap.ofJson guestType titledJson = .ok source ∧
    AttributeMap.ofJson guestType displayedJson = .ok target ∧
    between guestType source target .all = .ok d ∧ d.deletedPaths = ["title"] ∧
    d.updates.map Attribute.name = ["displayName", "id", "meta"] ∧ d.patch = .ok body ∧
    (body.toList.map Attribute.name).Perm ["meta", "displayName"] ∧
    d.partialResource UserResource.ofAttributes = .ok (.ok u) ∧
    u.deletedAttributes = ["title"] := by
  obtain ⟨source, target, d, hsource, htarget, hd, hpaths, hupdates, hdeletions, hwritable⟩ :
      ∃ source target d, AttributeMap.ofJson guestType titledJson = .ok source ∧
      AttributeMap.ofJson guestType displayedJson = .ok target ∧
      between guestType source target .all = .ok d ∧ d.deletedPaths = ["title"] ∧
      d.updates.map Attribute.name = ["displayName", "id", "meta"] ∧
      d.deletions.isEmpty = false ∧
      (d.updates.filter fun u => !u.descriptor.isReadOnly).map Attribute.name = ["displayName"] :=
    ⟨_, _, _, rfl, rfl, rfl, rfl, rfl, rfl, rfl⟩
  have hregistered : guestType.IsRegistered := ⟨_, _, _, _, _, _, register_guest⟩
  obtain ⟨-, hcontents⟩ :=
    body_contents hasCommonMeta_guestType.metaAttribute?_eq rfl rfl hsource htarget .all
  obtain ⟨body, hpatch, hperm, -, -, hread⟩ := hcontents d hd
  obtain ⟨body', hpatch', hconforms⟩ := exists_conforming_body hregistered
    hasCommonMeta_guestType.hasDeletionList hasTextMarks_guestType
    (AttributeMap.conforms_of_ofJson hsource) (AttributeMap.conforms_of_ofJson htarget) hd
  obtain rfl : body = body' := Except.ok.inj (hpatch.symm.trans hpatch')
  have hcheck : d.type.check body = .ok () := by
    rw [type_of_between hd]
    exact ResourceType.check_of_conforms hregistered.isBuilt hconforms
  have hcore : d.type.isCore Standard.userId = true := by
    rw [type_of_between hd]
    rfl
  have hu := (partialResource_eq_ok_iff hpatch).mpr (UserResource.ofAttributes_eq_ok hcore hcheck)
  refine ⟨source, target, d, body, _, hsource, htarget, hd, hpaths, hupdates, hpatch, ?_, hu,
    (hread _ hu).trans hpaths⟩
  have hnames := hperm.map Attribute.name
  rw [hdeletions, List.map_append, hwritable] at hnames
  exact hnames

end Scim
