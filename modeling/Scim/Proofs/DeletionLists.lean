import Scim.Proofs.ReachableRegistries

set_option autoImplicit false

/-!
# Where deletions are listed

The body of a PATCH request lists the deletions in `meta.attributes`.  A registration gives every
core schema that has no attribute `meta` the common one, which is a read-only entry with such a
list.  An attribute `meta` that the core schema defines itself stays as it is, whatever it looks
like.  Without a sub-attribute `attributes` the body has no place for deletions; when the attribute
can be written, an update of it takes the place of the list.

## Main definitions

* `Scim.AttributeDefinition.HoldsDeletions`, `Scim.ResourceType.HasDeletionMeta` — `meta` is a
  read-only entry with a list of texts.
* `Scim.Diff.ListsDeletions` — the body exists and lists all deletions.

## Main results

* `Scim.ResourceType.hasDeletionMeta_iff` — when a registration answers a resource type with such
  a `meta`.
* `Scim.Diff.listsDeletions_iff` — when the body of a difference lists all deletions.
* `Scim.Diff.deletions_listed_iff` — both, in terms of the core schema.
-/

namespace Scim

/-! ## Definitions of `meta` -/

namespace AttributeDefinition

variable {d : AttributeDefinition}

/-- An attribute that holds deletions: a single entry that cannot be written, with a list of texts
`attributes`. -/
structure HoldsDeletions (d : AttributeDefinition) : Prop where
  readOnly : d.mutability = .readOnly
  single : d.multiValued = false
  complex : d.isComplex = true
  list : ∃ sub, d.sub? deletionListName = some sub ∧ sub.multiValued = true ∧ sub.type = .string

/-- A single-valued definition needs no sub-attribute `operation`. -/
lemma withOperation_of_single (h : d.multiValued = false) : d.withOperation = d := by
  rw [withOperation, if_neg (by simp [h])]

/-- The sub-attribute `operation` does not come in the way of the list. -/
lemma sub?_withOperation (d : AttributeDefinition) :
    d.withOperation.sub? deletionListName = d.sub? deletionListName := by
  rw [withOperation]
  split
  · have hother : decide (SameName operationDefinition.name deletionListName) = false := by decide
    rw [sub?, sub?, List.find?_append, List.find?_singleton, hother]
    simp
  · rfl

/-- The sub-attribute `operation` is not needed to hold deletions, and does not prevent it. -/
lemma holdsDeletions_withOperation : d.withOperation.HoldsDeletions ↔ d.HoldsDeletions := by
  cases hmulti : d.multiValued with
  | false => rw [withOperation_of_single hmulti]
  | true =>
    constructor
    · intro h
      have hsingle := h.single
      rw [withOperation_multiValued, hmulti] at hsingle
      cases hsingle
    · intro h
      rw [h.single] at hmulti
      cases hmulti

end AttributeDefinition

/-- The common `meta` holds deletions. -/
lemma Standard.exists_commonMeta : ∃ d,
    Standard.common.find? (fun d => SameName d.name metaName) = some d ∧ d.HoldsDeletions :=
  ⟨_, rfl, rfl, rfl, rfl, _, rfl, rfl, rfl⟩

/-! ## Resource types -/

namespace ResourceType

variable {t : ResourceType} {r r' : Registry} {name endpoint core : String}
  {extensions : List String} {schema : Schema}

/-- The attribute `meta` of the core schema holds deletions. -/
def HasDeletionMeta (t : ResourceType) : Prop :=
  ∃ d, t.metaAttribute? = some d ∧ d.definition.HoldsDeletions

/-- The attribute `meta` is in the place where bodies have it. -/
lemma key_of_metaAttribute? {d : Descriptor} (h : t.metaAttribute? = some d) :
    d.key = AttributeMap.metaKey t.core := by
  rw [metaAttribute?_eq_descriptor?] at h
  exact key_of_descriptor? h

/-- Every registered resource type has an attribute `meta`: that of its core schema if there is
one, and the common one otherwise. -/
lemma exists_metaAttribute (hregister : r.register name endpoint core extensions = .ok (t, r'))
    (hcore : r.findSchema core = .ok schema) :
    ∃ d, t.metaAttribute? = some d ∧
      (d.definition.HoldsDeletions ↔
        ∀ own, schema.attribute? metaName = some own → own.HoldsDeletions) ∧
      ((d.sub? deletionListName).isSome = true ↔
        ∀ own, schema.attribute? metaName = some own →
          (own.sub? deletionListName).isSome = true) := by
  obtain ⟨coreSchema, extensionSchemas, hfound, -, rfl, -⟩ := register_ok hregister
  obtain rfl : schema = coreSchema := by
    rw [hcore] at hfound
    cases hfound
    rfl
  have hmeta : ∀ d, (schema.withCommon Standard.common).attribute? metaName = some d →
      (ofSchemas name endpoint (schema.withCommon Standard.common).withOperations
        (extensionSchemas.map Schema.withOperations)).metaAttribute? =
          some ⟨(schema.withCommon Standard.common).withOperations.id, d.withOperation⟩ := by
    intro d hd
    refine attribute?_ofSchemas ?_
    rw [Schema.attribute?_withOperations, hd, Option.map_some]
  cases hown : schema.attribute? metaName with
  | none =>
    obtain ⟨d, hd, hholds⟩ := Standard.exists_commonMeta
    obtain ⟨list, hlist, -⟩ := hholds.list
    refine ⟨_, hmeta d (by rw [Schema.attribute?_withCommon, hown, hd]; rfl),
      iff_of_true (AttributeDefinition.holdsDeletions_withOperation.mpr hholds) (by simp),
      iff_of_true ?_ (by simp)⟩
    rw [Descriptor.sub?, AttributeDefinition.sub?_withOperation, hlist]
    rfl
  | some own =>
    refine ⟨_, hmeta own (by rw [Schema.attribute?_withCommon, hown]; rfl), ?_, ?_⟩
    · simpa using AttributeDefinition.holdsDeletions_withOperation
    · simp [Descriptor.sub?, AttributeDefinition.sub?_withOperation]

/-- **When `meta` is as promised.**  A registration answers a resource type whose `meta` holds
deletions exactly when the core schema defines no other `meta` itself. -/
theorem hasDeletionMeta_iff (hregister : r.register name endpoint core extensions = .ok (t, r'))
    (hcore : r.findSchema core = .ok schema) :
    t.HasDeletionMeta ↔ ∀ own, schema.attribute? metaName = some own → own.HoldsDeletions := by
  obtain ⟨d, hd, hholds, -⟩ := exists_metaAttribute hregister hcore
  rw [← hholds, HasDeletionMeta, hd]
  simp

end ResourceType

/-! ## Bodies -/

/-- Whether one of the entries of an attribute lists a text. -/
def Attribute.Lists (a : Attribute) (text : String) : Prop :=
  ∃ v ∈ a.values, ∃ list, v.sub? deletionListName = some list ∧ Value.string text ∈ list.values

/-- Whether the attribute `meta` of a body lists a text. -/
def AttributeMap.Lists (core : String) (body : AttributeMap) (text : String) : Prop :=
  ∃ a, body.get? core metaName = some a ∧ a.Lists text

namespace Diff

variable {d : Diff}

/-- The body exists and its `meta` lists every deletion. -/
def ListsDeletions (d : Diff) : Prop :=
  ∃ body, d.patch = .ok body ∧ ∀ text ∈ d.deletedPaths, body.Lists d.type.core text

/-- The attribute `meta` that is made for a body lists every deletion. -/
lemma lists_deletionMeta {m list : Descriptor} (hmeta : d.type.metaAttribute? = some m)
    (hlist : m.sub? deletionListName = some list) : ∃ a, d.deletionMeta = .ok a ∧
      a.key = AttributeMap.metaKey d.type.core ∧ ∀ text ∈ d.deletedPaths, a.Lists text := by
  obtain ⟨a, ha, hkey, v, sub, hfirst, hsub, hvalues⟩ := exists_deletionMeta_of_sub? hmeta hlist
  refine ⟨a, ha, hkey.trans (ResourceType.key_of_metaAttribute? hmeta), fun text htext =>
    ⟨v, List.mem_of_head? hfirst, sub, hsub, ?_⟩⟩
  rw [hvalues]
  exact List.mem_map_of_mem htext

/-- An update of `meta` stands in the body in the place of the list. -/
lemma get?_meta_ofList {core : String} {a : Attribute} {us : List Attribute}
    (hkey : a.key = AttributeMap.metaKey core) (hus : (us.map Attribute.key).Nodup) :
    (AttributeMap.ofList (a :: us)).get? core metaName =
      (Keyed.get? Attribute.key (AttributeMap.metaKey core) us).or (some a) := by
  have hinserted := AttributeMap.wellFormed_empty.insert a
  rw [AttributeMap.get?_eq_lookup, AttributeMap.ofList, List.foldl_cons]
  change AttributeMap.lookup _ (AttributeMap.metaKey core) = _
  rw [(AttributeMap.lookup_foldl_insert hinserted hus _).2,
    AttributeMap.lookup_insert AttributeMap.wellFormed_empty, if_pos hkey]

/-- **When a body lists all deletions.**  It needs a place for them, and no written update of
`meta` may take that place, unless it happens to list them.

**Proof sketch.**  Without deletions there is nothing to list.  Otherwise the body starts with a
`meta` that lists them, which exists exactly when `meta` has a sub-attribute for the list.  The
written updates have different keys and follow in order; so the `meta` of the body is the update
of that key, if there is one. -/
theorem listsDeletions_iff {m : Descriptor} (hmeta : d.type.metaAttribute? = some m)
    (hnodup : (d.writableUpdates.map Attribute.key).Nodup) :
    d.ListsDeletions ↔ d.deletions = [] ∨ (m.sub? deletionListName).isSome = true ∧
      ∀ u ∈ d.writableUpdates, u.isNamed d.type.core metaName = true →
        ∀ text ∈ d.deletedPaths, u.Lists text := by
  by_cases hempty : d.deletions = []
  · refine iff_of_true ⟨.ofList d.writableUpdates, ?_, ?_⟩ (.inl hempty)
    · rw [patch, if_pos (by simpa using hempty)]
      rfl
    · simp [deletedPaths, hempty]
  · rw [or_iff_right hempty]
    have hpatch : d.patch =
        d.deletionMeta.bind fun a => .ok (.ofList (a :: d.writableUpdates)) := by
      rw [patch, if_neg (by simpa using hempty)]
      rfl
    cases hlist : m.sub? deletionListName with
    | none =>
      have hdefect : d.deletionMeta = .error (.missingDeletionList d.type.name) := by
        simp only [deletionMeta, hmeta, hlist]
      refine iff_of_false ?_ (fun h => Bool.false_ne_true h.1)
      rintro ⟨body, hbody, -⟩
      rw [hpatch, hdefect] at hbody
      cases hbody
    | some list =>
      obtain ⟨a, ha, hkey, hlists⟩ := lists_deletionMeta hmeta hlist
      have hbody : d.patch = .ok (.ofList (a :: d.writableUpdates)) := by rw [hpatch, ha]; rfl
      have hget := get?_meta_ofList hkey hnodup
      have hnamed : ∀ u : Attribute, u.isNamed d.type.core metaName = true ↔
          u.key = AttributeMap.metaKey d.type.core := by
        intro u
        rw [AttributeMap.isNamed_meta, decide_eq_true_iff]
      constructor
      · rintro ⟨body, hbody', hall⟩
        rw [hbody] at hbody'
        cases hbody'
        refine ⟨rfl, fun u hu hname text htext => ?_⟩
        obtain ⟨x, hx, hxlists⟩ := hall text htext
        rw [hget, (Keyed.get?_eq_some_iff hnodup).mpr ⟨hu, (hnamed u).mp hname⟩] at hx
        cases hx
        exact hxlists
      · rintro ⟨-, hupdates⟩
        refine ⟨_, hbody, fun text htext => ?_⟩
        cases hfound : Keyed.get? Attribute.key (AttributeMap.metaKey d.type.core)
          d.writableUpdates with
        | none => exact ⟨a, by rw [hget, hfound]; rfl, hlists text htext⟩
        | some u =>
          obtain ⟨hu, hukey⟩ := (Keyed.get?_eq_some_iff hnodup).mp hfound
          exact ⟨u, by rw [hget, hfound]; rfl, hupdates u hu ((hnamed u).mpr hukey) text htext⟩

end Diff

/-! ## A resource type with a writable `meta` -/

/-- A schema whose `meta` has the list, but can be written. -/
def noteSchema : Schema where
  id := "urn:note"
  name := "Note"
  attributes :=
    [ Standard.plain "title",
      { name := metaName, type := .complex,
        subAttributes := [{ name := deletionListName, type := .string, multiValued := true }] } ]

/-- The resource type that is built from that schema. -/
def noteType : ResourceType :=
  .ofSchemas "Note" "Notes" (noteSchema.withCommon Standard.common).withOperations []

/-- The empty registry with that schema. -/
def noteRegistry : Registry := Registry.empty.addSchema noteSchema

/-- The registration keeps the `meta` of the schema. -/
lemma register_note : noteRegistry.register "Note" "Notes" "urn:note" [] =
    .ok (noteType, noteRegistry.afterRegister "Note" "Notes" "urn:note" []) :=
  rfl

/-! ## Registered types -/

namespace Diff

/-- No update of a `meta` that holds deletions is written. -/
lemma not_isNamed_of_mem_writableUpdates {t : ResourceType} {source target : AttributeMap}
    (hs : source.Conforms t) (ht : target.Conforms t) {s : Selector} {d : Diff}
    (hd : between t source target s = .ok d) (hmeta : t.HasDeletionMeta) :
    ∀ u ∈ d.writableUpdates, ¬u.isNamed t.core metaName = true := by
  intro u hu hname
  obtain ⟨m, hm, hholds⟩ := hmeta
  have hreadOnly : m.isReadOnly = true := by rw [Descriptor.isReadOnly, hholds.readOnly]; rfl
  obtain ⟨-, rfl⟩ := between_eq_ok_iff.mp hd
  obtain ⟨hmem, hwritable⟩ := List.mem_filter.mp hu
  rw [AttributeMap.isNamed_meta, decide_eq_true_iff] at hname
  exact key_ne_of_mem_allUpdates hs ht hm hreadOnly s hmem (by simpa using hwritable) hname

/-- **Where the deletions of registered types are listed.**  A registration answers a resource type
whose `meta` is a read-only entry with a list of texts `attributes` exactly when the core schema
defines no other `meta` itself.  For any two resources read as that type and any selector the
difference exists.  Its body exists and lists every deletion exactly when there are none, or when
there is a place for them that no written update takes.  With a `meta` as above that is always so.

**Proof sketch.**  An own `meta` of the core schema comes before the common one, and the
sub-attribute `operation` changes nothing about it that matters.  The updates of a difference have
different keys, so that at most one of them is of `meta`; it belongs to the descriptor of `meta`
and is not written if that is read-only. -/
theorem deletions_listed_iff {r r' : Registry} {t : ResourceType} {name endpoint core : String}
    {extensions : List String} {schema : Schema}
    (hregister : r.register name endpoint core extensions = .ok (t, r'))
    (hcore : r.findSchema core = .ok schema) :
    (t.HasDeletionMeta ↔
      ∀ own, schema.attribute? metaName = some own → own.HoldsDeletions) ∧
    ∀ {source target : AttributeMap} {sourceJson targetJson : Json},
      AttributeMap.ofJson t sourceJson = .ok source →
      AttributeMap.ofJson t targetJson = .ok target →
      ∀ s : Selector, ∃ d, between t source target s = .ok d ∧
        (d.ListsDeletions ↔ d.deletions = [] ∨
          (∀ own, schema.attribute? metaName = some own →
            (own.sub? deletionListName).isSome = true) ∧
          ∀ u ∈ d.writableUpdates, u.isNamed t.core metaName = true →
            ∀ text ∈ d.deletedPaths, u.Lists text) ∧
        (t.HasDeletionMeta → d.ListsDeletions) := by
  refine ⟨ResourceType.hasDeletionMeta_iff hregister hcore, ?_⟩
  intro source target sourceJson targetJson hsource htarget s
  have hregistered : t.IsRegistered := ⟨_, _, _, _, _, _, hregister⟩
  have hs := AttributeMap.conforms_of_ofJson hsource
  have ht := AttributeMap.conforms_of_ofJson htarget
  obtain ⟨m, hm, hholds, hlist⟩ := ResourceType.exists_metaAttribute hregister hcore
  have hbetween := between_eq hregistered hs ht s
  have hnodup := (nodup_allUpdates hs.wellFormed ht.wellFormed t.core s).sublist
    ((List.filter_sublist (p := fun u : Attribute => !u.descriptor.isReadOnly)).map Attribute.key)
  have hlists := listsDeletions_iff (d := ⟨t, Keyed.distinct (allDeletions t.core s source target),
    allUpdates t.core s source target⟩) hm hnodup
  refine ⟨_, hbetween, by rw [← hlist]; exact hlists, fun hmeta => hlists.mpr (.inr ⟨?_, ?_⟩)⟩
  · obtain ⟨own, hown, hownHolds⟩ := hmeta
    rw [hm] at hown
    cases hown
    obtain ⟨sub, hsub, -⟩ := hownHolds.list
    rw [Descriptor.sub?, hsub]
    rfl
  · intro u hu hname
    exact absurd hname (not_isNamed_of_mem_writableUpdates hs ht hbetween hmeta u hu)

/-- A tool has a text for `meta`, so that its parts cannot be deleted.  When a note loses its
title and gets a `meta`, the list of that `meta` is all that its body has. -/
theorem deletions_not_listed :
    (¬toolType.HasDeletionMeta ∧ ∃ source target d,
      AttributeMap.ofJson toolType
        (.object [("parts", .array [.object [("value", .string "1")]])]) = .ok source ∧
      AttributeMap.ofJson toolType (.object []) = .ok target ∧
      between toolType source target .all = .ok d ∧ d.deletedPaths = ["parts"] ∧
      ¬d.ListsDeletions) ∧
    ¬noteType.HasDeletionMeta ∧ ∃ source target d,
      AttributeMap.ofJson noteType (.object [("title", .string "a")]) = .ok source ∧
      AttributeMap.ofJson noteType
        (.object [("meta", .object [("attributes", .array [.string "b"])])]) = .ok target ∧
      between noteType source target .all = .ok d ∧ d.deletedPaths = ["title"] ∧
      ¬d.ListsDeletions := by
  have hfindTool : toolRegistry.findSchema "URN:Tool" = .ok toolSchema := rfl
  have hfindNote : noteRegistry.findSchema "urn:note" = .ok noteSchema := rfl
  obtain ⟨htool, htools⟩ := deletions_listed_iff register_tool hfindTool
  obtain ⟨hnote, hnotes⟩ := deletions_listed_iff register_note hfindNote
  refine ⟨⟨?_, ?_⟩, ?_, ?_⟩
  · rw [htool]
    intro h
    have hcomplex := (h _ rfl).complex
    cases hcomplex
  · obtain ⟨source, target, d, hsource, htarget, hd, hpaths⟩ : ∃ source target d,
        AttributeMap.ofJson toolType
          (.object [("parts", .array [.object [("value", .string "1")]])]) = .ok source ∧
        AttributeMap.ofJson toolType (.object []) = .ok target ∧
        between toolType source target .all = .ok d ∧ d.deletedPaths = ["parts"] :=
      ⟨_, _, _, rfl, rfl, rfl, rfl⟩
    obtain ⟨d', hd', hiff, -⟩ := htools hsource htarget .all
    obtain rfl : d = d' := Except.ok.inj (hd.symm.trans hd')
    refine ⟨source, target, d, hsource, htarget, hd, hpaths, ?_⟩
    rw [hiff]
    rintro (hnil | ⟨hlist, -⟩)
    · simp [deletedPaths, hnil] at hpaths
    · cases hlist _ rfl
  · rw [hnote]
    intro h
    have hread := (h _ rfl).readOnly
    cases hread
  · obtain ⟨source, target, d, hsource, htarget, hd, hpaths, u, hupdates, hname, v, list, hvalues,
        hlist, htexts⟩ : ∃ source target d,
        AttributeMap.ofJson noteType (.object [("title", .string "a")]) = .ok source ∧
        AttributeMap.ofJson noteType
          (.object [("meta", .object [("attributes", .array [.string "b"])])]) = .ok target ∧
        between noteType source target .all = .ok d ∧ d.deletedPaths = ["title"] ∧
        ∃ u, d.writableUpdates = [u] ∧ u.isNamed noteType.core metaName = true ∧
          ∃ v list, u.values = [v] ∧ v.sub? deletionListName = some list ∧
            list.values = [Value.string "b"] :=
      ⟨_, _, _, rfl, rfl, rfl, rfl, _, rfl, rfl, _, _, rfl, rfl, rfl⟩
    obtain ⟨d', hd', hiff, -⟩ := hnotes hsource htarget .all
    obtain rfl : d = d' := Except.ok.inj (hd.symm.trans hd')
    refine ⟨source, target, d, hsource, htarget, hd, hpaths, ?_⟩
    rw [hiff]
    rintro (hnil | ⟨-, htaken⟩)
    · simp [deletedPaths, hnil] at hpaths
    · obtain ⟨w, hw, list', hlist', htext⟩ :=
        htaken u (by simp [hupdates]) hname "title" (by simp [hpaths])
      rw [hvalues, List.mem_singleton] at hw
      rw [hw, hlist] at hlist'
      cases hlist'
      rw [htexts, List.mem_singleton] at htext
      simp [Value.string] at htext

end Diff

end Scim
