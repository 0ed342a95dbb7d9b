import Scim.Patch
import Scim.Proofs.Reproduction
import Scim.Proofs.StructuralCheck

set_option autoImplicit false

/-!
# Bodies are resources

A body is put together from parts of entries, marks and a list of deletions, and nothing checks it
on the way.  Still it conforms to its resource type as what is read from JSON does.  So it passes
the structural check of a resource, and it is read back from its written form.

## Main definitions

* `Scim.ResourceType.HasDeletionList` — the attribute `meta` has a place for the deletions.
* `Scim.ResourceType.HasTextMarks` — marks are texts.

## Main results

* `Scim.Change.conforms_of_mem_updates` — every update conforms to the descriptor of its attribute.
* `Scim.Diff.exists_conforming_body` — every body conforms to its resource type.
* `Scim.Diff.body_is_resource` — every body is a resource, and is read back as it was.
-/

namespace Scim

/-! ## What a body needs of its resource type -/

/-- The attribute `meta` of the core schema is complex and has a sub-attribute for any number of
texts, in which the deletions are listed. -/
def ResourceType.HasDeletionList (t : ResourceType) : Prop :=
  ∃ d list, t.metaAttribute? = some d ∧ d.isComplex = true ∧
    d.sub? deletionListName = some list ∧ list.isMultiValued = true ∧ list.type = .string

/-- The sub-attributes that mark entries of multi-valued attributes are texts. -/
def ResourceType.HasTextMarks (t : ResourceType) : Prop :=
  ∀ d ∈ t.descriptors, d.isMultiValued = true → d.isComplex = true →
    ∀ sub ∈ d.definition.subAttributes, SameName sub.name operationName → sub.type = .string

/-- The common `meta` has a place for the deletions. -/
lemma ResourceType.HasCommonMeta.hasDeletionList {t : ResourceType} (h : t.HasCommonMeta) :
    t.HasDeletionList :=
  ⟨_, _, h.metaAttribute?_eq, rfl, rfl, rfl, rfl⟩

/-! ## Conforming parts -/

/-- Texts conform to a descriptor of texts. -/
lemma Attribute.conformsSimple_strings {d : Descriptor} (htype : d.type = .string)
    {texts : List String} (hne : texts ≠ [])
    (hlen : d.isMultiValued = false → texts.length = 1) :
    (⟨d, texts.map Value.string⟩ : Attribute).ConformsSimple d where
  descriptor_eq := rfl
  arity := ⟨by simpa using hne, fun hsingle => by simpa using hlen hsingle⟩
  scalars := by
    intro v hv
    obtain ⟨text, -, rfl⟩ := List.mem_map.mp hv
    refine ⟨_, rfl, ?_⟩
    rw [htype]
    trivial

/-- A descriptor of texts is not complex. -/
lemma Descriptor.isComplex_of_string {d : Descriptor} (htype : d.type = .string) :
    d.isComplex = false := by
  have hdefinition : d.definition.type = .string := htype
  rw [isComplex, AttributeDefinition.isComplex, hdefinition]
  rfl

namespace Entry.Conforms

variable {d : Descriptor} {e f : Entry}

/-- A part of a conforming entry conforms, unless it is empty. -/
lemma of_sublist (hf : f.Conforms d) (hsub : e.subAttributes.Sublist f.subAttributes)
    (hne : e.isEmpty = false) : e.Conforms d where
  ne_nil := List.isEmpty_eq_false_iff.mp hne
  nodup := hf.nodup.sublist (hsub.map _)
  subs := fun a ha => hf.subs a (hsub.subset ha)

/-- A conforming entry with one more conforming sub-attribute conforms. -/
lemma insert (he : e.Conforms d) {a : Attribute} (ha : ∃ sub, d.sub? a.name = some sub ∧
    sub.isComplex = false ∧ a.ConformsSimple sub) : (e.insert a).2.Conforms d where
  ne_nil := Keyed.insert_ne_nil a e.subAttributes
  nodup := Keyed.nodup_insert he.nodup
  subs := by
    intro b hb
    rcases Keyed.mem_insert hb with rfl | hb
    · exact ha
    · exact he.subs b hb

end Entry.Conforms

/-- A mark conforms to the sub-attribute `operation` when that is a text. -/
lemma Descriptor.IsMark.exists_conforms {d : Descriptor} {mark : Attribute} (h : d.IsMark mark)
    (htext : ∀ sub ∈ d.definition.subAttributes, SameName sub.name operationName →
      sub.type = .string) :
    ∃ sub, d.sub? mark.name = some sub ∧ sub.isComplex = false ∧ mark.ConformsSimple sub := by
  have hmarker := h.deleteMarker
  rw [Descriptor.deleteMarker] at hmarker
  split at hmarker
  · rename_i sub hsub
    cases hmarker
    have htype : sub.type = .string := by
      rw [sub?, Option.map_eq_some_iff] at hsub
      obtain ⟨x, hx, rfl⟩ := hsub
      exact htext x (List.mem_of_find?_eq_some hx) (of_decide_eq_true (List.find?_some hx :))
    have hconforms := Attribute.conformsSimple_strings htype (List.cons_ne_nil deleteOperation [])
      fun _ => rfl
    exact ⟨sub, sub?_self hsub, isComplex_of_string htype, hconforms⟩
  · cases hmarker

namespace Change

variable {core : String} {s : Selector} {d : Descriptor} {o p : Option Attribute}

/-- **Every update conforms** to the descriptor of its attribute. -/
theorem conforms_of_mem_updates (ho : ∀ a, o = some a → a.Conforms d)
    (hp : ∀ b, p = some b → b.Conforms d)
    (hmark : d.isMultiValued = true → d.isComplex = true → ∃ mark, d.IsMark mark)
    (htext : d.isMultiValued = true → d.isComplex = true →
      ∀ sub ∈ d.definition.subAttributes, SameName sub.name operationName → sub.type = .string)
    {u : Attribute} (hu : u ∈ (ofPair core s o p).updates) : u.Conforms d := by
  have hregular := (fits_ofPair core s ho hp hmark).updates u hu
  have horigin := origin_ofPair core s ho hp hmark u hu
  refine ⟨hregular.descriptor_eq, hregular.arity, fun hcomplex v hv => ?_, fun hcomplex v hv => ?_⟩
  · cases horigin v hv with
    | scalar hb _ hv => exact (hp _ hb).scalars hcomplex v hv
    | part _ hcomplex' | marked _ _ hcomplex' =>
      exact absurd (hcomplex.symm.trans hcomplex') Bool.false_ne_true
  · cases horigin v hv with
    | scalar _ hcomplex' => exact absurd (hcomplex'.symm.trans hcomplex) Bool.false_ne_true
    | @part b e f hb _ hf hne hsub =>
      obtain ⟨_, hvalue, hconforms⟩ := (hp _ hb).entries hcomplex _ hf
      cases hvalue
      exact ⟨e, rfl, hconforms.of_sublist (hsub.trans List.filter_sublist) hne⟩
    | marked ha hmulti _ hf hne hmark =>
      obtain ⟨_, hvalue, hconforms⟩ := (ho _ ha).entries hcomplex _ hf
      cases hvalue
      have hpart := hconforms.of_sublist List.filter_sublist hne
      exact ⟨_, rfl, hpart.insert (hmark.exists_conforms (htext hmulti hcomplex))⟩

end Change

/-! ## Bodies -/

namespace Diff

open Standard

variable {t : ResourceType} {source target : AttributeMap}

/-- The attribute `meta` that lists deletions conforms to its descriptor. -/
lemma exists_conforming_deletionMeta (hlist : t.HasDeletionList) {d : Diff} (htype : d.type = t)
    (hne : d.deletions ≠ []) : ∃ a, d.deletionMeta = .ok a ∧
      t.attribute? a.schema a.name = some a.descriptor ∧ a.Conforms a.descriptor := by
  obtain ⟨m, list, hmeta, hcomplex, hsub, hmulti, htext⟩ := hlist
  refine ⟨.single m (.complex (.ofList [⟨list, d.deletedPaths.map Value.string⟩])),
    by simp only [deletionMeta, htype, hmeta, hsub], t.attribute?_self hmeta, rfl,
    ⟨List.cons_ne_nil _ _, fun _ => rfl⟩,
    fun hsimple => absurd (hsimple.symm.trans hcomplex) Bool.false_ne_true, fun _ v hv => ?_⟩
  rw [List.mem_singleton.mp hv, Entry.ofList_eq (by simp)]
  refine ⟨_, rfl, List.cons_ne_nil _ _, by simp, fun a ha => ?_⟩
  rw [List.mem_singleton.mp ha]
  refine ⟨list, Descriptor.sub?_self hsub, Descriptor.isComplex_of_string htext,
    Attribute.conformsSimple_strings htext (by simpa [deletedPaths] using hne) fun hsingle => ?_⟩
  exact absurd (hsingle.symm.trans hmulti) Bool.false_ne_true

/-- **Every body conforms to its resource type.** -/
theorem exists_conforming_body (hregistered : t.IsRegistered) (hlist : t.HasDeletionList)
    (htext : t.HasTextMarks) (hs : source.Conforms t) (ht : target.Conforms t) {s : Selector}
    {d : Diff} (hd : between t source target s = .ok d) :
    ∃ body, d.patch = .ok body ∧ body.Conforms t := by
  rw [between_eq hregistered hs ht s] at hd
  cases hd
  have hupdates : ∀ u ∈ (allUpdates t.core s source target).filter fun u =>
      !u.descriptor.isReadOnly, t.attribute? u.schema u.name = some u.descriptor ∧
        u.Conforms u.descriptor := by
    intro u hu
    obtain ⟨d, hd, hmem⟩ :=
      exists_of_mem_allUpdates hs ht s (List.mem_filter.mp hu).1
    have hdescriptor := ResourceType.mem_of_descriptor? hd
    have hconforms := Change.conforms_of_mem_updates (hs.conforms_of_lookup hd)
      (ht.conforms_of_lookup hd) (hregistered.exists_mark hdescriptor) (htext d hdescriptor) hmem
    have heq := hconforms.descriptor_eq
    subst heq
    exact ⟨by rw [ResourceType.attribute?_eq_descriptor?]; exact hd, hconforms⟩
  by_cases hempty : Keyed.distinct (allDeletions t.core s source target) = []
  · refine ⟨_, ?_, AttributeMap.conforms_ofList hupdates⟩
    rw [patch, if_pos (by simpa using hempty)]
    rfl
  · obtain ⟨a, ha, hconforms⟩ := exists_conforming_deletionMeta
      (d := ⟨t, Keyed.distinct (allDeletions t.core s source target),
        allUpdates t.core s source target⟩) hlist rfl hempty
    refine ⟨_, ?_, AttributeMap.conforms_ofList (List.forall_mem_cons.mpr ⟨hconforms, hupdates⟩)⟩
    rw [patch, if_neg (by simpa using hempty), ha]
    rfl

/-- **Every body is a resource.**  For every registered resource type with a place for deletions
and with text marks, whose top-level names are told apart, any two of its resources and any
selector, the difference and its body exist.  The body makes a resource, as it passes the
structural check, and its written form is read back as an equal body. -/
theorem body_is_resource (hregistered : t.IsRegistered) (hlist : t.HasDeletionList)
    (htext : t.HasTextMarks) (hapart : t.KeysApart) {sourceJson targetJson : Json}
    (hsource : AttributeMap.ofJson t sourceJson = .ok source)
    (htarget : AttributeMap.ofJson t targetJson = .ok target) (s : Selector) :
    ∃ d body r json m, between t source target s = .ok d ∧ d.patch = .ok body ∧
      d.partialResource Resource.ofAttributes = .ok (.ok r) ∧ r.attributes = body ∧
      d.patchJson = .ok json ∧ AttributeMap.ofJson t json = .ok m ∧ (m == body) = true := by
  have hs := AttributeMap.conforms_of_ofJson hsource
  have ht := AttributeMap.conforms_of_ofJson htarget
  have hbetween := between_eq hregistered hs ht s
  obtain ⟨body, hpatch, hbody⟩ := exists_conforming_body hregistered hlist htext hs ht hbetween
  have hcheck := ResourceType.check_of_conforms hregistered.isBuilt hbody
  obtain ⟨m, hm, hsame⟩ := AttributeMap.exists_reread hbody hregistered.isBuilt hapart
  have hwf := (AttributeMap.conforms_of_ofJson hm).wellFormed
  refine ⟨_, body, ⟨t, body, hcheck⟩, body.toJson t, m, hbetween, hpatch, ?_, rfl, ?_, hm,
    hsame.beq hbody.wellFormed hwf⟩
  · rw [partialResource, hpatch]
    simp only [Except.map, Resource.ofAttributes_eq_ok hcheck, Except.mapError]
  · rw [patchJson, hpatch]
    rfl

/-- Groups have text marks. -/
lemma hasTextMarks_groupType : groupType.HasTextMarks := by
  unfold ResourceType.HasTextMarks
  decide +kernel

/-- The top-level names of groups are told apart. -/
lemma keysApart_groupType : groupType.KeysApart where
  attribute_ne_schemas := by decide +kernel
  extension_ne_schemas := by decide +kernel
  extension_ne_core := by decide +kernel
  extension_ne_attribute := by decide +kernel

/-- A group loses its name and a member.  The body lists the name among the deletions and marks the
member. -/
theorem body_is_resource_members : ∃ d body r json m,
    between groupType (namedGroup "a" [[("value", "1")], [("value", "2")]])
      (groupOf [[("value", "2")]]) .all = .ok d ∧
    d.patch = .ok body ∧ d.partialResource Resource.ofAttributes = .ok (.ok r) ∧
    r.attributes = body ∧ d.patchJson = .ok json ∧
    AttributeMap.ofJson groupType json = .ok m ∧ (m == body) = true := by
  have hsource : AttributeMap.ofJson groupType
      (namedGroupJson "a" [[("value", "1")], [("value", "2")]]) =
      .ok (namedGroup "a" [[("value", "1")], [("value", "2")]]) := rfl
  have htarget : AttributeMap.ofJson groupType (groupJson [[("value", "2")]]) =
      .ok (groupOf [[("value", "2")]]) := rfl
  exact body_is_resource isRegistered_groupType hasCommonMeta_groupType.hasDeletionList
    hasTextMarks_groupType keysApart_groupType hsource htarget .all

end Diff

end Scim
