import Scim.Proofs.Projection
import Scim.Proofs.Registration
import Scim.Proofs.WrittenAttributes

set_option autoImplicit false

/-!
# Resources, written and read back

A written resource has a top-level member for the list of its schemas, one for each attribute of
the core schema, and one for each extension with attributes.  When these names cannot be mistaken
for each other, the resource is read back as an equal one.  The written form of that is the same
JSON again, unless the resource type spells the URI of one extension in two ways: a resource
keeps the spelling that it meets first, and rereading may meet another one first.

## Main definitions

* `Scim.ResourceType.KeysApart` — the top-level names of a resource are told apart.
* `Scim.ResourceType.SpelledOnce` — no two extensions have one URI in different spellings.
* `Scim.AttributeMap.writtenMembers` — the members of a written resource.
* `Scim.AttributeMap.Same` — resources with the same attributes, up to all order.

## Main results

* `Scim.AttributeMap.same_ofList` — the order of attributes of different keys does not matter.
* `Scim.AttributeMap.exists_reread` — a conforming resource is read back.
* `Scim.AttributeMap.toJson_eq_of_same` — resources that are the same are written alike.
* `Scim.AttributeMap.ofJson_toJson` — reading, writing and reading again.
-/

namespace Scim

/-- Regardless of case, no attribute of the core schema and no extension is called `schemas`, and
no extension has the URI of the core schema or the name of one of its attributes. -/
structure ResourceType.KeysApart (t : ResourceType) : Prop where
  attribute_ne_schemas : ∀ d ∈ t.attributesIn t.core, ¬ SameName d.name schemasKey
  extension_ne_schemas : ∀ e ∈ t.extensions, ¬ SameName e schemasKey
  extension_ne_core : ∀ e ∈ t.extensions, ¬ SameName e t.core
  extension_ne_attribute : ∀ e ∈ t.extensions, ∀ d ∈ t.attributesIn t.core, ¬ SameName e d.name

/-- Extensions whose URIs are the same regardless of case are spelled alike. -/
def ResourceType.SpelledOnce (t : ResourceType) : Prop :=
  ∀ e ∈ t.extensions, ∀ e' ∈ t.extensions, SameName e e' → e = e'

instance (t : ResourceType) : Decidable t.SpelledOnce :=
  inferInstanceAs (Decidable (∀ e ∈ t.extensions, ∀ e' ∈ t.extensions, SameName e e' → e = e'))

/-- Whether a schema is the core schema does not depend on its spelling. -/
lemma ResourceType.isCore_congr (t : ResourceType) {schema schema' : String}
    (h : caseKey schema = caseKey schema') : t.isCore schema = t.isCore schema' := by
  rw [isCore, isCore, decide_eq_decide, SameName, SameName, h]

namespace AttributeMap

variable {t : ResourceType} {m n : AttributeMap} {a : Attribute} {g : SchemaGroup}

/-- Two resources have the same attributes under all keys, in whatever order. -/
def Same (m n : AttributeMap) : Prop := ∀ k, Option.Rel Attribute.Same (m.lookup k) (n.lookup k)

/-- A resource is made anew of attributes that are the same as its own, however many of these stand
under one key. -/
lemma WellFormed.same_ofList (hm : m.WellFormed) {bs : List Attribute}
    (h : Outcome.Covers Attribute.Same m.toList bs) : m.Same (ofList bs) := by
  have hn := wellFormed_ofList bs
  -- what is found in the new one is the same as what the old one has under that key
  have hfound : ∀ {k b}, (ofList bs).lookup k = some b → ∃ a, m.lookup k = some a ∧ a.Same b := by
    intro k b hb
    obtain ⟨a, ha, hsame⟩ := h.right b (mem_of_lookup_ofList hb)
    have hkey := hsame.key_eq.trans (hn.key_of_lookup hb)
    exact ⟨a, hm.lookup_eq_some_iff.mpr ⟨ha, hkey⟩, hsame⟩
  intro k
  cases hb : (ofList bs).lookup k with
  | some b =>
    obtain ⟨a, ha, hsame⟩ := hfound hb
    rw [ha]
    exact .some hsame
  | none =>
    cases ha : m.lookup k with
    | none => exact .none
    | some a =>
      obtain ⟨hmem, hkey⟩ := hm.lookup_eq_some_iff.mp ha
      obtain ⟨b, hmem', hsame⟩ := h.left a hmem
      obtain ⟨b', hb'⟩ := exists_lookup_ofList hmem'
      rw [← hsame.key_eq, hkey, hb] at hb'
      cases hb'

/-- **The order of attributes of different keys does not matter** for the resource made of them. -/
lemma same_ofList {as bs : List Attribute} (has : (as.map Attribute.key).Nodup)
    (h : Outcome.Covers Attribute.Same as bs) : (ofList as).Same (ofList bs) := by
  have hmem := fun a => (perm_ofList has).mem_iff (a := a)
  refine (wellFormed_ofList as).same_ofList ⟨fun a ha => h.left a ((hmem a).mp ha), fun b hb => ?_⟩
  obtain ⟨a, ha, hab⟩ := h.right b hb
  exact ⟨a, (hmem a).mpr ha, hab⟩

/-! ## Written members -/

/-- The members of a written resource: the list of schemas, then what the attributes make. -/
def writtenMembers (t : ResourceType) (m : AttributeMap) : List (String × Json) :=
  (schemasKey, .array ((m.listedSchemas t).map .string)) :: m.schemas.flatMap (m.schemaMembers t)

/-- The member of an extension. -/
def extensionMember (g : SchemaGroup) : String × Json :=
  (g.schema, Json.ofMembers (g.attributes.map fun a => (a.name, a.toJson)))

/-- The names of the members that a group makes, regardless of case. -/
def memberKeys (t : ResourceType) (g : SchemaGroup) : List (List Char) :=
  if t.isCore g.schema then g.attributes.map Attribute.nameKey else [g.key]

/-- The members that the attributes of one group make. -/
lemma WellFormed.schemaMembers_eq (h : m.WellFormed) (t : ResourceType) (hg : g ∈ m.groups) :
    m.schemaMembers t g.schema =
      if t.isCore g.schema then g.attributes.map fun a => (a.name, a.toJson)
      else [extensionMember g] := by
  rw [schemaMembers, h.attributesOf_eq hg, Attribute.listToMembers_eq_map]
  rfl

/-- What the members of a written resource are made of. -/
lemma mem_writtenMembers (h : m.WellFormed) {x : String × Json} : x ∈ m.writtenMembers t ↔
    x = (schemasKey, .array ((m.listedSchemas t).map .string)) ∨
      (∃ a ∈ m.toList, t.isCore a.schema = true ∧ x = (a.name, a.toJson)) ∨
      ∃ g ∈ m.groups, t.isCore g.schema = false ∧ x = extensionMember g := by
  rw [writtenMembers, List.mem_cons, schemas, List.flatMap_map, List.mem_flatMap]
  refine or_congr_right ?_
  constructor
  · rintro ⟨g, hg, hx⟩
    rw [h.schemaMembers_eq t hg] at hx
    split at hx
    · rename_i hcore
      obtain ⟨a, ha, rfl⟩ := List.mem_map.mp hx
      refine .inl ⟨a, List.mem_flatMap.mpr ⟨g, hg, ha⟩, ?_, rfl⟩
      rw [t.isCore_congr (h.schema_eq g hg a ha)]
      exact hcore
    · rename_i hcore
      exact .inr ⟨g, hg, by simpa using hcore, List.mem_singleton.mp hx⟩
  · rintro (⟨a, ha, hcore, rfl⟩ | ⟨g, hg, hcore, rfl⟩)
    · obtain ⟨g, hg, hag⟩ := List.mem_flatMap.mp ha
      refine ⟨g, hg, ?_⟩
      rw [t.isCore_congr (h.schema_eq g hg a hag)] at hcore
      rw [h.schemaMembers_eq t hg, if_pos hcore]
      exact List.mem_map_of_mem hag
    · refine ⟨g, hg, ?_⟩
      rw [h.schemaMembers_eq t hg, hcore, if_neg Bool.false_ne_true]
      exact List.mem_singleton_self _

/-! ## Names of members -/

/-- A descriptor is found under the key of an attribute. -/
lemma Conforms.descriptor?_key (h : m.Conforms t) (ha : a ∈ m.toList) :
    t.descriptor? a.key = some a.descriptor := by
  rw [← h.described a ha, ResourceType.attribute?_eq_descriptor?]
  rfl

/-- An attribute of the core schema is one that the core schema defines. -/
lemma Conforms.mem_attributesIn (h : m.Conforms t) (ha : a ∈ m.toList)
    (hcore : t.isCore a.schema = true) : a.descriptor ∈ t.attributesIn t.core := by
  refine List.mem_filter.mpr ⟨ResourceType.mem_of_descriptor? (h.descriptor?_key ha), ?_⟩
  exact decide_eq_true (of_decide_eq_true hcore).symm

/-- A group belongs to one of the schemas of the resource type. -/
lemma Conforms.exists_schema (h : m.Conforms t) (hbuilt : t.IsBuilt) (hg : g ∈ m.groups) :
    ∃ schema ∈ t.schemas, SameName schema g.schema := by
  obtain ⟨a, ha⟩ := List.exists_mem_of_ne_nil _ (h.wellFormed.ne_nil g hg)
  have hmem : a ∈ m.toList := List.mem_flatMap.mpr ⟨g, hg, ha⟩
  exact ⟨a.schema, hbuilt.schema_mem (ResourceType.mem_of_descriptor? (h.descriptor?_key hmem)),
    h.wellFormed.schema_eq g hg a ha⟩

/-- A group of another schema than the core schema is one of an extension. -/
lemma Conforms.exists_extension (h : m.Conforms t) (hbuilt : t.IsBuilt) (hg : g ∈ m.groups)
    (hcore : t.isCore g.schema = false) : ∃ e ∈ t.extensions, SameName e g.schema := by
  obtain ⟨schema, hschema, hsame⟩ := h.exists_schema hbuilt hg
  rcases List.mem_cons.mp hschema with rfl | hschema
  · exact absurd hsame (of_decide_eq_false hcore)
  · exact ⟨schema, hschema, hsame⟩

section Apart

variable (hm : m.Conforms t) (hbuilt : t.IsBuilt) (hapart : t.KeysApart)

include hm hbuilt hapart

omit hapart in
/-- The names of the members that a group makes are told apart from all others: they are names of
attributes that the core schema defines, or the URI of an extension. -/
lemma mem_memberKeys (hg : g ∈ m.groups) {k : List Char} (hk : k ∈ memberKeys t g) :
    (t.isCore g.schema = true ∧ ∃ d ∈ t.attributesIn t.core, caseKey d.name = k) ∨
      (k = g.key ∧ ∃ e ∈ t.extensions, caseKey e = k) := by
  rw [memberKeys] at hk
  split at hk
  · rename_i hcore
    obtain ⟨a, ha, rfl⟩ := List.mem_map.mp hk
    have hacore := (t.isCore_congr (hm.wellFormed.schema_eq g hg a ha)).trans hcore
    have hmem := hm.mem_attributesIn (List.mem_flatMap.mpr ⟨g, hg, ha⟩) hacore
    exact .inl ⟨hcore, a.descriptor, hmem, rfl⟩
  · rename_i hcore
    obtain ⟨e, he, hsame⟩ := hm.exists_extension hbuilt hg (by simpa using hcore)
    have hkey : k = g.key := List.mem_singleton.mp hk
    exact .inr ⟨hkey, e, he, hkey ▸ hsame⟩

/-- **No two members have one key.** -/
lemma nodup_writtenMembers : ((m.writtenMembers t).map Prod.fst).Nodup := by
  have hkeys : ((m.writtenMembers t).map Prod.fst).map caseKey =
      caseKey schemasKey :: m.groups.flatMap (memberKeys t) := by
    rw [writtenMembers, schemas, List.flatMap_map, List.map_cons, List.map_cons, List.map_flatMap,
      List.map_flatMap]
    congr 1
    refine List.flatMap_congr fun g hg => ?_
    rw [hm.wellFormed.schemaMembers_eq t hg, memberKeys]
    split
    · rw [List.map_map, List.map_map]
      rfl
    · rfl
  refine List.Nodup.of_map caseKey ?_
  rw [hkeys, List.nodup_cons, List.nodup_flatMap]
  refine ⟨fun hmem => ?_, fun g hg => ?_, ?_⟩
  · obtain ⟨g, hg, hk⟩ := List.mem_flatMap.mp hmem
    rcases mem_memberKeys hm hbuilt hg hk with ⟨-, d, hd, hname⟩ | ⟨-, e, he, hname⟩
    · exact hapart.attribute_ne_schemas d hd hname
    · exact hapart.extension_ne_schemas e he hname
  · rw [memberKeys]
    split
    · exact hm.wellFormed.names_nodup g hg
    · exact List.nodup_singleton _
  · have hpair := List.pairwise_map.mp hm.wellFormed.nodup
    refine hpair.imp_of_mem fun {g g'} hg hg' hne k hk hk' => ?_
    rcases mem_memberKeys hm hbuilt hg hk with ⟨hcore, d, hd, hname⟩ | ⟨hkey, e, he, hname⟩ <;>
      rcases mem_memberKeys hm hbuilt hg' hk' with
        ⟨hcore', d', hd', hname'⟩ | ⟨hkey', e', he', hname'⟩
    · exact hne ((of_decide_eq_true hcore).symm.trans (of_decide_eq_true hcore'))
    · exact hapart.extension_ne_attribute e' he' d hd (hname'.trans hname.symm)
    · exact hapart.extension_ne_attribute e he d' hd' (hname.trans hname'.symm)
    · exact hne (hkey.symm.trans hkey')

/-! ## Reading members -/

omit hbuilt hapart in
/-- An attribute is read back in the part of its schema. -/
lemma exists_readIn (ha : a ∈ m.toList) {schema : String}
    (hschema : caseKey schema = caseKey a.schema) :
    ∃ b, t.readIn schema a.name a.toJson = .ok (some b) ∧ a.Same b := by
  have hfound : t.attribute? schema a.name = some a.descriptor := by
    rw [ResourceType.attribute?_eq_descriptor?, hschema]
    exact hm.descriptor?_key ha
  obtain ⟨b, hb, hsame⟩ := Descriptor.exists_readAttribute (hm.attributes a ha)
  exact ⟨b, by rw [ResourceType.readIn, hfound]; exact hb, hsame⟩

omit hbuilt in
/-- An attribute of the core schema is read back from its member. -/
lemma exists_readMember_core (ha : a ∈ m.toList) (hcore : t.isCore a.schema = true) :
    ∃ b, t.readMember a.name a.toJson = .ok [b] ∧ a.Same b := by
  have hmem := hm.mem_attributesIn ha hcore
  have hkey : ¬ (a.name = schemasKey ∨ a.toJson.isNull = true) := by
    rintro (hname | hnull)
    · exact hapart.attribute_ne_schemas _ hmem (congrArg caseKey hname)
    · rw [(hm.attributes a ha).isNull_toJson] at hnull
      exact Bool.false_ne_true hnull
  have hextension : t.extension? a.name = none := by
    refine List.find?_eq_none.mpr fun e he => ?_
    exact fun h => hapart.extension_ne_attribute e he _ hmem (of_decide_eq_true h)
  obtain ⟨b, hb, hsame⟩ := exists_readIn hm ha (of_decide_eq_true hcore)
  refine ⟨b, ?_, hsame⟩
  rw [ResourceType.readMember, if_neg hkey, hextension]
  dsimp only
  rw [hb]
  rfl

/-- The attributes of an extension are read back from its member. -/
lemma exists_readMember_extension (hg : g ∈ m.groups) (hcore : t.isCore g.schema = false) :
    ∃ bs, t.readMember (extensionMember g).1 (extensionMember g).2 = .ok bs ∧
      (∀ b ∈ bs, ∃ a ∈ g.attributes, a.Same b) ∧ ∀ a ∈ g.attributes, ∃ b ∈ bs, a.Same b := by
  obtain ⟨e, he, hsame⟩ := hm.exists_extension hbuilt hg hcore
  have hkey : ¬ ((extensionMember g).1 = schemasKey ∨ (extensionMember g).2.isNull = true) := by
    rintro (hname | hnull)
    · exact hapart.extension_ne_schemas e he (hsame.trans (congrArg caseKey hname))
    · cases hnull
  obtain ⟨e', hfound, hsame'⟩ : ∃ e', t.extension? (extensionMember g).1 = some e' ∧
      SameName e' g.schema := by
    have hsome : (t.extension? g.schema).isSome = true := by
      rw [ResourceType.extension?, List.find?_isSome]
      exact ⟨e, he, decide_eq_true hsame⟩
    obtain ⟨e', he'⟩ := Option.isSome_iff_exists.mp hsome
    exact ⟨e', he', of_decide_eq_true (List.find?_some he' :)⟩
  have hread : ∀ a ∈ g.attributes, ∃ b, (if a.toJson.isNull = true then .ok none
      else t.readIn e' a.name a.toJson) = .ok (some b) ∧ a.Same b := by
    intro a ha
    have hmem : a ∈ m.toList := List.mem_flatMap.mpr ⟨g, hg, ha⟩
    rw [(hm.attributes a hmem).isNull_toJson, if_neg Bool.false_ne_true]
    exact exists_readIn hm hmem (hsame'.trans (hm.wellFormed.schema_eq g hg a ha).symm)
  obtain ⟨bs, hrun, hbs⟩ := Attribute.exists_filterMapM_members
    (fun x => if x.2.isNull = true then .ok none else t.readIn e' x.1 x.2)
    (hm.wellFormed.names_nodup g hg) hread
  refine ⟨bs, ?_, hbs⟩
  rw [ResourceType.readMember, if_neg hkey, hfound]
  exact hrun

/-! ## Whole resources -/

/-- **A conforming resource is read back** with the same attributes under all keys.

**Proof sketch.**  The members have different keys, so that the written object holds each of them
once, and each is read as the attributes that it was written from.  So every attribute of the
resource is among those read, and every one of those is one of the resource.  When several are
read under one key, the last of them stays, which is the same as all others. -/
theorem exists_reread : ∃ n, ofJson t (m.toJson t) = .ok n ∧ m.Same n := by
  have hwf := hm.wellFormed
  have hmembers : ∀ x, x ∈ Json.putAll [] (m.writtenMembers t) ↔ x ∈ m.writtenMembers t :=
    fun x => Json.mem_putAll (nodup_writtenMembers hm hbuilt hapart)
  -- each member is read as attributes of the resource
  have hread : ∀ x ∈ Json.putAll [] (m.writtenMembers t), ∃ bs, t.readMember x.1 x.2 = .ok bs ∧
      ∀ b ∈ bs, ∃ a ∈ m.toList, a.Same b := by
    intro x hx
    rcases (mem_writtenMembers hwf).mp ((hmembers x).mp hx) with
      rfl | ⟨a, ha, hcore, rfl⟩ | ⟨g, hg, hcore, rfl⟩
    · exact ⟨[], by rw [ResourceType.readMember, if_pos (.inl rfl)], by simp⟩
    · obtain ⟨b, hb, hsame⟩ := exists_readMember_core hm hapart ha hcore
      exact ⟨[b], hb, by simpa using ⟨a, ha, hsame⟩⟩
    · obtain ⟨bs, hbs, hsound, -⟩ := exists_readMember_extension hm hbuilt hapart hg hcore
      refine ⟨bs, hbs, fun b hb => ?_⟩
      obtain ⟨a, ha, hsame⟩ := hsound b hb
      exact ⟨a, List.mem_flatMap.mpr ⟨g, hg, ha⟩, hsame⟩
  obtain ⟨bs, hrun, hbs⟩ := Outcome.exists_flatMapM
    (f := fun x : String × Json => t.readMember x.1 x.2)
    fun x hx => (hread x hx).imp fun _ h => h.1
  have hsound : ∀ b ∈ bs, ∃ a ∈ m.toList, a.Same b := by
    intro b hb
    obtain ⟨x, hx, ys, hys, hy⟩ := (hbs b).mp hb
    obtain ⟨ys', hys', hall⟩ := hread x hx
    rw [hys'] at hys
    cases hys
    exact hall b hy
  have hcomplete : ∀ a ∈ m.toList, ∃ b ∈ bs, a.Same b := by
    intro a ha
    cases hcore : t.isCore a.schema with
    | true =>
      obtain ⟨b, hb, hsame⟩ := exists_readMember_core hm hapart ha hcore
      refine ⟨b, (hbs b).mpr ⟨(a.name, a.toJson), ?_, [b], hb, List.mem_singleton_self b⟩, hsame⟩
      exact (hmembers _).mpr ((mem_writtenMembers hwf).mpr (.inr (.inl ⟨a, ha, hcore, rfl⟩)))
    | false =>
      obtain ⟨g, hg, hag⟩ := List.mem_flatMap.mp ha
      rw [t.isCore_congr (hwf.schema_eq g hg a hag)] at hcore
      obtain ⟨ys, hys, -, hall⟩ := exists_readMember_extension hm hbuilt hapart hg hcore
      obtain ⟨b, hb, hsame⟩ := hall a hag
      refine ⟨b, (hbs b).mpr ⟨extensionMember g, ?_, ys, hys, hb⟩, hsame⟩
      exact (hmembers _).mpr ((mem_writtenMembers hwf).mpr (.inr (.inr ⟨g, hg, hcore, rfl⟩)))
  exact ⟨ofList bs, Outcome.bind_eq_ok_iff.mpr ⟨bs, hrun, rfl⟩, hwf.same_ofList ⟨hcomplete, hsound⟩⟩

end Apart

/-! ## The same resource, written again -/

/-- The groups of a resource are spelled like schemas of its type. -/
def Spelled (t : ResourceType) (m : AttributeMap) : Prop := ∀ g ∈ m.groups, g.schema ∈ t.schemas

namespace Same

variable (h : m.Same n)

include h

/-- Sameness is symmetric. -/
lemma symm : n.Same m := by
  intro k
  have hk := h k
  generalize m.lookup k = o at hk ⊢
  generalize n.lookup k = p at hk ⊢
  cases hk with
  | none => exact .none
  | some hab => exact .some hab.symm

/-- Same resources are equal. -/
lemma beq (hm : m.WellFormed) (hn : n.WellFormed) : (n == m) = true := by
  rw [beq_iff hn hm]
  intro k
  have hk := h k
  generalize m.lookup k = o at hk ⊢
  generalize n.lookup k = p at hk ⊢
  cases hk with
  | none => exact .none
  | some hab => exact .some hab.beq

/-- Same resources have nothing under the same keys. -/
lemma lookup_eq_none_iff (k : List Char × List Char) : m.lookup k = none ↔ n.lookup k = none := by
  have hk := h k
  generalize m.lookup k = o at hk ⊢
  generalize n.lookup k = p at hk ⊢
  cases hk <;> simp

/-- An attribute of one group is the same as one of the group of that schema. -/
lemma exists_mem_group (hm : m.WellFormed) (hn : n.WellFormed) {g' : SchemaGroup}
    (hg : g ∈ m.groups) (hg' : g' ∈ n.groups) (hkey : g.key = g'.key) (ha : a ∈ g.attributes) :
    ∃ b ∈ g'.attributes, a.Same b := by
  have hlookup : ∀ {x : AttributeMap} {f : SchemaGroup}, x.WellFormed → f ∈ x.groups →
      ∀ k, x.lookup (f.key, k) = Keyed.get? Attribute.nameKey k f.attributes := by
    intro x f hx hf k
    rw [lookup, Keyed.get?_of_mem hx.nodup hf]
    rfl
  have hk := h (g.key, a.nameKey)
  rw [hlookup hm hg, Keyed.get?_of_mem (hm.names_nodup g hg) ha, hkey, hlookup hn hg'] at hk
  cases hb : Keyed.get? Attribute.nameKey a.nameKey g'.attributes with
  | none => rw [hb] at hk; cases hk
  | some b =>
    rw [hb] at hk
    cases hk with
    | some hab => exact ⟨b, Keyed.mem_of_get? hb, hab⟩

/-- An attribute of a resource is the same as one of the other. -/
lemma exists_mem (hm : m.WellFormed) (hn : n.WellFormed) (ha : a ∈ m.toList) :
    ∃ b ∈ n.toList, a.Same b := by
  have hk := h a.key
  rw [hm.lookup_eq_some_iff.mpr ⟨ha, rfl⟩] at hk
  cases hb : n.lookup a.key with
  | none => rw [hb] at hk; cases hk
  | some b =>
    rw [hb] at hk
    cases hk with
    | some hab => exact ⟨b, (hn.lookup_eq_some_iff.mp hb).1, hab⟩

/-- Same resources list the same schemas. -/
lemma listedSchemas_eq (t : ResourceType) : m.listedSchemas t = n.listedSchemas t := by
  have hempty : ∀ (x : AttributeMap) (schema : String), (x.attributesOf schema).isEmpty = true ↔
      ∀ k, x.lookup (caseKey schema, k) = none := by
    intro x schema
    rw [attributesOf, group?]
    simp only [lookup]
    cases Keyed.get? SchemaGroup.key (caseKey schema) x.groups with
    | none => simp
    | some g =>
      simp only [Option.bind_some, Keyed.get?_eq_none_iff, List.isEmpty_iff]
      exact ⟨fun hnil k => by simp [hnil], fun hall =>
        List.eq_nil_iff_forall_not_mem.mpr fun a ha => hall _ (List.mem_map_of_mem ha)⟩
  refine List.filter_congr fun schema _ => ?_
  have hsame : (m.attributesOf schema).isEmpty = (n.attributesOf schema).isEmpty := by
    rw [Bool.eq_iff_iff, hempty, hempty]
    exact forall_congr' fun k => h.lookup_eq_none_iff (caseKey schema, k)
  rw [hsame]

/-- The members of extensions are written alike when the extensions are spelled alike. -/
lemma extensionMember_eq (hm : m.WellFormed) (hn : n.WellFormed) {g' : SchemaGroup}
    (hg : g ∈ m.groups) (hg' : g' ∈ n.groups) (hschema : g.schema = g'.schema) :
    extensionMember g = extensionMember g' := by
  have hkey : g.key = g'.key := congrArg caseKey hschema
  have hsubset : ∀ {x y : AttributeMap} {f f' : SchemaGroup}, x.Same y → x.WellFormed →
      y.WellFormed → f ∈ x.groups → f' ∈ y.groups → f.key = f'.key →
        ∀ z ∈ f.attributes.map fun a => (a.name, a.toJson),
          z ∈ f'.attributes.map fun a => (a.name, a.toJson) := by
    intro x y f f' hxy hx hy hf hf' hkey z hz
    obtain ⟨a, ha, rfl⟩ := List.mem_map.mp hz
    obtain ⟨b, hb, hab⟩ := hxy.exists_mem_group hx hy hf hf' hkey ha
    refine List.mem_map.mpr ⟨b, hb, ?_⟩
    rw [hab.toJson_eq, Attribute.name, Attribute.name, hab.descriptor_eq]
  refine Prod.ext hschema ?_
  exact Json.ofMembers_congr (Attribute.nodup_members (hm.names_nodup g hg))
    (Attribute.nodup_members (hn.names_nodup g' hg'))
    fun z => ⟨hsubset h hm hn hg hg' hkey z, hsubset h.symm hn hm hg' hg hkey.symm z⟩

/-- Same resources, spelled alike, have the same written members. -/
lemma mem_writtenMembers (hm : m.WellFormed) (hn : n.WellFormed) (honce : t.SpelledOnce)
    (hms : m.Spelled t) (hns : n.Spelled t) {x : String × Json} (hx : x ∈ m.writtenMembers t) :
    x ∈ n.writtenMembers t := by
  rcases (AttributeMap.mem_writtenMembers hm).mp hx with
    rfl | ⟨a, ha, hcore, rfl⟩ | ⟨g, hg, hcore, rfl⟩
  · rw [h.listedSchemas_eq t]
    exact List.mem_cons_self
  · obtain ⟨b, hb, hab⟩ := h.exists_mem hm hn ha
    refine (AttributeMap.mem_writtenMembers hn).mpr (.inr (.inl ⟨b, hb, ?_, ?_⟩))
    · rw [Attribute.schema, ← hab.descriptor_eq]
      exact hcore
    · rw [hab.toJson_eq, Attribute.name, Attribute.name, hab.descriptor_eq]
  · -- the group of that schema in the other resource
    obtain ⟨a, ha⟩ := List.exists_mem_of_ne_nil _ (hm.ne_nil g hg)
    obtain ⟨b, hb, hab⟩ := h.exists_mem hm hn (List.mem_flatMap.mpr ⟨g, hg, ha⟩)
    obtain ⟨g', hg', hbg⟩ := List.mem_flatMap.mp hb
    have hkey : g.key = g'.key := by
      rw [← hm.schema_eq g hg a ha, ← hn.schema_eq g' hg' b hbg, Attribute.schema, Attribute.schema,
        hab.descriptor_eq]
    have hextension : ∀ schema ∈ t.schemas, t.isCore schema = false → schema ∈ t.extensions := by
      intro schema hschema hnot
      refine (List.mem_cons.mp hschema).resolve_left ?_
      rintro rfl
      exact of_decide_eq_false hnot rfl
    have hcore' : t.isCore g'.schema = false := by
      rw [← t.isCore_congr hkey]
      exact hcore
    have hschema : g.schema = g'.schema :=
      honce _ (hextension _ (hms g hg) hcore) _ (hextension _ (hns g' hg') hcore') hkey
    rw [h.extensionMember_eq hm hn hg hg' hschema]
    exact (AttributeMap.mem_writtenMembers hn).mpr (.inr (.inr ⟨g', hg', hcore', rfl⟩))

end Same

/-- **Same resources are written alike** when each extension is spelled in one way only. -/
theorem toJson_eq_of_same (hm : m.Conforms t) (hn : n.Conforms t) (hbuilt : t.IsBuilt)
    (hapart : t.KeysApart) (honce : t.SpelledOnce) (hms : m.Spelled t) (hns : n.Spelled t)
    (h : m.Same n) : m.toJson t = n.toJson t :=
  Json.ofMembers_congr (nodup_writtenMembers hm hbuilt hapart)
    (nodup_writtenMembers hn hbuilt hapart) fun _ =>
      ⟨h.mem_writtenMembers hm.wellFormed hn.wellFormed honce hms hns,
        h.symm.mem_writtenMembers hn.wellFormed hm.wellFormed honce hns hms⟩

/-- What is read from JSON is spelled like the schemas of its type. -/
lemma spelled_of_ofJson (hbuilt : t.IsBuilt) {document : Json}
    (h : ofJson t document = .ok m) : m.Spelled t := by
  obtain ⟨as, rfl, has⟩ := exists_of_ofJson h
  intro g hg
  obtain ⟨a, ha, hschema⟩ := exists_schema_of_mem_groups_ofList hg
  rw [← hschema]
  have hfound := (has a ha).1
  rw [ResourceType.attribute?_eq_descriptor?] at hfound
  exact hbuilt.schema_mem (ResourceType.mem_of_descriptor? hfound)

/-- **Reading, writing and reading again.**  For every resource type whose top-level names are told
apart and every document that it accepts, the resource that is read can be read back from its
written form as an equal one.  If each extension is spelled in one way only, that one is written as
the same JSON again. -/
theorem ofJson_toJson (hbuilt : t.IsBuilt) (hapart : t.KeysApart) {document : Json}
    (h : ofJson t document = .ok m) : ∃ n, ofJson t (m.toJson t) = .ok n ∧ (n == m) = true ∧
      (t.SpelledOnce → n.toJson t = m.toJson t) := by
  have hm := conforms_of_ofJson h
  obtain ⟨n, hn, hsame⟩ := exists_reread hm hbuilt hapart
  have hnc := conforms_of_ofJson hn
  refine ⟨n, hn, Same.beq hsame hm.wellFormed hnc.wellFormed, fun honce => ?_⟩
  exact (toJson_eq_of_same hm hnc hbuilt hapart honce (spelled_of_ofJson hbuilt h)
    (spelled_of_ofJson hbuilt hn) hsame).symm

/-! ## Teams with an extension -/

/-- A type of teams with members and an extension for the accounts. -/
def teamType : ResourceType :=
  .ofSchemas "Team" "Teams"
    ⟨"urn:team", "Team", "", [Standard.plain "name",
      Standard.entries "members" Standard.contactSubs, Standard.entries "emails" []]⟩
    [⟨"urn:accounts", "Accounts", "", [Standard.plain "costCenter", Standard.plain "division"]⟩]

/-- A team with its name and extension in several spellings, and with parts that count as absent. -/
def teamJson : Json :=
  .object [("NAME", .string "a"),
    ("URN:ACCOUNTS", .object [("COSTCENTER", .string "c"), ("division", .null)]),
    ("emails", .array []),
    ("members", .array [.object [("primary", .bool true), ("value", .string "1")], .object []]),
    ("name", .string "b")]

/-- The top-level names of teams are told apart. -/
lemma keysApart_teamType : teamType.KeysApart where
  attribute_ne_schemas := by decide +kernel
  extension_ne_schemas := by decide +kernel
  extension_ne_core := by decide +kernel
  extension_ne_attribute := by decide +kernel

/-- A team is read, written, and read and written again. -/
theorem ofJson_toJson_team : ∃ m n, ofJson teamType teamJson = .ok m ∧
    ofJson teamType (m.toJson teamType) = .ok n ∧ (n == m) = true ∧
      n.toJson teamType = m.toJson teamType := by
  obtain ⟨m, hm⟩ : ∃ m, ofJson teamType teamJson = .ok m := ⟨_, rfl⟩
  obtain ⟨n, hn, hbeq, hjson⟩ := ofJson_toJson ⟨_, _, _, _, rfl⟩ keysApart_teamType hm
  exact ⟨m, n, hm, hn, hbeq, hjson (by decide +kernel)⟩

/-! ## One extension in two spellings -/

/-- A resource type with two extensions whose URIs differ by case only. -/
def twiceSpelledType : ResourceType :=
  .ofSchemas "T" "Ts" ⟨"urn:core", "C", "", [Standard.plain "n"]⟩
    [⟨"urn:X", "E", "", [Standard.plain "a"]⟩, ⟨"urn:x", "F", "", [Standard.plain "b"]⟩]

/-- A resource that names the attribute of the second extension first. -/
def twiceSpelledJson : Json := .object [("urn:x", .object [("B", .string "1"), ("a", .string "2")])]

/-- **The first spelling stays.**  With two spellings of one extension, a resource is written under
the spelling that it met first, and its written form may meet the other one first. -/
theorem toJson_changed_by_rereading : twiceSpelledType.IsBuilt ∧ twiceSpelledType.KeysApart ∧
    ∃ m n, ofJson twiceSpelledType twiceSpelledJson = .ok m ∧
      ofJson twiceSpelledType (m.toJson twiceSpelledType) = .ok n ∧
      n.toJson twiceSpelledType ≠ m.toJson twiceSpelledType := by
  refine ⟨⟨_, _, _, _, rfl⟩, ⟨by decide +kernel, by decide +kernel, by decide +kernel,
    by decide +kernel⟩, _, _, rfl, rfl, fun h => ?_⟩
  exact absurd (congrArg (fun j => (j.member? "urn:x").isSome) h) (by decide +kernel)

end AttributeMap

end Scim
