import Scim.Registry
import Scim.Proofs.AttributePath
import Scim.Proofs.Outcome

set_option autoImplicit false

/-!
# What a registration provides

The resource types that a registry builds have a sub-attribute `operation` wherever entries may
have to be marked for removal, and a common read-only attribute `meta` with the list of
deletions, unless the core schema defines an attribute of that name itself.

## Main definitions

* `Scim.ResourceType.IsBuilt`, `IsRegistered` — some schema documents make the resource type, and
  some registry does.
* `Scim.ResourceType.IsAddressable` — its attributes and sub-attributes can be named by paths.
* `Scim.ResourceType.HasCommonMeta` — its `meta` is the common one.
* `Scim.Standard.groupType` — the resource type of groups.

## Main results

* `Scim.ResourceType.IsRegistered.exists_operation` — entries can be marked for removal.
* `Scim.ResourceType.hasCommonMeta_of_register` — a registration adds the common `meta`.
-/

namespace Scim

/-! ## Definitions -/

/-- The sub-attribute `operation` leaves the name of its attribute as it is. -/
@[simp] lemma AttributeDefinition.withOperation_name (d : AttributeDefinition) :
    d.withOperation.name = d.name := by
  rw [withOperation]
  split <;> rfl

/-- The sub-attribute `operation` leaves the type of its attribute as it is. -/
@[simp] lemma AttributeDefinition.withOperation_isComplex (d : AttributeDefinition) :
    d.withOperation.isComplex = d.isComplex := by
  rw [withOperation]
  split <;> rfl

/-- The sub-attribute `operation` leaves the number of values as it is. -/
@[simp] lemma AttributeDefinition.withOperation_multiValued (d : AttributeDefinition) :
    d.withOperation.multiValued = d.multiValued := by
  rw [withOperation]
  split <;> rfl

/-- A multi-valued complex definition has a sub-attribute `operation` afterwards. -/
lemma AttributeDefinition.exists_operation {d : AttributeDefinition} (hcomplex : d.isComplex = true)
    (hmulti : d.multiValued = true) :
    ∃ sub, d.withOperation.sub? operationName = some sub ∧ SameName sub.name operationName := by
  have hsome : (d.withOperation.sub? operationName).isSome = true := by
    rw [withOperation]
    cases hsub : d.sub? operationName with
    | none =>
      rw [sub?] at hsub
      simp [hcomplex, hmulti, sub?, List.find?_append, hsub, operationDefinition, SameName.refl]
    | some sub => simp [hsub]
  obtain ⟨sub, hsub⟩ := Option.isSome_iff_exists.mp hsome
  have hname := List.find?_some hsub
  exact ⟨sub, hsub, of_decide_eq_true hname⟩

/-! ## Schemas -/

namespace Schema

/-- Among the attributes with the common ones at the end, those of the schema come first. -/
lemma attribute?_withCommon (schema : Schema) (common : List AttributeDefinition) (name : String) :
    (schema.withCommon common).attribute? name =
      (schema.attribute? name).or (common.find? fun d => SameName d.name name) := by
  induction common generalizing schema with
  | nil => simp [withCommon]
  | cons d ds ih =>
    rw [withCommon, List.foldl_cons]
    change (withCommon _ ds).attribute? name = _
    rw [ih, List.find?_cons]
    by_cases hname : SameName d.name name
    · -- `d` is the answer unless the schema has its own
      simp only [hname, decide_true]
      have hsame : schema.attribute? d.name = schema.attribute? name := by
        rw [attribute?, attribute?]
        congr 1
        funext x
        exact decide_eq_decide.mpr ⟨fun h => h.trans hname, fun h => h.trans hname.symm⟩
      rw [hsame]
      cases hown : schema.attribute? name with
      | some own => simp [hown]
      | none =>
        rw [attribute?] at hown
        simp [attribute?, hown, hname]
    · simp only [hname, decide_false]
      congr 1
      split
      · rfl
      · simp [attribute?, List.find?_append, hname]

/-- The definitions of a schema are found with the sub-attribute `operation` added. -/
lemma attribute?_withOperations (schema : Schema) (name : String) :
    schema.withOperations.attribute? name =
      (schema.attribute? name).map AttributeDefinition.withOperation := by
  rw [attribute?, attribute?, withOperations, List.find?_map]
  congr 2
  funext d
  simp

end Schema

/-! ## Resource types -/

namespace ResourceType

/-- Some registry built the resource type. -/
def IsRegistered (t : ResourceType) : Prop :=
  ∃ (r r' : Registry) (name endpoint core : String) (extensions : List String),
    r.register name endpoint core extensions = .ok (t, r')

/-- Some schema documents make the resource type. -/
def IsBuilt (t : ResourceType) : Prop :=
  ∃ (name endpoint : String) (core : Schema) (extensions : List Schema),
    t = ofSchemas name endpoint core extensions

/-- Every attribute and sub-attribute can be named by a written path. -/
structure IsAddressable (t : ResourceType) : Prop where
  schema : ∀ schema ∈ t.schemas, schema ≠ ""
  name : ∀ d ∈ t.descriptors, AttributePath.IsName d.name
  sub : ∀ d ∈ t.descriptors, ∀ sub ∈ d.definition.subAttributes, AttributePath.IsName sub.name

/-- The attribute `meta` of the core schema is the common one. -/
def HasCommonMeta (t : ResourceType) : Prop :=
  ∃ d ∈ Standard.common, d.name = metaName ∧ t.metaAttribute? = some ⟨t.core, d⟩

variable {t : ResourceType} {d : Descriptor}

/-- A registration that succeeds finds its documents, makes the resource type of copies of them, and
keeps it under its name. -/
lemma register_ok {r r' : Registry} {name endpoint core : String} {extensions : List String}
    (h : r.register name endpoint core extensions = .ok (t, r')) :
    ∃ (coreSchema : Schema) (extensionSchemas : List Schema),
      r.findSchema core = .ok coreSchema ∧
        List.Forall₂ (fun id schema => r.findSchema id = .ok schema) extensions extensionSchemas ∧
        t = ofSchemas name endpoint (coreSchema.withCommon Standard.common).withOperations
          (extensionSchemas.map Schema.withOperations) ∧
        r' = { r with resourceTypes := (Keyed.insert ResourceType.name t r.resourceTypes).2 } := by
  obtain ⟨coreSchema, hcore, h⟩ := Outcome.bind_eq_ok_iff.mp h
  obtain ⟨extensionSchemas, hextensions, h⟩ := Outcome.bind_eq_ok_iff.mp h
  cases h
  exact ⟨coreSchema, extensionSchemas, hcore, Outcome.mapM_eq_ok_iff.mp hextensions, rfl, rfl⟩

/-- A registered resource type is made of schema documents. -/
lemma IsRegistered.isBuilt (h : t.IsRegistered) : t.IsBuilt := by
  obtain ⟨r, r', name, endpoint, core, extensions, h⟩ := h
  obtain ⟨coreSchema, extensionSchemas, -, -, rfl, -⟩ := register_ok h
  exact ⟨_, _, _, _, rfl⟩

/-- Each descriptor belongs to one of the schemas. -/
lemma IsBuilt.schema_mem (h : t.IsBuilt) (hd : d ∈ t.descriptors) : d.schema ∈ t.schemas := by
  obtain ⟨name, endpoint, core, extensions, rfl⟩ := h
  rcases List.mem_append.mp hd with hd | hd
  · obtain ⟨x, -, rfl⟩ := List.mem_map.mp hd
    exact List.mem_cons_self
  · obtain ⟨schema, hschema, hd⟩ := List.mem_flatMap.mp hd
    obtain ⟨x, -, rfl⟩ := List.mem_map.mp hd
    exact List.mem_cons_of_mem _ (List.mem_map_of_mem hschema)

/-- Each descriptor of a registered resource type belongs to one of its schemas and has the
sub-attribute `operation` added. -/
lemma IsRegistered.exists_withOperation (h : t.IsRegistered) (hd : d ∈ t.descriptors) :
    d.schema ∈ t.schemas ∧ ∃ definition : AttributeDefinition,
      d.definition = definition.withOperation := by
  refine ⟨h.isBuilt.schema_mem hd, ?_⟩
  obtain ⟨r, r', name, endpoint, core, extensions, h⟩ := h
  obtain ⟨coreSchema, extensionSchemas, -, -, rfl, -⟩ := register_ok h
  have hschema : ∀ schema : Schema, d ∈ schema.withOperations.descriptors →
      ∃ definition : AttributeDefinition, d.definition = definition.withOperation := by
    intro schema hmem
    obtain ⟨x, hx, rfl⟩ := List.mem_map.mp hmem
    obtain ⟨y, -, rfl⟩ := List.mem_map.mp hx
    exact ⟨y, rfl⟩
  rcases List.mem_append.mp hd with hd | hd
  · exact hschema _ hd
  · obtain ⟨schema, hmem, hd⟩ := List.mem_flatMap.mp hd
    obtain ⟨source, -, rfl⟩ := List.mem_map.mp hmem
    exact hschema _ hd

/-- **Entries can be marked for removal.**  Every multi-valued complex attribute of a registered
resource type has a sub-attribute `operation`. -/
theorem IsRegistered.exists_operation (h : t.IsRegistered) (hd : d ∈ t.descriptors)
    (hmulti : d.isMultiValued = true) (hcomplex : d.isComplex = true) :
    ∃ sub, d.sub? operationName = some sub ∧ SameName sub.name operationName := by
  obtain ⟨-, definition, hdefinition⟩ := h.exists_withOperation hd
  rw [Descriptor.isMultiValued, hdefinition, AttributeDefinition.withOperation_multiValued]
    at hmulti
  rw [Descriptor.isComplex, hdefinition, AttributeDefinition.withOperation_isComplex] at hcomplex
  obtain ⟨sub, hsub, hname⟩ := AttributeDefinition.exists_operation hcomplex hmulti
  exact ⟨⟨d.schema, sub⟩, by rw [Descriptor.sub?, hdefinition, hsub]; rfl, hname⟩

/-! ## The common attribute `meta` -/

/-- The common `meta` is the last of the common attributes. -/
lemma HasCommonMeta.metaAttribute?_eq (h : t.HasCommonMeta) : t.metaAttribute? =
    some ⟨t.core, Standard.common.getLast (by simp [Standard.common])⟩ := by
  obtain ⟨d, hd, hname, hmeta⟩ := h
  simp only [Standard.common, List.mem_cons, List.not_mem_nil, or_false] at hd
  rcases hd with rfl | rfl | rfl
  · exact absurd hname (by decide)
  · exact absurd hname (by decide)
  · exact hmeta

/-- The common `meta` is single-valued, cannot be written and has a place for the deletions. -/
lemma HasCommonMeta.exists_deletionList (h : t.HasCommonMeta) :
    ∃ d list, t.metaAttribute? = some d ∧ d.schema = t.core ∧ d.name = metaName ∧
      d.isReadOnly = true ∧ d.sub? deletionListName = some list ∧
      SameName list.name deletionListName :=
  ⟨_, _, h.metaAttribute?_eq, rfl, rfl, rfl, rfl, rfl⟩

/-- The attributes of the core schema come before those of extensions. -/
lemma attribute?_ofSchemas {name endpoint wanted : String} {core : Schema}
    {extensions : List Schema} {definition : AttributeDefinition}
    (h : core.attribute? wanted = some definition) :
    (ofSchemas name endpoint core extensions).attribute? core.id wanted =
      some ⟨core.id, definition⟩ := by
  have hfound : core.descriptors.find?
      (fun d => decide (SameName d.schema core.id ∧ SameName d.name wanted)) =
        some ⟨core.id, definition⟩ := by
    rw [Schema.attribute?] at h
    rw [Schema.descriptors, List.find?_map, Option.map_eq_some_iff]
    refine ⟨definition, ?_, rfl⟩
    rw [← h]
    congr 1
    funext d
    exact decide_eq_decide.mpr (and_iff_right (SameName.refl core.id))
  rw [attribute?, ofSchemas, List.find?_append, hfound]
  rfl

/-- **A registration adds the common `meta`** to a core schema without one. -/
theorem hasCommonMeta_of_register {r r' : Registry} {name endpoint core : String}
    {extensions : List String} {coreSchema : Schema}
    (h : r.register name endpoint core extensions = .ok (t, r'))
    (hcore : r.findSchema core = .ok coreSchema) (hmeta : coreSchema.attribute? metaName = none) :
    t.HasCommonMeta := by
  obtain ⟨schema, extensionSchemas, hschema, -, rfl, -⟩ := register_ok h
  obtain rfl : coreSchema = schema := by
    rw [hcore] at hschema
    cases hschema
    rfl
  refine ⟨Standard.common.getLast (by simp [Standard.common]), List.getLast_mem _, rfl, ?_⟩
  refine attribute?_ofSchemas ?_
  rw [Schema.attribute?_withOperations, Schema.attribute?_withCommon, hmeta, Option.none_or]
  rfl

end ResourceType

/-! ## The resource type of groups -/

namespace Standard

/-- The resource type that the standard registry builds from the Group schema. -/
def groupType : ResourceType :=
  .ofSchemas "Group" "Groups" (group.withCommon common).withOperations []

/-- The standard registry registers groups. -/
lemma register_group : Registry.standardSchemas.register "Group" "Groups" groupId [] =
    .ok (groupType, Registry.standardSchemas.afterRegister "Group" "Groups" groupId []) :=
  rfl

/-- Groups are a registered type. -/
lemma isRegistered_groupType : groupType.IsRegistered := ⟨_, _, _, _, _, _, register_group⟩

/-- All attributes of groups can be named by paths. -/
lemma isAddressable_groupType : groupType.IsAddressable where
  schema := by decide +kernel
  name := by decide +kernel
  sub := by decide +kernel

/-- Groups have the common `meta`. -/
lemma hasCommonMeta_groupType : groupType.HasCommonMeta := by
  have hcore : Registry.standardSchemas.findSchema groupId = .ok group := rfl
  exact ResourceType.hasCommonMeta_of_register register_group hcore rfl

end Standard

end Scim
