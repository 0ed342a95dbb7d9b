import Scim.Proofs.ReachableRegistries

set_option autoImplicit false

/-!
# The attributes of a registered resource type

A registration copies the documents that it names, and adds to the copies: common attributes that
the core schema lacks, at its end, and a sub-attribute `operation` at the end of each multi-valued
complex attribute that has none.  Apart from that the resource type says of every attribute and
sub-attribute, at every depth, what its document says, in the order of the document and under the
URI of the document.

## Main definitions

* `Scim.Descriptor.Copies`, `Scim.Descriptor.Binds` — a descriptor agrees with a definition, without
  its sub-attributes and with them.
* `Scim.AttributeDefinition.addedSubs`, `Scim.Schema.missingCommon` — what a registration adds.
* `Scim.Descriptor.Extends` — a descriptor agrees with a definition up to what is added.
* `Scim.ResourceType.ExtendsDocuments` — a resource type lists what some documents define.

## Main results

* `Scim.Schema.withCommon_eq` — the common attributes that a schema lacks come last.
* `Scim.ResourceType.attributesIn_ofSchemas` — schemas with different URIs keep their attributes
  apart.
* `Scim.Registry.extendsDocuments_of_register` — registered resource types extend their documents.
-/

namespace Scim

/-! ## Descriptors and definitions -/

namespace Descriptor

/-- A descriptor carries the URI of a schema and says of its attribute what a definition says. -/
structure Copies (schema : String) (definition : AttributeDefinition) (d : Descriptor) : Prop where
  schema_eq : d.schema = schema
  name_eq : d.name = definition.name
  type_eq : d.type = definition.type
  isMultiValued_eq : d.isMultiValued = definition.multiValued
  isRequired_eq : d.isRequired = definition.required
  isCaseExact_eq : d.isCaseExact = definition.caseExact
  mutability_eq : d.mutability = definition.mutability

/-- A descriptor binds a definition to a schema: it says what the definition says, and so do its
sub-attributes of those of the definition, in their order and at every depth. -/
inductive Binds (schema : String) : AttributeDefinition → Descriptor → Prop
  | mk {definition : AttributeDefinition} {d : Descriptor} (copies : d.Copies schema definition)
    (subs : List.Forall₂ (Binds schema) definition.subAttributes d.subs) :
    Binds schema definition d

/-- The descriptor that is made of a URI and a definition binds the one to the other. -/
lemma binds_mk (schema : String) (definition : AttributeDefinition) :
    Binds schema definition ⟨schema, definition⟩ := by
  induction definition using AttributeDefinition.inductionOn with
  | subs definition ih =>
    refine .mk ⟨rfl, rfl, rfl, rfl, rfl, rfl, rfl⟩ ?_
    rw [subs, List.forall₂_map_right_iff, List.forall₂_same]
    exact ih

end Descriptor

/-! ## What is added to a definition -/

/-- The sub-attributes that a registration adds to a definition: a single text `operation`, when
the attribute is multi-valued and complex and no sub-attribute has that name in any spelling. -/
def AttributeDefinition.addedSubs (definition : AttributeDefinition) : List AttributeDefinition :=
  if definition.type = .complex ∧ definition.multiValued = true ∧
      ∀ sub ∈ definition.subAttributes, ¬ SameName sub.name operationName then
    [{ name := operationName, type := .string, multiValued := false, caseExact := true }]
  else []

/-- What is added stands behind the sub-attributes of the definition, and nothing else changes. -/
lemma AttributeDefinition.withOperation_eq (definition : AttributeDefinition) :
    definition.withOperation =
      { definition with subAttributes := definition.subAttributes ++ definition.addedSubs } := by
  have hnone : (definition.sub? operationName).isNone = true ↔
      ∀ sub ∈ definition.subAttributes, ¬ SameName sub.name operationName := by
    rw [sub?, Option.isNone_iff_eq_none, List.find?_eq_none]
    simp only [decide_eq_true_eq]
  unfold withOperation addedSubs isComplex
  simp only [Bool.and_eq_true, beq_iff_eq, and_assoc, hnone]
  split
  · rfl
  · cases definition
    rw [List.append_nil]

namespace Descriptor

/-- A descriptor extends a definition of a schema: it says what the definition says, and its
sub-attributes are bound to the schema, at every depth, from those of the definition and, behind
them, what a registration adds. -/
structure Extends (schema : String) (definition : AttributeDefinition) (d : Descriptor) : Prop where
  copies : d.Copies schema definition
  subs : List.Forall₂ (Binds schema) (definition.subAttributes ++ definition.addedSubs) d.subs

/-- A definition with the sub-attribute `operation` is extended, and not changed otherwise. -/
lemma extends_withOperation (schema : String) (definition : AttributeDefinition) :
    Extends schema definition ⟨schema, definition.withOperation⟩ := by
  obtain ⟨hcopies, hsubs⟩ := binds_mk schema definition.withOperation
  rw [AttributeDefinition.withOperation_eq] at hcopies hsubs ⊢
  exact ⟨⟨rfl, rfl, rfl, rfl, rfl, rfl, rfl⟩, hsubs⟩

end Descriptor

/-! ## What is added to a schema -/

namespace Schema

/-- The common attributes of whose names a schema has none in any spelling. -/
def missingCommon (schema : Schema) : List AttributeDefinition :=
  Standard.common.filter fun d => ∀ own ∈ schema.attributes, ¬ SameName own.name d.name

/-- Of attributes with different names, those that a schema lacks are added at its end, in order,
and nothing else changes. -/
lemma withCommon_eq (schema : Schema) {common : List AttributeDefinition}
    (h : common.Pairwise fun a b => ¬ SameName a.name b.name) :
    schema.withCommon common =
      { schema with
        attributes := schema.attributes ++
          common.filter fun d => ∀ own ∈ schema.attributes, ¬ SameName own.name d.name } := by
  induction common generalizing schema with
  | nil => simp [withCommon]
  | cons d ds ih =>
    rw [List.pairwise_cons] at h
    have hsome : (schema.attribute? d.name).isSome = true ↔
        ¬ ∀ own ∈ schema.attributes, ¬ SameName own.name d.name := by
      simp [attribute?]
    rw [withCommon, List.foldl_cons]
    change withCommon _ ds = _
    rw [ih _ h.2, List.filter_cons]
    by_cases hown : ∀ own ∈ schema.attributes, ¬ SameName own.name d.name
    · -- an attribute that is added hides none of the later ones
      rw [if_neg (by rw [hsome, not_not]; exact hown), if_pos (decide_eq_true hown)]
      have hrest : ds.filter (fun e => decide (∀ own ∈ schema.attributes ++ [d],
            ¬ SameName own.name e.name)) =
          ds.filter fun e => decide (∀ own ∈ schema.attributes, ¬ SameName own.name e.name) := by
        refine List.filter_congr fun e he => decide_eq_decide.mpr ?_
        rw [List.forall_mem_append, List.forall_mem_singleton]
        exact and_iff_left (h.1 e he)
      rw [hrest, List.append_assoc, List.singleton_append]
    · rw [if_pos (hsome.mpr hown), if_neg (by simpa using hown)]

/-- The descriptors of a schema with the sub-attributes `operation` extend its definitions. -/
lemma extends_descriptors (schema : Schema) :
    List.Forall₂ (Descriptor.Extends schema.id) schema.attributes
      schema.withOperations.descriptors := by
  rw [descriptors, withOperations, List.map_map, List.forall₂_map_right_iff, List.forall₂_same]
  exact fun definition _ => Descriptor.extends_withOperation schema.id definition

/-- The common attributes have different names. -/
lemma pairwise_common : Standard.common.Pairwise fun a b => ¬ SameName a.name b.name := by
  decide

/-- With the common attributes, the descriptors extend the definitions of the schema and the common
attributes that it lacks. -/
lemma extends_descriptors_withCommon (schema : Schema) :
    List.Forall₂ (Descriptor.Extends schema.id) (schema.attributes ++ schema.missingCommon)
      (schema.withCommon Standard.common).withOperations.descriptors := by
  rw [withCommon_eq schema pairwise_common]
  exact extends_descriptors { schema with attributes := schema.attributes ++ schema.missingCommon }

end Schema

/-! ## Registered resource types -/

namespace ResourceType

/-- Each schema of a resource type that is made of documents with different URIs lists its own
attributes, under any spelling of its URI. -/
lemma attributesIn_ofSchemas {name endpoint uri : String} {core schema : Schema}
    {extensions : List Schema} (hapart : ((core :: extensions).map Schema.key).Nodup)
    (hschema : schema ∈ core :: extensions) (huri : SameName uri schema.id) :
    (ofSchemas name endpoint core extensions).attributesIn uri = schema.descriptors := by
  have hfilter : (ofSchemas name endpoint core extensions).attributesIn uri =
      ((Keyed.get? Schema.key (caseKey uri) (core :: extensions)).map Schema.descriptors).getD
        [] := by
    refine Keyed.filter_flatMap hapart (fun s _ d hd => ?_) (caseKey uri)
    obtain ⟨definition, -, rfl⟩ := List.mem_map.mp hd
    rfl
  have hget : Keyed.get? Schema.key (caseKey uri) (core :: extensions) = some schema :=
    (Keyed.get?_eq_some_iff hapart).mpr ⟨hschema, huri.symm⟩
  rw [hfilter, hget]
  rfl

/-- A resource type that is made of documents with different URIs has the attributes of each URI,
one after the other. -/
lemma descriptors_ofSchemas {name endpoint : String} {uris : List String} {core : Schema}
    {extensions : List Schema} (hapart : ((core :: extensions).map Schema.key).Nodup)
    (huris : uris.map caseKey = (core :: extensions).map Schema.key) :
    (ofSchemas name endpoint core extensions).descriptors =
      uris.flatMap (ofSchemas name endpoint core extensions).attributesIn := by
  -- the attributes of a URI depend on its key alone
  let ofKey (k : List Char) : List Descriptor :=
    (ofSchemas name endpoint core extensions).descriptors.filter fun d => caseKey d.schema = k
  calc (ofSchemas name endpoint core extensions).descriptors
      = (core :: extensions).flatMap Schema.descriptors := rfl
    _ = (core :: extensions).flatMap fun schema => ofKey schema.key :=
        List.flatMap_congr fun schema hschema =>
          (attributesIn_ofSchemas hapart hschema (SameName.refl schema.id)).symm
    _ = ((core :: extensions).map Schema.key).flatMap ofKey := (List.flatMap_map ..).symm
    _ = (uris.map caseKey).flatMap ofKey := by rw [huris]
    _ = uris.flatMap (ofSchemas name endpoint core extensions).attributesIn := List.flatMap_map ..

/-- A resource type lists what some documents of a registry define, and nothing else. -/
structure ExtendsDocuments (t : ResourceType) (r : Registry) (core : String)
    (extensions : List String) : Prop where
  /-- The core schema lists its definitions, then the common attributes that it lacks. -/
  of_core : ∃ schema, r.schema? core = some schema ∧ t.core = schema.id ∧
    ∀ uri, SameName uri core → List.Forall₂ (Descriptor.Extends schema.id)
      (schema.attributes ++ schema.missingCommon) (t.attributesIn uri)
  /-- Each extension lists its definitions. -/
  of_extension : ∀ extension ∈ extensions, ∃ schema, r.schema? extension = some schema ∧
    ∀ uri, SameName uri extension →
      List.Forall₂ (Descriptor.Extends schema.id) schema.attributes (t.attributesIn uri)
  /-- There are no attributes besides those of the core schema and, after them, those of the
  extensions. -/
  descriptors_eq : t.descriptors = (core :: extensions).flatMap t.attributesIn

end ResourceType

namespace Registry

variable {r r' : Registry} {t : ResourceType} {name endpoint core : String}
  {extensions : List String}

/-- A schema that is found has the URI that was asked for, up to case. -/
lemma sameName_of_schema? {id : String} {schema : Schema} (h : r.schema? id = some schema) :
    SameName schema.id id := by
  have hkey : schema.key = caseKey id := Keyed.key_of_get? h
  exact hkey

/-- A registration that succeeds found all of its documents, made the resource type of copies and
left the documents as they are. -/
lemma exists_documents_of_register (h : r.register name endpoint core extensions = .ok (t, r')) :
    ∃ (coreSchema : Schema) (extensionSchemas : List Schema), r.schema? core = some coreSchema ∧
      List.Forall₂ (fun id schema => r.schema? id = some schema) extensions extensionSchemas ∧
      t = .ofSchemas name endpoint (coreSchema.withCommon Standard.common).withOperations
        (extensionSchemas.map Schema.withOperations) ∧ r'.schemas = r.schemas := by
  have hfind : ∀ id schema, r.findSchema id = .ok schema → r.schema? id = some schema := by
    intro id schema hid
    unfold findSchema at hid
    split at hid
    · cases hid
      assumption
    · cases hid
  obtain ⟨coreSchema, extensionSchemas, hcore, hextensions, ht, rfl⟩ := ResourceType.register_ok h
  exact ⟨coreSchema, extensionSchemas, hfind _ _ hcore, hextensions.imp hfind, ht, rfl⟩

/-- **Registered resource types extend their documents and change nothing else.**  When a
registration succeeds and no two of the URIs that it names differ only in case, the resource type
lists under the core URI the definitions of the core schema, in order, and behind them exactly those
common attributes that the schema lacks; under the URI of each extension, the definitions of that
extension, in order; and nothing else.  Every descriptor carries the URI of its schema and says what
its definition says, at every depth, and the only sub-attribute that is added is `operation`, at the
end of each multi-valued complex attribute without it.  The documents stay as they are.

**Proof sketch.**  The resource type is made of copies of the documents, and different URIs keep the
descriptors of different copies apart.  In a copy, the common attributes are added one after the
other, which comes to a filter as no two of them have one name.  A descriptor is a definition of the
copy under its URI, and binds it by induction on its depth. -/
theorem extendsDocuments_of_register
    (h : r.register name endpoint core extensions = .ok (t, r'))
    (hapart : (core :: extensions).Pairwise fun a b => ¬ SameName a b) :
    t.ExtendsDocuments r core extensions ∧ r'.schemas = r.schemas := by
  obtain ⟨coreSchema, schemas, hcore, hextensions, rfl, hsame⟩ := exists_documents_of_register h
  let coreCopy := (coreSchema.withCommon Standard.common).withOperations
  -- the copies have the URIs that were asked for
  have hid : coreCopy.id = coreSchema.id := by
    simp only [coreCopy, Schema.withCommon_eq coreSchema Schema.pairwise_common]
    rfl
  have hkeys : (core :: extensions).map caseKey =
      (coreCopy :: schemas.map Schema.withOperations).map Schema.key := by
    rw [← List.forall₂_eq_eq_eq, List.forall₂_map_left_iff, List.forall₂_map_right_iff]
    refine .cons ?_ (List.forall₂_map_right_iff.mpr (hextensions.imp fun id schema hschema => ?_))
    · rw [Schema.key, hid]
      exact (sameName_of_schema? hcore).symm
    · exact (sameName_of_schema? hschema).symm
  have hnodup : ((coreCopy :: schemas.map Schema.withOperations).map Schema.key).Nodup := by
    rw [← hkeys]
    exact List.pairwise_map.mpr hapart
  refine ⟨⟨⟨coreSchema, hcore, hid, fun uri huri => ?_⟩, fun extension hextension => ?_,
    ResourceType.descriptors_ofSchemas hnodup hkeys⟩, hsame⟩
  · have huri : SameName uri coreCopy.id := hid ▸ huri.trans (sameName_of_schema? hcore).symm
    rw [ResourceType.attributesIn_ofSchemas hnodup List.mem_cons_self huri]
    exact coreSchema.extends_descriptors_withCommon
  · obtain ⟨schema, hmem, hschema⟩ := (Outcome.covers_of_forall₂ hextensions).left _ hextension
    refine ⟨schema, hschema, fun uri huri => ?_⟩
    have hcopy : schema.withOperations ∈ coreCopy :: schemas.map Schema.withOperations :=
      List.mem_cons_of_mem _ (List.mem_map_of_mem hmem)
    have huri : SameName uri schema.withOperations.id :=
      huri.trans (sameName_of_schema? hschema).symm
    rw [ResourceType.attributesIn_ofSchemas hnodup hcopy huri]
    exact schema.extends_descriptors

/-! ## Tools in stock -/

/-- An extension with a respelled common attribute, entries without `operation`, nested
sub-attributes and entries with an `operation` in a spelling of its own. -/
def stockSchema : Schema where
  id := "urn:stock"
  name := "Stock"
  attributes :=
    [ Standard.plain "ID",
      Standard.entries "shelves"
        [ Standard.plain "value",
          { name := "place", type := .complex, subAttributes := [Standard.plain "room"] } ],
      Standard.entries "bins" [Standard.plain "value", Standard.plain "Operation"] ]

/-- The registry with the schema of tools, whose `Meta` is a text, and that extension. -/
def stockRegistry : Registry := toolRegistry.addSchema stockSchema

/-- The resource type of tools in stock. -/
def stockType : ResourceType :=
  .ofSchemas "Tool" "Tools" (toolSchema.withCommon Standard.common).withOperations
    [stockSchema.withOperations]

/-- The registration finds both documents, however their URIs are spelled. -/
lemma register_stock : stockRegistry.register "Tool" "Tools" "URN:Tool" ["URN:Stock"] =
    .ok (stockType, stockRegistry.afterRegister "Tool" "Tools" "URN:Tool" ["URN:Stock"]) :=
  rfl

/-- The resource type of tools in stock extends its two documents. -/
theorem extendsDocuments_of_register_stock :
    ∃ t r', stockRegistry.register "Tool" "Tools" "URN:Tool" ["URN:Stock"] = .ok (t, r') ∧
      (["URN:Tool", "URN:Stock"].Pairwise fun a b => ¬ SameName a b) ∧
      t.ExtendsDocuments stockRegistry "URN:Tool" ["URN:Stock"] ∧
      r'.schemas = stockRegistry.schemas := by
  have hapart : ["URN:Tool", "URN:Stock"].Pairwise fun a b => ¬ SameName a b := by decide
  exact ⟨_, _, register_stock, hapart, extendsDocuments_of_register register_stock hapart⟩

/-- The common `meta` is missing, as tools have a `Meta`, and `operation` stands behind the
sub-attributes of shelves alone. -/
example : (stockType.schemas.map fun schema => (stockType.attributesIn schema).map fun d =>
      (d.name, d.subs.map Descriptor.name)) =
    [ [("Meta", []), ("parts", ["value", "OPERATION"]), ("id", []), ("externalId", [])],
      [("ID", []), ("shelves", ["value", "place", "operation"]),
        ("bins", ["value", "Operation"])] ] := by
  decide +kernel

end Registry

end Scim
