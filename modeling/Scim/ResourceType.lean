import Scim.Descriptor

set_option autoImplicit false

/-!
# Resource types

A resource type has a core schema, whose attributes stand at the top level of its resources, and
extension schemas.

## Main definitions

* `Scim.ResourceType` — name, endpoint, schemas and the descriptors of all attributes.
* `Scim.ResourceType.ofSchemas` — the resource type made from schema documents.
* `Scim.ResourceType.attribute?` — the descriptor with a given schema and name.
-/

namespace Scim

/-- A type of resource. -/
structure ResourceType where
  name : String
  endpoint : String
  /-- The schema whose attributes stand at the top level. -/
  core : String
  /-- The extension schemas, in order. -/
  extensions : List String
  /-- The descriptors of the core schema, then those of each extension. -/
  descriptors : List Descriptor

/-- The descriptors of the attributes that a schema defines. -/
def Schema.descriptors (schema : Schema) : List Descriptor :=
  schema.attributes.map fun d => ⟨schema.id, d⟩

namespace ResourceType

/-- The resource type with the given core schema and extensions, exactly as they are. -/
def ofSchemas (name endpoint : String) (core : Schema) (extensions : List Schema) :
    ResourceType where
  name := name
  endpoint := endpoint
  core := core.id
  extensions := extensions.map Schema.id
  descriptors := core.descriptors ++ extensions.flatMap Schema.descriptors

/-- The core schema, then the extensions. -/
def schemas (t : ResourceType) : List String := t.core :: t.extensions

/-- Whether a schema belongs to a resource type. -/
def hasSchema (t : ResourceType) (schema : String) : Bool :=
  t.schemas.any fun s => SameName s schema

/-- Whether a schema is the core schema. -/
def isCore (t : ResourceType) (schema : String) : Bool := SameName t.core schema

/-- The extension with the given URI, as the resource type spells it. -/
def extension? (t : ResourceType) (schema : String) : Option String :=
  t.extensions.find? fun s => SameName s schema

/-- The first descriptor with the given schema and name. -/
def attribute? (t : ResourceType) (schema name : String) : Option Descriptor :=
  t.descriptors.find? fun d => SameName d.schema schema ∧ SameName d.name name

/-- The descriptors of one schema, in the order of definition. -/
def attributesIn (t : ResourceType) (schema : String) : List Descriptor :=
  t.descriptors.filter fun d => SameName d.schema schema

/-- The descriptor of the common attribute `meta`. -/
def metaAttribute? (t : ResourceType) : Option Descriptor := t.attribute? t.core metaName

end ResourceType

end Scim
