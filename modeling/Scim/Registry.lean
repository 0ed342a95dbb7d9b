import Scim.Keyed
import Scim.ResourceType
import Scim.Schema.Standard

set_option autoImplicit false

/-!
# Registries of schemas and resource types

A registry holds schema documents and the resource types built from them.  Building a resource
type adds what comparisons rely on: the core schema gets the common attributes it lacks, and
every multi-valued complex attribute gets a sub-attribute `operation`.  The documents themselves
stay as they are.

## Main definitions

* `Scim.Registry.empty`, `Scim.Registry.standard` — the registries to start from.
* `Scim.Registry.addSchema`, `schema?` — documents, by URI regardless of case.
* `Scim.Registry.register`, `resourceType?` — resource types, by exact name.
* `Scim.RegistryError` — why a lookup or registration fails.
-/

namespace Scim

/-- Why a registry has no answer. -/
inductive RegistryError where
  | unknownResourceType (name : String)
  | schemaNotFound (id : String)
deriving DecidableEq, Repr

/-- The text of an error. -/
def RegistryError.message : RegistryError → String
  | .unknownResourceType name => s!"Unknown resource type: {name}"
  | .schemaNotFound id => s!"Schema not found: {id}"

/-- Schema documents and resource types. -/
structure Registry where
  schemas : List Schema
  resourceTypes : List ResourceType

/-- The definition that marks entries for removal. -/
def operationDefinition : AttributeDefinition :=
  { name := operationName, type := .string, caseExact := true }

/-- The definition with a sub-attribute `operation`, if it is multi-valued and complex and has
none. -/
def AttributeDefinition.withOperation (d : AttributeDefinition) : AttributeDefinition :=
  if d.isComplex && d.multiValued && (d.sub? operationName).isNone then
    { d with subAttributes := d.subAttributes ++ [operationDefinition] }
  else d

namespace Schema

/-- The key of a schema in a registry. -/
def key (schema : Schema) : List Char := caseKey schema.id

/-- The schema with those of the given attributes at its end whose names it lacks. -/
def withCommon (schema : Schema) (common : List AttributeDefinition) : Schema :=
  common.foldl
    (fun s d =>
      if (s.attribute? d.name).isSome then s else { s with attributes := s.attributes ++ [d] })
    schema

/-- The schema with a sub-attribute `operation` in every multi-valued complex attribute. -/
def withOperations (schema : Schema) : Schema :=
  { schema with attributes := schema.attributes.map AttributeDefinition.withOperation }

end Schema

namespace Registry

/-- The registry without schemas and resource types. -/
def empty : Registry := ⟨[], []⟩

/-- Adds a schema, in the place of one with the same URI.  Resource types stay as they are. -/
def addSchema (r : Registry) (schema : Schema) : Registry :=
  { r with schemas := (Keyed.insert Schema.key schema r.schemas).2 }

/-- The schema with the given URI. -/
def schema? (r : Registry) (id : String) : Option Schema :=
  Keyed.get? Schema.key (caseKey id) r.schemas

/-- The schema with the given URI, or an error that names it. -/
def findSchema (r : Registry) (id : String) : Except RegistryError Schema :=
  match r.schema? id with
  | some schema => .ok schema
  | none => .error (.schemaNotFound id)

/-- Registers a resource type built from schemas of the registry, in the place of one with the
same name. -/
def register (r : Registry) (name endpoint core : String) (extensions : List String) :
    Except RegistryError (ResourceType × Registry) := do
  let coreSchema ← r.findSchema core
  let extensionSchemas ← extensions.mapM r.findSchema
  let type := ResourceType.ofSchemas name endpoint
    (coreSchema.withCommon Standard.common).withOperations
    (extensionSchemas.map Schema.withOperations)
  return (type, { r with
    resourceTypes := (Keyed.insert ResourceType.name type r.resourceTypes).2 })

/-- The registry after a registration; a failed one changes nothing. -/
def afterRegister (r : Registry) (name endpoint core : String) (extensions : List String) :
    Registry :=
  match r.register name endpoint core extensions with
  | .ok (_, r') => r'
  | .error _ => r

/-- The resource type with exactly the given name. -/
def resourceType (r : Registry) (name : String) : Except RegistryError ResourceType :=
  match Keyed.get? ResourceType.name name r.resourceTypes with
  | some type => .ok type
  | none => .error (.unknownResourceType name)

/-- The registry with the standard schemas. -/
def standardSchemas : Registry :=
  ((empty.addSchema Standard.user).addSchema Standard.group).addSchema Standard.enterpriseUser

/-- The standard schemas with the resource types `User` and `Group`. -/
def standard : Registry :=
  (standardSchemas.afterRegister "User" "Users" Standard.userId
    [Standard.enterpriseUserId]).afterRegister "Group" "Groups" Standard.groupId []

end Registry

end Scim
