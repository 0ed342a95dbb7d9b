import Scim.Attribute

set_option autoImplicit false

/-!
# The attributes of a resource

The attributes of a resource are grouped by the schema that owns them.  Groups and attributes
keep the order in which they first appeared; that is the order in which resources are compared.
There is at most one attribute per schema and name.

## Main definitions

* `Scim.AttributeMap` — the groups.
* `Scim.AttributeMap.get?`, `insert`, `erase`, `ofList` — the map from schema and name.
* `Scim.AttributeMap.toList` — all attributes, group by group.
* `Scim.AttributeMap.beq` — equality regardless of order.
-/

namespace Scim

/-- The attributes of one schema, under the spelling of its URI that came first. -/
structure SchemaGroup where
  schema : String
  attributes : List Attribute

/-- The key of a group. -/
def SchemaGroup.key (g : SchemaGroup) : List Char := caseKey g.schema

/-- The attributes of a resource, grouped by schema.  No group is empty. -/
structure AttributeMap where
  groups : List SchemaGroup

namespace AttributeMap

/-- The map without attributes. -/
def empty : AttributeMap := ⟨[]⟩

/-- The schemas with at least one attribute, in order of appearance. -/
def schemas (m : AttributeMap) : List String := m.groups.map SchemaGroup.schema

/-- The group of a schema. -/
def group? (m : AttributeMap) (schema : String) : Option SchemaGroup :=
  Keyed.get? SchemaGroup.key (caseKey schema) m.groups

/-- The attributes of a schema, in order. -/
def attributesOf (m : AttributeMap) (schema : String) : List Attribute :=
  match m.group? schema with
  | some g => g.attributes
  | none => []

/-- All attributes, group by group. -/
def toList (m : AttributeMap) : List Attribute := m.groups.flatMap SchemaGroup.attributes

/-- The attribute with the given schema and name. -/
def get? (m : AttributeMap) (schema name : String) : Option Attribute :=
  Keyed.get? Attribute.nameKey (caseKey name) (m.attributesOf schema)

/-- Whether there is an attribute with the given schema and name. -/
def contains (m : AttributeMap) (schema name : String) : Bool := (m.get? schema name).isSome

/-- Puts an attribute into the map, in the place of the one with its schema and name if there is
one.  The first component is the attribute that was replaced. -/
def insert (m : AttributeMap) (a : Attribute) : Option Attribute × AttributeMap :=
  match m.group? a.schema with
  | some g =>
    let r := Keyed.insert Attribute.nameKey a g.attributes
    (r.1, ⟨(Keyed.insert SchemaGroup.key ⟨g.schema, r.2⟩ m.groups).2⟩)
  | none => (none, ⟨(Keyed.insert SchemaGroup.key ⟨a.schema, [a]⟩ m.groups).2⟩)

/-- Takes an attribute out of the map, and its group when nothing else is in it.  The first
component is that attribute. -/
def erase (m : AttributeMap) (schema name : String) : Option Attribute × AttributeMap :=
  match m.group? schema with
  | none => (none, m)
  | some g =>
    let r := Keyed.erase Attribute.nameKey (caseKey name) g.attributes
    if r.1.isNone then (none, m)
    else if r.2.isEmpty then (r.1, ⟨(Keyed.erase SchemaGroup.key g.key m.groups).2⟩)
    else (r.1, ⟨(Keyed.insert SchemaGroup.key ⟨g.schema, r.2⟩ m.groups).2⟩)

/-- Puts the attributes of a list into the empty map, in order. -/
def ofList (attributes : List Attribute) : AttributeMap :=
  attributes.foldl (fun m a => (m.insert a).2) empty

/-- The number of attributes. -/
def size (m : AttributeMap) : Nat := m.toList.length

/-- Whether there is no attribute. -/
def isEmpty (m : AttributeMap) : Bool := m.groups.isEmpty

/-- Maps are equal when they have equally many attributes and the other has an equal one for each
of the first. -/
protected def beq (m n : AttributeMap) : Bool :=
  m.size == n.size && m.toList.all fun a => n.get? a.schema a.name == some a

instance : BEq AttributeMap := ⟨AttributeMap.beq⟩

end AttributeMap

end Scim
