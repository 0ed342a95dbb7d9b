import Scim.Schema.Basic

set_option autoImplicit false

/-!
# Descriptors

A descriptor is an attribute definition together with the URI of the schema that owns it.  Every
attribute of a resource carries one.  A sub-attribute belongs to the schema of its attribute.

## Main definitions

* `Scim.Descriptor` — a definition and its schema.
* `Scim.Descriptor.sub?` — the descriptor of a sub-attribute.
-/

namespace Scim

/-- The sub-attribute that marks an entry of a multi-valued attribute for removal. -/
def operationName : String := "operation"

/-- The value of `operationName` that asks for the removal. -/
def deleteOperation : String := "delete"

/-- The common attribute with the data about a resource. -/
def metaName : String := "meta"

/-- The sub-attribute of `metaName` that lists the paths to delete. -/
def deletionListName : String := "attributes"

/-- The sub-attributes that every multi-valued complex attribute may have.  They go with their
entry and are not deleted one by one. -/
def normativeNames : List String := ["type", "primary", "operation", "display", "value"]

/-- Whether a sub-attribute is one that every multi-valued complex attribute may have. -/
def isNormative (sub : String) : Bool := normativeNames.any fun name => SameName name sub

/-- An attribute definition and the URI of the schema that owns it. -/
structure Descriptor where
  schema : String
  definition : AttributeDefinition

namespace Descriptor

/-- The name of the attribute. -/
def name (d : Descriptor) : String := d.definition.name

/-- The type of the values. -/
def type (d : Descriptor) : DataType := d.definition.type

/-- Whether the attribute may hold several values. -/
def isMultiValued (d : Descriptor) : Bool := d.definition.multiValued

/-- Whether the attribute has to be there. -/
def isRequired (d : Descriptor) : Bool := d.definition.required

/-- Whether texts are compared with regard to case. -/
def isCaseExact (d : Descriptor) : Bool := d.definition.caseExact

/-- Whether the values have sub-attributes. -/
def isComplex (d : Descriptor) : Bool := d.definition.isComplex

/-- Who may write the attribute, and when. -/
def mutability (d : Descriptor) : Mutability := d.definition.mutability

/-- Whether the attribute can never be written. -/
def isReadOnly (d : Descriptor) : Bool := d.definition.mutability == .readOnly

/-- The descriptors of all sub-attributes. -/
def subs (d : Descriptor) : List Descriptor :=
  d.definition.subAttributes.map fun sub => ⟨d.schema, sub⟩

/-- The descriptor of the first sub-attribute with the given name. -/
def sub? (d : Descriptor) (name : String) : Option Descriptor :=
  (d.definition.sub? name).map fun sub => ⟨d.schema, sub⟩

/-- The key of an attribute among all attributes of a resource. -/
def key (d : Descriptor) : List Char × List Char := (caseKey d.schema, caseKey d.name)

end Descriptor

end Scim
