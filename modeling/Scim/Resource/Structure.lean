import Scim.AttributeMap
import Scim.Resource.Error
import Scim.ResourceType

set_option autoImplicit false

/-!
# The structure of resources

An attribute map fits a resource type when its schemas belong to the type, its attributes and
their sub-attributes are defined, single-valued attributes have exactly one value, and complex
attributes, and no others, have complex values.

## Main definitions

* `Scim.AttributeDefinition.check` — whether an attribute fits a definition.
* `Scim.ResourceType.check` — whether an attribute map fits a resource type.
-/

namespace Scim

/-- Whether an attribute may have so many values. -/
def AttributeDefinition.checkArity (d : AttributeDefinition) (values : List Value) :
    Except ResourceError Unit :=
  match values with
  | [] => .error (.noValues d.name)
  | [_] => .ok ()
  | _ => if d.multiValued then .ok () else .error (.expectedSingle d.name)

mutual

/-- Accepts an attribute that fits a definition. -/
def AttributeDefinition.check (d : AttributeDefinition) : Attribute → Except ResourceError Unit
  | ⟨_, values⟩ => do
    d.checkArity values
    d.checkValues values

/-- Accepts values that fit a definition. -/
def AttributeDefinition.checkValues (d : AttributeDefinition) :
    List Value → Except ResourceError Unit
  | [] => .ok ()
  | v :: vs => do
    d.checkValue v
    d.checkValues vs

/-- Accepts a value that fits a definition. -/
def AttributeDefinition.checkValue (d : AttributeDefinition) : Value → Except ResourceError Unit
  | .simple _ =>
    if d.isComplex then .error (.invalidType d.name "complex" "simple") else .ok ()
  | .complex ⟨subs⟩ =>
    if d.isComplex then d.checkSubs subs else .error (.invalidType d.name "simple" "complex")

/-- Accepts sub-attributes that a definition knows and that fit theirs. -/
def AttributeDefinition.checkSubs (d : AttributeDefinition) :
    List Attribute → Except ResourceError Unit
  | [] => .ok ()
  | a :: as => do
    match d.sub? a.name with
    | some sub => sub.check a
    | none => .error (.unknownSubAttribute d.name a.name)
    d.checkSubs as

end

namespace ResourceType

/-- Accepts an attribute of the given schema. -/
def checkAttribute (t : ResourceType) (schema : String) (a : Attribute) :
    Except ResourceError Unit :=
  match t.attribute? schema a.name with
  | some d => d.definition.check a
  | none => .error (.unknownAttribute a.name schema)

/-- Accepts the attributes of one schema. -/
def checkGroup (t : ResourceType) (g : SchemaGroup) : Except ResourceError Unit :=
  if t.hasSchema g.schema then g.attributes.forM (t.checkAttribute g.schema)
  else .error (.unsupportedSchema g.schema t.name)

/-- Accepts an attribute map that fits the resource type. -/
def check (t : ResourceType) (m : AttributeMap) : Except ResourceError Unit :=
  m.groups.forM t.checkGroup

end ResourceType

end Scim
