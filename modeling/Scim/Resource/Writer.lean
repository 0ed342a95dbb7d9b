import Scim.AttributeMap
import Scim.Resource.Reader

set_option autoImplicit false

/-!
# Writing resources as JSON

## Main definitions

* `Scim.Attribute.toJson`, `Scim.Value.toJson` — the values of an attribute, one value.
* `Scim.AttributeMap.toJson` — a resource with the list of its schemas.
-/

namespace Scim

mutual

/-- One value. -/
def Value.toJson : Value → Json
  | .simple value => value
  | .complex ⟨subs⟩ => Json.ofMembers (Attribute.listToMembers subs)

/-- Attributes as members of an object, in order. -/
def Attribute.listToMembers : List Attribute → List (String × Json)
  | [] => []
  | a :: as => (a.name, Attribute.toJson a) :: Attribute.listToMembers as

/-- The values of an attribute: an array when it is multi-valued, otherwise the first value, or
`null` when there is none. -/
def Attribute.toJson : Attribute → Json
  | ⟨d, values⟩ =>
    let written := Value.listToJson values
    if d.isMultiValued then .array written else written.headD .null

/-- Values in order. -/
def Value.listToJson : List Value → List Json
  | [] => []
  | v :: vs => Value.toJson v :: Value.listToJson vs

end

namespace AttributeMap

/-- The schemas that a written resource lists: the core schema, and the extensions with
attributes. -/
def listedSchemas (t : ResourceType) (m : AttributeMap) : List String :=
  t.schemas.filter fun schema => t.isCore schema || !(m.attributesOf schema).isEmpty

/-- The members of a written resource that the attributes of one schema make. -/
def schemaMembers (t : ResourceType) (m : AttributeMap) (schema : String) :
    List (String × Json) :=
  let members := Attribute.listToMembers (m.attributesOf schema)
  if t.isCore schema then members else [(schema, Json.ofMembers members)]

/-- The written resource. -/
def toJson (t : ResourceType) (m : AttributeMap) : Json :=
  Json.ofMembers
    ((schemasKey, .array ((m.listedSchemas t).map .string)) ::
      m.schemas.flatMap (m.schemaMembers t))

end AttributeMap

end Scim
