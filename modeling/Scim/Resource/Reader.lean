import Scim.AttributeMap
import Scim.DateTime
import Scim.Resource.Error
import Scim.ResourceType

set_option autoImplicit false

/-!
# Reading resources from JSON

The attributes of the core schema are members of the top-level object; those of an extension are
members of an object under the URI of the extension.  Names are matched regardless of case and
members are read in ascending order of their keys.  A member that is `null`, an empty array and
an object without any sub-attribute count as an absent attribute.

## Main definitions

* `Scim.Descriptor.readScalar`, `readEntry`, `readAttribute` — one value, one complex value, all
  values of an attribute.
* `Scim.ResourceType.readMember` — the attributes that one member of a resource holds.
* `Scim.AttributeMap.ofJson` — all attributes of a resource.
-/

namespace Scim

/-- The top-level key that lists the schemas of a resource. -/
def schemasKey : String := "schemas"

namespace Descriptor

/-- The error of a value with the wrong type. -/
def typeError (d : Descriptor) (expected : String) (value : Json) : ResourceError :=
  .invalidType d.name expected value.kind

/-- Accepts a JSON value as a value of a simple attribute. -/
def readScalar (d : Descriptor) (value : Json) : Except ResourceError Value :=
  match d.type, value with
  | .string, .string _ => .ok (.simple value)
  | .binary, .string _ => .ok (.simple value)
  | .reference, .string _ => .ok (.simple value)
  | .dateTime, .string text =>
    if DateTime.isValid text then .ok (.simple value)
    else .error (.invalidDateTime d.name text)
  | .boolean, .bool _ => .ok (.simple value)
  | .integer, .number (.integer _) => .ok (.simple value)
  | .decimal, .number _ => .ok (.simple value)
  | type, value => .error (d.typeError type.name value)

/-- Reads the values of an attribute by a reader for one value, which answers `none` for a value
that counts as absent.  A multi-valued attribute is an array, a single-valued one is none. -/
def readValues (d : Descriptor) (read : Json → Except ResourceError (Option Value))
    (value : Json) : Except ResourceError (Option Attribute) := do
  let values ←
    if d.isMultiValued then
      match value with
      | .array items => items.filterMapM read
      | _ => .error (.expectedMultiple d.name)
    else
      match value with
      | .array _ => .error (.expectedSingle d.name)
      | value => (read value).map Option.toList
  return if values.isEmpty then none else some ⟨d, values⟩

/-- Reads the values of a simple attribute. -/
def readSimple (d : Descriptor) (value : Json) : Except ResourceError (Option Attribute) :=
  d.readValues (fun v => (d.readScalar v).map some) value

/-- Reads one member of a complex value. -/
def readSub (d : Descriptor) (key : String) (value : Json) :
    Except ResourceError (Option Attribute) :=
  if value.isNull then .ok none
  else
    match d.sub? key with
    | none => .error (.unknownSubAttribute d.name key)
    | some sub =>
      if sub.isComplex then .error (.nestedComplex (d.name ++ "." ++ sub.name))
      else sub.readSimple value

/-- Reads a complex value. -/
def readEntry (d : Descriptor) (value : Json) : Except ResourceError (Option Value) :=
  match value with
  | .object members => do
    let subs ← members.filterMapM fun m => d.readSub m.1 m.2
    return if subs.isEmpty then none else some (.complex (.ofList subs))
  | _ => .error (d.typeError "object" value)

/-- Reads the values of an attribute. -/
def readAttribute (d : Descriptor) (value : Json) : Except ResourceError (Option Attribute) :=
  if d.isComplex then d.readValues d.readEntry value else d.readSimple value

end Descriptor

namespace ResourceType

/-- Reads a member of the part of a resource that belongs to one schema. -/
def readIn (t : ResourceType) (schema key : String) (value : Json) :
    Except ResourceError (Option Attribute) :=
  match t.attribute? schema key with
  | none => .error (.unknownAttribute key schema)
  | some d => d.readAttribute value

/-- Reads a member of a resource: all attributes of an extension, or one attribute of the core
schema, if it is not absent. -/
def readMember (t : ResourceType) (key : String) (value : Json) :
    Except ResourceError (List Attribute) :=
  if key = schemasKey ∨ value.isNull then .ok []
  else
    match t.extension? key with
    | some extension =>
      match value with
      | .object members =>
        members.filterMapM fun m =>
          if m.2.isNull then .ok none else t.readIn extension m.1 m.2
      | _ => .error (.invalidType key "object" value.kind)
    | none => (t.readIn t.core key value).map Option.toList

end ResourceType

/-- Reads the attributes of a resource of the given type. -/
def AttributeMap.ofJson (t : ResourceType) (document : Json) :
    Except ResourceError AttributeMap :=
  match document with
  | .object members => do
    let attributes ← members.flatMapM fun m => t.readMember m.1 m.2
    return .ofList attributes
  | _ => .error .notAnObject

end Scim
