import Scim.Schema.Basic
import Scim.Json.Parser

set_option autoImplicit false

/-!
# Schema documents

A schema is written as a JSON object with one member per field.  Reading is strict about the
fields it knows: each may occur once, has to be there unless it has a default, and has exactly
the type of the field, so that `null` is no way to leave it out.  Members with other names are
skipped.  Two shorter forms are read as well: the fields as an array in the order of
declaration, from which fields with defaults may be missing at the end, and the name of a type,
mutability or uniqueness as an object with that name as its only key and `null` as its value.

## Main definitions

* `Scim.Json.Raw.record?` — the known fields of an object or array.
* `Scim.AttributeDefinition.ofRaw?`, `Scim.Schema.ofRaw?` — read a tree.
* `Scim.Schema.ofText?`, `Scim.Schema.ofJson?` — read a text or a value.
* `Scim.AttributeDefinition.toJson`, `Scim.Schema.toJson` — write all fields.
-/

namespace Scim

namespace Json.Raw

/-- The known fields among the members of an object; `none` when a key is no text or a known
field occurs twice. -/
def knownFields? (names : List String) :
    List (Option String × Raw) → Option (List (String × Raw))
  | [] => some []
  | (key, value) :: rest =>
    match key, knownFields? names rest with
    | some k, some fields =>
      if k ∉ names then some fields
      else if (fields.lookup k).isSome then none
      else some ((k, value) :: fields)
    | _, _ => none

/-- The fields of a record: the known members of an object, or the items of an array in the
order of the names, not more than there are names. -/
def record? (names : List String) : Raw → Option (List (String × Raw))
  | .object members => knownFields? names members
  | .array items => if items.length ≤ names.length then some (names.zip items) else none
  | _ => none

/-- A name written as a string, or as an object with that name as its only key and `null` as its
value.  The object counts as a container and needs room. -/
def variant? (room : Nat) : Raw → Option String
  | .string value => value
  | .object [(key, .null)] => if room = 0 then none else key
  | _ => none

/-- A field with a default: the default when the field is missing, otherwise what it holds. -/
def fieldOr {α : Type} (fields : List (String × Raw)) (name : String) (default : α)
    (read? : Raw → Option α) : Option α :=
  match fields.lookup name with
  | none => some default
  | some value => read? value

/-- A field without default. -/
def field? {α : Type} (fields : List (String × Raw)) (name : String) (read? : Raw → Option α) :
    Option α :=
  (fields.lookup name).bind read?

end Json.Raw

open Json.Raw (field? fieldOr)

namespace AttributeDefinition

/-- The fields of a definition, in the order of declaration. -/
def fieldNames : List String :=
  ["name", "type", "multiValued", "required", "caseExact", "mutability", "uniqueness",
    "subAttributes"]

mutual

/-- Reads a definition in which at most `room` kept containers enclose each other. -/
def ofRaw? : Nat → Json.Raw → Option AttributeDefinition
  | 0, _ => none
  | room + 1, tree => do
    let fields ← tree.record? fieldNames
    let name ← field? fields "name" Json.Raw.string?
    let type ← field? fields "type" fun v => (v.variant? room).bind DataType.ofName?
    let multiValued ← fieldOr fields "multiValued" false Json.Raw.bool?
    let required ← fieldOr fields "required" false Json.Raw.bool?
    let caseExact ← fieldOr fields "caseExact" false Json.Raw.bool?
    let mutability ← fieldOr fields "mutability" .readWrite fun v =>
      (v.variant? room).bind Mutability.ofName?
    let uniqueness ← fieldOr fields "uniqueness" .none fun v =>
      (v.variant? room).bind Uniqueness.ofName?
    let subAttributes ← fieldOr fields "subAttributes" [] fun v => listOfRaw? room v
    return { name, type, multiValued, required, caseExact, mutability, uniqueness,
             subAttributes }

/-- Reads an array of definitions in which at most `room` kept containers enclose each other. -/
def listOfRaw? : Nat → Json.Raw → Option (List AttributeDefinition)
  | room + 1, .array items => items.mapM fun item => ofRaw? room item
  | _, _ => none

end

mutual

/-- A definition as a document with all its fields. -/
def toJson : AttributeDefinition → Json
  | ⟨name, type, multiValued, required, caseExact, mutability, uniqueness, subAttributes⟩ =>
    Json.ofMembers
      [("name", .string name), ("type", .string type.name), ("multiValued", .bool multiValued),
        ("required", .bool required), ("caseExact", .bool caseExact),
        ("mutability", .string mutability.name), ("uniqueness", .string uniqueness.name),
        ("subAttributes", .array (listToJson subAttributes))]

/-- Definitions as documents. -/
def listToJson : List AttributeDefinition → List Json
  | [] => []
  | d :: ds => toJson d :: listToJson ds

end

/-- Reads a definition from a value, however deep it is. -/
def ofJson? (document : Json) : Option AttributeDefinition :=
  ofRaw? (document.depth + 1) document.toRaw

end AttributeDefinition

namespace Schema

/-- The fields of a schema, in the order of declaration. -/
def fieldNames : List String := ["id", "name", "description", "attributes"]

/-- Reads a schema in which at most `room` kept containers enclose each other. -/
def ofRaw? : Nat → Json.Raw → Option Schema
  | 0, _ => none
  | room + 1, tree => do
    let fields ← tree.record? fieldNames
    let id ← field? fields "id" Json.Raw.string?
    let name ← field? fields "name" Json.Raw.string?
    let description ← fieldOr fields "description" "" Json.Raw.string?
    let attributes ← field? fields "attributes" (AttributeDefinition.listOfRaw? room)
    return { id, name, description, attributes }

/-- Reads a schema from a JSON text. -/
def ofText? (text : String) : Option Schema :=
  (Json.Raw.ofText? text).bind (ofRaw? Json.Raw.nestingLimit)

/-- Reads a schema from a value, however deep it is. -/
def ofJson? (document : Json) : Option Schema := ofRaw? (document.depth + 1) document.toRaw

/-- A schema as a document with all its fields. -/
def toJson (schema : Schema) : Json :=
  Json.ofMembers
    [("id", .string schema.id), ("name", .string schema.name),
      ("description", .string schema.description),
      ("attributes", .array (AttributeDefinition.listToJson schema.attributes))]

end Schema

end Scim
