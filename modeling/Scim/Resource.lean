import Scim.Resource.Reader
import Scim.Resource.Structure
import Scim.Resource.Writer
import Scim.Schema.Standard

set_option autoImplicit false

/-!
# Resources

## Main definitions

* `Scim.Resource` — an attribute map that fits a resource type.
* `Scim.UserResource` — a resource of the core User schema, with its best-known attributes.
* `Scim.ResourceFactory` — a way to make a resource of some kind from an attribute map.
-/

namespace Scim

/-- An attribute map that fits a resource type. -/
structure Resource where
  type : ResourceType
  attributes : AttributeMap
  fits : type.check attributes = .ok ()

/-- Makes a resource of some kind from an attribute map of a resource type. -/
abbrev ResourceFactory (R : Type) := ResourceType → AttributeMap → Except ResourceError R

namespace Resource

/-- The resource with the given attributes, if they fit. -/
def ofAttributes : ResourceFactory Resource := fun type attributes =>
  match h : type.check attributes with
  | .ok () => .ok ⟨type, attributes, h⟩
  | .error e => .error e

/-- Reads a resource. -/
def ofJson (type : ResourceType) (document : Json) : Except ResourceError Resource := do
  ofAttributes type (← AttributeMap.ofJson type document)

/-- The written resource. -/
def toJson (r : Resource) : Json := r.attributes.toJson r.type

/-- The attribute of the core schema with the given name. -/
def core? (r : Resource) (name : String) : Option Attribute :=
  r.attributes.get? r.type.core name

/-- The first value of an attribute of the core schema. -/
def coreValue? (r : Resource) (name : String) : Option Value :=
  (r.core? name).bind Attribute.first?

/-- The text of an attribute of the core schema. -/
def coreString? (r : Resource) (name : String) : Option String :=
  (r.coreValue? name).bind Value.string?

/-- The identifier that the service provider gave. -/
def id? (r : Resource) : Option String := r.coreString? "id"

/-- The identifier that the client gave. -/
def externalId? (r : Resource) : Option String := r.coreString? "externalId"

end Resource

/-- A resource of the core User schema. -/
structure UserResource where
  base : Resource

namespace UserResource

/-- Accepts resource types with the User schema as core schema. -/
def checkType (type : ResourceType) : Except ResourceError Unit :=
  if type.isCore Standard.userId then .ok () else .error (.typeMismatch "User" type.name)

/-- The user with the given attributes, if the type is one of users and they fit. -/
def ofAttributes : ResourceFactory UserResource := fun type attributes => do
  checkType type
  return ⟨← Resource.ofAttributes type attributes⟩

/-- Reads a user. -/
def ofJson (type : ResourceType) (document : Json) : Except ResourceError UserResource := do
  checkType type
  return ⟨← Resource.ofJson type document⟩

/-- The name for logging in. -/
def userName? (u : UserResource) : Option String := u.base.coreString? "userName"

/-- The name to display. -/
def displayName? (u : UserResource) : Option String := u.base.coreString? "displayName"

/-- Whether the user is active. -/
def active? (u : UserResource) : Option Bool := (u.base.coreValue? "active").bind Value.bool?

/-- The text of a sub-attribute of a value. -/
def subString? (v : Value) (sub : String) : Option String :=
  ((v.sub? sub).bind Attribute.first?).bind Value.string?

/-- One part of the user's name. -/
def namePart? (u : UserResource) (part : String) : Option String :=
  (u.base.coreValue? "name").bind (subString? · part)

/-- The given name. -/
def givenName? (u : UserResource) : Option String := u.namePart? "givenName"

/-- The family name. -/
def familyName? (u : UserResource) : Option String := u.namePart? "familyName"

/-- The e-mail addresses, in order. -/
def emails (u : UserResource) : List String :=
  match u.base.core? "emails" with
  | some emails => emails.values.filterMap (subString? · "value")
  | none => []

/-- The paths that a PATCH body asks to delete. -/
def deletedAttributes (u : UserResource) : List String :=
  match (u.base.coreValue? metaName).bind (Value.sub? · deletionListName) with
  | some paths => paths.values.filterMap Value.string?
  | none => []

end UserResource

end Scim
