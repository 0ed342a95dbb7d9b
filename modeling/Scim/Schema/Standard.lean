import Scim.Schema.Basic

set_option autoImplicit false

/-!
# The schemas every registry may start from

The User and Group schemas and the Enterprise User extension, reduced to the attributes that
provisioning compares, and the attributes common to all resources.

## Main definitions

* `Scim.Standard.user`, `group`, `enterpriseUser` — the schemas.
* `Scim.Standard.common` — `id`, `externalId` and `meta`.
-/

namespace Scim.Standard

/-- The URI of the User schema. -/
def userId : String := "urn:ietf:params:scim:schemas:core:2.0:User"

/-- The URI of the Group schema. -/
def groupId : String := "urn:ietf:params:scim:schemas:core:2.0:Group"

/-- The URI of the Enterprise User extension. -/
def enterpriseUserId : String := "urn:ietf:params:scim:schemas:extension:enterprise:2.0:User"

/-- A single-valued attribute that may be written. -/
def plain (name : String) (type : DataType := .string) : AttributeDefinition := { name, type }

/-- A multi-valued complex attribute. -/
def entries (name : String) (subs : List AttributeDefinition) : AttributeDefinition :=
  { name, type := .complex, multiValued := true, subAttributes := subs }

/-- The sub-attributes of a list of addresses of one kind. -/
def contactSubs : List AttributeDefinition :=
  [plain "value", plain "display", plain "type", plain "primary" .boolean]

/-- The User schema. -/
def user : Schema where
  id := userId
  name := "User"
  description := "User Account"
  attributes :=
    [ { name := "userName", type := .string, required := true, uniqueness := .server },
      { name := "name", type := .complex,
        subAttributes :=
          [plain "formatted", plain "familyName", plain "givenName", plain "middleName",
            plain "honorificPrefix", plain "honorificSuffix"] },
      plain "displayName",
      plain "nickName",
      plain "profileUrl" .reference,
      plain "title",
      plain "userType",
      plain "preferredLanguage",
      plain "locale",
      plain "timezone",
      plain "active" .boolean,
      { name := "password", type := .string, mutability := .writeOnly },
      entries "emails" contactSubs,
      entries "phoneNumbers" contactSubs,
      entries "addresses"
        [plain "formatted", plain "streetAddress", plain "locality", plain "region",
          plain "postalCode", plain "country", plain "type", plain "primary" .boolean],
      { entries "groups"
          [ { name := "value", type := .string, mutability := .readOnly },
            { name := "$ref", type := .reference, mutability := .readOnly },
            { name := "display", type := .string, mutability := .readOnly },
            { name := "type", type := .string, mutability := .readOnly } ] with
        mutability := .readOnly },
      { name := "roles", type := .string, multiValued := true } ]

/-- The Group schema. -/
def group : Schema where
  id := groupId
  name := "Group"
  description := "Group"
  attributes :=
    [ { name := "displayName", type := .string, required := true },
      entries "members"
        [ { name := "value", type := .string, mutability := .immutable },
          { name := "$ref", type := .reference, mutability := .immutable },
          { name := "display", type := .string, mutability := .readOnly },
          { name := "type", type := .string, mutability := .immutable } ] ]

/-- The Enterprise User extension. -/
def enterpriseUser : Schema where
  id := enterpriseUserId
  name := "EnterpriseUser"
  description := "Enterprise User"
  attributes :=
    [ plain "employeeNumber",
      plain "costCenter",
      plain "organization",
      plain "division",
      plain "department",
      { name := "manager", type := .complex,
        subAttributes :=
          [ plain "value", plain "$ref" .reference,
            { name := "displayName", type := .string, mutability := .readOnly } ] } ]

/-- The attributes common to all resources.  The sub-attribute `attributes` of `meta` lists the
paths that a PATCH request deletes. -/
def common : List AttributeDefinition :=
  [ { name := "id", type := .string, caseExact := true, mutability := .readOnly,
      uniqueness := .server },
    { name := "externalId", type := .string, caseExact := true },
    { name := "meta", type := .complex, mutability := .readOnly,
      subAttributes :=
        [ { name := "resourceType", type := .string, caseExact := true,
            mutability := .readOnly },
          { name := "created", type := .dateTime, mutability := .readOnly },
          { name := "lastModified", type := .dateTime, mutability := .readOnly },
          { name := "location", type := .reference, mutability := .readOnly },
          { name := "version", type := .string, caseExact := true, mutability := .readOnly },
          { name := "attributes", type := .string, multiValued := true } ] } ]

end Scim.Standard
