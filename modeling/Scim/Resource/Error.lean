set_option autoImplicit false

/-!
# Errors of resources

## Main definitions

* `Scim.ResourceError` — why a JSON document or an attribute map is no resource of a type.
-/

namespace Scim

/-- Why something is not a resource of a resource type. -/
inductive ResourceError where
  /-- The document is not a JSON object. -/
  | notAnObject
  /-- No schema of the resource type defines the attribute. -/
  | unknownAttribute (name schema : String)
  /-- The schema does not belong to the resource type. -/
  | unsupportedSchema (schema resourceType : String)
  /-- The attribute does not define the sub-attribute. -/
  | unknownSubAttribute (name sub : String)
  /-- A value is not of the type of its attribute. -/
  | invalidType (name expected actual : String)
  /-- A text is not a date-time. -/
  | invalidDateTime (name value : String)
  /-- A multi-valued attribute is not written as an array. -/
  | expectedMultiple (name : String)
  /-- A single-valued attribute is written as an array or has several values. -/
  | expectedSingle (name : String)
  /-- An attribute has no values. -/
  | noValues (name : String)
  /-- A sub-attribute is complex itself. -/
  | nestedComplex (name : String)
  /-- The resource is of another type than the one asked for. -/
  | typeMismatch (expected actual : String)
  /-- A caller's own check failed. -/
  | custom (message : String)
deriving DecidableEq, Repr

/-- The text of an error. -/
def ResourceError.message : ResourceError → String
  | .notAnObject => "Resource must be a JSON object"
  | .unknownAttribute name schema => s!"Unknown attribute '{name}' in schema '{schema}'"
  | .unsupportedSchema schema type =>
    s!"Schema '{schema}' is not supported by resource type '{type}'"
  | .unknownSubAttribute name sub =>
    s!"Complex attribute '{name}' contains unknown sub-attribute '{sub}'"
  | .invalidType name expected actual =>
    s!"Attribute '{name}' has invalid type, expected {expected}, got {actual}"
  | .invalidDateTime name value => s!"Attribute '{name}' has invalid datetime format: {value}"
  | .expectedMultiple name => s!"Attribute '{name}' must be multi-valued (array)"
  | .expectedSingle name => s!"Attribute '{name}' must be single-valued"
  | .noValues name => s!"Attribute '{name}' has no values"
  | .nestedComplex name => s!"Nested complex attributes are not allowed: '{name}'"
  | .typeMismatch expected actual => s!"Expected resource type '{expected}', got '{actual}'"
  | .custom message => s!"Validation failed: {message}"

end Scim
