import Scim.CaseKey

set_option autoImplicit false

/-!
# Schemas

A schema is a document with a URI as its identifier and a list of attribute definitions.  A
definition of a complex attribute holds the definitions of its sub-attributes.

## Main definitions

* `Scim.DataType`, `Mutability`, `Uniqueness` — the characteristics of an attribute, with the
  names that documents use for them.
* `Scim.AttributeDefinition` — the definition of an attribute or sub-attribute.
* `Scim.Schema` — a schema document.

## Main results

* `Scim.AttributeDefinition.inductionOn` — induction on the depth of a definition.
-/

namespace Scim

/-- The type of the values of an attribute. -/
inductive DataType where
  | string
  | boolean
  | decimal
  | integer
  | dateTime
  | binary
  | reference
  | complex
deriving DecidableEq, Repr

/-- Who may write an attribute, and when. -/
inductive Mutability where
  | readOnly
  | readWrite
  | immutable
  | writeOnly
deriving DecidableEq, Repr

/-- Where the value of an attribute must be unique. -/
inductive Uniqueness where
  | none
  | server
  | global
deriving DecidableEq, Repr

namespace DataType

/-- The name of a type in a document. -/
def name : DataType → String
  | string => "string"
  | boolean => "boolean"
  | decimal => "decimal"
  | integer => "integer"
  | dateTime => "dateTime"
  | binary => "binary"
  | reference => "reference"
  | complex => "complex"

/-- The type with a name. -/
def ofName? : String → Option DataType
  | "string" => some string
  | "boolean" => some boolean
  | "decimal" => some decimal
  | "integer" => some integer
  | "dateTime" => some dateTime
  | "binary" => some binary
  | "reference" => some reference
  | "complex" => some complex
  | _ => Option.none

theorem ofName?_name (t : DataType) : ofName? t.name = some t := by
  cases t <;> rfl

/-- No other name is read as a type than its own. -/
theorem ofName?_eq_some_iff {text : String} {t : DataType} :
    ofName? text = some t ↔ text = t.name := by
  constructor
  · intro h
    unfold ofName? at h
    split at h <;> cases h <;> rfl
  · rintro rfl
    exact ofName?_name t

end DataType

namespace Mutability

/-- The name of a mutability in a document. -/
def name : Mutability → String
  | readOnly => "readOnly"
  | readWrite => "readWrite"
  | immutable => "immutable"
  | writeOnly => "writeOnly"

/-- The mutability with a name. -/
def ofName? : String → Option Mutability
  | "readOnly" => some readOnly
  | "readWrite" => some readWrite
  | "immutable" => some immutable
  | "writeOnly" => some writeOnly
  | _ => Option.none

theorem ofName?_name (m : Mutability) : ofName? m.name = some m := by
  cases m <;> rfl

/-- No other name is read as a mutability than its own. -/
theorem ofName?_eq_some_iff {text : String} {m : Mutability} :
    ofName? text = some m ↔ text = m.name := by
  constructor
  · intro h
    unfold ofName? at h
    split at h <;> cases h <;> rfl
  · rintro rfl
    exact ofName?_name m

end Mutability

namespace Uniqueness

/-- The name of a uniqueness in a document. -/
def name : Uniqueness → String
  | none => "none"
  | server => "server"
  | global => "global"

/-- The uniqueness with a name. -/
def ofName? : String → Option Uniqueness
  | "none" => some none
  | "server" => some server
  | "global" => some global
  | _ => Option.none

theorem ofName?_name (u : Uniqueness) : ofName? u.name = some u := by
  cases u <;> rfl

/-- No other name is read as a uniqueness than its own. -/
theorem ofName?_eq_some_iff {text : String} {u : Uniqueness} :
    ofName? text = some u ↔ text = u.name := by
  constructor
  · intro h
    unfold ofName? at h
    split at h <;> cases h <;> rfl
  · rintro rfl
    exact ofName?_name u

end Uniqueness

/-- The definition of an attribute or sub-attribute.  All but the name and the type has a
default. -/
structure AttributeDefinition where
  name : String
  type : DataType
  multiValued : Bool := false
  required : Bool := false
  caseExact : Bool := false
  mutability : Mutability := .readWrite
  uniqueness : Uniqueness := .none
  subAttributes : List AttributeDefinition := []

instance : Inhabited AttributeDefinition :=
  ⟨⟨"", .string, false, false, false, .readWrite, .none, []⟩⟩

namespace AttributeDefinition

/-- Whether the values of an attribute have sub-attributes. -/
def isComplex (d : AttributeDefinition) : Bool := d.type == .complex

/-- The first sub-attribute of the given name. -/
def sub? (d : AttributeDefinition) (name : String) : Option AttributeDefinition :=
  d.subAttributes.find? fun s => SameName s.name name

/-- What holds of a definition when it holds of its sub-attributes holds of every definition,
however deep. -/
@[elab_as_elim]
theorem inductionOn {motive : AttributeDefinition → Prop} (d : AttributeDefinition)
    (subs : ∀ d, (∀ sub ∈ d.subAttributes, motive sub) → motive d) : motive d :=
  subs d fun sub _ => inductionOn sub subs
termination_by d
decreasing_by
  have hmem := List.sizeOf_lt_of_mem ‹sub ∈ d.subAttributes›
  cases d
  simp only [AttributeDefinition.mk.sizeOf_spec] at hmem ⊢
  omega

end AttributeDefinition

/-- A schema document. -/
structure Schema where
  id : String
  name : String
  description : String := ""
  attributes : List AttributeDefinition

/-- The first attribute of a schema with the given name. -/
def Schema.attribute? (schema : Schema) (name : String) : Option AttributeDefinition :=
  schema.attributes.find? fun d => SameName d.name name

end Scim
