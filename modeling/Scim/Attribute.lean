import Scim.Descriptor
import Scim.Json.Basic
import Scim.Keyed

set_option autoImplicit false

/-!
# Attributes and their values

An attribute is a descriptor with a list of values.  A value is a JSON scalar or an entry, which
holds sub-attributes under pairwise different names.  Nothing here checks that the values fit the
descriptor: partial attributes are assembled freely and checked by `Scim.ResourceType.check`.

## Main definitions

* `Scim.Attribute`, `Scim.Value`, `Scim.Entry` — the tree.
* `Scim.Entry.get?`, `insert`, `erase`, `ofList` — an entry as a list keyed by name.
* `Scim.Attribute.beq`, `Scim.Value.beq`, `Scim.Entry.beq` — equality: entries regardless of the
  order of their sub-attributes, values of an attribute in order.
-/

namespace Scim

mutual

/-- One value of an attribute. -/
inductive Value where
  | simple (value : Json)
  | complex (entry : Entry)

/-- The sub-attributes of a complex value, in the order in which their names first appeared. -/
structure Entry where
  subAttributes : List Attribute

/-- An attribute of a resource or a sub-attribute of an entry. -/
structure Attribute where
  descriptor : Descriptor
  values : List Value

end

instance : Inhabited Value := ⟨.simple .null⟩

namespace Attribute

/-- The URI of the schema that owns an attribute. -/
def schema (a : Attribute) : String := a.descriptor.schema

/-- The name of an attribute. -/
def name (a : Attribute) : String := a.descriptor.name

/-- The key of an attribute among all attributes of a resource. -/
def key (a : Attribute) : List Char × List Char := a.descriptor.key

/-- The key of a sub-attribute in its entry. -/
def nameKey (a : Attribute) : List Char := caseKey a.name

/-- An attribute with one value. -/
def single (descriptor : Descriptor) (value : Value) : Attribute := ⟨descriptor, [value]⟩

/-- Whether an attribute may hold several values. -/
def isMultiValued (a : Attribute) : Bool := a.descriptor.isMultiValued

/-- Whether an attribute has the given schema and name. -/
def isNamed (a : Attribute) (schema name : String) : Bool :=
  SameName a.schema schema ∧ SameName a.name name

/-- The first value, which is the only one of a single-valued attribute. -/
def first? (a : Attribute) : Option Value := a.values.head?

end Attribute

namespace Entry

/-- The entry without sub-attributes. -/
def empty : Entry := ⟨[]⟩

/-- The sub-attribute with the given name. -/
def get? (e : Entry) (name : String) : Option Attribute :=
  Keyed.get? Attribute.nameKey (caseKey name) e.subAttributes

/-- Whether there is a sub-attribute with the given name. -/
def contains (e : Entry) (name : String) : Bool := (e.get? name).isSome

/-- Puts a sub-attribute into an entry.  The first component is the one it replaced. -/
def insert (e : Entry) (a : Attribute) : Option Attribute × Entry :=
  let r := Keyed.insert Attribute.nameKey a e.subAttributes
  (r.1, ⟨r.2⟩)

/-- Takes a sub-attribute out of an entry.  The first component is that sub-attribute. -/
def erase (e : Entry) (name : String) : Option Attribute × Entry :=
  let r := Keyed.erase Attribute.nameKey (caseKey name) e.subAttributes
  (r.1, ⟨r.2⟩)

/-- The entry with the given sub-attributes; of two with one name the later one stays. -/
def ofList (subs : List Attribute) : Entry := ⟨Keyed.ofList Attribute.nameKey subs⟩

/-- The number of sub-attributes. -/
def size (e : Entry) : Nat := e.subAttributes.length

/-- Whether there is no sub-attribute. -/
def isEmpty (e : Entry) : Bool := e.subAttributes.isEmpty

end Entry

/-! ## Equality -/

mutual

/-- Equality of values. -/
def Value.beq : Value → Value → Bool
  | .simple a, .simple b => a == b
  | .complex a, .complex b => Entry.beq a b
  | _, _ => false

/-- Entries are equal when they have equally many sub-attributes and the other has an equal one
for each name of the first. -/
def Entry.beq : Entry → Entry → Bool
  | ⟨as⟩, ⟨bs⟩ => as.length == bs.length && Entry.allFound as bs

/-- Whether each sub-attribute of the first list has an equal one under its name in the second. -/
def Entry.allFound : List Attribute → List Attribute → Bool
  | [], _ => true
  | a :: as, bs =>
    (match Keyed.get? Attribute.nameKey a.nameKey bs with
      | some b => Attribute.beq a b
      | none => false) &&
      Entry.allFound as bs

/-- Attributes are equal when they have the same schema and name and equal values in the same
order. -/
def Attribute.beq : Attribute → Attribute → Bool
  | ⟨d, vs⟩, b => (d.key == b.descriptor.key) && Value.beqList vs b.values

/-- Equality of lists of values. -/
def Value.beqList : List Value → List Value → Bool
  | [], [] => true
  | v :: vs, w :: ws => Value.beq v w && Value.beqList vs ws
  | _, _ => false

end

instance : BEq Value := ⟨Value.beq⟩

instance : BEq Entry := ⟨Entry.beq⟩

instance : BEq Attribute := ⟨Attribute.beq⟩

/-! ## Parts of values -/

namespace Value

/-- A string value. -/
def string (text : String) : Value := .simple (.string text)

/-- The entry of a complex value. -/
def entry? : Value → Option Entry
  | .complex e => some e
  | .simple _ => none

/-- The scalar of a simple value. -/
def simple? : Value → Option Json
  | .simple j => some j
  | .complex _ => none

/-- The text of a simple string value. -/
def string? (v : Value) : Option String := v.simple?.bind Json.string?

/-- The truth value of a simple Boolean value. -/
def bool? (v : Value) : Option Bool := v.simple?.bind Json.bool?

/-- The sub-attribute of a complex value with the given name. -/
def sub? (v : Value) (name : String) : Option Attribute := v.entry?.bind (Entry.get? · name)

/-- Whether a value is an entry. -/
def isComplex (v : Value) : Bool := v.entry?.isSome

end Value

end Scim
