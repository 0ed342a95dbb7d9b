import Scim.AttributeMap
import Scim.AttributePath

set_option autoImplicit false

/-!
# What a service provider does with a PATCH body

The paths that the body lists under `meta.attributes` are removed first.  Then the other
attributes of the body are applied one by one: a single value replaces the old one, where the
sub-attributes of an entry are merged into those of the old entry.  Of a multi-valued attribute
an entry marked for removal takes away all values that contain it, and any other value is added
unless it is there already.

## Main definitions

* `Scim.AttributeMap.remove` — removes what a path names.
* `Scim.Attribute.applyTo` — the values of an attribute after an update.
* `Scim.AttributeMap.update` — applies one attribute of a body.
* `Scim.AttributeMap.deletionPaths?` — the paths that a body lists for removal.
* `Scim.AttributeMap.patched?` — applies a body.
-/

namespace Scim

/-! ## Removal -/

namespace Value

/-- A value without one of its sub-attributes, unless nothing else is in it.  A simple value has
no sub-attributes and does not stay. -/
def withoutSub? (sub : String) : Value → Option Value
  | .simple _ => none
  | .complex e =>
    let rest := (e.erase sub).2
    if rest.isEmpty then none else some (.complex rest)

end Value

namespace AttributeMap

/-- Removes an attribute, or one sub-attribute from all its values.  A path without schema
belongs to the core schema. -/
def remove (core : String) (m : AttributeMap) (path : AttributePath) : AttributeMap :=
  let schema := path.schemaOr core
  match path.sub with
  | none => (m.erase schema path.name).2
  | some sub =>
    match m.erase schema path.name with
    | (none, rest) => rest
    | (some a, rest) =>
      let values := a.values.filterMap (Value.withoutSub? sub)
      if values.isEmpty then rest else (rest.insert { a with values }).2

end AttributeMap

/-! ## Updates -/

namespace Value

/-- What an entry that is marked for removal selects: the entry without its mark. -/
def removal? : Value → Option Entry
  | .simple _ => none
  | .complex e =>
    match (e.get? operationName).bind Attribute.first? with
    | some v => if v.string? = some deleteOperation then some (e.erase operationName).2 else none
    | none => none

/-- Whether a value is an entry with all sub-attributes of the given one. -/
def containsEntry (part : Entry) : Value → Bool
  | .simple _ => false
  | .complex e => part.subAttributes.all fun sub => e.get? sub.name == some sub

/-- The values of a multi-valued attribute after one value of an update. -/
def applyTo (values : List Value) (v : Value) : List Value :=
  match v.removal? with
  | some part => values.filter fun old => !old.containsEntry part
  | none => if values.any (· == v) then values else values ++ [v]

end Value

namespace Entry

/-- The sub-attributes of the second entry put into the first. -/
def merge (e changes : Entry) : Entry :=
  changes.subAttributes.foldl (fun merged sub => (merged.insert sub).2) e

end Entry

namespace Attribute

/-- The values of an attribute after an update, where `old` are its values before it. -/
def applyTo (update : Attribute) (old : List Value) : List Value :=
  if update.isMultiValued then update.values.foldl Value.applyTo old
  else
    match old.head?, update.first? with
    | some (.complex e), some (.complex changes) => [.complex (e.merge changes)]
    | _, _ => update.values

end Attribute

namespace AttributeMap

/-- Applies one attribute of a body.  An attribute without values goes. -/
def update (m : AttributeMap) (a : Attribute) : AttributeMap :=
  let old := match m.get? a.schema a.name with
    | some before => before.values
    | none => []
  let values := a.applyTo old
  if values.isEmpty then (m.erase a.schema a.name).2 else (m.insert { a with values }).2

/-! ## Whole bodies -/

/-- The texts that a body lists for removal; none of them when a listed value is no text. -/
def deletionTexts? (core : String) (body : AttributeMap) : Option (List String) :=
  match (body.get? core metaName).bind Attribute.first? with
  | none => some []
  | some v =>
    match v.sub? deletionListName with
    | none => some []
    | some list => list.values.mapM Value.string?

/-- The paths that a body lists for removal, if they are all well written. -/
def deletionPaths? (core : String) (body : AttributeMap) : Option (List AttributePath) := do
  (← deletionTexts? core body).mapM fun text => (AttributePath.parse text).toOption

/-- The attributes of a body other than the list of removals. -/
def updatesOf (core : String) (body : AttributeMap) : List Attribute :=
  body.toList.filter fun a => !a.isNamed core metaName

/-- Applies a body to the attributes of a resource with the given core schema, if the paths that
it lists for removal are well written. -/
def patched? (core : String) (m body : AttributeMap) : Option AttributeMap := do
  let paths ← deletionPaths? core body
  return (body.updatesOf core).foldl update (paths.foldl (remove core) m)

end AttributeMap

end Scim
