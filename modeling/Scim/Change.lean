import Scim.Attribute
import Scim.Selector

set_option autoImplicit false

/-!
# The change of one attribute

What has to be deleted and updated so that one attribute of a source resource becomes that of a
target resource, as far as the attribute is selected.

* An attribute of the source only is deleted, one of the target only is added.
* Of a single-valued complex attribute only the sub-attributes that differ are mentioned.
* The values of a multi-valued attribute are compared as sets.  An entry that has to go is
  repeated with the sub-attribute `operation`; if all have to go, the attribute is deleted as a
  whole.  Simple values cannot be marked, so that any removal replaces the attribute.

## Main definitions

* `Scim.Change` — deletions and updates.
* `Scim.Defect` — a resource type lacks what a PATCH body needs.
* `Scim.Keyed.reconcile` — what two lists do not share.
* `Scim.Change.ofRemoved`, `ofAdded`, `ofCommon` — the change of one attribute.
-/

namespace Scim

/-- Paths to delete and attributes to add or replace. -/
structure Change where
  deletions : List AttributePath
  updates : List Attribute

/-- What a caller relied on and a resource type or attribute lacks. -/
inductive Defect where
  /-- A multi-valued complex attribute has no sub-attribute `operation`. -/
  | missingOperation (name schema : String)
  /-- The core schema has no attribute `meta`. -/
  | missingMeta (resourceType core : String)
  /-- The attribute `meta` has no sub-attribute for the deletions. -/
  | missingDeletionList (resourceType : String)
  /-- The first value of an attribute without values. -/
  | noFirstValue
deriving DecidableEq, Repr

/-- The text of a defect. -/
def Defect.message : Defect → String
  | .missingOperation name schema =>
    s!"multi-valued attribute '{name}' of schema '{schema}' has no '{operationName}' " ++
      "sub-attribute; the schema registry must define it for every multi-valued complex attribute"
  | .missingMeta type core =>
    s!"resource type '{type}' has no '{metaName}' attribute in schema '{core}'"
  | .missingDeletionList type =>
    s!"'{metaName}' attribute of resource type '{type}' has no '{deletionListName}' sub-attribute"
  | .noFirstValue => "index out of bounds: the len is 0 but the index is 0"

/-- The first value, which every attribute of a resource has. -/
def Attribute.first (a : Attribute) : Except Defect Value :=
  match a.values with
  | v :: _ => .ok v
  | [] => .error .noFirstValue

/-- Compares two lists without repetitions as sets.  The first component holds what only the
first list has, the second what only the second has. -/
def Keyed.reconcile {β : Type} [BEq β] (gone : List β) : List β → List β × List β
  | [] => (gone, [])
  | y :: ys =>
    if gone.contains y then reconcile (gone.eraseP (· == y)) ys
    else
      let rest := reconcile gone ys
      (rest.1, y :: rest.2)

namespace Selector

/-- The selected sub-attributes of a value of an attribute. -/
def pick (s : Selector) (a : Attribute) : Value → List Attribute
  | .complex e => e.subAttributes.filter fun sub => s.matchesSub a.schema a.name sub.name
  | .simple _ => []

/-- The selected part of a complex value, unless it is empty. -/
def pickEntry? (s : Selector) (a : Attribute) (v : Value) : Option Entry :=
  let e := Entry.ofList (s.pick a v)
  if e.isEmpty then none else some e

/-- The selected parts of all values of an attribute, in order. -/
def pickEntries (s : Selector) (a : Attribute) : List Entry := a.values.filterMap (s.pickEntry? a)

end Selector

/-- The sub-attribute that marks an entry for removal. -/
def Descriptor.deleteMarker (d : Descriptor) : Except Defect Attribute :=
  match d.sub? operationName with
  | some operation => .ok (.single operation (.string deleteOperation))
  | none => .error (.missingOperation d.name d.schema)

namespace Change

/-- No change. -/
def unchanged : Change := ⟨[], []⟩

/-- The path of an attribute or of one of its sub-attributes, in a resource with the given core
schema. -/
def path (core : String) (a : Attribute) (sub : Option String) : AttributePath :=
  (AttributePath.ofParts (some a.schema) a.name sub).relativeTo core

/-- The deletions that an attribute of the source only makes.  A simple attribute, and a
multi-valued one that is selected whole, goes by name.  Otherwise each selected sub-attribute
goes, except that the normative ones of a multi-valued attribute go with their entries; when no
others are selected, the attribute goes by name. -/
def deletionsOf (core : String) (s : Selector) (a : Attribute) : List AttributePath :=
  let d := a.descriptor
  if !d.isComplex || (d.isMultiValued && !s.hasSubFilter a.schema a.name) then
    [path core a none]
  else
    let picked := a.values.flatMap (s.pick a)
    let listed := if d.isMultiValued then picked.filter fun sub => !isNormative sub.name else picked
    if d.isMultiValued && listed.isEmpty && !picked.isEmpty then [path core a none]
    else listed.map fun sub => path core a (some sub.name)

/-- The change of an attribute of the source only. -/
def ofRemoved (core : String) (s : Selector) (a : Attribute) : Change :=
  ⟨deletionsOf core s a, []⟩

/-- An update with the given entries, unless there are none. -/
def updateWith (d : Descriptor) (values : List Value) : List Attribute :=
  if values.isEmpty then [] else [⟨d, values⟩]

/-- The change of an attribute of the target only: the attribute, reduced to what is selected. -/
def ofAdded (s : Selector) (a : Attribute) : Change :=
  if a.descriptor.isComplex then
    ⟨[], updateWith a.descriptor ((s.pickEntries a).map .complex)⟩
  else ⟨[], [a]⟩

/-- The change of a multi-valued simple attribute. -/
def ofScalars (core : String) (source target : Attribute) : Change :=
  let r := Keyed.reconcile (Keyed.distinct source.values) (Keyed.distinct target.values)
  if r.1.isEmpty then ⟨[], updateWith source.descriptor r.2⟩
  else ⟨[path core source none], [target]⟩

/-- The change of a multi-valued complex attribute. -/
def ofEntries (core : String) (s : Selector) (source target : Attribute) :
    Except Defect Change := do
  let d := source.descriptor
  let old := Keyed.distinct (s.pickEntries source)
  let r := Keyed.reconcile old (Keyed.distinct (s.pickEntries target))
  if !old.isEmpty && r.1.length == old.length then
    return ⟨[path core source none], updateWith d (r.2.map .complex)⟩
  else
    let marked ← r.1.mapM fun e => do
      return (e.insert (← d.deleteMarker)).2
    return ⟨[], updateWith d ((marked ++ r.2).map .complex)⟩

/-- The change of a single-valued complex attribute with the given entries. -/
def ofEntry (core : String) (s : Selector) (source target : Attribute)
    (sourceEntry targetEntry : Entry) : Change :=
  let removed := (s.pick source (.complex sourceEntry)).filter fun sub =>
    !targetEntry.contains sub.name
  let changed := Entry.ofList <| (s.pick target (.complex targetEntry)).filter fun sub =>
    !(sourceEntry.get? sub.name == some sub)
  ⟨removed.map fun sub => path core source (some sub.name),
    if changed.isEmpty then [] else [.single target.descriptor (.complex changed)]⟩

/-- The change of a complex attribute that is not multi-valued. -/
def ofComplex (core : String) (s : Selector) (source target : Attribute) : Change :=
  match source.first?, target.first? with
  | some (.complex e), some (.complex f) => ofEntry core s source target e f
  | some _, some _ => ⟨[], [target]⟩
  | some _, none => ofRemoved core s source
  | none, _ => ofAdded s target

/-- The change of an attribute that source and target both have. -/
def ofCommon (core : String) (s : Selector) (source target : Attribute) :
    Except Defect Change :=
  let d := source.descriptor
  if source == target then .ok unchanged
  else if d.isMultiValued then
    if d.isComplex then ofEntries core s source target else .ok (ofScalars core source target)
  else if d.isComplex then .ok (ofComplex core s source target)
  else .ok ⟨[], [target]⟩

end Change

end Scim
