import Scim.AttributeMap
import Scim.Change
import Scim.ResourceType

set_option autoImplicit false

/-!
# Differences between resources

The difference of two resources of one type lists the paths to delete and the attributes to add
or replace so that the source becomes the target, as far as they are selected.  Deletions come
without repetitions, those of attributes that only the source has first.  Updates of attributes
that only the target has come before those of common ones.

## Main definitions

* `Scim.Diff` — a resource type with deletions and updates.
* `Scim.Diff.between` — the difference of two attribute maps.
* `Scim.Comparison` — which attributes to compare, as a caller configures it.
-/

namespace Scim

/-- What turns one resource of a type into another. -/
structure Diff where
  type : ResourceType
  deletions : List AttributePath
  updates : List Attribute

namespace Diff

/-- The selected attributes of the source that the target lacks. -/
def sourceOnly (s : Selector) (source target : AttributeMap) : List Attribute :=
  source.toList.filter fun a =>
    s.matchesAttribute a.schema a.name && !target.contains a.schema a.name

/-- The selected attributes of the source with those of the target under the same key. -/
def common (s : Selector) (source target : AttributeMap) : List (Attribute × Attribute) :=
  (source.toList.filter fun a => s.matchesAttribute a.schema a.name).filterMap fun a =>
    (target.get? a.schema a.name).map fun b => (a, b)

/-- The selected attributes of the target that the source lacks. -/
def targetOnly (s : Selector) (source target : AttributeMap) : List Attribute :=
  sourceOnly s target source

/-- The difference of two attribute maps.  It has a defect when an entry must be marked for
removal and the attribute has no sub-attribute for the mark. -/
def between (type : ResourceType) (source target : AttributeMap) (s : Selector) :
    Except Defect Diff := do
  let changed ← (common s source target).mapM fun p => Change.ofCommon type.core s p.1 p.2
  let removed := (sourceOnly s source target).map (Change.ofRemoved type.core s)
  let added := (targetOnly s source target).map (Change.ofAdded s)
  return {
    type
    deletions := Keyed.distinct ((removed ++ changed).flatMap Change.deletions)
    updates := (added ++ changed).flatMap Change.updates }

/-- The written paths of the deletions. -/
def deletedPaths (d : Diff) : List String := d.deletions.map AttributePath.render

/-- Whether source and target agree on everything that is selected. -/
def isEmpty (d : Diff) : Bool := d.deletions.isEmpty && d.updates.isEmpty

end Diff

/-- Which attributes to compare: those of a selector, or else those named by written paths. -/
structure Comparison where
  paths : List String := []
  selector : Option Selector := none

namespace Comparison

/-- Compares one more attribute. -/
def withPath (c : Comparison) (path : String) : Comparison :=
  { c with paths := c.paths ++ [path] }

/-- Compares more attributes. -/
def withPaths (c : Comparison) (paths : List String) : Comparison :=
  { c with paths := c.paths ++ paths }

/-- Compares what a selector selects, whatever paths are named. -/
def withSelector (c : Comparison) (selector : Selector) : Comparison :=
  { c with selector := some selector }

/-- The selector of a comparison of resources with the given core schema. -/
def select (c : Comparison) (core : String) : Except PathError Selector :=
  match c.selector with
  | some selector => .ok selector
  | none => Selector.ofTexts core c.paths

end Comparison

end Scim
