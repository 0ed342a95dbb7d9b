import Scim.AttributePath
import Scim.Keyed

set_option autoImplicit false

/-!
# Selection of attributes

A comparison of two resources may be restricted to some attributes and sub-attributes.  A
selector is built once from attribute paths.  An attribute named without a sub-attribute is
selected whole; naming sub-attributes restricts it to exactly those.

## Main definitions

* `Scim.Selector` — everything, or an index of what was named.
* `Scim.Selector.ofPaths`, `ofTexts` — the selector of some paths; no path at all selects
  everything.
* `Scim.Selector.matchesAttribute`, `matchesSub`, `hasSubFilter` — the questions a selector
  answers.
-/

namespace Scim

/-- What was named of one attribute.  Schema, name and sub-attributes are
case keys. -/
structure Selection where
  schema : List Char
  name : List Char
  whole : Bool
  subs : List (List Char)

namespace Selection

/-- The key of a selection in the index. -/
def key (selection : Selection) : List Char × List Char :=
  (selection.schema, selection.name)

/-- Adds to a selection what a path of the same attribute names. -/
def extend (selection : Selection) (sub : Option String) : Selection :=
  match sub with
  | none => { selection with whole := true }
  | some sub =>
    let k := caseKey sub
    if k ∈ selection.subs then selection
    else { selection with subs := selection.subs ++ [k] }

/-- Whether a sub-attribute belongs to a selection. -/
def includes (selection : Selection) (sub : String) : Bool :=
  selection.whole || selection.subs.contains (caseKey sub)

end Selection

/-- Which attributes take part in a comparison: all of them, or those of an index with one entry
per named attribute. -/
inductive Selector where
  | all
  | named (index : List Selection)

namespace Selector

/-- The index with one more path in it. -/
def extend (default : String) (index : List Selection) (path : AttributePath) :
    List Selection :=
  let schema := caseKey (path.schemaOr default)
  let name := caseKey path.name
  let known := (Keyed.get? Selection.key (schema, name) index).getD ⟨schema, name, false, []⟩
  (Keyed.insert Selection.key (known.extend path.sub) index).2

/-- The selector of some paths; those without schema belong to the schema `default`. -/
def ofPaths (default : String) (paths : List AttributePath) : Selector :=
  match paths with
  | [] => .all
  | _ => .named (paths.foldl (extend default) [])

/-- The selector of some written paths, or the error of the first that is malformed. -/
def ofTexts (default : String) (texts : List String) : Except PathError Selector := do
  return ofPaths default (← texts.mapM AttributePath.parse)

/-- Whether a selector selects everything. -/
def isUnrestricted : Selector → Bool
  | .all => true
  | .named _ => false

/-- The selection of one attribute in the index. -/
def selection? (selector : Selector) (schema name : String) : Option Selection :=
  match selector with
  | .all => none
  | .named index => Keyed.get? Selection.key (caseKey schema, caseKey name) index

/-- Whether an attribute takes part, with all or some of its sub-attributes. -/
def matchesAttribute (selector : Selector) (schema name : String) : Bool :=
  selector.isUnrestricted || (selector.selection? schema name).isSome

/-- Whether a sub-attribute takes part. -/
def matchesSub (selector : Selector) (schema name sub : String) : Bool :=
  selector.isUnrestricted ||
    match selector.selection? schema name with
    | some selection => selection.includes sub
    | none => false

/-- Whether an attribute takes part through named sub-attributes only. -/
def hasSubFilter (selector : Selector) (schema name : String) : Bool :=
  match selector.selection? schema name with
  | some selection => !selection.whole
  | none => false

end Selector

end Scim
