import Scim.CaseKey

set_option autoImplicit false

/-!
# Attribute paths

A path names an attribute, or one sub-attribute of it, in standard attribute notation:
`[schema:]attribute[.subAttribute]`.  The schema is everything before the last colon, so that it
may itself hold colons and points, as URNs do.

## Main definitions

* `Scim.AttributePath` — the parts of a path; `AttributePath.ofParts` builds one.
* `Scim.AttributePath.key` — the parts without regard to case, which decide equality and order.
* `Scim.AttributePath.render` — the written form.
* `Scim.AttributePath.parse` — reads a written path or says what is wrong with it.
* `Scim.PathError` — the reasons why a text is not a path.
-/

namespace Scim

/-- An attribute or a sub-attribute, with the schema that defines it when it is named. -/
structure AttributePath where
  schema : Option String
  name : String
  sub : Option String
deriving DecidableEq, Repr

/-- Why a text is not an attribute path. -/
inductive PathError where
  /-- The text is empty. -/
  | empty
  /-- Nothing stands before the last colon. -/
  | emptySchema (path : String)
  /-- The attribute has no name. -/
  | emptyAttribute (path : String)
  /-- A point is not followed by a name. -/
  | emptySubAttribute (path : String)
  /-- More than one point follows the schema. -/
  | tooManySeparators (token : String)
  /-- A name holds a character outside the grammar of names. -/
  | invalidCharacter (token : String) (character : Char)
deriving DecidableEq, Repr

/-- The text of an error. -/
def PathError.message : PathError → String
  | .empty => "attribute path is empty"
  | .emptySchema path => s!"empty schema in attribute path '{path}'"
  | .emptyAttribute path => s!"empty attribute name in attribute path '{path}'"
  | .emptySubAttribute path => s!"empty sub-attribute name in attribute path '{path}'"
  | .tooManySeparators token => s!"too many '.' separators in '{token}'"
  | .invalidCharacter token character => s!"invalid character '{character}' in '{token}'"

namespace AttributePath

/-- A path with the given parts; an empty schema counts as none. -/
def ofParts (schema : Option String) (name : String) (sub : Option String) : AttributePath :=
  ⟨schema.filter (· != ""), name, sub⟩

/-- The schema of a path, or `default` when it names none. -/
def schemaOr (path : AttributePath) (default : String) : String := path.schema.getD default

/-- The path without its schema when that is the given one. -/
def relativeTo (path : AttributePath) (default : String) : AttributePath :=
  match path.schema with
  | some schema => if SameName schema default then { path with schema := none } else path
  | none => path

/-! ## Equality and order -/

/-- The parts of a path without regard to case. -/
def key (path : AttributePath) : Option (List Char) × List Char × Option (List Char) :=
  (path.schema.map caseKey, caseKey path.name, path.sub.map caseKey)

/-- Paths are equal when their parts are the same names. -/
instance : BEq AttributePath := ⟨fun a b => a.key == b.key⟩

/-- Compares the schemas, then the attributes, then the sub-attributes, by code points without
regard to case.  A missing part comes first. -/
def order (a b : AttributePath) : Ordering :=
  (compare a.key.1 b.key.1).then
    ((compare a.key.2.1 b.key.2.1).then (compare a.key.2.2 b.key.2.2))

/-! ## The written form -/

/-- The written form of a path. -/
def render (path : AttributePath) : String :=
  let schema := match path.schema with
    | some schema => schema ++ ":"
    | none => ""
  let sub := match path.sub with
    | some sub => "." ++ sub
    | none => ""
  schema ++ path.name ++ sub

/-- The characters of names: letters and digits of ASCII, `_`, `-`, and `$` as in `$ref`. -/
def isNameCharacter (c : Char) : Bool := c.isAlphanum || c = '_' || c = '-' || c = '$'

/-- Splits a text at the last occurrence of a separator. -/
def splitLast? (separator : Char) : List Char → Option (List Char × List Char)
  | [] => none
  | c :: cs =>
    match splitLast? separator cs with
    | some (before, behind) => some (c :: before, behind)
    | none => if c = separator then some ([], cs) else none

/-- Accepts a name that is not empty and holds characters of names only. -/
def checkName (whenEmpty : PathError) (name : List Char) : Except PathError Unit :=
  if name.isEmpty then .error whenEmpty
  else
    match name.find? fun c => !isNameCharacter c with
    | some c => .error (.invalidCharacter (String.ofList name) c)
    | none => .ok ()

/-- Reads the part behind the schema.  `text` is the whole path, for errors. -/
def parseNames (text : String) (schema : Option String) (names : List Char) :
    Except PathError AttributePath := do
  let name := names.takeWhile (· != '.')
  match names.dropWhile (· != '.') with
  | [] =>
    checkName (.emptyAttribute text) name
    return ⟨schema, String.ofList name, none⟩
  | _ :: sub =>
    if sub.contains '.' then .error (.tooManySeparators (String.ofList names))
    else
      checkName (.emptyAttribute text) name
      checkName (.emptySubAttribute text) sub
      return ⟨schema, String.ofList name, some (String.ofList sub)⟩

/-- Reads a written path. -/
def parse (text : String) : Except PathError AttributePath :=
  if text.isEmpty then .error .empty
  else
    match splitLast? ':' text.toList with
    | some ([], _) => .error (.emptySchema text)
    | some (schema, names) => parseNames text (some (String.ofList schema)) names
    | none => parseNames text none text.toList

end AttributePath

end Scim
