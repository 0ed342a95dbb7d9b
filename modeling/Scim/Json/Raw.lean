import Scim.Json.Basic

set_option autoImplicit false

/-!
# JSON as it was written

A reader that skips part of a document must not judge the skipped part: a number that is too
large, an escaped half of a surrogate pair or a deep nest are errors only where the value is
kept.  A `Scim.Json.Raw` is what the grammar alone says of a text.  It records such a leaf as
`none` and keeps every member of an object, repeated keys included, in written order.

## Main definitions

* `Scim.Json.Raw` — the tree of a JSON text before its leaves are judged.
* `Scim.Json.Raw.toJson?` — the value of a tree that is kept as a whole.
* `Scim.Json.toRaw` — a value as a tree.
-/

namespace Scim.Json

/-- The tree of a JSON text.  A number without a value in range and a string that is not a
sequence of characters are `none`. -/
inductive Raw where
  | null
  | bool (value : Bool)
  | number (value : Option Number)
  | string (value : Option String)
  | array (items : List Raw)
  | object (members : List (Option String × Raw))

namespace Raw

/-- How many containers may enclose each other in a text whose value is kept. -/
def nestingLimit : Nat := 127

mutual

/-- The value of a tree, when every leaf has one and at most `room` containers enclose each
other. -/
def toJson? (room : Nat) : Raw → Option Json
  | .null => some .null
  | .bool b => some (.bool b)
  | .number value => value.map .number
  | .string value => value.map .string
  | .array items => if room = 0 then none else (items? (room - 1) items).map .array
  | .object members => if room = 0 then none else (members? (room - 1) members).map ofMembers

/-- The values of the items of an array. -/
def items? (room : Nat) : List Raw → Option (List Json)
  | [] => some []
  | x :: xs =>
    match toJson? room x, items? room xs with
    | some v, some vs => some (v :: vs)
    | _, _ => none

/-- The members of an object, in written order. -/
def members? (room : Nat) : List (Option String × Raw) → Option (List (String × Json))
  | [] => some []
  | (key, x) :: xs =>
    match key, toJson? room x, members? room xs with
    | some k, some v, some vs => some ((k, v) :: vs)
    | _, _, _ => none

end

/-- The text of a string leaf. -/
def string? : Raw → Option String
  | .string value => value
  | _ => none

/-- The truth value of a Boolean leaf. -/
def bool? : Raw → Option Bool
  | .bool b => some b
  | _ => none

end Raw

mutual

/-- A value as the tree of a text that writes it. -/
def toRaw : Json → Raw
  | .null => .null
  | .bool b => .bool b
  | .number n => .number (some n)
  | .string s => .string (some s)
  | .array items => .array (toRawItems items)
  | .object members => .object (toRawMembers members)

/-- The trees of the items of an array. -/
def toRawItems : List Json → List Raw
  | [] => []
  | x :: xs => toRaw x :: toRawItems xs

/-- The trees of the members of an object. -/
def toRawMembers : List (String × Json) → List (Option String × Raw)
  | [] => []
  | (k, x) :: xs => (some k, toRaw x) :: toRawMembers xs

end

mutual

/-- The largest number of containers in a value that enclose each other. -/
def depth : Json → Nat
  | .array items => depthItems items + 1
  | .object members => depthMembers members + 1
  | _ => 0

/-- The depth of the deepest item of an array. -/
def depthItems : List Json → Nat
  | [] => 0
  | x :: xs => max (depth x) (depthItems xs)

/-- The depth of the deepest member of an object. -/
def depthMembers : List (String × Json) → Nat
  | [] => 0
  | (_, x) :: xs => max (depth x) (depthMembers xs)

end

end Scim.Json
