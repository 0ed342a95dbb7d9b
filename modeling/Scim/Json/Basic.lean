import Scim.Number.Literal

set_option autoImplicit false

/-!
# JSON values

## Main definitions

* `Scim.Json` — a JSON value; the members of an object are listed by ascending key.
* `Scim.Json.put` — adds a member to an object's list or replaces the one of the same key.
* `Scim.Json.ofMembers` — the object that a sequence of members makes, the last of a key winning.
* `Scim.Json.beq` — equality of values.
* `Scim.Json.kind` — the name of a value's kind, as error messages write it.
-/

namespace Scim

/-- A JSON value.  Objects built by this library list their members by strictly ascending key, in
the order of code points. -/
inductive Json where
  | null
  | bool (value : Bool)
  | number (value : Number)
  | string (value : String)
  | array (items : List Json)
  | object (members : List (String × Json))

namespace Json

instance : Inhabited Json := ⟨.null⟩

mutual

/-- Equality of JSON values: numbers compare by `Number.beq`, everything else by parts. -/
protected def beq : Json → Json → Bool
  | .null, .null => true
  | .bool a, .bool b => a == b
  | .number a, .number b => a == b
  | .string a, .string b => a == b
  | .array a, .array b => beqItems a b
  | .object a, .object b => beqMembers a b
  | _, _ => false

/-- Equality of arrays, item by item. -/
def beqItems : List Json → List Json → Bool
  | [], [] => true
  | x :: xs, y :: ys => Json.beq x y && beqItems xs ys
  | _, _ => false

/-- Equality of objects, member by member. -/
def beqMembers : List (String × Json) → List (String × Json) → Bool
  | [], [] => true
  | (k, x) :: xs, (l, y) :: ys => k == l && Json.beq x y && beqMembers xs ys
  | _, _ => false

end

instance : BEq Json := ⟨Json.beq⟩

/-- Puts a member into its place in an ascending list; a member with the same key is replaced. -/
def put (key : String) (value : Json) : List (String × Json) → List (String × Json)
  | [] => [(key, value)]
  | (k, v) :: rest =>
    if key = k then (key, value) :: rest
    else if key < k then (key, value) :: (k, v) :: rest
    else (k, v) :: put key value rest

/-- Puts all members of the second list into the first, in order. -/
def putAll (members : List (String × Json)) (more : List (String × Json)) :
    List (String × Json) :=
  more.foldl (fun kept m => put m.1 m.2 kept) members

/-- The object with the given members; the last of several members with one key counts. -/
def ofMembers (members : List (String × Json)) : Json := .object (putAll [] members)

/-- The kind of a value, as error messages name it. -/
def kind : Json → String
  | .null => "null"
  | .bool _ => "boolean"
  | .number (.integer _) => "integer"
  | .number (.decimal _) => "decimal"
  | .string _ => "string"
  | .array _ => "array"
  | .object _ => "object"

/-- Whether a value is `null`. -/
def isNull : Json → Bool
  | .null => true
  | _ => false

/-- The text of a string value. -/
def string? : Json → Option String
  | .string s => some s
  | _ => none

/-- The truth value of a Boolean. -/
def bool? : Json → Option Bool
  | .bool b => some b
  | _ => none

/-- The items of an array. -/
def array? : Json → Option (List Json)
  | .array items => some items
  | _ => none

/-- The members of an object. -/
def object? : Json → Option (List (String × Json))
  | .object members => some members
  | _ => none

/-- The member of an object with exactly the given key. -/
def member? (value : Json) (key : String) : Option Json :=
  value.object?.bind (List.lookup key)

end Json

end Scim
