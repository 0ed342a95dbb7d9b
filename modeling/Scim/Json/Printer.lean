import Scim.Json.Basic
import Scim.Number.Shortest

set_option autoImplicit false

/-!
# Writing JSON text

## Main definitions

* `Scim.Json.render` — a value as text without blanks.
-/

namespace Scim

/-- The written form of a number. -/
def Number.render : Number → String
  | .integer n => toString n
  | .decimal x => x.render

namespace Json

namespace Printer

/-- A character between quotes: quotes, backslashes and control characters are escaped. -/
def character (c : Char) : List Char :=
  if c = '"' then ['\\', '"']
  else if c = '\\' then ['\\', '\\']
  else if c.toNat < 0x20 then
    '\\' :: 'u' :: '0' :: '0' ::
      [Nat.digitChar (c.toNat / 16), Nat.digitChar (c.toNat % 16)]
  else [c]

/-- A string between quotes. -/
def quoted (s : String) : String :=
  "\"" ++ String.ofList (s.toList.flatMap character) ++ "\""

end Printer

mutual

/-- A value as text without blanks. -/
def render : Json → String
  | .null => "null"
  | .bool true => "true"
  | .bool false => "false"
  | .number n => n.render
  | .string s => Printer.quoted s
  | .array items => "[" ++ String.intercalate "," (renderItems items) ++ "]"
  | .object members => "\x7b" ++ String.intercalate "," (renderMembers members) ++ "\x7d"

/-- The texts of the items of an array. -/
def renderItems : List Json → List String
  | [] => []
  | x :: xs => render x :: renderItems xs

/-- The texts of the members of an object. -/
def renderMembers : List (String × Json) → List String
  | [] => []
  | (k, x) :: xs => (Printer.quoted k ++ ":" ++ render x) :: renderMembers xs

end

end Json

end Scim
