import Scim.Json.Raw

set_option autoImplicit false

/-!
# Reading JSON text

The grammar of JSON, without any leniency: no leading zeros, no trailing commas, no control
characters inside strings, and nothing but blanks behind the value.

## Main definitions

* `Scim.Json.Raw.ofText?` — the tree of a text, `none` when the text is not JSON.
* `Scim.Json.ofText?` — the value of a text that is kept as a whole.
-/

namespace Scim.Json

namespace Parser

/-- Blanks between tokens. -/
def isBlank (c : Char) : Bool := c = ' ' || c = '\n' || c = '\t' || c = '\r'

/-- The rest of a text behind its leading blanks. -/
def skipBlanks (cs : List Char) : List Char := cs.dropWhile isBlank

/-! ## Strings -/

/-- The value of a hexadecimal digit. -/
def hexDigit? (c : Char) : Option Nat :=
  if '0' ≤ c ∧ c ≤ '9' then some (c.toNat - '0'.toNat)
  else if 'a' ≤ c ∧ c ≤ 'f' then some (c.toNat - 'a'.toNat + 10)
  else if 'A' ≤ c ∧ c ≤ 'F' then some (c.toNat - 'A'.toNat + 10)
  else none

/-- The value of four hexadecimal digits. -/
def hex4? (a b c d : Char) : Option Nat := do
  return (((← hexDigit? a) * 16 + (← hexDigit? b)) * 16 + (← hexDigit? c)) * 16 + (← hexDigit? d)

/-- The character that a one-letter escape stands for. -/
def escaped? : Char → Option Char
  | '"' => some '"'
  | '\\' => some '\\'
  | '/' => some '/'
  | 'b' => some '\x08'
  | 'f' => some '\x0c'
  | 'n' => some '\n'
  | 'r' => some '\r'
  | 't' => some '\t'
  | _ => none

/-- Reads the body of a string up to its closing quote.  The body comes as a list of code values,
in which the two halves of a surrogate pair are still apart; `seen` holds those read so far, the
last one first. -/
def stringBody? (seen : List Nat) : List Char → Option (List Nat × List Char)
  | '"' :: rest => some (seen.reverse, rest)
  | '\\' :: 'u' :: a :: b :: c :: d :: rest =>
    match hex4? a b c d with
    | some n => stringBody? (n :: seen) rest
    | none => none
  | '\\' :: c :: rest =>
    match escaped? c with
    | some e => stringBody? (e.toNat :: seen) rest
    | none => none
  | c :: rest => if c.toNat < 0x20 then none else stringBody? (c.toNat :: seen) rest
  | [] => none

/-- Whether a code value is the first half of a surrogate pair. -/
def isHighHalf (n : Nat) : Bool := 0xD800 ≤ n && n ≤ 0xDBFF

/-- Whether a code value is the second half of a surrogate pair. -/
def isLowHalf (n : Nat) : Bool := 0xDC00 ≤ n && n ≤ 0xDFFF

/-- The characters of a list of code values.  A half of a surrogate pair that stands alone has
none.  `seen` holds the characters so far, the last one first. -/
def joinHalves? (seen : List Char) : List Nat → Option (List Char)
  | [] => some seen.reverse
  | [n] => if isHighHalf n || isLowHalf n then none else some ((Char.ofNat n :: seen).reverse)
  | n :: m :: rest =>
    if isHighHalf n then
      if isLowHalf m then
        joinHalves? (Char.ofNat (0x10000 + (n - 0xD800) * 0x400 + (m - 0xDC00)) :: seen) rest
      else none
    else if isLowHalf n then none
    else joinHalves? (Char.ofNat n :: seen) (m :: rest)

/-- Reads a string behind its opening quote. -/
def string? (cs : List Char) : Option (Option String × List Char) :=
  (stringBody? [] cs).map fun (codes, rest) => ((joinHalves? [] codes).map String.ofList, rest)

/-! ## Numbers -/

/-- The digits at the front of a text, as numbers, and the rest. -/
def digits (cs : List Char) : List Nat × List Char :=
  ((cs.takeWhile Char.isDigit).map fun c => c.toNat - '0'.toNat, cs.dropWhile Char.isDigit)

/-- Reads the digits before the point: a single zero, or digits that start with another one. -/
def wholePart? : List Char → Option (List Nat × List Char)
  | '0' :: rest => some ([0], rest)
  | cs =>
    let d := digits cs
    if d.1.isEmpty then none else some d

/-- Reads the digits behind a point, if there is a point. -/
def fractionPart? : List Char → Option (List Nat × List Char)
  | '.' :: rest =>
    let d := digits rest
    if d.1.isEmpty then none else some d
  | cs => some ([], cs)

/-- Reads the digits of an exponent behind its sign. -/
def exponentDigits? (negative : Bool) (cs : List Char) : Option (Option Int × List Char) :=
  let d := digits cs
  let n : Nat := d.1.foldl (fun acc x => acc * 10 + x) 0
  if d.1.isEmpty then none else some (some (if negative then -n else n), d.2)

/-- Reads an exponent, if there is one. -/
def exponentPart? : List Char → Option (Option Int × List Char)
  | c :: rest =>
    if c = 'e' ∨ c = 'E' then
      match rest with
      | '+' :: rest => exponentDigits? false rest
      | '-' :: rest => exponentDigits? true rest
      | rest => exponentDigits? false rest
    else some (none, c :: rest)
  | [] => some (none, [])

/-- Reads a number without its sign. -/
def magnitude? (negative : Bool) (cs : List Char) : Option (NumberLiteral × List Char) := do
  let (whole, rest) ← wholePart? cs
  let (fraction, rest) ← fractionPart? rest
  let (exponent, rest) ← exponentPart? rest
  return (⟨negative, whole, fraction, exponent⟩, rest)

/-- Reads a number. -/
def number? : List Char → Option (NumberLiteral × List Char)
  | '-' :: rest => magnitude? true rest
  | cs => magnitude? false cs

/-! ## Values -/

mutual

/-- Reads a value; `fuel` bounds the number of nested calls. -/
def value? : Nat → List Char → Option (Raw × List Char)
  | 0, _ => none
  | fuel + 1, cs =>
    match skipBlanks cs with
    | 'n' :: 'u' :: 'l' :: 'l' :: rest => some (.null, rest)
    | 't' :: 'r' :: 'u' :: 'e' :: rest => some (.bool true, rest)
    | 'f' :: 'a' :: 'l' :: 's' :: 'e' :: rest => some (.bool false, rest)
    | '"' :: rest => (string? rest).map fun (s, rest) => (.string s, rest)
    | '[' :: rest =>
      match skipBlanks rest with
      | ']' :: rest => some (.array [], rest)
      | rest => (items? fuel rest).map fun (xs, rest) => (.array xs, rest)
    | '{' :: rest =>
      match skipBlanks rest with
      | '}' :: rest => some (.object [], rest)
      | rest => (members? fuel rest).map fun (xs, rest) => (.object xs, rest)
    | cs => (number? cs).map fun (lit, rest) => (.number lit.value?, rest)

/-- Reads the items of an array that has at least one, and its closing bracket. -/
def items? : Nat → List Char → Option (List Raw × List Char)
  | 0, _ => none
  | fuel + 1, cs => do
    let (x, rest) ← value? fuel cs
    match skipBlanks rest with
    | ',' :: rest => (items? fuel rest).map fun (xs, rest) => (x :: xs, rest)
    | ']' :: rest => some ([x], rest)
    | _ => none

/-- Reads the members of an object that has at least one, and its closing brace. -/
def members? : Nat → List Char → Option (List (Option String × Raw) × List Char)
  | 0, _ => none
  | fuel + 1, cs =>
    match skipBlanks cs with
    | '"' :: rest => do
      let (key, rest) ← string? rest
      match skipBlanks rest with
      | ':' :: rest =>
        let (x, rest) ← value? fuel rest
        match skipBlanks rest with
        | ',' :: rest => (members? fuel rest).map fun (xs, rest) => ((key, x) :: xs, rest)
        | '}' :: rest => some ([(key, x)], rest)
        | _ => none
      | _ => none
    | _ => none

end

end Parser

/-- The tree of a JSON text.  Each call of the reader that encloses another one has a character
of its own or is the only call around such a one, so twice the length of the text is fuel
enough. -/
def Raw.ofText? (text : String) : Option Raw :=
  let cs := text.toList
  match Parser.value? (2 * cs.length + 2) cs with
  | some (tree, rest) => if (Parser.skipBlanks rest).isEmpty then some tree else none
  | none => none

/-- The value of a JSON text.  The containers of the text may enclose each other up to
`Raw.nestingLimit`. -/
def ofText? (text : String) : Option Json :=
  (Raw.ofText? text).bind (Raw.toJson? Raw.nestingLimit)

end Scim.Json
