set_option autoImplicit false

/-!
# Date-times of RFC 3339

A date-time is written `YYYY-MM-DD`, a separator, `hh:mm:ss` with an optional fraction, and an
offset from universal time.

## Main definitions

* `Scim.DateTime.isValid` — whether a text is such a date-time, with nothing before or behind it.
-/

namespace Scim.DateTime

/-- The number that a list of decimal digits writes; `none` when a character is no digit. -/
def digits? (cs : List Char) : Option Nat :=
  if cs.all Char.isDigit then
    some (cs.foldl (fun n c => n * 10 + (c.toNat - '0'.toNat)) 0)
  else none

/-- Whether digits write a number in a range. -/
def within (low high : Nat) (cs : List Char) : Bool :=
  match digits? cs with
  | some n => low ≤ n && n ≤ high
  | none => false

/-- Whether February has 29 days in a year. -/
def isLeapYear (year : Nat) : Bool :=
  year % 4 = 0 && (year % 100 != 0 || year % 400 = 0)

/-- The number of days of a month; no month beyond December has a day. -/
def daysIn (year month : Nat) : Nat :=
  if month = 2 then if isLeapYear year then 29 else 28
  else if month ∈ [4, 6, 9, 11] then 30
  else if 1 ≤ month ∧ month ≤ 12 then 31
  else 0

/-- Whether digits write a day of the calendar. -/
def isDate (year month day : List Char) : Bool :=
  match digits? year, digits? month, digits? day with
  | some y, some m, some d => 1 ≤ d && d ≤ daysIn y m
  | _, _, _ => false

/-- Whether digits write a time of day.  A second `60` is accepted in every minute. -/
def isTime (hour minute second : List Char) : Bool :=
  within 0 23 hour && within 0 59 minute && within 0 60 second

/-- Whether a text is an offset: `Z`, or a sign with hours and minutes.  The sign may be the
mathematical minus sign. -/
def isOffset : List Char → Bool
  | ['Z'] => true
  | ['z'] => true
  | [sign, h₁, h₂, ':', m₁, m₂] =>
    (sign = '+' || sign = '-' || sign = '\u2212') &&
      within 0 23 [h₁, h₂] && within 0 59 [m₁, m₂]
  | _ => false

/-- Whether a text is an offset behind an optional fraction of a second. -/
def isFractionAndOffset : List Char → Bool
  | '.' :: rest =>
    !(rest.takeWhile Char.isDigit).isEmpty && isOffset (rest.dropWhile Char.isDigit)
  | cs => isOffset cs

/-- Whether a text is a date-time. -/
def isValid (text : String) : Bool :=
  match text.toList with
  | y₁ :: y₂ :: y₃ :: y₄ :: '-' :: m₁ :: m₂ :: '-' :: d₁ :: d₂ :: separator ::
      h₁ :: h₂ :: ':' :: n₁ :: n₂ :: ':' :: s₁ :: s₂ :: rest =>
    (separator = 'T' || separator = 't' || separator = ' ') &&
      isDate [y₁, y₂, y₃, y₄] [m₁, m₂] [d₁, d₂] &&
      isTime [h₁, h₂] [n₁, n₂] [s₁, s₂] && isFractionAndOffset rest
  | _ => false

end Scim.DateTime
