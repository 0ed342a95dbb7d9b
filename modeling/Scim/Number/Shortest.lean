import Scim.Number.Binary64

set_option autoImplicit false

/-!
# The shortest decimal that reads back

A decimal number is written with the fewest significant digits that round to the number again,
and of two such decimals with the nearer one.  The search tries the two neighbours of the exact
value on the decimal grids of 1, 2, … 17 digits.

## Main definitions

* `Scim.Binary64.shortest` — digits and power of ten.
* `Scim.Binary64.render` — the written form, with at least one digit behind the point when no
  exponent is written.
-/

namespace Scim.Binary64

/-- The number of decimal digits of `n`. -/
def digitCount (n : Nat) : Nat := (Nat.toDigits 10 n).length

/-- The exponent of the leading digit of `num / den`. -/
def leadingExponent (num den : Nat) : Int :=
  if den ≤ num then (digitCount (num / den) : Int) - 1
  else -(digitCount ((num - 1 + den) / num - 1) : Int)

/-- The fraction `num / den` divided by `10 ^ k`. -/
def tenth (num den : Nat) (k : Int) : Nat × Nat :=
  (num * Nat.pow 10 (-k).toNat, den * Nat.pow 10 k.toNat)

/-- Whether `d · 10 ^ k` rounds to the magnitude of `x`. -/
def readsBack (x : Binary64) (d : Nat) (k : Int) : Bool :=
  ofRatio? x.negative (d * Nat.pow 10 k.toNat) (Nat.pow 10 (-k).toNat) == some x

/-- The decimal with `digits` significant digits that reads back as `x`, the nearer one when both
neighbours do, a tie going down. -/
def onGrid? (x : Binary64) (digits : Nat) : Option (Nat × Int) :=
  let v := x.toRatio
  let k := leadingExponent v.1 v.2 - digits + 1
  let s := tenth v.1 v.2 k
  let low := s.1 / s.2
  let lowFits := x.readsBack low k
  let highFits := x.readsBack (low + 1) k
  if lowFits && (!highFits || 2 * (s.1 % s.2) ≤ s.2) then some (low, k)
  else if highFits then some (low + 1, k)
  else none

/-- Significant digits and power of ten of the shortest decimal that reads back. -/
def shortest (x : Binary64) : Nat × Int :=
  if x.significand = 0 then (0, 0)
  else ((List.range' 1 17).findSome? x.onGrid?).getD (x.significand, x.exponent)

/-- The written form: positional from `1e-5` up to below `1e16`, and with an exponent outside. -/
def render (x : Binary64) : String :=
  let s := x.shortest
  let digits := Nat.toDigits 10 s.1
  let point := (digits.length : Int) + s.2
  let sign := if x.negative then ['-'] else []
  let body : List Char :=
    if x.significand = 0 then ['0', '.', '0']
    else if 0 ≤ s.2 ∧ point ≤ 16 then digits ++ List.replicate s.2.toNat '0' ++ ['.', '0']
    else if 0 < point ∧ point ≤ 16 then
      digits.take point.toNat ++ '.' :: digits.drop point.toNat
    else if -5 < point ∧ point ≤ 0 then
      '0' :: '.' :: List.replicate (-point).toNat '0' ++ digits
    else
      let fraction := if digits.length = 1 then [] else '.' :: digits.drop 1
      digits.take 1 ++ fraction ++ 'e' :: (toString (point - 1)).toList
  String.ofList (sign ++ body)

end Scim.Binary64
