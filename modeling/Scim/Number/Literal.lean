import Scim.Number.Binary64

set_option autoImplicit false

/-!
# The value of a number literal

A literal without fraction and exponent that fits 64 bits is an integer; every other literal is a
decimal.  A decimal is not rounded from the exact value of the literal but by a fixed rule: the
leading digits are gathered as long as they fit 64 bits, the digits behind them count only for
the power of ten, and the gathered number, rounded, is multiplied or divided by a rounded power
of ten.

## Main definitions

* `Scim.Number` — an integer or a decimal; `Scim.Number.beq` keeps the two apart.
* `Scim.NumberLiteral` — the parts of a literal.
* `Scim.NumberLiteral.value?` — the number it denotes, `none` when it is too large.
-/

namespace Scim

/-- A JSON number.  An integer and a decimal are never equal. -/
inductive Number where
  | integer (value : Int)
  | decimal (value : Binary64)
deriving DecidableEq, Repr

namespace Number

/-- Integers are equal when they are the same, decimals when they have the same value. -/
protected def beq : Number → Number → Bool
  | .integer a, .integer b => a == b
  | .decimal a, .decimal b => Binary64.beq a b
  | _, _ => false

instance : BEq Number := ⟨Number.beq⟩

end Number

/-- The parts of a literal such as `-12.50e+3`, with digits as numbers from 0 to 9.  A literal
without fraction has no fraction digits. -/
structure NumberLiteral where
  negative : Bool
  whole : List Nat
  fraction : List Nat
  exponent : Option Int

namespace NumberLiteral

/-- The largest number that gathered digits may form. -/
def gatherLimit : Nat := Nat.pow 2 64 - 1

/-- Appends digits to `n` as long as the result stays within `gatherLimit`.  The second component
holds the digits that are left. -/
def gather (n : Nat) : List Nat → Nat × List Nat
  | [] => (n, [])
  | d :: ds => if n * 10 + d ≤ gatherLimit then gather (n * 10 + d) ds else (n, d :: ds)

/-- The gathered digits and the power of ten that belongs to them. -/
def gathered (lit : NumberLiteral) : Nat × Int :=
  let whole := gather 0 lit.whole
  let all := gather whole.1 lit.fraction
  let taken : Nat := lit.fraction.length - all.2.length
  (all.1, lit.exponent.getD 0 + whole.2.length - taken)

/-- The rounded power `10 ^ k`, for `k` up to `308`. -/
def powerOfTen (k : Nat) : Binary64 :=
  (Binary64.ofRatio? false (Nat.pow 10 k) 1).getD (.zero false)

/-- Multiplies gathered digits, already rounded, by `10 ^ e` through rounded powers up to
`10 ^ 308`; `none` when the result is too large.  Below `10 ^ -308` the number is divided by
`10 ^ 308` first.  Gathered digits are below `10 ^ 20`, so a second such division leaves zero. -/
def scale (x : Binary64) (e : Int) : Option Binary64 :=
  if e < -616 then some (.zero x.negative)
  else if e < -308 then
    (x.div? (powerOfTen 308)).bind fun y => y.div? (powerOfTen (-(e + 308)).toNat)
  else if e < 0 then x.div? (powerOfTen (-e).toNat)
  else if e ≤ 308 then x.mul? (powerOfTen e.toNat)
  else if x.significand = 0 then some x
  else none

/-- The decimal that a literal denotes. -/
def decimal? (lit : NumberLiteral) : Option Binary64 := do
  let g := lit.gathered
  scale (← Binary64.ofRatio? lit.negative g.1 1) g.2

/-- The number that a literal denotes.  `-0` and integers outside `-2 ^ 63 … 2 ^ 64 - 1` are
decimals. -/
def value? (lit : NumberLiteral) : Option Number :=
  let g := lit.gathered
  if lit.fraction.isEmpty && lit.exponent.isNone && g.2 == 0 then
    if !lit.negative then some (.integer g.1)
    else if 0 < g.1 ∧ g.1 ≤ Nat.pow 2 63 then some (.integer (-g.1))
    else (lit.decimal?).map .decimal
  else (lit.decimal?).map .decimal

end NumberLiteral

end Scim
