set_option autoImplicit false

/-!
# Finite binary floating-point numbers of 64 bits

A decimal number in a JSON text denotes the nearest number of the form `± m · 2 ^ e` with a
significand below `2 ^ 53` and an exponent from `-1074` to `971`.  All arithmetic here is exact
arithmetic on natural numbers followed by one rounding, so nothing depends on a machine.

## Main definitions

* `Scim.Binary64` — sign, significand and exponent.
* `Scim.roundDiv` — a quotient rounded to the nearest integer, a half going to the even one.
* `Scim.Binary64.ofRatio?` — the number nearest to a quotient, unless it is too large.
* `Scim.Binary64.mul?`, `Scim.Binary64.div?` — rounded product and quotient.
-/

namespace Scim

/-- A finite number `± significand · 2 ^ exponent`.  The numbers that this library builds have a
significand in `[2 ^ 52, 2 ^ 53)`, or below `2 ^ 52` together with the exponent `-1074`. -/
structure Binary64 where
  negative : Bool
  significand : Nat
  exponent : Int
deriving DecidableEq, Repr

/-- The quotient `num / den` rounded to the nearest integer; a half goes to the even
neighbour. -/
def roundDiv (num den : Nat) : Nat :=
  let q := num / den
  let r := num % den
  if 2 * r < den then q
  else if den < 2 * r then q + 1
  else if q % 2 = 0 then q
  else q + 1

namespace Binary64

/-- Zero, which has two signs. -/
def zero (negative : Bool) : Binary64 := ⟨negative, 0, -1074⟩

/-- The two zeros are equal; apart from them equal numbers have equal parts. -/
protected def beq (x y : Binary64) : Bool :=
  (x.significand == 0 && y.significand == 0) || x == y

/-- The quotient `(num / den) / 2 ^ e` as a fraction. -/
def shifted (num den : Nat) (e : Int) : Nat × Nat :=
  (num * Nat.pow 2 (-e).toNat, den * Nat.pow 2 e.toNat)

/-- The exponent of the number nearest to `num / den`, before the rounding may raise it: the
least one, not below `-1074`, that leaves a significand below `2 ^ 53`. -/
def exponentOf (num den : Nat) : Int :=
  let e : Int := (num.log2 : Int) - (den.log2 : Int) - 52
  let s := shifted num den e
  max (-1074) (if s.2 * Nat.pow 2 52 ≤ s.1 then e else e - 1)

/-- The number nearest to `± num / den`, a half going to the even significand, or `none` when
that lies beyond the largest finite number. -/
def ofRatio? (negative : Bool) (num den : Nat) : Option Binary64 :=
  if num = 0 then some (zero negative)
  else
    let e := exponentOf num den
    let s := shifted num den e
    let m := roundDiv s.1 s.2
    let x : Binary64 :=
      if m = Nat.pow 2 53 then ⟨negative, Nat.pow 2 52, e + 1⟩ else ⟨negative, m, e⟩
    if 971 < x.exponent then none else some x

/-- The magnitude as a fraction. -/
def toRatio (x : Binary64) : Nat × Nat :=
  (x.significand * Nat.pow 2 x.exponent.toNat, Nat.pow 2 (-x.exponent).toNat)

/-- The rounded product of two magnitudes, with the sign of the first. -/
def mul? (x y : Binary64) : Option Binary64 :=
  ofRatio? x.negative (x.toRatio.1 * y.toRatio.1) (x.toRatio.2 * y.toRatio.2)

/-- The rounded quotient of two magnitudes, with the sign of the first. -/
def div? (x y : Binary64) : Option Binary64 :=
  ofRatio? x.negative (x.toRatio.1 * y.toRatio.2) (x.toRatio.2 * y.toRatio.1)

end Binary64

end Scim
