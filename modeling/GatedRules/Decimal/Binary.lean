/-!
# Doubles in exact arithmetic

A finite double is a natural number times a power of two. `ofFloat` takes the representation
apart, and `nearest` goes the other way: it gives the double nearest to a quotient of two natural
numbers, a half going to the even neighbour. Both work on the sixty-four bits of the double, with
natural numbers only, so nothing about them depends on how a processor rounds.

`whole?` tells the integer that a double equals, if it equals one.
-/

namespace GatedRules

namespace Decimal

/-- A double taken apart. -/
inductive Binary
  /-- Not a number. -/
  | nan
  /-- One of the two infinities. -/
  | infinite (negative : Bool)
  /-- The number `significand * 2 ^ exponent`, or its negative. -/
  | finite (negative : Bool) (significand : Nat) (exponent : Int)
deriving DecidableEq, Repr

/-- `2 ^ 52`, the least significand of a normal double. -/
def hidden : Nat :=
  0x10000000000000

/-- The exponent of the doubles nearest to zero. -/
def leastExponent : Int :=
  -1074

namespace Binary

/-- Take a double apart. -/
def ofFloat (x : Float) : Binary :=
  let bits := x.toBits.toNat
  let negative := bits / (2048 * hidden) = 1
  let field := bits / hidden % 2048
  let fraction := bits % hidden
  if field = 2047 then
    if fraction = 0 then infinite negative else nan
  else if field = 0 then finite negative fraction leastExponent
  else finite negative (hidden + fraction) (field - 1 + leastExponent)

end Binary

/-- A quotient rounded to the nearest natural number, a half to the even one. -/
def roundQuotient (num den : Nat) : Nat :=
  let low := num / den
  let twice := 2 * (num % den)
  if twice < den then low
  else if twice = den then low + low % 2
  else low + 1

/-- The quotient `num / den` in units of `2 ^ exponent`, as a quotient. -/
def scaled (num den : Nat) (exponent : Int) : Nat × Nat :=
  if 0 ≤ exponent then (num, den * Nat.pow 2 exponent.toNat)
  else (num * Nat.pow 2 (-exponent).toNat, den)

/-- The exponent in whose units `num / den` is at least `2 ^ 52` and less than `2 ^ 53`, or the
least exponent of a double if that is greater. -/
def unitExponent (num den : Nat) : Int :=
  let guess : Int := (num.log2 : Int) - den.log2 - 52
  let inUnits := scaled num den guess
  max leastExponent (if inUnits.1 < hidden * inUnits.2 then guess - 1 else guess)

/-- The bits of the double nearest to `num / den`. A quotient from half a unit above the greatest
finite double on has the bits of infinity. -/
def nearestBits (num den : Nat) : Nat :=
  if num = 0 then 0
  else
    let exponent := unitExponent num den
    let inUnits := scaled num den exponent
    min (2047 * hidden)
      ((exponent - leastExponent).toNat * hidden + roundQuotient inUnits.1 inUnits.2)

/-- The double nearest to `num / den`, or to its negative. -/
def nearest (negative : Bool) (num den : Nat) : Float :=
  let bits := nearestBits num den
  Float.ofBits (UInt64.ofNat (if negative then 2048 * hidden + bits else bits))

/-- The double nearest to `significand * 10 ^ exponent`, or to its negative. Powers of ten beyond
the range of doubles are not computed: such a number is infinite or zero. -/
def nearestScaled (negative : Bool) (significand : Nat) (exponent : Int) : Float :=
  if significand = 0 ∨ exponent < -400 - significand.log2 then nearest negative 0 1
  else if 400 < exponent then nearest negative (Nat.pow 10 400) 1
  else if 0 ≤ exponent then nearest negative (significand * Nat.pow 10 exponent.toNat) 1
  else nearest negative significand (Nat.pow 10 (-exponent).toNat)

/-- The double nearest to an integer. -/
def ofInt (n : Int) : Float :=
  nearest (n < 0) n.natAbs 1

/-- The integer that a double equals. Negative zero equals zero. -/
def whole? (x : Float) : Option Int :=
  match Binary.ofFloat x with
  | .finite negative significand exponent =>
    let size : Option Nat :=
      if 0 ≤ exponent then some (significand * Nat.pow 2 exponent.toNat)
      else
        let unit := Nat.pow 2 (-exponent).toNat
        if significand % unit = 0 then some (significand / unit) else none
    size.map fun n => if negative then -(n : Int) else n
  | _ => none

end Decimal

end GatedRules
