import GatedRules.Decimal.Binary

/-!
# Shortest decimals

`shortest` gives the decimal with the fewest digits that reads back as a given finite double, and
of those the nearest to the double. A decimal reads back when it lies in the double's rounding
interval, whose ends belong to it exactly when the significand is even.

For every number of digits the double has two neighbours on the grid of decimals with so many
digits, one from below and one from above. The first grid on which a neighbour lies in the
interval decides. Seventeen digits always suffice; the exact decimal of the double stands behind
the search, so that the answer lies in the interval whatever the search finds.
-/

namespace GatedRules

namespace Decimal

/-- The number `digits * 10 ^ exponent`. -/
structure Scaled where
  /-- The digits, read as a natural number. -/
  digits : Nat
  /-- The power of ten. -/
  exponent : Int
deriving DecidableEq, Repr

namespace Scaled

/-- Drop the zeros at the end of the digits. -/
def strip (fuel : Nat) (d : Scaled) : Scaled :=
  match fuel with
  | 0 => d
  | fuel + 1 =>
    if d.digits ≠ 0 ∧ d.digits % 10 = 0 then strip fuel ⟨d.digits / 10, d.exponent + 1⟩ else d

/-- The same number without zeros at the end of the digits. -/
def normal (d : Scaled) : Scaled :=
  d.strip d.digits.log2

end Scaled

/-- Which of two equally near decimals is taken. -/
inductive Tie
  /-- The one whose last digit is even. -/
  | toEven
  /-- The greater one. -/
  | up
deriving DecidableEq, Repr

/-- The decimals that round to the double `significand * 2 ^ exponent`, in quarters of its unit:
from `low` to `high` over `den`, around `mid`. -/
structure Interval where
  /-- The lower end. -/
  low : Nat
  /-- The double itself. -/
  mid : Nat
  /-- The upper end. -/
  high : Nat
  /-- The common denominator. -/
  den : Nat
  /-- Whether the ends belong to the interval. -/
  closed : Bool
deriving DecidableEq, Repr

namespace Interval

/-- The rounding interval of a finite double. Below a power of two the doubles are twice as dense,
so the lower end is nearer there. -/
def ofDouble (significand : Nat) (exponent : Int) : Interval :=
  let below := if significand = hidden ∧ leastExponent < exponent then 1 else 2
  let scale := Nat.pow 2 (exponent - 2).toNat
  let den := Nat.pow 2 (2 - exponent).toNat
  ⟨(4 * significand - below) * scale, 4 * significand * scale, (4 * significand + 2) * scale, den,
    significand % 2 = 0⟩

/-- Whether `num / den` lies in the interval. -/
def holds (i : Interval) (num den : Nat) : Bool :=
  if i.closed then i.low * den ≤ num * i.den && num * i.den ≤ i.high * den
  else i.low * den < num * i.den && num * i.den < i.high * den

/-- Whether a decimal lies in the interval. -/
def holdsScaled (i : Interval) (d : Scaled) : Bool :=
  i.holds (d.digits * Nat.pow 10 d.exponent.toNat) (Nat.pow 10 (-d.exponent).toNat)

/-- The least exponent whose power of ten exceeds the double, found upwards from `guess`. -/
def pointFrom (i : Interval) : Nat → Int → Int
  | 0, guess => guess
  | fuel + 1, guess =>
    if i.mid * Nat.pow 10 (-guess).toNat < i.den * Nat.pow 10 guess.toNat then guess
    else pointFrom i fuel (guess + 1)

/-- The position of the decimal point: the double is at least a tenth of `10 ^ point` and less than
`10 ^ point`. -/
def point (i : Interval) : Int :=
  let log : Int := (i.mid.log2 : Int) - i.den.log2
  i.pointFrom 4 ((log - 1) * 30103 / 100000 - 1)

/-- The nearer of the double's two neighbours with unit `10 ^ exponent` that lie in the interval. -/
def onGrid? (i : Interval) (tie : Tie) (exponent : Int) : Option Scaled :=
  let num := i.mid * Nat.pow 10 (-exponent).toNat
  let den := i.den * Nat.pow 10 exponent.toNat
  let low := num / den
  let twice := 2 * (num % den)
  let below : Scaled := ⟨low, exponent⟩
  let above : Scaled := ⟨low + 1, exponent⟩
  let upward := den < twice ||
    (twice = den && match tie with
      | .toEven => low % 2 = 1
      | .up => true)
  let inside := i.holdsScaled
  if inside below && !(inside above && upward) then some below
  else if inside above then some above
  else none

end Interval

/-- The double itself as a decimal. -/
def exactly (significand : Nat) (exponent : Int) : Scaled :=
  if 0 ≤ exponent then ⟨significand * Nat.pow 2 exponent.toNat, 0⟩
  else ⟨significand * Nat.pow 5 (-exponent).toNat, exponent⟩

/-- The shortest decimal that reads back as the double `significand * 2 ^ exponent`, and of those
the nearest. -/
def shortest (tie : Tie) (significand : Nat) (exponent : Int) : Scaled :=
  let interval := Interval.ofDouble significand exponent
  let point := interval.point
  let found := (List.range 17).findSome? fun (n : Nat) =>
    interval.onGrid? tie (point - n - 1)
  (found.getD (exactly significand exponent)).normal

end Decimal

end GatedRules
