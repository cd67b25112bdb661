import GatedRules.Decimal.Read
import GatedRules.Json.Basic

/-!
# Numbers in JSON text

A number without decimal point and exponent is an integer if it fits sixty-four bits, signed or
unsigned. Every other number is a float. Its value is computed in the following way, which is not
always the nearest double: the digits are collected into one significand until it would no longer
fit sixty-four bits; further digits before the decimal point raise the exponent, those after it
are dropped. The significand is rounded to a double, which is then multiplied or divided by a
power of ten that is itself a double. A number beyond the greatest finite double is refused.
-/

namespace GatedRules

namespace Json

/-- The bound of unsigned integers of sixty-four bits. -/
def wordBound : Nat :=
  0x10000000000000000

/-- The value of a decimal digit. -/
def digitValue (c : Char) : Nat :=
  c.toNat - 48

/-- Collect digits before the decimal point: the significand, and the number of digits that found
no room in it. -/
def collectWhole (significand : Nat) : List Char → Nat × Nat
  | [] => (significand, 0)
  | d :: ds =>
    let next := 10 * significand + digitValue d
    if next < wordBound then collectWhole next ds else (significand, ds.length + 1)

/-- Collect digits after the decimal point: the significand, and the number of digits that found
room in it. -/
def collectFraction (significand : Nat) : List Char → Nat × Nat
  | [] => (significand, 0)
  | d :: ds =>
    let next := 10 * significand + digitValue d
    if next < wordBound then
      let (final, count) := collectFraction next ds
      (final, count + 1)
    else (significand, 0)

/-- The double nearest to a power of ten. -/
def powerOfTen (n : Nat) : Float :=
  Decimal.nearestScaled false 1 n

/-- Divide by `10 ^ n`, in steps that a double can hold. -/
def divideByPower (x : Float) (n : Nat) : Float :=
  if n ≤ 308 then x / powerOfTen n
  else if x == 0 then x
  else divideByPower (x / powerOfTen 308) (n - 308)
termination_by n

/-- Scale a significand by a power of ten. Beyond the greatest finite double there is no result. -/
def scale? (significand : Nat) (exponent : Int) : Option Float :=
  let x := Decimal.ofInt significand
  if exponent < 0 then some (divideByPower x (-exponent).toNat)
  else if significand = 0 then some x
  else if 308 < exponent then none
  else
    let y := x * powerOfTen exponent.toNat
    match Decimal.Binary.ofFloat y with
    | .finite .. => some y
    | _ => none

/-- The float that a written number denotes. -/
def floatOf? (w : Decimal.Written) : Option Float :=
  let (whole, dropped) := collectWhole 0 w.whole
  let (significand, places) := collectFraction whole w.fraction
  (scale? significand (w.power + dropped - places)).map fun x => if w.negative then -x else x

/-- The integer of a row of digits, where one of sixty-four bits has it. Negative zero is none. -/
def integer? (negative : Bool) (digits : List Char) : Option Int :=
  let n := Decimal.digitsValue digits
  if negative then if n = 0 ∨ wordBound / 2 < n then none else some (-n)
  else if n < wordBound then some n
  else none

/-- Whether a row of digits has no superfluous zero at its start. -/
def plainWhole : List Char → Bool
  | [] => false
  | ['0'] => true
  | d :: _ => d ≠ '0'

/-- Read the text of a number. -/
def number? (cs : List Char) : Option Value :=
  let (negative, body) :=
    match cs with
    | '-' :: cs => (true, cs)
    | cs => (false, cs)
  let whole := body.takeWhile Char.isDigit
  let rest := body.dropWhile Char.isDigit
  if !plainWhole whole then none
  else if rest.isEmpty then
    match integer? negative whole with
    | some n => some (.int n)
    | none => (floatOf? ⟨negative, whole, [], 0⟩).map .float
  else
    let (fraction, rest') := Decimal.fractionOf rest
    if rest.head? = some '.' && fraction.isEmpty then none
    else do
      let power ← Decimal.power? rest'
      (floatOf? ⟨negative, whole, fraction, power⟩).map .float

end Json

end GatedRules
