import GatedRules.Decimal.Binary

/-!
# Reading decimals

`read?` reads the text of a number as the double nearest to it. A number is an optional sign, then
digits with at most one decimal point and at least one digit, then optionally `e` and a power of
ten; or, in any case of letters, one of the names `inf`, `infinity` and `nan`.
-/

namespace GatedRules

namespace Decimal

/-- The value of a row of digits. -/
def digitsValue (ds : List Char) : Nat :=
  ds.foldl (fun n c => 10 * n + (c.toNat - 48)) 0

/-- A number as it is written: the digits on both sides of the decimal point, and the power of
ten. -/
structure Written where
  /-- Whether a minus sign is written. -/
  negative : Bool
  /-- The digits before the decimal point. -/
  whole : List Char
  /-- The digits after the decimal point. -/
  fraction : List Char
  /-- The power of ten. -/
  power : Int

/-- The double nearest to a written number. -/
def Written.toFloat (w : Written) : Float :=
  nearestScaled w.negative (digitsValue (w.whole ++ w.fraction)) (w.power - w.fraction.length)

/-- Split an optional sign off; the flag says whether it is a minus. -/
def sign : List Char → Bool × List Char
  | '-' :: cs => (true, cs)
  | '+' :: cs => (false, cs)
  | cs => (false, cs)

/-- Read an optional power of ten up to the end of the text. -/
def power? : List Char → Option Int
  | [] => some 0
  | c :: cs =>
    if c = 'e' ∨ c = 'E' then
      let (negative, digits) := sign cs
      if digits.isEmpty || !digits.all Char.isDigit then none
      else some (if negative then -(digitsValue digits : Int) else digitsValue digits)
    else none

/-- Take a decimal point and the digits after it. -/
def fractionOf (cs : List Char) : List Char × List Char :=
  match cs with
  | '.' :: cs => (cs.takeWhile Char.isDigit, cs.dropWhile Char.isDigit)
  | cs => ([], cs)

/-- Read digits with an optional decimal point and an optional power of ten. -/
def written? (negative : Bool) (cs : List Char) : Option Written :=
  let whole := cs.takeWhile Char.isDigit
  let (fraction, rest) := fractionOf (cs.dropWhile Char.isDigit)
  if whole.isEmpty && fraction.isEmpty then none
  else (power? rest).map fun power => ⟨negative, whole, fraction, power⟩

/-- Read the text of a number. -/
def read? (cs : List Char) : Option Float :=
  let (negative, body) := sign cs
  let name := String.ofList (body.map Char.toLower)
  if name = "inf" ∨ name = "infinity" then
    some (Float.ofBits (UInt64.ofNat (if negative then 4095 * hidden else 2047 * hidden)))
  else if name = "nan" then some (Float.ofBits (UInt64.ofNat (2047 * hidden + hidden / 2)))
  else (written? negative body).map Written.toFloat

/-- Read a row of digits with an optional sign as an integer. -/
def readInt? (cs : List Char) : Option Int :=
  let (negative, digits) := sign cs
  if digits.isEmpty || !digits.all Char.isDigit then none
  else some (if negative then -(digitsValue digits : Int) else digitsValue digits)

end Decimal

end GatedRules
