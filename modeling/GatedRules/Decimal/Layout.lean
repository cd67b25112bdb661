import GatedRules.Decimal.Shortest

/-!
# Layouts of decimals

How the digits of a number are laid out as text. A number whose digits are `d₁d₂…dₙ` with the
decimal point at position `p` is `0.d₁d₂…dₙ` times ten to the power `p`. A `Layout` says for which
positions the number is written out in full, and what stands after a whole number; at all other
positions it is written with an exponent.
-/

namespace GatedRules

namespace Decimal

/-- The decimal digits of a natural number. -/
def digitChars (n : Nat) : List Char :=
  Nat.toDigits 10 n

/-- The conventions of a number format. -/
structure Layout where
  /-- The positions of the decimal point at which a number is written out in full. -/
  inFull : Int → Bool
  /-- What follows the digits of a whole number that is written out in full. -/
  afterWhole : List Char
  /-- Which of two equally near decimals is taken. -/
  tie : Tie

/-- A number written out in full: digits with at most one decimal point. -/
def positional (afterWhole : List Char) (digits : List Char) (exponent : Int) : List Char :=
  if 0 ≤ exponent then digits ++ List.replicate exponent.toNat '0' ++ afterWhole
  else
    let places := (-exponent).toNat
    if places < digits.length then
      digits.take (digits.length - places) ++ '.' :: digits.drop (digits.length - places)
    else '0' :: '.' :: (List.replicate (places - digits.length) '0' ++ digits)

/-- A number written with one digit before the decimal point and a power of ten. -/
def scientific (digits : List Char) (point : Int) : List Char :=
  let power := point - 1
  digits.take 1 ++ (if digits.length = 1 then [] else '.' :: digits.drop 1) ++
    'e' :: (if power < 0 then '-' else '+') :: digitChars power.natAbs

/-- The text of a number without its sign. -/
def Layout.unsigned (layout : Layout) (significand : Nat) (exponent : Int) : List Char :=
  if significand = 0 then '0' :: layout.afterWhole
  else
    let decimal := shortest layout.tie significand exponent
    let digits := digitChars decimal.digits
    let point := decimal.exponent + digits.length
    if layout.inFull point then positional layout.afterWhole digits decimal.exponent
    else scientific digits point

/-- Numbers as rule sources write them: never with an exponent, and a whole number without a
decimal point. -/
def sourceLayout : Layout :=
  ⟨fun _ => true, [], .up⟩

/-- Numbers as JSON text writes them: in full from `0.00001` up to sixteen digits before the
decimal point, and always with a decimal point there. -/
def jsonLayout : Layout :=
  ⟨fun point => -5 < point && point ≤ 16, ['.', '0'], .toEven⟩

/-- The text of a double in full. Infinities and the value that is no number have names. -/
def plainChars (x : Float) : List Char :=
  let signed (negative : Bool) (text : List Char) := if negative then '-' :: text else text
  match Binary.ofFloat x with
  | .nan => ['N', 'a', 'N']
  | .infinite negative => signed negative ['i', 'n', 'f']
  | .finite negative significand exponent =>
    signed negative (sourceLayout.unsigned significand exponent)

/-- The text of a double in full. -/
def plainText (x : Float) : String :=
  String.ofList (plainChars x)

/-- The magnitude below which a whole double counts as an integer. -/
def wholeBound : Nat :=
  1000000000000000

/-- The integer that a double stands for: the one it equals, if that has at most fifteen digits. -/
def smallWhole? (x : Float) : Option Int :=
  (whole? x).filter fun n => n.natAbs < wholeBound

/-- The text of an integer. -/
def intChars (n : Int) : List Char :=
  if n < 0 then '-' :: digitChars n.natAbs else digitChars n.natAbs

/-- A number the way a rule source writes it. Negative zero is written like zero. -/
def sourceChars (x : Float) : List Char :=
  match smallWhole? x with
  | some n => intChars n
  | none => plainChars x

/-- A number the way a rule source writes it. -/
def sourceText (x : Float) : String :=
  String.ofList (sourceChars x)

end Decimal

end GatedRules
