import GatedRules.Decimal.Layout
import GatedRules.Json.Basic
import GatedRules.Text.Joined

/-!
# JSON text

The text of a value, in two forms: `compact`, without any blank, and `pretty`, with one item on a
line and two blanks of indentation for each level. In a string only the quotation mark, the
backslash and the characters below `U+0020` are escaped. A float always shows that it is one, by a
decimal point or an exponent; a value that is no number and the infinities are written as `null`.
-/

namespace GatedRules

namespace Json

open Text (joined)

/-- One character inside a string. -/
def escape (c : Char) : List Char :=
  if c = '"' then ['\\', '"']
  else if c = '\\' then ['\\', '\\']
  else if c = '\n' then ['\\', 'n']
  else if c = '\r' then ['\\', 'r']
  else if c = '\t' then ['\\', 't']
  else if c = '\x08' then ['\\', 'b']
  else if c = '\x0c' then ['\\', 'f']
  else if c.toNat < 0x20 then
    ['\\', 'u', '0', '0', Char.ofNat (c.toNat / 16 + 48),
      Char.ofNat (if c.toNat % 16 < 10 then c.toNat % 16 + 48 else c.toNat % 16 + 87)]
  else [c]

/-- A string with its quotation marks. -/
def quoted (s : String) : List Char :=
  '"' :: s.toList.flatMap escape ++ ['"']

/-- The text of a float. -/
def floatChars (x : Float) : List Char :=
  match Decimal.Binary.ofFloat x with
  | .finite negative significand exponent =>
    let text := Decimal.jsonLayout.unsigned significand exponent
    if negative then '-' :: text else text
  | _ => "null".toList

mutual

/-- The text of a value without blanks. -/
def compactChars : Value → List Char
  | .null => "null".toList
  | .bool true => "true".toList
  | .bool false => "false".toList
  | .int n => Decimal.intChars n
  | .float x => floatChars x
  | .string s => quoted s
  | .array items => '[' :: joined [','] (compactItems items) ++ [']']
  | .object fields => '{' :: joined [','] (compactFields fields) ++ ['}']

/-- The texts of a sequence of values. -/
def compactItems : List Value → List (List Char)
  | [] => []
  | v :: vs => compactChars v :: compactItems vs

/-- The texts of a sequence of fields. -/
def compactFields : List (String × Value) → List (List Char)
  | [] => []
  | (k, v) :: fields => (quoted k ++ ':' :: compactChars v) :: compactFields fields

end

/-- The start of a line that is indented by `depth` levels. -/
def newLine (depth : Nat) : List Char :=
  '\n' :: List.replicate (2 * depth) ' '

mutual

/-- The text of a value inside `depth` levels, with one item on a line. -/
def prettyChars (depth : Nat) : Value → List Char
  | .array (v :: vs) =>
    '[' :: newLine (depth + 1) ++
      joined (',' :: newLine (depth + 1)) (prettyItems (depth + 1) (v :: vs)) ++
      newLine depth ++ [']']
  | .object (f :: fields) =>
    '{' :: newLine (depth + 1) ++
      joined (',' :: newLine (depth + 1)) (prettyFields (depth + 1) (f :: fields)) ++
      newLine depth ++ ['}']
  | v => compactChars v

/-- The texts of a sequence of values inside `depth` levels. -/
def prettyItems (depth : Nat) : List Value → List (List Char)
  | [] => []
  | v :: vs => prettyChars depth v :: prettyItems depth vs

/-- The texts of a sequence of fields inside `depth` levels. -/
def prettyFields (depth : Nat) : List (String × Value) → List (List Char)
  | [] => []
  | (k, v) :: fields =>
    (quoted k ++ ':' :: ' ' :: prettyChars depth v) :: prettyFields depth fields

end

end Json

/-- The text of a value without blanks. -/
def Value.compact (v : Value) : String :=
  String.ofList (Json.compactChars v)

/-- The text of a value with one item on a line. -/
def Value.pretty (v : Value) : String :=
  String.ofList (Json.prettyChars 0 v)

end GatedRules
