import GatedRules.Json.Number
import GatedRules.Text.Bytes

/-!
# Reading JSON text

A text is first split into tokens; the tokens then drive a machine whose stack holds the arrays and
objects that are open. The machine takes every token exactly once. Nesting is limited: at most
`maxDepth` arrays and objects may be open at a time. The grammar is the strict one: no superfluous
comma, no blank character beyond the four of the standard, no unpaired surrogate, nothing after
the value.
-/

namespace GatedRules

namespace Json

/-- A piece of JSON text. -/
inductive Token
  /-- The start of an array. -/
  | openArray
  /-- The end of an array. -/
  | closeArray
  /-- The start of an object. -/
  | openObject
  /-- The end of an object. -/
  | closeObject
  /-- A comma. -/
  | comma
  /-- A colon. -/
  | colon
  /-- A string. -/
  | text (s : String)
  /-- A number, a truth value or null. -/
  | scalar (v : Value)

/-! ### Strings -/

/-- The character that a short escape stands for. -/
def shortEscape? (c : Char) : Option Char :=
  if c = '"' ∨ c = '\\' ∨ c = '/' then some c
  else if c = 'b' then some '\x08'
  else if c = 'f' then some '\x0c'
  else if c = 'n' then some '\n'
  else if c = 'r' then some '\r'
  else if c = 't' then some '\t'
  else none

/-- The unit that four hexadecimal digits write. -/
def unit? (a b c d : Char) : Option Nat := do
  let a ← Text.hexValue? a
  let b ← Text.hexValue? b
  let c ← Text.hexValue? c
  let d ← Text.hexValue? d
  return 4096 * a + 256 * b + 16 * c + d

/-- The characters of a string from the text between its quotation marks. -/
def unescape? : List Char → Option (List Char)
  | [] => some []
  | c :: cs =>
    if c = '\\' then
      match cs with
      | [] => none
      | e :: cs =>
        if e = 'u' then
          match cs with
          | h₁ :: h₂ :: h₃ :: h₄ :: cs => do
            let high ← unit? h₁ h₂ h₃ h₄
            if high < 0xd800 ∨ 0xe000 ≤ high then return Char.ofNat high :: (← unescape? cs)
            else if 0xdc00 ≤ high then none
            else
              match cs with
              | '\\' :: 'u' :: l₁ :: l₂ :: l₃ :: l₄ :: cs =>
                let low ← unit? l₁ l₂ l₃ l₄
                if low < 0xdc00 ∨ 0xe000 ≤ low then none
                else
                  let code := 0x10000 + (high - 0xd800) * 0x400 + (low - 0xdc00)
                  return Char.ofNat code :: (← unescape? cs)
              | _ => none
          | _ => none
        else do return (← shortEscape? e) :: (← unescape? cs)
    else if c.toNat < 0x20 then none
    else do return c :: (← unescape? cs)

/-- Split a text after the quotation mark that ends a string. The flag says that the next character
is escaped. -/
def splitString (escaped : Bool) : List Char → Option (List Char × List Char)
  | [] => none
  | c :: cs =>
    if !escaped && c = '"' then some ([], cs)
    else (splitString (!escaped && c = '\\') cs).map fun (body, rest) => (c :: body, rest)

theorem length_of_splitString {escaped : Bool} {cs body rest : List Char}
    (h : splitString escaped cs = some (body, rest)) : rest.length < cs.length := by
  induction cs generalizing escaped body with
  | nil => cases h
  | cons c cs ih =>
    rw [splitString] at h
    split at h
    · cases h
      simp
    · obtain ⟨⟨body', rest'⟩, h', he⟩ := Option.map_eq_some_iff.1 h
      cases he
      exact Nat.lt_succ_of_lt (ih h')

/-! ### Tokens -/

/-- Whether a character may stand in a number, a truth value or null. -/
def isWordChar (c : Char) : Bool :=
  c.isAlphanum || c = '+' || c = '-' || c = '.'

/-- Read a number, a truth value or null. -/
def word? (cs : List Char) : Option Value :=
  if cs = "null".toList then some .null
  else if cs = "true".toList then some (.bool true)
  else if cs = "false".toList then some (.bool false)
  else number? cs

/-- The token that consists of one character. -/
def punctuation? (c : Char) : Option Token :=
  if c = '[' then some .openArray
  else if c = ']' then some .closeArray
  else if c = '\x7b' then some .openObject
  else if c = '\x7d' then some .closeObject
  else if c = ',' then some .comma
  else if c = ':' then some .colon
  else none

/-- Split a text into tokens. -/
def tokens? : List Char → Option (List Token)
  | [] => some []
  | c :: cs =>
    if c = ' ' ∨ c = '\n' ∨ c = '\t' ∨ c = '\r' then tokens? cs
    else
      match punctuation? c with
      | some token => (tokens? cs).map (token :: ·)
      | none =>
        if c = '"' then
          match _h : splitString false cs with
          | none => none
          | some (body, rest) => do
            let text ← unescape? body
            return .text (String.ofList text) :: (← tokens? rest)
        else do
          let value ← word? (c :: cs.takeWhile isWordChar)
          return .scalar value :: (← tokens? (cs.dropWhile isWordChar))
termination_by cs => cs.length
decreasing_by
  · simp
  · simp
  · exact Nat.lt_succ_of_lt (length_of_splitString _h)
  · exact Nat.lt_succ_of_le (List.dropWhile_sublist _).length_le

/-! ### The machine -/

/-- An array or object that is open, with what has been read of it. -/
inductive Frame
  /-- An array with its items, last item first. -/
  | array (items : List Value)
  /-- An object with its fields, last field first, and the key whose value comes next. -/
  | object (fields : List (String × Value)) (key : String)

/-- What may come next. -/
inductive Phase
  /-- A value. -/
  | value
  /-- A value or the end of the array. -/
  | firstItem
  /-- A key or the end of the object. -/
  | firstKey
  /-- A key. -/
  | key
  /-- The colon after a key. -/
  | colon
  /-- A comma or the end of the innermost array or object. -/
  | next
  /-- Nothing: the value is complete. -/
  | done (v : Value)

/-- How many arrays and objects may be open at a time. -/
def maxDepth : Nat :=
  127

/-- Enter a complete value into the innermost array or object. -/
def accept (v : Value) : List Frame → List Frame × Phase
  | [] => ([], .done v)
  | .array items :: stack => (.array (v :: items) :: stack, .next)
  | .object fields key :: stack => (.object ((key, v) :: fields) "" :: stack, .next)

/-- Open an array or object. -/
def enter? (frame : Frame) (phase : Phase) (stack : List Frame) : Option (List Frame × Phase) :=
  if stack.length < maxDepth then some (frame :: stack, phase) else none

/-- Start a value. -/
def begin? (stack : List Frame) : Token → Option (List Frame × Phase)
  | .openArray => enter? (.array []) .firstItem stack
  | .openObject => enter? (.object [] "") .firstKey stack
  | .text s => some (accept (.string s) stack)
  | .scalar v => some (accept v stack)
  | _ => none

/-- Take one token. -/
def step? : List Frame × Phase → Token → Option (List Frame × Phase)
  | (stack, .value), token => begin? stack token
  | (.array items :: stack, .firstItem), .closeArray => some (accept (.array items.reverse) stack)
  | (stack, .firstItem), token => begin? stack token
  | (.object fields _ :: stack, .firstKey), .closeObject =>
    some (accept (Value.ofFields fields.reverse) stack)
  | (.object fields _ :: stack, .firstKey), .text key => some (.object fields key :: stack, .colon)
  | (.object fields _ :: stack, .key), .text key => some (.object fields key :: stack, .colon)
  | (stack, .colon), .colon => some (stack, .value)
  | (.array items :: stack, .next), .comma => some (.array items :: stack, .value)
  | (.array items :: stack, .next), .closeArray => some (accept (.array items.reverse) stack)
  | (.object fields key :: stack, .next), .comma => some (.object fields key :: stack, .key)
  | (.object fields _ :: stack, .next), .closeObject =>
    some (accept (Value.ofFields fields.reverse) stack)
  | _, _ => none

end Json

/-- The value of a JSON text. -/
def Value.read? (s : String) : Option Value := do
  let tokens ← Json.tokens? s.toList
  let (_, phase) ← tokens.foldlM Json.step? ([], Json.Phase.value)
  match phase with
  | .done v => some v
  | _ => none

end GatedRules
