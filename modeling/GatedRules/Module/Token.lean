import GatedRules.Decimal.Read
import GatedRules.Decimal.Layout
import GatedRules.Module.Template

/-!
# Tokens of rule source

`Tokens.scan` splits the text of a module into tokens. Blank characters separate tokens, and a
comment runs from `#` to the end of its line. What a token is does not depend on where it stands:
`lexeme` reads one from the characters, and `scan` keeps count of lines and columns.

Two rules of the count are worth knowing. A comment takes no columns, which no token can notice,
since only the end of the line comes after it. A line break that is escaped in a string takes two
columns and starts no line.
-/

namespace GatedRules

/-- What a token is. -/
inductive Kind
  /-- A word that may be a name or a keyword. -/
  | ident (word : String)
  /-- A number. -/
  | number (x : Float)
  /-- A text between quotation marks. -/
  | string (text : String)
  /-- The sign `:=`. -/
  | assign
  | leftParen
  | rightParen
  | comma
  | semicolon
  | eq
  | notEq
  | lt
  | ltEq
  | gt
  | gtEq
  | plus
  | minus
  | star
  | slash
deriving DecidableEq

/-- The name of a kind of token in messages. -/
def Kind.label : Kind → String
  | ident _ => "Ident"
  | number _ => "Number"
  | string _ => "Str"
  | assign => "Assign"
  | leftParen => "LParen"
  | rightParen => "RParen"
  | comma => "Comma"
  | semicolon => "Semi"
  | eq => "Eq"
  | notEq => "NotEq"
  | lt => "Lt"
  | ltEq => "LtEq"
  | gt => "Gt"
  | gtEq => "GtEq"
  | plus => "Plus"
  | minus => "Minus"
  | star => "Star"
  | slash => "Slash"

/-- A token as messages describe it. -/
def Kind.describe : Kind → String
  | ident word => "`" ++ word ++ "`"
  | number x => "number " ++ Decimal.plainText x
  | string text => "string \"" ++ text ++ "\""
  | kind => kind.label

/-- A place in a text. -/
structure Position where
  /-- The line, counted from one. -/
  line : Nat
  /-- The column, counted from one. -/
  column : Nat
deriving DecidableEq, Repr

/-- A token with the place of its first character. -/
structure Token where
  /-- What the token is. -/
  kind : Kind
  /-- Where it starts. -/
  position : Position
deriving DecidableEq

/-- The tokens of a text. -/
structure Tokens where
  /-- The tokens, in order. -/
  tokens : List Token
  /-- The end of the text. -/
  stop : Position
deriving DecidableEq

/-! ### Faults -/

/-- What a parser looked for. -/
inductive Wanted
  | statement
  | slotName
  | assign
  | semicolon
  | includePath
  | expression
  | nullWord
  | closeParen
  | commaOrClose
  | endOfExpression
deriving DecidableEq, Repr

/-- How messages call what was looked for. -/
def Wanted.describe : Wanted → String
  | statement => "`LET` or `INCLUDE`"
  | slotName => "slot name"
  | assign => "`:=`"
  | semicolon => "`;`"
  | includePath => "include path string"
  | expression => "expression"
  | nullWord => "`NULL`"
  | closeParen => "`)`"
  | commaOrClose => "`,` or `)`"
  | endOfExpression => "end of expression"

/-- What is wrong with a rule source. -/
inductive SyntaxFault
  /-- Digits and points that are no number. -/
  | invalidNumber (text : String)
  /-- A string without its second quotation mark. -/
  | unterminatedString
  /-- A character that starts no token. -/
  | unexpectedCharacter (c : Char)
  /-- Another token than the grammar allows; none is found at the end. -/
  | unexpected (wanted : Wanted) (found : Option Kind)
  /-- An include target that is no template. -/
  | template (raw : String) (fault : TemplateFault)
deriving DecidableEq

/-- The message for a fault. -/
def SyntaxFault.message : SyntaxFault → String
  | invalidNumber text => "invalid number `" ++ text ++ "`"
  | unterminatedString => "unterminated string"
  | unexpectedCharacter c => "unexpected character `" ++ c.toString ++ "`"
  | unexpected wanted found =>
    "expected " ++ wanted.describe ++ ", found " ++ (found.map Kind.describe).getD "end of input"
  | template raw fault => fault.message raw

/-- A fault with its place. -/
structure SyntaxError where
  /-- The path of the module. -/
  path : String
  /-- Where the fault is. -/
  position : Position
  /-- What is wrong. -/
  fault : SyntaxFault
deriving DecidableEq

/-- The message for an error: path, line, column and fault. -/
def SyntaxError.message (e : SyntaxError) : String :=
  e.path ++ ":" ++ toString e.position.line ++ ":" ++ toString e.position.column ++ ": " ++
    e.fault.message

/-! ### Reading one token -/

/-- Whether a word may start with a character. -/
def isWordStart (c : Char) : Bool :=
  c.isAlpha || c = '_'

/-- Whether a word may go on with a character. -/
def isWordChar (c : Char) : Bool :=
  c.isAlphanum || c = '_'

/-- Whether a number may go on with a character. -/
def isNumberChar (c : Char) : Bool :=
  c.isDigit || c = '.'

/-- The rest of a string after its first quotation mark: its text, and what follows it. A backslash
takes the next character as it is, except that `n` and `t` stand for a line break and a tab. -/
def stringBody : List Char → Option (List Char × List Char)
  | [] => none
  | '"' :: cs => some ([], cs)
  | '\n' :: _ => none
  | '\\' :: cs =>
    match cs with
    | [] => none
    | e :: cs =>
      let c := if e = 'n' then '\n' else if e = 't' then '\t' else e
      (stringBody cs).map fun (text, rest) => (c :: text, rest)
  | c :: cs => (stringBody cs).map fun (text, rest) => (c :: text, rest)

/-- The sign that starts with a character, and what follows it. The longer of two signs is
taken. -/
def symbol? (c : Char) (cs : List Char) : Option (Kind × List Char) :=
  match c, cs with
  | ':', '=' :: cs => some (.assign, cs)
  | '!', '=' :: cs => some (.notEq, cs)
  | '<', '>' :: cs => some (.notEq, cs)
  | '<', '=' :: cs => some (.ltEq, cs)
  | '>', '=' :: cs => some (.gtEq, cs)
  | '=', '=' :: cs => some (.eq, cs)
  | '=', cs => some (.eq, cs)
  | '<', cs => some (.lt, cs)
  | '>', cs => some (.gt, cs)
  | '(', cs => some (.leftParen, cs)
  | ')', cs => some (.rightParen, cs)
  | ',', cs => some (.comma, cs)
  | ';', cs => some (.semicolon, cs)
  | '+', cs => some (.plus, cs)
  | '-', cs => some (.minus, cs)
  | '*', cs => some (.star, cs)
  | '/', cs => some (.slash, cs)
  | _, _ => none

/-- Read the token that starts with `c`, which is not blank and starts no comment. -/
def lexeme (c : Char) (cs : List Char) : Except SyntaxFault (Kind × List Char) :=
  if isWordStart c then
    .ok (.ident (String.ofList (c :: cs.takeWhile isWordChar)), cs.dropWhile isWordChar)
  else if c.isDigit then
    let text := c :: cs.takeWhile isNumberChar
    match Decimal.read? text with
    | some x => .ok (.number x, cs.dropWhile isNumberChar)
    | none => .error (.invalidNumber (String.ofList text))
  else if c = '"' then
    match stringBody cs with
    | some (text, rest) => .ok (.string (String.ofList text), rest)
    | none => .error .unterminatedString
  else
    match symbol? c cs with
    | some (kind, rest) => .ok (kind, rest)
    | none => .error (.unexpectedCharacter c)

theorem length_of_stringBody {cs text rest : List Char} (h : stringBody cs = some (text, rest)) :
    rest.length < cs.length := by
  fun_induction stringBody cs generalizing text with
  | case1 => cases h
  | case2 cs => cases h; simp
  | case3 => cases h
  | case4 => cases h
  | case5 =>
    rename_i ih
    obtain ⟨⟨text', rest'⟩, h', he⟩ := Option.map_eq_some_iff.1 h
    cases he
    exact Nat.lt_succ_of_lt (Nat.lt_succ_of_lt (ih h'))
  | case6 c cs _ _ _ ih =>
    obtain ⟨⟨text', rest'⟩, h', he⟩ := Option.map_eq_some_iff.1 h
    cases he
    exact Nat.lt_succ_of_lt (ih h')

theorem length_of_symbol? {c : Char} {cs rest : List Char} {kind : Kind}
    (h : symbol? c cs = some (kind, rest)) : rest.length ≤ cs.length := by
  unfold symbol? at h
  split at h <;> cases h <;> simp

/-- What a token can be, and what is left after it. -/
theorem lexeme_cases {c : Char} {cs rest : List Char} {kind : Kind}
    (h : lexeme c cs = .ok (kind, rest)) :
    (isWordStart c = true ∧ kind = .ident (String.ofList (c :: cs.takeWhile isWordChar)) ∧
      rest = cs.dropWhile isWordChar) ∨
    (c.isDigit = true ∧
      (∃ x, Decimal.read? (c :: cs.takeWhile isNumberChar) = some x ∧ kind = .number x) ∧
      rest = cs.dropWhile isNumberChar) ∨
    (c = '"' ∧ ∃ text, stringBody cs = some (text, rest) ∧ kind = .string (String.ofList text)) ∨
    symbol? c cs = some (kind, rest) := by
  unfold lexeme at h
  split at h
  · cases h
    exact .inl ⟨‹_›, rfl, rfl⟩
  · split at h
    · dsimp only at h
      split at h
      · cases h
        exact .inr (.inl ⟨‹_›, ⟨_, ‹_›, rfl⟩, rfl⟩)
      · cases h
    · split at h
      · split at h
        · cases h
          exact .inr (.inr (.inl ⟨‹_›, _, ‹_›, rfl⟩))
        · cases h
      · split at h
        · rename_i hsymbol
          cases h
          exact .inr (.inr (.inr hsymbol))
        · cases h

/-- A token takes its first character at least. -/
theorem length_of_lexeme {c : Char} {cs rest : List Char} {kind : Kind}
    (h : lexeme c cs = .ok (kind, rest)) : rest.length ≤ cs.length := by
  obtain ⟨-, -, rfl⟩ | ⟨-, -, rfl⟩ | ⟨-, text, hbody, -⟩ | hsymbol := lexeme_cases h
  · exact (List.dropWhile_sublist _).length_le
  · exact (List.dropWhile_sublist _).length_le
  · exact Nat.le_of_lt (length_of_stringBody hbody)
  · exact length_of_symbol? hsymbol

/-! ### Reading a text -/

/-- Split a text that starts at a position into tokens. -/
def scanFrom (position : Position) :
    List Char → Except (Position × SyntaxFault) (List Token × Position)
  | [] => .ok ([], position)
  | c :: cs =>
    if c = '\n' then scanFrom ⟨position.line + 1, 1⟩ cs
    else if Text.isBlank c then scanFrom ⟨position.line, position.column + 1⟩ cs
    else if c = '#' then scanFrom position (cs.dropWhile (· ≠ '\n'))
    else
      match _h : lexeme c cs with
      | .error fault => .error (position, fault)
      | .ok (kind, rest) =>
        let width := cs.length + 1 - rest.length
        (scanFrom ⟨position.line, position.column + width⟩ rest).map fun (tokens, stop) =>
          (⟨kind, position⟩ :: tokens, stop)
termination_by cs => cs.length
decreasing_by
  · simp
  · simp
  · exact Nat.lt_succ_of_le (List.dropWhile_sublist _).length_le
  · exact Nat.lt_succ_of_le (length_of_lexeme _h)

/-- Split the text of a module into tokens. -/
def Tokens.scan (path source : String) : Except SyntaxError Tokens :=
  match scanFrom ⟨1, 1⟩ source.toList with
  | .ok (tokens, stop) => .ok ⟨tokens, stop⟩
  | .error (position, fault) => .error ⟨path, position, fault⟩

end GatedRules
