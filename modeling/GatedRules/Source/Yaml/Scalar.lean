import GatedRules.Source.Yaml.Place
import GatedRules.Text.Bytes

/-!
# Plain and quoted scalars

A scalar that is no block is plain or stands between quotation marks, and its text may go on over
several lines. Blanks around a line end belong to the layout. A single line end is read as a blank,
and of several the first is dropped and the others stay; `Gap` keeps account of them. Every scalar
is text, whatever it looks like.
-/

namespace GatedRules

namespace Yaml

/-! ### Gaps -/

/-- What was passed since the last character of a scalar. -/
inductive Gap
  /-- Blanks on one line. -/
  | blanks (cs : List Char)
  /-- Line ends: the first, unless a backslash stood before it, and the others. -/
  | lines (first : Option Char) (more : List Char)

/-- Nothing was passed. -/
def Gap.empty : Gap :=
  .blanks []

/-- Pass one more blank or line end. -/
def Gap.add (c : Char) : Gap → Gap
  | blanks cs => if isBreak c then lines (some c) [] else blanks (cs ++ [c])
  | lines first more => if isBreak c then lines first (more ++ [c]) else lines first more

/-- Whether nothing was passed. -/
def Gap.isEmpty : Gap → Bool
  | blanks cs => cs.isEmpty
  | lines .. => false

/-- Whether a line end was passed. -/
def Gap.isLines : Gap → Bool
  | blanks _ => false
  | lines .. => true

/-- What a gap means when the scalar goes on after it. -/
def Gap.text : Gap → List Char
  | blanks cs => cs
  | lines none more => more
  | lines (some '\n') [] => [' ']
  | lines (some '\n') more => more
  | lines (some c) more => c :: more

/-- Where the place after a gap is on its line. -/
def Gap.context (gap : Gap) : Context :=
  if gap.isLines then .start else .within

/-! ### Plain scalars -/

/-- Whether a plain scalar may start here. -/
def startsPlain (cs : List Char) : Bool :=
  match cs with
  | [] => false
  | c :: rest =>
    if c = '-' || c = '?' || c = ':' then !isParted rest
    else !isSpace c && !isBreak c && !",[]\x7b\x7d#&*!|>'\"%@`".toList.contains c

/-- Whether a plain scalar ends before a character, given what was passed before it: at a line that
is not indented enough, at a comment, and at a colon that does not belong to the text. -/
def endsPlain (indent : Nat) (gap : Gap) (column : Nat) (c : Char) (cs : List Char) : Bool :=
  (gap.isLines && column < indent) || (!gap.isEmpty && c = '#') || (c = ':' && isParted cs)

/-- Read the rest of a plain scalar, given what was passed since its last character. Its lines are
indented by blanks; a tab in their place is refused. -/
def plain (indent : Nat) : Gap → Nat → List Char → Option (List Char × Context × Place)
  | gap, column, [] => some ([], gap.context, ⟨column, []⟩)
  | gap, column, c :: cs =>
    if isBreak c then plain indent (gap.add c) 0 cs
    else if isSpace c then
      if c = '\t' && gap.isLines && column < indent then none
      else plain indent (gap.add c) (column + 1) cs
    else if endsPlain indent gap column c cs then some ([], gap.context, ⟨column, c :: cs⟩)
    else (plain indent .empty (column + 1) cs).map fun (text, after) =>
      (gap.text ++ c :: text, after)

/-! ### Quoted scalars -/

/-- The column after a character. -/
def columnAfter (column : Nat) (c : Char) : Nat :=
  if isBreak c then 0 else column + 1

/-- Whether a place is the mark of a document, which no quoted scalar may hold. -/
def isDocumentMark (p : Place) : Bool :=
  p.isMark '-' || p.isMark '.'

/-- Read the rest of a scalar between single quotation marks. A mark written twice is one of the
text. -/
def singleQuoted : Gap → Nat → List Char → Option (List Char × Place)
  | _, _, [] => none
  | gap, column, '\x27' :: '\x27' :: cs =>
    (singleQuoted .empty (column + 2) cs).map fun (text, after) =>
      (gap.text ++ '\x27' :: text, after)
  | gap, column, c :: cs =>
    if c = '\x27' then some (gap.text, ⟨column + 1, cs⟩)
    else if isSpace c || isBreak c then singleQuoted (gap.add c) (columnAfter column c) cs
    else if isDocumentMark ⟨column, c :: cs⟩ then none
    else (singleQuoted .empty (column + 1) cs).map fun (text, after) =>
      (gap.text ++ c :: text, after)

/-- The character that an escape of one character stands for. -/
def escape? (c : Char) : Option Char :=
  if c = '"' ∨ c = '\\' ∨ c = '/' ∨ c = ' ' ∨ c = '\t' then some c
  else if c = 'n' then some '\n'
  else if c = 't' then some '\t'
  else if c = 'r' then some '\r'
  else if c = '0' then some '\x00'
  else if c = 'a' then some '\x07'
  else if c = 'b' then some '\x08'
  else if c = 'e' then some '\x1b'
  else if c = 'f' then some '\x0c'
  else if c = 'v' then some '\x0b'
  else if c = 'N' then some '\u0085'
  else if c = '_' then some '\u00a0'
  else if c = 'L' then some '\u2028'
  else if c = 'P' then some '\u2029'
  else none

/-- How many hexadecimal digits follow an escape, if it takes some. -/
def escapeDigits (c : Char) : Nat :=
  if c = 'x' then 2 else if c = 'u' then 4 else if c = 'U' then 8 else 0

/-- The character of a number. -/
def scalarValue? (n : Nat) : Option Char :=
  if n.isValidChar then some (Char.ofNat n) else none

/-- What is still to come of an escape. -/
inductive Pending
  /-- No escape is open. -/
  | none
  /-- A backslash was read. -/
  | backslash
  /-- So many hexadecimal digits are missing. -/
  | digits (missing : Nat) (value : Nat)

/-- Read the rest of a scalar between double quotation marks. A backslash at the end of a line joins
it to the next line. -/
def doubleQuoted : Pending → Gap → Nat → List Char → Option (List Char × Place)
  | _, _, _, [] => Option.none
  | .none, gap, column, c :: cs =>
    if c = '"' then some (gap.text, ⟨column + 1, cs⟩)
    else if isSpace c || isBreak c then doubleQuoted .none (gap.add c) (columnAfter column c) cs
    else if isDocumentMark ⟨column, c :: cs⟩ then Option.none
    else if c = '\\' then
      (doubleQuoted .backslash .empty (column + 1) cs).map fun (text, after) =>
        (gap.text ++ text, after)
    else
      (doubleQuoted .none .empty (column + 1) cs).map fun (text, after) =>
        (gap.text ++ c :: text, after)
  | .backslash, _, column, c :: cs =>
    if isBreak c then doubleQuoted .none (.lines Option.none []) 0 cs
    else
      match escapeDigits c with
      | 0 => do
        let e ← escape? c
        (doubleQuoted .none .empty (column + 1) cs).map fun (text, after) => (e :: text, after)
      | missing => doubleQuoted (.digits missing 0) .empty (column + 1) cs
  | .digits missing value, _, column, c :: cs => do
    let digit ← Text.hexValue? c
    let value := 16 * value + digit
    if missing = 1 then
      let e ← scalarValue? value
      (doubleQuoted .none .empty (column + 1) cs).map fun (text, after) => (e :: text, after)
    else doubleQuoted (.digits (missing - 1) value) .empty (column + 1) cs

/-! ### Scalars -/

/-- Read a scalar that is no block. The lines of a plain one after the first are indented at least
so far. -/
def scalar? (indent : Nat) (p : Place) : Option (List Char × Context × Place) :=
  match p.rest with
  | '"' :: cs =>
    (doubleQuoted .none .empty (p.column + 1) cs).map fun (text, after) => (text, .within, after)
  | '\x27' :: cs =>
    (singleQuoted .empty (p.column + 1) cs).map fun (text, after) => (text, .within, after)
  | cs => if startsPlain cs then plain indent .empty p.column cs else none

end Yaml

end GatedRules
