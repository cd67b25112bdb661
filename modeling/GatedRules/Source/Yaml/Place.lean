/-!
# Places in a YAML text

A YAML text is read one character after the other, and what a character means depends on the column
in which it stands. `Place` is a column with the text from there on. Between two scalars a text may
hold blanks, comments and line ends; `pass` leaves them behind.
-/

namespace GatedRules

namespace Yaml

/-! ### Characters -/

/-- Whether a YAML text may hold a character as it is. -/
def isPrintable (c : Char) : Bool :=
  let n := c.toNat
  n == 0x09 || n == 0x0a || n == 0x0d || (0x20 ≤ n && n ≤ 0x7e) || n == 0x85 ||
    (0xa0 ≤ n && n ≤ 0xfffd) || 0x10000 ≤ n

/-- Whether a character is a blank or a tab. -/
def isSpace (c : Char) : Bool :=
  c = ' ' || c = '\t'

/-- Whether a character ends a line: a line feed, or the separator of lines or of paragraphs. -/
def isBreak (c : Char) : Bool :=
  c = '\n' || c = '\u2028' || c = '\u2029'

/-- A text in which a line feed stands for every carriage return, for a carriage return with a line
feed, and for the character that means a next line. -/
def unifyBreaks : List Char → List Char
  | [] => []
  | '\r' :: '\n' :: cs => '\n' :: unifyBreaks cs
  | c :: cs => (if c = '\r' || c = '\u0085' then '\n' else c) :: unifyBreaks cs

/-- Whether a text is at its end, at a blank, or at a line end. So an indicator before it is told
from a character of a scalar. -/
def isParted (cs : List Char) : Bool :=
  cs.head?.all fun c => isSpace c || isBreak c

/-! ### Places -/

/-- A place in a text. -/
structure Place where
  /-- The number of characters before it on its line. -/
  column : Nat
  /-- The text from there on. -/
  rest : List Char
deriving DecidableEq, Repr

/-- Whether a line starts here that begins with three times the same character, which is how a
document starts and ends. -/
def Place.isMark (p : Place) (c : Char) : Bool :=
  p.column = 0 && [c, c, c].isPrefixOf p.rest && isParted (p.rest.drop 3)

/-! ### Between scalars -/

/-- Where on a line blanks are passed. -/
inductive Context
  /-- Nothing was read from the line: a key may follow, and a tab may not stand for indentation. -/
  | start
  /-- Something was read from the line. -/
  | within
  /-- Between braces, where lines mean nothing. -/
  | braces
deriving DecidableEq, Repr

/-- Where the next line begins. -/
def Context.nextLine : Context → Context
  | braces => braces
  | _ => start

/-- Whether a character in a column is passed as a blank. A byte order mark may start a line. -/
def Context.passes (context : Context) (column : Nat) (c : Char) : Bool :=
  c = ' ' || (c = '\t' && context ≠ .start) || (c = '\uFEFF' && column = 0)

/-- Pass over blanks, comments and line ends. A comment may already be open. -/
def pass (context : Context) (comment : Bool) (column : Nat) : List Char → Context × Place
  | [] => (context, ⟨column, []⟩)
  | c :: cs =>
    if isBreak c then pass context.nextLine false 0 cs
    else if comment || context.passes column c then pass context comment (column + 1) cs
    else if c = '#' then pass context true (column + 1) cs
    else (context, ⟨column, c :: cs⟩)

/-- Pass over blanks, comments and line ends from a place on. -/
def Place.pass (p : Place) (context : Context) : Context × Place :=
  Yaml.pass context false p.column p.rest

end Yaml

end GatedRules
