import GatedRules.Source.Yaml.Place

/-!
# Blocks

A block is a scalar that starts on the line after its header and keeps its line ends. Its lines are
those that are indented at least as far as the block is, and the lines between them that hold
nothing. The indentation is given in the header or taken from the first line that holds something;
then no line without content before it may be longer.
-/

namespace GatedRules

namespace Yaml

/-! ### Headers -/

/-- What becomes of the line ends after the last line of a block. -/
inductive Chomp
  /-- One is kept. -/
  | clip
  /-- None is kept. -/
  | strip
  /-- All are kept. -/
  | keep
deriving DecidableEq, Repr

/-- Read the mark that says what becomes of the end of a block, if there is one. -/
def chompMark (cs : List Char) : Option Chomp × List Char :=
  match cs with
  | '-' :: cs => (some .strip, cs)
  | '+' :: cs => (some .keep, cs)
  | cs => (none, cs)

/-- Read the digit that gives the indentation of a block, if there is one. -/
def indentMark (cs : List Char) : Option Nat × List Char :=
  match cs with
  | c :: rest => if '1' ≤ c && c ≤ '9' then (some (c.toNat - 48), rest) else (none, cs)
  | [] => (none, [])

/-- What the header of a block says. -/
structure Header where
  /-- What becomes of the end. -/
  chomp : Chomp
  /-- How much further than its key the block is indented, if it is given. -/
  indent : Option Nat

/-- Read the marks of a header, which may come in either order. -/
def header (cs : List Char) : Header × List Char :=
  let (first, cs) := chompMark cs
  let (indent, cs) := indentMark cs
  let (second, cs) := if first.isNone then chompMark cs else (none, cs)
  (⟨(first <|> second).getD .clip, indent⟩, cs)

/-- Read the rest of a line that may hold nothing but a comment, with its end. -/
def lineEnd? (cs : List Char) : Option (List Char) :=
  let isWithin (c : Char) : Bool := !isBreak c
  match cs.dropWhile isSpace with
  | [] => some []
  | c :: cs =>
    if isBreak c then some cs
    else if c = '#' then some ((cs.dropWhile isWithin).drop 1)
    else none

/-! ### Content -/

/-- The indentation of a block that starts here: that of its first line with content, but at least
as much as the longest line before it. A tab in front of the content is refused. -/
def detectIndent? (widest column : Nat) : List Char → Option Nat
  | [] => some (max widest column)
  | c :: cs =>
    if isBreak c then detectIndent? (max widest column) 0 cs
    else if c = ' ' then detectIndent? widest (column + 1) cs
    else if c = '\t' then none
    else some (max widest column)

/-- Read the lines of a block of the given indentation, given the line ends that were passed since
its last character: its text, the line ends after it, and the place where it ends. -/
def blockLines? (indent : Nat) :
    List Char → Nat → List Char → Option (List Char × List Char × Place)
  | breaks, column, [] => some ([], breaks, ⟨column, []⟩)
  | breaks, column, c :: cs =>
    if isBreak c then blockLines? indent (breaks ++ [c]) 0 cs
    else if indent ≤ column then
      (blockLines? indent [] (column + 1) cs).map fun (text, tail, after) =>
        (breaks ++ c :: text, tail, after)
    else if c = ' ' then blockLines? indent breaks (column + 1) cs
    else if c = '\t' then none
    else some ([], breaks, ⟨column, c :: cs⟩)

/-- What is kept of the line ends after a text. In a block without text there is no last line whose
end could be kept. -/
def Chomp.kept (chomp : Chomp) (text tail : List Char) : List Char :=
  match chomp with
  | clip => if text.isEmpty then [] else tail.take 1
  | strip => []
  | keep => tail

/-- Read a block after its first character, below a key in the given column. -/
def block? (column : Nat) (cs : List Char) : Option (List Char × Place) := do
  let (header, cs) := header cs
  let cs ← lineEnd? cs
  let indent ←
    match header.indent with
    | some n => some (column + n)
    | none => detectIndent? (column + 1) 0 cs
  let (text, tail, after) ← blockLines? indent [] 0 cs
  return (text ++ header.chomp.kept text tail, after)

end Yaml

end GatedRules
