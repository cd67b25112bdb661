import GatedRules.Source.Bundle
import GatedRules.Source.Yaml.Block
import GatedRules.Source.Yaml.Scalar

/-!
# Bundles as YAML

A bundle is written as a YAML mapping from paths to sources. The part of YAML that is read here is
the one in which bundles are written: one mapping of scalars, whose keys stand on lines of their own
in one column, and whose values are plain, quoted, or blocks that keep their line ends. A key
without value has the empty text. A document without content is the empty mapping, and so is a pair
of braces. Everything else is refused: lists, nested mappings, scalars that stand alone, a second
document.
-/

namespace GatedRules

namespace Yaml

/-! ### Entries -/

/-- The number of bytes of a text. -/
def byteSize (cs : List Char) : Nat :=
  (String.ofList cs).utf8ByteSize

/-- Read a key with its colon. Both stand on one line, and at most so many bytes lie between the
start of the key and the colon. -/
def key? (longest : Nat) (p : Place) : Option (List Char × Place) := do
  let (line, more) := p.rest.span fun c => !isBreak c
  let (key, _, after) ← scalar? 0 ⟨p.column, line⟩
  match after.rest.dropWhile isSpace with
  | ':' :: cs =>
    if isParted cs && byteSize line ≤ longest + byteSize (':' :: cs) then
      some (key, ⟨p.column + (line.length - cs.length), cs ++ more⟩)
    else none
  | _ => none

/-- Read the value of a key in the given column. A value below its key is indented further, except
that a block may start in the column of the key. -/
def value? (column : Nat) (p : Place) : Option (List Char × Context × Place) :=
  let (context, p) := p.pass .within
  let isBelow (least : Nat) : Bool := context = .start && p.column < least
  match p.rest with
  | [] => some ([], context, p)
  | '|' :: cs =>
    if isBelow column then some ([], context, p)
    else (block? column cs).map fun (text, after) => (text, .start, after)
  | _ => if isBelow (column + 1) then some ([], context, p) else scalar? (column + 1) p

/-- The longest way from the start of a key to its colon, in bytes. -/
def longestKey : Nat :=
  1024

/-- Read entries whose keys stand in the given column, at most so many, up to a place further to the
left. -/
def entries? (column : Nat) : Nat → Context × Place → Option (List (String × String) × Place)
  | 0, (_, p) => some ([], p)
  | n + 1, (context, p) =>
    if p.rest.isEmpty || p.column < column || isDocumentMark p then some ([], p)
    else if context ≠ .start || p.column ≠ column then none
    else do
      let (key, after) ← key? longestKey p
      let (value, context, after) ← value? column after
      let (entries, last) ← entries? column n (after.pass context)
      return ((String.ofList key, String.ofList value) :: entries, last)

/-! ### Documents -/

/-- Whether nothing follows but marks that end a document, at most so many. -/
def isFinished : Nat → Place → Bool
  | 0, p => p.rest.isEmpty
  | n + 1, p =>
    p.rest.isEmpty ||
      (p.isMark '.' && isFinished n ((Place.mk 3 (p.rest.drop 3)).pass .within).2)

/-- Read the mapping of a document, and the place after it. -/
def content? (context : Context) (p : Place) : Option (List (String × String) × Place) :=
  match p.rest with
  | '\x7b' :: cs =>
    let (_, inner) := (Place.mk (p.column + 1) cs).pass .braces
    match inner.rest with
    | '\x7d' :: cs => some ([], ((Place.mk (inner.column + 1) cs).pass .within).2)
    | _ => none
  | cs => entries? p.column cs.length (context, p)

/-- The entries of a text with one document. A document may start with a mark; one without a mark
holds something before it ends. -/
def mapping? (text : String) : Option (List (String × String)) := do
  let cs := unifyBreaks text.toList
  let (context, p) := (Place.mk 0 cs).pass .start
  let (context, start) :=
    if p.isMark '-' then (Place.mk 3 (p.rest.drop 3)).pass .within else (context, p)
  let (entries, last) ← content? context start
  if text.toList.all isPrintable && !p.isMark '.' && isFinished cs.length last then some entries
  else none

end Yaml

/-- The bundle that a YAML document writes. -/
def Bundle.ofYaml? (text : String) : Option Bundle :=
  (Yaml.mapping? text).map Bundle.ofList

end GatedRules
