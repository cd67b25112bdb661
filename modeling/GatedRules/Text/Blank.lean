/-!
# Blank characters

A character is blank when it has the Unicode property `White_Space`. The property belongs to
twenty-five characters; core's `Char.isWhitespace` knows four of them. Trimming a text removes
the blank characters at both of its ends and nothing in between.
-/

namespace GatedRules

namespace Text

/-- Whether a character has the Unicode property `White_Space`. -/
def isBlank (c : Char) : Bool :=
  let n := c.toNat
  (0x09 ≤ n && n ≤ 0x0d) || n == 0x20 || n == 0x85 || n == 0xa0 || n == 0x1680 ||
    (0x2000 ≤ n && n ≤ 0x200a) || n == 0x2028 || n == 0x2029 || n == 0x202f || n == 0x205f ||
    n == 0x3000

/-- Remove the blank characters at both ends. -/
def trim (cs : List Char) : List Char :=
  ((cs.dropWhile isBlank).reverse.dropWhile isBlank).reverse

/-- A text without blank characters at its ends. -/
def trimmed (s : String) : String :=
  String.ofList (trim s.toList)

end Text

end GatedRules
