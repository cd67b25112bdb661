import GatedRules.Text.Blank
import GatedRules.Text.Joined

/-!
# Module paths

A module is known under a logical path. Its components are the pieces between slashes of either
kind; blank characters at the ends of the whole path, empty components and components `.` do not
count. A component `..` has no special meaning here: it stays.
-/

namespace GatedRules

namespace Path

/-- Whether a character separates components. -/
def isSlash (c : Char) : Bool :=
  c = '/' || c = '\\'

/-- The components of a path. -/
def components (cs : List Char) : List (List Char) :=
  (Text.split isSlash (Text.trim cs)).filter fun piece => piece ≠ [] && piece ≠ ['.']

/-- The components of a path with single slashes between them. -/
def canonicalChars (cs : List Char) : List Char :=
  Text.joined ['/'] (components cs)

/-- The name under which a path's module is known. -/
def canonical (path : String) : String :=
  String.ofList (canonicalChars path.toList)

end Path

end GatedRules
