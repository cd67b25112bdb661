import GatedRules.Module.Token
import GatedRules.Slot.Draft
import GatedRules.Source.Loader

/-!
# Why a module does not compile

The causes for which no graph is made of a module, and the messages for them.
-/

namespace GatedRules

/-- Why a module does not compile. -/
inductive CompileError
  /-- There is no module at a path, which another module includes unless it is the entry module. -/
  | notFound (path : String) (includedFrom : Option String)
  /-- Modules include each other; the first is repeated at the end. -/
  | cycle (chain : List String)
  /-- Slots depend on each other; the first is repeated at the end. -/
  | dependencyCycle (chain : List String)
  /-- A name is defined twice. -/
  | duplicate (duplicate : Duplicate)
  /-- An include has a condition although its module is not known. -/
  | invalidGate (template origin : String) (line : Nat)
  /-- A source is not well-formed. -/
  | malformed (error : SyntaxError)
  /-- A source cannot be read. -/
  | load (path : String) (error : LoadError)
deriving DecidableEq

namespace CompileError

/-- A chain as messages write it. -/
def chainText (chain : List String) : String :=
  Text.joinedText " -> " chain

/-- The message for an error. -/
def message : CompileError → String
  | notFound path includedFrom =>
    "module `" ++ path ++ "` not found" ++
      (includedFrom.map fun origin => " (included from `" ++ origin ++ "`)").getD ""
  | cycle chain => "include cycle: " ++ chainText chain
  | dependencyCycle chain => "slot dependency cycle: " ++ chainText chain
  | duplicate d =>
    "duplicate definition of slot `" ++ d.name ++ "` in `" ++ d.origin ++ "` (first defined in `" ++
      d.firstOrigin ++ "`)"
  | invalidGate template origin line =>
    "Expected empty where clause for dynamic include \"" ++ template ++ "\" in `" ++ origin ++
      "` line " ++ toString line
  | malformed error => error.message
  | load path error => "failed to load `" ++ path ++ "`: " ++ error.message

/-- Whether the error is that there is no module at the entry path `root`. -/
def isMissingRoot (root : String) : CompileError → Bool
  | notFound path none => path = root
  | _ => false

end CompileError

end GatedRules
