import GatedRules.Module.Expr
import GatedRules.Module.Template

/-!
# Statements

A rule module is a sequence of statements. A binding gives a name an expression, either as its
definition or, marked `DEFAULT`, as what to fall back on. An include brings in another module,
under a condition if it has one. Every statement knows the line on which it starts.
-/

namespace GatedRules

/-- An include of another module. -/
structure Include where
  /-- Which module is included. -/
  target : Template
  /-- The condition under which it is included. -/
  condition : Option Expr
  /-- The line on which the statement starts. -/
  line : Nat
deriving DecidableEq

/-- A statement of a rule module. -/
inductive Statement
  /-- A definition of a name, or its default. -/
  | binding (name : String) (expr : Expr) (isDefault : Bool) (line : Nat)
  /-- An include of another module. -/
  | inclusion (directive : Include)
deriving DecidableEq

/-- The includes among statements, in order. -/
def Statement.includes (statements : List Statement) : List Include :=
  statements.filterMap fun
    | binding .. => none
    | inclusion directive => some directive

end GatedRules
