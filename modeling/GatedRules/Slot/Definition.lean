import GatedRules.Module.Expr
import GatedRules.Module.Template
import GatedRules.Slot.Gate

/-!
# Slots and sites

A slot is what a graph knows under a name. A value slot has a definition, a default, or both; a
condition that is not a bare name has a slot of its own, a gate slot. A site is an include whose
module is known only when an execution knows its inputs.
-/

namespace GatedRules

/-- An expression with the gate under which it counts. -/
structure Definition where
  /-- The expression. -/
  expr : Expr
  /-- The gate under which the definition is active. -/
  gate : Gate
  /-- The path of the module that holds the definition. -/
  origin : String
deriving DecidableEq

namespace Definition

/-- The names that the expression mentions. -/
def dependencies (d : Definition) : List String :=
  d.expr.references

/-- The names on which the expression or the gate depends: first those of the expression. -/
def allDependencies (d : Definition) : List String :=
  d.dependencies ++ d.gate.dependencies

/-- The text that the definition gives its name before any execution: that of a string or a number
under no gate. -/
def literalText? (d : Definition) : Option String :=
  match d.expr with
  | .literal l => if d.gate.isAlways then l.pathText? else none
  | _ => none

end Definition

/-- Where a slot comes from. -/
inductive SlotKind
  /-- From bindings of the name. -/
  | value
  /-- From the condition of an include. -/
  | gate
deriving DecidableEq, Repr

/-- The definitions of a slot: a proper one, a default, or one of each. -/
inductive Definitions
  /-- A proper definition. -/
  | primary (definition : Definition)
  /-- A default. -/
  | fallback (definition : Definition)
  /-- A proper definition and a default. -/
  | both (primary fallback : Definition)
deriving DecidableEq

namespace Definitions

/-- The proper definition. -/
def primary? : Definitions → Option Definition
  | primary d | both d _ => some d
  | fallback _ => none

/-- The default. -/
def fallback? : Definitions → Option Definition
  | fallback d | both _ d => some d
  | primary _ => none

/-- The definition that counts first. -/
def active : Definitions → Definition
  | primary d | fallback d | both d _ => d

/-- The definitions, the proper one first. -/
def toList : Definitions → List Definition
  | primary d | fallback d => [d]
  | both d e => [d, e]

/-- Add a proper definition or a default, if there is none yet. -/
def add? (definition : Definition) (isDefault : Bool) : Definitions → Option Definitions
  | primary d => if isDefault then some (both d definition) else none
  | fallback d => if isDefault then none else some (both definition d)
  | both _ _ => none

/-- The definitions of which only one is known. -/
def single (definition : Definition) (isDefault : Bool) : Definitions :=
  if isDefault then fallback definition else primary definition

end Definitions

/-- What a graph knows under a name. -/
structure Slot where
  /-- Where the slot comes from. -/
  kind : SlotKind
  /-- The definitions of the name. -/
  definitions : Definitions
deriving DecidableEq

namespace Slot

/-- The proper definition. -/
def primary? (s : Slot) : Option Definition :=
  s.definitions.primary?

/-- The default. -/
def fallback? (s : Slot) : Option Definition :=
  s.definitions.fallback?

/-- The definition that counts first. -/
def active (s : Slot) : Definition :=
  s.definitions.active

/-- Whether there is nothing but a default. -/
def isDefault (s : Slot) : Bool :=
  s.definitions.primary?.isNone

/-- The names on which the definitions depend. -/
def dependencies (s : Slot) : List String :=
  s.definitions.toList.flatMap Definition.allDependencies

end Slot

/-- An include whose module is known only when an execution knows its inputs. -/
structure Site where
  /-- The target, with the names that it takes. -/
  template : Template
  /-- The gate of the module that holds the include. -/
  gate : Gate
  /-- The path of that module. -/
  origin : String
  /-- The line of the include. -/
  line : Nat
deriving DecidableEq

/-- The names on which a site depends. -/
def Site.dependencies (s : Site) : List String :=
  s.template.inputs ++ s.gate.dependencies

theorem Site.mem_dependencies {s : Site} {n : String} :
    n ∈ s.dependencies ↔ n ∈ s.template.inputs ∨ ∃ c ∈ s.gate.conditions, c.name = n := by
  rw [dependencies, List.mem_append, Gate.mem_dependencies]

end GatedRules
