import GatedRules.Slot.Graph

/-!
# Printed graphs

A slot is printed as one expression: a gated definition as `if(gate, definition, fallback)`, where
the fallback is the default, or null. Every name that is a slot is followed by its ordinal in at
least two digits. A graph is printed line by line: the slots in the order of their ordinals, then
the sites.
-/

namespace GatedRules

namespace Printer

/-- An ordinal in at least two digits. -/
def ordinalText (n : Nat) : String :=
  if n < 10 then "0" ++ toString n else toString n

/-- A name with its ordinal, if it has one. -/
def withOrdinal (name : String) : Option Nat → String
  | some ordinal => name ++ ":" ++ ordinalText ordinal
  | none => name

/-- A name as it is printed inside an expression. -/
def nameText (g : Graph) (name : String) : String :=
  withOrdinal name (g.ordinal? name)

/-- A condition of a gate as it is printed. -/
def conditionText (c : Condition) : String :=
  "bool(" ++ withOrdinal c.name c.ordinal ++ ")"

/-- A gate as it is printed. -/
def gateText (gate : Gate) : String :=
  match gate.conditions with
  | [] => "true"
  | [c] => conditionText c
  | cs => "and(" ++ Text.joinedText ", " (cs.map conditionText) ++ ")"

/-- A definition as it is printed, with what counts when its gate does not hold. -/
def definitionText (g : Graph) (d : Definition) (fallback : String) : String :=
  let expr := d.expr.render (nameText g)
  if d.gate.isAlways then expr
  else "if(" ++ gateText d.gate ++ ", " ++ expr ++ ", " ++ fallback ++ ")"

/-- A slot as it is printed. -/
def slotText (g : Graph) (s : Slot) : String :=
  match s.definitions with
  | .both primary fallback => definitionText g primary (definitionText g fallback "null")
  | .primary d | .fallback d => definitionText g d "null"

/-- What stands after the name of a slot. -/
def marker (s : Slot) : String :=
  match s.kind with
  | .gate => " [gate]"
  | .value => if s.isDefault then " [default]" else ""

/-- The line of a slot. -/
def slotLine (g : Graph) (ordinal : Nat) (name : String) (s : Slot) : String :=
  ordinalText ordinal ++ " " ++ name ++ marker s ++ " := " ++ slotText g s ++ "\n"

/-- The line of a site. -/
def siteLine (id : Nat) (s : Site) : String :=
  "site " ++ toString id ++ ": INCLUDE \"" ++ s.template.text ++ "\"" ++
    (if s.gate.isAlways then "" else " WHEN " ++ gateText s.gate) ++
    " (" ++ s.origin ++ ":" ++ toString s.line ++ ")\n"

end Printer

/-- The printed source of a slot. -/
def Graph.source? (g : Graph) (name : String) : Option String :=
  (g.slot? name).map (Printer.slotText g)

/-- The printed graph. -/
def Graph.printed (g : Graph) : String :=
  String.join (g.slots.entries.mapIdx fun i e => Printer.slotLine g i e.1 e.2) ++
    String.join (g.sites.mapIdx Printer.siteLine)

end GatedRules
