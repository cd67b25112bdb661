import GatedRules.Slot.Graph

/-!
# Scopes

A name is looked up in the graph of a module, and if it is not settled there, in the graph of the
module at whose site that module was included, and so on up to the entry module. A scope is a graph
with this chain of graphs around it.

What is computed once is a frame: a name in a scope, or a definition of a name in a scope. Scopes
and frames are known by texts: a scope by the paths of its modules from the entry module inwards.
-/

namespace GatedRules

/-- A graph with the graphs around it. -/
structure Scope where
  /-- The graph. -/
  graph : Graph
  /-- The graphs around it, the nearest first. -/
  around : List Graph

namespace Scope

/-- The scope of an entry module. -/
def entry (g : Graph) : Scope :=
  ⟨g, []⟩

/-- The scope of a module that is included at a site. -/
def child (s : Scope) (g : Graph) : Scope :=
  ⟨g, s.graph :: s.around⟩

/-- The paths of the modules, from the entry module inwards. -/
def paths (s : Scope) : List String :=
  ((s.graph :: s.around).map Graph.root).reverse

/-- The text of a scope. -/
def text (s : Scope) : String :=
  Text.joinedText "|" s.paths

/-- The text of a name in a scope. -/
def frame (s : Scope) (name : String) : String :=
  s.text ++ "::" ++ name

end Scope

/-- The rank of a definition among those of its name. -/
inductive Rank
  /-- The proper definition. -/
  | primary
  /-- The default. -/
  | fallback
deriving DecidableEq, Repr

/-- The text of a rank. -/
def Rank.text : Rank → String
  | primary => "primary"
  | fallback => "default"

/-- The definition of a rank, if there is one. -/
def Slot.definition? (s : Slot) : Rank → Option Definition
  | .primary => s.primary?
  | .fallback => s.fallback?

namespace Scope

/-- The definition of a name in the graph of a scope. -/
def definition? (s : Scope) (name : String) (rank : Rank) : Option Definition :=
  (s.graph.slot? name).bind fun slot => slot.definition? rank

/-- The text of a definition of a name in a scope. -/
def definitionFrame (s : Scope) (name : String) (rank : Rank) : String :=
  s.frame name ++ "#" ++ rank.text

end Scope

/-- What is computed once in an execution. -/
inductive Frame
  /-- A name in a scope. -/
  | name (scope : Scope) (name : String)
  /-- A definition of a name in a scope. -/
  | definition (scope : Scope) (name : String) (rank : Rank) (definition : Definition)

/-- The text of a frame. -/
def Frame.text : Frame → String
  | name scope n => scope.frame n
  | definition scope n rank _ => scope.definitionFrame n rank

end GatedRules
