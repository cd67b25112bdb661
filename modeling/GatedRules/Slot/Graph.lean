import GatedRules.Slot.Dependency

/-!
# Slot graphs

A graph is what a module and all that it includes at fixed paths compile to: a table of slots in
the order of their registration, and the sites in the order of the walk. The position of a slot in
the table is its ordinal. Graphs are immutable; `Draft` builds them.
-/

namespace GatedRules

/-- From what a graph was built. Graphs are rebuilt when their fingerprints differ. -/
inductive Fingerprint
  /-- A number that the builder of the graph chose. -/
  | tag (n : Nat)
  /-- The paths and sources of the modules, in the order in which they were fetched. -/
  | sources (fetched : List (String × String))
deriving DecidableEq, Repr

/-- A compiled module. -/
structure Graph where
  /-- The path of the entry module. -/
  root : String
  /-- The slots, in the order of their registration. -/
  slots : Table String Slot
  /-- The sites, in the order of the walk. -/
  sites : List Site
  /-- From what the graph was built. -/
  fingerprint : Fingerprint
  /-- The names on which sites depend. -/
  bound : List String := Dependency.boundNames slots sites
  /-- The names on which sites depend are those that follow from slots and sites. -/
  bound_eq : bound = Dependency.boundNames slots sites := by rfl

namespace Graph

/-- The graph without slots. -/
def empty (root : String) : Graph :=
  { root, slots := .empty, sites := [], fingerprint := .tag 0 }

/-- The slot of a name. -/
def slot? (g : Graph) (name : String) : Option Slot :=
  g.slots.get? name

/-- The ordinal of a name: its position among the slots. -/
def ordinal? (g : Graph) (name : String) : Option Nat :=
  g.slots.rank? name

/-- The names of the slots, in the order of their ordinals. -/
def names (g : Graph) : List String :=
  g.slots.keys

/-- The number of slots. -/
def size (g : Graph) : Nat :=
  g.slots.size

/-- Whether a site takes its target or its gate from a name, directly or through other slots. -/
def bindsSites (g : Graph) (name : String) : Bool :=
  g.bound.contains name

/-- The graph without its sites. -/
def withoutSites (g : Graph) : Graph :=
  { root := g.root, slots := g.slots, sites := [], fingerprint := g.fingerprint }

end Graph

end GatedRules
