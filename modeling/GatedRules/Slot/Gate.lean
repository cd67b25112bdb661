import GatedRules.Text.Joined

/-!
# Gates

A gate decides whether a definition is active. It is a conjunction of conditions, each of which
names a slot or an input that must be `true`, listed from the entry module inwards. Gates are
compared by their conditions in order, so joining them is associative, with the gate without
conditions as its unit.

While a walk goes on, what is kept is a tree of conditions, so that a gate and those joined to it
share their subtrees (`GateTree`). Trees count as equal when they hold the same conditions in order,
and a gate is what trees that count as equal have in common: `GateTree.beq_iff_gate_eq`.
-/

namespace GatedRules

/-- A condition of a gate. -/
structure Condition where
  /-- The slot or input that must be `true`. -/
  name : String
  /-- The ordinal of the slot, if the name was one when the condition was made. -/
  ordinal : Option Nat
deriving DecidableEq, Repr

/-- A conjunction of conditions. -/
structure Gate where
  /-- The conditions, from the entry module inwards. -/
  conditions : List Condition
deriving DecidableEq, Repr

namespace Gate

/-- The gate that always holds. -/
def always : Gate :=
  ⟨[]⟩

instance : Inhabited Gate :=
  ⟨always⟩

/-- The gate of one condition. -/
def ofCondition (c : Condition) : Gate :=
  ⟨[c]⟩

/-- The gate that holds when both do: first the conditions outside, then those inside. -/
def and (outer inner : Gate) : Gate :=
  ⟨outer.conditions ++ inner.conditions⟩

/-- Whether a gate has no condition. -/
def isAlways (g : Gate) : Bool :=
  g.conditions.isEmpty

/-- The names of the conditions, in order. -/
def names (g : Gate) : List String :=
  g.conditions.map Condition.name

/-- The names on which a gate depends, each once, in the order in which they are evaluated. -/
def dependencies (g : Gate) : List String :=
  g.names.eraseDups

/-- The text of a gate. -/
def text (g : Gate) : String :=
  if g.isAlways then "true" else Text.joinedText " AND " g.names

/-! ### Laws -/

@[simp]
theorem names_and (a b : Gate) : (a.and b).names = a.names ++ b.names := by
  simp [Gate.and, names]

theorem mem_dependencies {g : Gate} {n : String} :
    n ∈ g.dependencies ↔ ∃ c ∈ g.conditions, c.name = n := by
  simp [dependencies, names, List.mem_eraseDups]

end Gate

/-! ### Trees -/

/-- A tree of conditions. -/
inductive GateNode
  /-- One condition. -/
  | condition (c : Condition)
  /-- What is asked for outside, and inside. -/
  | and (outer inner : GateNode)
deriving DecidableEq, Repr

/-- Go on with a list of conditions by those of a tree, from left to right. -/
def GateNode.collect : GateNode → List Condition → List Condition
  | condition c, out => out ++ [c]
  | and outer inner, out => inner.collect (outer.collect out)

/-- What a gate is kept as. -/
inductive GateTree
  /-- The gate that always holds. -/
  | always
  /-- The gate that holds when all conditions of a tree do. -/
  | when (node : GateNode)
deriving Repr

namespace GateTree

/-- The conditions, from the entry module inwards. -/
def conjuncts : GateTree → List Condition
  | always => []
  | when node => node.collect []

/-- Trees are compared by their conditions in order. -/
instance : BEq GateTree :=
  ⟨fun a b => a.conjuncts == b.conjuncts⟩

/-- Join the gate outside and the gate inside. The tree for no condition is not kept in another. -/
def combine : GateTree → GateTree → GateTree
  | always, inner => inner
  | outer, always => outer
  | when outer, when inner => when (.and outer inner)

/-- The gate that is kept as a tree. -/
def gate (t : GateTree) : Gate :=
  ⟨t.conjuncts⟩

end GateTree

theorem GateNode.collect_eq (node : GateNode) (out : List Condition) :
    node.collect out = out ++ node.collect [] := by
  induction node generalizing out with
  | condition c => rfl
  | and outer inner ihouter ihinner =>
    rw [collect, ihouter, ihinner, collect, ihinner (outer.collect []), List.append_assoc]

namespace GateTree

theorem conjuncts_combine (a b : GateTree) :
    (a.combine b).conjuncts = a.conjuncts ++ b.conjuncts := by
  cases a with
  | always => rfl
  | when outer =>
    cases b with
    | always => exact (List.append_nil _).symm
    | when inner => exact inner.collect_eq (outer.collect [])

/-- Trees count as equal when they are the same gate. -/
theorem beq_iff_gate_eq {a b : GateTree} : (a == b) = true ↔ a.gate = b.gate := by
  change (a.conjuncts == b.conjuncts) = true ↔ _
  rw [beq_iff_eq, gate, gate, Gate.mk.injEq]

theorem gate_combine (a b : GateTree) : (a.combine b).gate = a.gate.and b.gate :=
  congrArg Gate.mk (conjuncts_combine a b)

/-- A tree has a condition, so only the gate that always holds has none. -/
theorem isAlways_gate {t : GateTree} : t.gate.isAlways = true ↔ t = always := by
  cases t with
  | always => simp [gate, Gate.isAlways, conjuncts]
  | when node =>
    have hnode : node.collect [] ≠ [] := by
      induction node with
      | condition c => simp [GateNode.collect]
      | and outer inner ihouter _ =>
        rw [GateNode.collect, GateNode.collect_eq]
        exact List.append_ne_nil_of_left_ne_nil ihouter _
    simp [gate, Gate.isAlways, conjuncts, hnode]

end GateTree

end GatedRules
