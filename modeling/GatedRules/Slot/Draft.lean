import GatedRules.Slot.Graph

/-!
# Drafts of slot graphs

A draft takes definitions, conditions and sites one at a time. A name may have one proper
definition and one default, which may come in either order; a further definition is refused and
leaves the draft as it was. A condition that is not a bare name becomes a gate slot named by its
canonical text, so that equal conditions share a slot. `build` makes a graph of the draft, unless
slots depend on each other in a cycle.
-/

namespace GatedRules

/-- A second definition of the same kind for a name. -/
structure Duplicate where
  /-- The name. -/
  name : String
  /-- The module of the first definition. -/
  firstOrigin : String
  /-- The module of the second definition. -/
  origin : String
deriving DecidableEq, Repr

/-- A slot graph in the making. -/
structure Draft where
  /-- The slots so far. -/
  slots : Table String Slot
  /-- The sites so far. -/
  sites : List Site
  /-- The names whose text is known before any execution, with their texts. -/
  literals : Table String String

namespace Draft

/-- The draft in which nothing is registered. -/
def empty : Draft :=
  ⟨.empty, [], .empty⟩

/-- The ordinal of a name. -/
def ordinal? (d : Draft) (name : String) : Option Nat :=
  d.slots.rank? name

/-- The text that a name is known to have before any execution. -/
def literal? (d : Draft) (name : String) : Option String :=
  d.literals.get? name

/-- Note the text of a proper definition, if it has one. -/
def noteLiteral (name : String) (definition : Definition) (isDefault : Bool)
    (literals : Table String String) : Table String String :=
  match if isDefault then none else definition.literalText? with
  | some text => literals.insert name text
  | none => literals

/-- The slot of a name after one more definition, if the slot takes it. -/
def addTo? (definition : Definition) (isDefault : Bool) (slot : Slot) : Option Slot :=
  match slot.kind with
  | .gate => none
  | .value => (slot.definitions.add? definition isDefault).map (Slot.mk .value)

/-- Register a definition of a name, or its default. -/
def define (d : Draft) (name : String) (definition : Definition) (isDefault : Bool) :
    Except Duplicate Draft :=
  match d.slots.get? name with
  | none =>
    .ok { d with
      slots := d.slots.insert name ⟨.value, .single definition isDefault⟩
      literals := noteLiteral name definition isDefault d.literals }
  | some slot =>
    match addTo? definition isDefault slot with
    | none => .error ⟨name, slot.active.origin, definition.origin⟩
    | some slot =>
      .ok { d with
        slots := d.slots.insert name slot
        literals := noteLiteral name definition isDefault d.literals }

/-- Register the condition of an include. A bare name is its own condition; any other expression has
a gate slot, which is made unless there is a slot of that name. -/
def defineGate (d : Draft) (expr : Expr) (origin : String) : Draft × Condition :=
  match expr.asName? with
  | some name => (d, ⟨name, d.ordinal? name⟩)
  | none =>
    let name := expr.text
    match d.ordinal? name with
    | some ordinal => (d, ⟨name, some ordinal⟩)
    | none =>
      ({ d with slots := d.slots.insert name ⟨.gate, .primary ⟨expr, .always, origin⟩⟩ },
        ⟨name, some d.slots.size⟩)

/-- Register a site. -/
def addSite (d : Draft) (site : Site) : Draft :=
  { d with sites := d.sites ++ [site] }

/-- The graph of a draft, or a cycle of slots that depend on each other. -/
def build (d : Draft) (root : String) (fingerprint : Fingerprint) : Except (List String) Graph :=
  match Dependency.findCycle d.slots with
  | some cycle => .error cycle
  | none => .ok { root, slots := d.slots, sites := d.sites, fingerprint }

/-! ### Laws -/

/-- What a definition that is accepted changes: its name has a slot with it then, and its text is
noted. -/
theorem of_define {d d' : Draft} {name : String} {definition : Definition} {isDefault : Bool}
    (h : d.define name definition isDefault = .ok d') :
    ∃ slot, (d.slots.get? name = none ∧ slot = ⟨.value, .single definition isDefault⟩ ∨
        ∃ old, d.slots.get? name = some old ∧ addTo? definition isDefault old = some slot) ∧
      d' = { d with
        slots := d.slots.insert name slot
        literals := noteLiteral name definition isDefault d.literals } := by
  unfold define at h
  split at h
  · rename_i hnone
    cases h
    exact ⟨_, .inl ⟨hnone, rfl⟩, rfl⟩
  · rename_i old hsome
    split at h
    · cases h
    · rename_i slot hadd
      cases h
      exact ⟨slot, .inr ⟨old, hsome, hadd⟩, rfl⟩

/-- The graph of a draft has its slots and sites, and no cycle. -/
theorem of_build {d : Draft} {root : String} {fingerprint : Fingerprint} {g : Graph}
    (h : d.build root fingerprint = .ok g) :
    Dependency.findCycle d.slots = none ∧ g.root = root ∧ g.slots = d.slots ∧ g.sites = d.sites ∧
      g.fingerprint = fingerprint := by
  unfold build at h
  split at h
  · cases h
  · cases h
    exact ⟨‹_›, rfl, rfl, rfl, rfl⟩

end Draft

end GatedRules
