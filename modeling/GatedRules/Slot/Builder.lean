import GatedRules.Slot.Draft

/-!
# Builders of slot graphs

A builder keeps slots in the order of their registration, each with its name and its ordinal, and an
index from names to positions. What it is asked to do is done step by step, and what has been
changed stays changed when a step fails. That a refused definition has changed nothing, and that
every position in the index is one of a slot of that name, is therefore to be shown; and so is that
a builder does what a draft does.
-/

namespace GatedRules

namespace Builder

/-- A slot as a builder keeps it. -/
structure Record extends Slot where
  /-- The name of the slot. -/
  name : String
  /-- The ordinal of the slot. -/
  ordinal : Nat
deriving DecidableEq

/-- A site as a builder keeps it. -/
structure Place extends Site where
  /-- The position of the site. -/
  id : Nat
deriving DecidableEq

/-- Why a step fails. -/
inductive Fault
  /-- A second definition of the same kind for a name. -/
  | duplicate (duplicate : Duplicate)
  /-- There is no slot at a position. -/
  | missing (position : Nat)
deriving DecidableEq

end Builder

/-- A slot graph in the making, with the means to find its slots. -/
structure Builder where
  /-- The slots so far. -/
  slots : List Builder.Record
  /-- The positions of the slots by their names. -/
  index : Table String Nat
  /-- The sites so far. -/
  sites : List Builder.Place
  /-- The names whose text is known before any execution, with their texts. -/
  literals : Table String String

namespace Builder

/-- The builder in which nothing is registered. -/
def empty : Builder :=
  ⟨[], .empty, [], .empty⟩

/-- A step of a builder. -/
abbrev Step : Type → Type :=
  ExceptT Fault (StateM Builder)

/-- What a step results in, and the builder that it leaves behind. -/
def perform {α : Type} (x : Step α) (b : Builder) : Except Fault α × Builder :=
  x.run.run b

/-- The slot at a position. -/
def slotAt (i : Nat) : Step Record := do
  match (← get).slots[i]? with
  | some r => return r
  | none => throw (.missing i)

/-- The ordinal of a name. -/
def ordinalOf (name : String) : Step (Option Nat) := do
  match (← get).index.get? name with
  | none => return none
  | some i => return some (← slotAt i).ordinal

/-- Register a new slot. -/
def push (name : String) (kind : SlotKind) (definitions : Definitions) : Step Nat := do
  let ordinal := (← get).slots.length
  modify fun b => { b with index := b.index.insert name b.slots.length }
  modify fun b => { b with slots := b.slots ++ [⟨⟨kind, definitions⟩, name, ordinal⟩] }
  return ordinal

/-- The definitions of a slot after one more, if the slot takes it. -/
def merge? (definition : Definition) (isDefault : Bool) (s : Slot) : Option Definitions :=
  match s.definitions, isDefault, s.kind with
  | .fallback d, false, .value => some (.both definition d)
  | .primary d, true, .value => some (.both d definition)
  | _, _, _ => none

/-- Note the text of a name, if it is known. -/
def note (name : String) : Option String → Step Unit
  | none => return ()
  | some text => modify fun b => { b with literals := b.literals.insert name text }

/-- Register a definition of a name, or its default. -/
def define (name : String) (definition : Definition) (isDefault : Bool) : Step Nat := do
  let text? := if isDefault then none else definition.literalText?
  let ordinal ←
    match (← get).index.get? name with
    | none => push name .value (.single definition isDefault)
    | some i => do
      let r ← slotAt i
      match merge? definition isDefault r.toSlot with
      | none => throw (.duplicate ⟨name, r.active.origin, definition.origin⟩)
      | some definitions => do
        modify fun b => { b with slots := b.slots.set i { r with definitions } }
        pure r.ordinal
  note name text?
  return ordinal

/-- Register the condition of an include. -/
def defineGate (expr : Expr) (origin : String) : Step Condition := do
  match expr.asName? with
  | some name => return ⟨name, ← ordinalOf name⟩
  | none =>
    match ← ordinalOf expr.text with
    | some ordinal => return ⟨expr.text, some ordinal⟩
    | none =>
      let ordinal ← push expr.text .gate (.primary ⟨expr, .always, origin⟩)
      return ⟨expr.text, some ordinal⟩

/-- Register a site. -/
def addSite (site : Site) : Step Nat := do
  let id := (← get).sites.length
  modify fun b => { b with sites := b.sites ++ [⟨site, id⟩] }
  return id

end Builder

end GatedRules
