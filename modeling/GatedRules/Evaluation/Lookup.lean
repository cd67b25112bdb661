import GatedRules.Evaluation.Expression

/-!
# Looking up names

The value of a name in a scope is settled in this order: its proper definition, if the gate of that
holds; the definitions of the modules that are included at the sites of the scope; its default, if
the gate of that holds; the value of the name in the scope around; the input of the name; null.

A site contributes if its gate holds, all names of its template have a text, and there is a module
at the resulting path. It is not asked about gate slots, nor about the names on which any site of
the scope depends.
-/

namespace GatedRules

namespace Scope

/-- Whether all conditions are `true`. They are looked up in order, up to one that is not. -/
def conditionsHold (scope : Scope) : List Condition → Plan Bool
  | [] => pure true
  | c :: cs => do
    let v ← .value (.name scope c.name)
    if v.isTrue then conditionsHold scope cs else return false

/-- Whether a gate holds. -/
def gateHolds (scope : Scope) (gate : Gate) : Plan Bool :=
  scope.conditionsHold gate.conditions

/-- The value that a definition gives its name, if its gate holds. -/
def fromDefinition (scope : Scope) (name : String) (rank : Rank) (definition : Definition) :
    Plan (Option Value) := do
  if ← scope.gateHolds definition.gate then
    let v ← .value (.definition scope name rank definition)
    return some v
  else
    if definition.expr.isStateful then Plan.skip
    return none

/-- The value that the definition of a rank gives a name, if there is one and its gate holds. -/
def fromRank (scope : Scope) (name : String) (rank : Rank) : Plan (Option Value) :=
  match scope.definition? name rank with
  | none => pure none
  | some definition => scope.fromDefinition name rank definition

/-- The scope of the module that is included at a site, if the site contributes. -/
def enterSite (scope : Scope) (site : Site) : Plan (Option Scope) := do
  if ← scope.gateHolds site.gate then
    let names := site.template.inputs
    let values ← Plan.all (names.map fun n => .value (.name scope n))
    match Engine.render site (Table.ofList (names.zip values)).get? with
    | .error _ => return none
    | .ok path =>
      match ← Plan.resolve path with
      | .resolved graph => return some (scope.child graph)
      | .absent _ => return none
  else return none

/-- Whether the sites of a scope are asked about a name. -/
def asksSites (scope : Scope) (name : String) : Bool :=
  (scope.graph.slot? name).map Slot.kind != some .gate && !scope.graph.bindsSites name

/-- The value of a name from the first of some sites that yields one. -/
def fromSites (scope : Scope) (name : String) : List Site → Plan (Option Value)
  | [] => pure none
  | site :: sites => do
    match ← scope.enterSite site with
    | none => fromSites scope name sites
    | some child =>
      match ← Plan.primary child name with
      | some v => return some v
      | none => fromSites scope name sites

/-- The value of a name from its proper definition or from a module included at a site. -/
def fromPrimary (scope : Scope) (name : String) : Plan (Option Value) := do
  match ← scope.fromRank name .primary with
  | some v => return some v
  | none =>
    if scope.asksSites name then scope.fromSites name scope.graph.sites else return none

/-- The value of a name in a scope, computed anew. -/
def settle (scope : Scope) (name : String) : Plan Value := do
  match ← Plan.primary scope name with
  | some v => return v
  | none =>
    match ← scope.fromRank name .fallback with
    | some v => return v
    | none =>
      match scope.around with
      | [] => Plan.input name
      | g :: gs => .value (.name ⟨g, gs⟩ name)

/-! ### Laws -/

theorem fromRank_of_none {scope : Scope} {name : String} {rank : Rank}
    (h : scope.definition? name rank = none) : scope.fromRank name rank = pure none := by
  unfold fromRank
  rw [h]

/-- A definition whose gate has no conditions gives its name a value. -/
theorem fromRank_of_always {scope : Scope} {name : String} {rank : Rank} {definition : Definition}
    (h : scope.definition? name rank = some definition) (hg : definition.gate = .always) :
    scope.fromRank name rank =
      Plan.value (.definition scope name rank definition) >>= fun v => pure (some v) := by
  unfold fromRank fromDefinition
  rw [h]
  dsimp only
  rw [hg]
  rfl

end Scope

/-- How the value of a frame is computed. -/
def Frame.plan : Frame → Plan Value
  | name scope n => scope.settle n
  | definition scope n _ d => d.expr.eval scope n

/-- How a goal is answered. -/
def Goal.plan : (goal : Goal) → Plan goal.Answer
  | frame f => f.plan
  | primary scope name => scope.fromPrimary name

/-- What surrounds the computation of an answer. -/
def Handler.around {m : Type → Type} (h : Handler m) :
    (goal : Goal) → m goal.Answer → m goal.Answer
  | .frame f, compute => h.visit f compute
  | .primary _ _, compute => compute

/-- The answer to a goal. The budget bounds how deeply goals depend on each other. -/
def Handler.answer {m : Type → Type} [Monad m] (h : Handler m) :
    Nat → (goal : Goal) → m goal.Answer
  | 0, _ => h.exhaust
  | n + 1, goal => h.around goal (goal.plan.run h (h.answer n))

end GatedRules
