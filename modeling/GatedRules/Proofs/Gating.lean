import GatedRules.Proofs.Growth
import GatedRules.Proofs.Protocol
import GatedRules.Proofs.Reached

/-!
# What cells show of gates

An evaluation asks for a definition only where all conditions of its gate are `true`, and goes on in
the module at a site only where the gate of the site has opened and its template has led there. What
an evaluation goes by are cells, so this is said about worlds: a frame is asked for only in a world
that shows that it may be (`World.ShowsPermitted`, `plan_follows_gating`).

A cell is known by a text, and what it shows of a scope may have been computed in another scope that
has the same text. So nothing in this module says where a condition has been evaluated, but only
what the cell for it holds.
-/

namespace GatedRules

namespace World

/-- The cells for the conditions of a gate in a scope hold `true`. -/
def ShowsOpen (w : World) (scope : Scope) (gate : Gate) : Prop :=
  ∀ c ∈ gate.conditions, w.cells.get? (scope.frame c.name) = some (.bool true)

/-- The cells for the conditions of the gate of a site hold `true`, and those for the names in its
template hold what leads to a module. -/
structure ShowsEntered (id : ExecutionId) (w : World) (scope : Scope) (site : Site)
    (graph : Graph) : Prop where
  /-- The gate is shown to be open. -/
  gate : w.ShowsOpen scope site.gate
  /-- The template leads to the module. -/
  module : ∃ values path,
    List.Forall₂ (fun n v => w.cells.get? (scope.frame n) = some v) site.template.inputs values ∧
    Engine.render site (Table.ofList (site.template.inputs.zip values)).get? = .ok path ∧
    (w.engine.memo id).get? (Path.canonical path) = some (some (.resolved graph))

/-- The scopes to which a chain of sites leads from the entry module that are shown to be entered.
-/
inductive ShowsReached (id : ExecutionId) (entry : Graph) (w : World) : Scope → Prop
  /-- The scope of the entry module. -/
  | entry : ShowsReached id entry w (.entry entry)
  /-- The scope of a module at a site. -/
  | child {scope : Scope} {site : Site} {graph : Graph} : ShowsReached id entry w scope →
    site ∈ scope.graph.sites → ShowsEntered id w scope site graph →
    ShowsReached id entry w (scope.child graph)

/-- The world shows that a frame may be computed. Its scope is shown to be reached. A name is asked
for from outside, in the scope of the entry module, or the module of some such scope looks it up.
A definition has a gate that is shown to be open. -/
def ShowsPermitted (id : ExecutionId) (entry : Graph) (w : World) : Frame → Prop
  | .name scope n => w.ShowsReached id entry scope ∧
    (scope = .entry entry ∨ ∃ t, w.ShowsReached id entry t ∧ n ∈ t.graph.lookups)
  | .definition scope n rank d =>
    w.ShowsReached id entry scope ∧ scope.definition? n rank = some d ∧ w.ShowsOpen scope d.gate

variable {id : ExecutionId} {entry : Graph} {w w' : World} {scope : Scope}

/-! ### What is shown stays so -/

theorem ShowsOpen.mono {gate : Gate} (h : w.ShowsOpen scope gate) (hw : Extends id w w') :
    w'.ShowsOpen scope gate :=
  fun c hc => hw.cells (h c hc)

theorem ShowsEntered.mono {site : Site} {graph : Graph} (h : ShowsEntered id w scope site graph)
    (hw : Extends id w w') : ShowsEntered id w' scope site graph := by
  obtain ⟨values, path, hv, hr, hm⟩ := h.module
  exact ⟨h.gate.mono hw, values, path, hv.imp fun _ _ hc => hw.cells hc, hr, hw.modules hm⟩

theorem ShowsReached.mono (h : w.ShowsReached id entry scope) (hw : Extends id w w') :
    w'.ShowsReached id entry scope := by
  induction h with
  | entry => exact .entry
  | child _ hs he ih => exact .child ih hs (he.mono hw)

theorem ShowsPermitted.mono {frame : Frame} (h : w.ShowsPermitted id entry frame)
    (hw : Extends id w w') : w'.ShowsPermitted id entry frame := by
  cases frame with
  | name scope n =>
    exact ⟨h.1.mono hw, h.2.imp_right fun ⟨t, ht, hn⟩ => ⟨t, ht.mono hw, hn⟩⟩
  | definition scope n rank d => exact ⟨h.1.mono hw, h.2.1, h.2.2.mono hw⟩

theorem ShowsPermitted.reached {frame : Frame} (h : w.ShowsPermitted id entry frame) :
    w.ShowsReached id entry frame.scope := by
  cases frame <;> exact h.1

/-- The scope around a scope that is shown to be reached is shown to be reached. -/
theorem ShowsReached.around (h : w.ShowsReached id entry scope) {g : Graph} {gs : List Graph}
    (hg : scope.around = g :: gs) : w.ShowsReached id entry ⟨g, gs⟩ := by
  cases h with
  | entry => cases hg
  | child h _ _ =>
    cases hg
    exact h

/-- A name that the module of a scope looks up may be asked for there. -/
theorem ShowsReached.permits (h : w.ShowsReached id entry scope) {n : String}
    (hn : n ∈ scope.graph.lookups) : w.ShowsPermitted id entry (.name scope n) :=
  ⟨h, .inr ⟨scope, h, hn⟩⟩

end World

/-! ### Plans ask for nothing but what is shown to be permitted -/

open World

/-- The protocol of an execution: a frame may be asked for where a world shows that it may be
computed, answers are in the cells, and what became of module paths is noted. -/
def gating (id : ExecutionId) (entry : Graph) : Protocol World where
  later := Extends id
  mayAsk w
    | .frame f => w.ShowsPermitted id entry f
    | .primary scope _ => w.ShowsReached id entry scope
  mayAct _ _ := True
  answered w
    | .frame f, v => w.cells.get? f.text = some v
    | .primary _ _, _ => True
  acted w
    | .resolve path, outcome =>
      (w.engine.memo id).get? (Path.canonical path) = some (some outcome)
    | _, _ => True
  refl := .refl
  trans := .trans
  mayAsk_mono {_ _ goal} hw h := by
    cases goal with
    | frame f => exact ShowsPermitted.mono h hw
    | primary scope name => exact ShowsReached.mono h hw
  mayAct_mono _ h := h
  answered_mono {_ _ goal _} hw h := by
    cases goal with
    | frame f => exact hw.cells h
    | primary scope name => trivial
  acted_mono {_ _ action _} hw h := by
    cases action with
    | resolve path => exact hw.modules h
    | _ => trivial

variable {id : ExecutionId} {entry : Graph}

/-- A name of a scope that is shown to be reached asks for nothing but what is permitted. -/
theorem gating_serves {w : World} {scope : Scope} (h : w.ShowsReached id entry scope)
    (name : String) : (gating id entry).Serves scope name w where
  condition hd _ hc := h.permits <|
    (Scope.defines_of_definition? hd).lookups (Definition.mem_dependencies_of_gate hc)
  definition hd hw ho := ⟨h.mono hw, hd, ho⟩
  site _ _ hs _ hm := h.permits (Graph.mem_lookups_of_site hs hm)
  child _ _ hs _ _ hw hl := .child (h.mono hw) hs ⟨hl.isOpen, hl.resolves⟩
  resolve _ := trivial
  skip := trivial

theorem plan_follows_gating {w : World} {goal : Goal} (h : (gating id entry).mayAsk w goal) :
    goal.plan.Follows (gating id entry) (fun _ _ => True) w := by
  cases goal with
  | primary scope name => exact Scope.fromPrimary_follows (gating_serves h name)
  | frame f =>
    cases f with
    | name scope n =>
      obtain ⟨hscope, hname⟩ := h
      refine Scope.settle_follows (gating_serves hscope n) hscope (fun g gs hg => ?_) trivial
      refine ⟨hscope.around hg, hname.imp_left fun hentry => ?_⟩
      -- There is nothing around the entry module.
      subst hentry
      cases hg
    | definition scope n rank d =>
      have hdefines := Scope.defines_of_definition? h.2.1
      refine Expr.eval_follows d.expr ⟨fun m hm => ?_, trivial, fun _ _ => trivial⟩
      exact h.1.permits (hdefines.lookups (Definition.mem_dependencies_of_mentions hm))

namespace EvalM

variable {σ : Setting}

theorem acted_of_act {action : Action} {r : action.Result} {stack : List String} {w w' : World}
    (h : (act σ action).exec stack w = (.ok r, w')) : (gating σ.id entry).acted w' action r := by
  cases action with
  | resolve path => exact memo_of_resolve h
  | _ => trivial

theorem answered_of_answer {k : Nat} {goal : Goal} {r : goal.Answer} {stack : List String}
    {w w' : World} (h : ((handler σ).answer k goal).exec stack w = (.ok r, w')) :
    (gating σ.id entry).answered w' goal r := by
  cases goal with
  | frame f => exact cell_of_answer h
  | primary scope name => trivial

end EvalM

end GatedRules
