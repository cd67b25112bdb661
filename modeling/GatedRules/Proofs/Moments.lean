import GatedRules.Proofs.Cells
import GatedRules.Proofs.Reached
import Mathlib.Logic.Relation

/-!
# Moments of an evaluation

What an evaluation comes to depends on the world in which it begins: on the cells that are full, on
what is noted of module paths, and on the state that stateful calls have left in the store. A
`Moment` is where a goal is to be answered, in a world, with a stack of frames that have been
entered and a budget. `Moment.Next` says to which moments the answer leads: those of the goals that
the plan of the goal asks for, in the worlds that earlier answers and actions have left behind. A
frame that is on the stack, or whose cell is full, leads to none.

Which goals these may be can be read off the graphs (`Goal.Leads`), whatever the world is, as long
as what is noted of module paths is what becomes of them: the names that the graph of the scope
looks up, its definitions, the name in the scope around, and the modules at the paths that its sites
can render to (`Moment.Next.leads`). In contrast to `Setting.Reached`, nothing is assumed here about
the texts of scopes, nor about stateful calls.

An execution comes to a scope if an evaluation of some name comes to a moment there
(`Execution.ComesTo`).
-/

namespace GatedRules

open EvalM Relation

/-! ### Goals -/

namespace Goal

/-- The scope that a goal is about. -/
def scope : Goal → Scope
  | frame f => f.scope
  | primary s _ => s

/-- The name that a goal is about. -/
def name : Goal → String
  | frame (.name _ n) => n
  | frame (.definition _ n _ _) => n
  | primary _ n => n

/-- A goal about a definition is about one that its scope has. -/
def Proper : Goal → Prop
  | frame (.definition s n rank d) => s.definition? n rank = some d
  | _ => True

end Goal

/-- A site of a module can render to the path of another module. -/
def Loader.MayInclude (loader : Loader) (g g' : Graph) : Prop :=
  ∃ site ∈ g.sites, ∃ bound path, Engine.render site bound = .ok path ∧
    Engine.outcome loader (Path.canonical path) = .ok (.resolved g')

/-- The answer to a goal may ask for another one, as far as can be read off the graphs. -/
inductive Goal.Leads (loader : Loader) : Goal → Goal → Prop
  /-- A name that the graph of the scope looks up. -/
  | lookup {goal : Goal} {n : String} : n ∈ goal.scope.graph.lookups →
    Leads loader goal (.frame (.name goal.scope n))
  /-- A definition of the name. -/
  | definition {goal : Goal} {rank : Rank} {d : Definition} :
    goal.scope.definition? goal.name rank = some d →
    Leads loader goal (.frame (.definition goal.scope goal.name rank d))
  /-- The value of a name from its proper definition or from a module. -/
  | primary {s : Scope} {n : String} : Leads loader (.frame (.name s n)) (.primary s n)
  /-- The value of a name in the scope around. -/
  | around {g g' : Graph} {gs : List Graph} {n : String} :
    Leads loader (.frame (.name ⟨g, g' :: gs⟩ n)) (.frame (.name ⟨g', gs⟩ n))
  /-- The value of a name from a module at a site. -/
  | child {goal : Goal} {g : Graph} : loader.MayInclude goal.scope.graph g →
    Leads loader goal (.primary (goal.scope.child g) goal.name)

namespace Goal

variable {loader : Loader} {goal goal' : Goal}

theorem Leads.proper (h : goal.Leads loader goal') : goal'.Proper := by
  cases h with
  | definition hd => exact hd
  | _ => trivial

/-- What the answer to a goal may do: it makes stateful calls only if the graph of the scope has a
stateful definition. -/
def MayAct (goal : Goal) : Action → Prop
  | .call _ _ => ¬ goal.scope.graph.Stateless
  | _ => True

/-- What may be asked for and done to answer a goal. A module path is known to result in what
becomes of it. -/
def protocol (loader : Loader) (goal : Goal) : Protocol Unit where
  later _ _ := True
  mayAsk _ := goal.Leads loader
  mayAct _ := goal.MayAct
  answered _ _ _ := True
  acted _ action r :=
    match action, r with
    | .resolve path, outcome => Engine.outcome loader (Path.canonical path) = .ok outcome
    | _, _ => True
  refl _ := trivial
  trans _ _ := trivial
  mayAsk_mono _ h := h
  mayAct_mono _ h := h
  answered_mono _ h := h
  acted_mono _ h := h

/-- What the name of a goal needs in its scope is to ask for goals to which the goal leads. -/
theorem serves_leads (loader : Loader) (goal : Goal) :
    (goal.protocol loader).Serves goal.scope goal.name () where
  condition hd _ hc := .lookup <|
    (Scope.defines_of_definition? hd).lookups (Definition.mem_dependencies_of_gate hc)
  definition hd _ _ := .definition hd
  site _ _ hs _ hm := .lookup (Graph.mem_lookups_of_site hs hm)
  child _ site hs _ _ _ hl := by
    obtain ⟨values, path, -, hrender, ho⟩ := hl.resolves
    exact .child ⟨site, hs, _, path, hrender, ho⟩
  resolve _ := trivial
  skip := trivial

/-- A goal asks for goals to which it leads. -/
theorem plan_leads (h : goal.Proper) :
    goal.plan.Follows (goal.protocol loader) (fun _ _ => True) () := by
  cases goal with
  | primary s n => exact Scope.fromPrimary_follows (serves_leads loader (.primary s n))
  | frame f =>
    cases f with
    | name s n =>
      refine Scope.settle_follows (serves_leads loader (.frame (.name s n))) .primary ?_ trivial
      intro g gs hg
      obtain ⟨g', _⟩ := s
      subst hg
      exact .around
    | definition s n rank d =>
      have hdefines := Scope.defines_of_definition? h
      refine Expr.eval_follows d.expr ⟨fun m hm => .lookup ?_, trivial, fun hst c hstateless => ?_⟩
      · exact hdefines.lookups (Definition.mem_dependencies_of_mentions hm)
      · have hstateless : s.graph.Stateless := hstateless
        rw [hstateless.of_defines hdefines] at hst
        cases hst

end Goal

/-! ### What is asked for -/

/-- While a plan is run in a world, a goal is asked for in a world, where answers are given with a
budget and a stack. -/
inductive Plan.Asks (σ : Setting) (k : Nat) (stack : List String) {α : Type} :
    Plan α → World → Goal → World → Prop
  /-- The goal is asked for at once. -/
  | here {goal : Goal} {next : goal.Answer → Plan α} {w : World} :
    Asks σ k stack (.ask goal next) w goal w
  /-- The goal is asked for after the answer to another one. -/
  | answered {goal goal' : Goal} {next : goal.Answer → Plan α} {r : goal.Answer}
    {w w' w'' : World} :
    ((handler σ).answer k goal).exec stack w = (.ok r, w') →
    Asks σ k stack (next r) w' goal' w'' → Asks σ k stack (.ask goal next) w goal' w''
  /-- The goal is asked for after an action. -/
  | acted {action : Action} {goal : Goal} {next : action.Result → Plan α} {r : action.Result}
    {w w' w'' : World} :
    (act σ action).exec stack w = (.ok r, w') →
    Asks σ k stack (next r) w' goal w'' → Asks σ k stack (.perform action next) w goal w''

/-- Where a goal is to be answered. -/
structure Moment where
  /-- The budget. -/
  budget : Nat
  /-- The goal. -/
  goal : Goal
  /-- The texts of the frames that have been entered. -/
  stack : List String
  /-- The world. -/
  world : World

namespace Moment

/-- What the answer results in and leaves behind. -/
def exec (σ : Setting) (m : Moment) : Except Halt m.goal.Answer × World :=
  ((handler σ).answer m.budget m.goal).exec m.stack m.world

/-- The answer at a moment asks for another goal, and so comes to another moment. -/
inductive Next (σ : Setting) : Moment → Moment → Prop
  /-- The value of a name from its proper definition or from a module takes what its plan asks
  for. -/
  | primary {k : Nat} {s : Scope} {n : String} {stack : List String} {w w' : World} {goal : Goal} :
    (s.fromPrimary n).Asks σ k stack w goal w' →
    Next σ ⟨k + 1, .primary s n, stack, w⟩ ⟨k, goal, stack, w'⟩
  /-- A frame that is not on the stack, and whose cell is empty, is entered. -/
  | frame {k : Nat} {f : Frame} {stack : List String} {w w' : World} {goal : Goal} :
    ¬ stack.contains f.text = true → w.cells.get? f.text = none →
    f.plan.Asks σ k (stack ++ [f.text]) w goal w' →
    Next σ ⟨k + 1, .frame f, stack, w⟩ ⟨k, goal, stack ++ [f.text], w'⟩

end Moment

/-- The moment at which an execution is asked for a name. -/
def Execution.moment (x : Execution) (e : Engine) (budget : Nat) (name : String) : Moment :=
  ⟨budget, .frame (.name (.entry x.graph) name), [], x.world e⟩

/-- An evaluation of some name comes to a scope. -/
def Execution.ComesTo (x : Execution) (e : Engine) (loader : Loader) (scope : Scope) : Prop :=
  ∃ budget name m, ReflTransGen (Moment.Next (x.setting loader)) (x.moment e budget name) m ∧
    m.goal.scope = scope

variable {σ : Setting} {k : Nat} {stack : List String} {w w' : World} {goal : Goal} {α : Type}

/-! ### What moments lead to -/

/-- Actions keep what is noted of module paths consistent. -/
theorem EvalM.consistent_act (σ : Setting) (action : Action) :
    (act σ action).Preserves fun w => w.engine.Consistent σ.loader σ.id := by
  refine preserves_act (fun _ _ h => h) (fun _ _ h => h) fun path _ stack w hw => ?_
  rw [exec_resolve]
  exact hw.resolvePath path

/-- Evaluations keep what is noted of module paths consistent. -/
theorem EvalM.consistent_answer (σ : Setting) (k : Nat) (goal : Goal) :
    ((handler σ).answer k goal).Preserves fun w => w.engine.Consistent σ.loader σ.id :=
  preserves_answer (consistent_act σ) (fun _ _ _ h => h) k goal

/-- A module path results in what becomes of it. -/
theorem Engine.Consistent.acted {action : Action} {r : action.Result} {top : Goal}
    (hw : w.engine.Consistent σ.loader σ.id) (h : (act σ action).exec stack w = (.ok r, w')) :
    (top.protocol σ.loader).acted () action r := by
  cases action with
  | resolve path =>
    have hresult := congrArg Prod.fst ((exec_resolve σ path stack w).symm.trans h)
    dsimp only at hresult
    rw [hw.resolvePath_fst] at hresult
    change Engine.outcome σ.loader (Path.canonical path) = .ok r
    cases ho : Engine.outcome σ.loader (Path.canonical path) with
    | error error =>
      rw [ho] at hresult
      cases hresult
    | ok outcome =>
      rw [ho] at hresult
      cases hresult
      rfl
  | _ => trivial

/-- While the plan of a goal is run, that is asked for to which the goal leads. -/
theorem Plan.Asks.leads {x : Plan α} {top : Goal} {Q : Unit → α → Prop}
    (h : x.Asks σ k stack w goal w') (hx : x.Follows (top.protocol σ.loader) Q ())
    (hw : w.engine.Consistent σ.loader σ.id) :
    top.Leads σ.loader goal ∧ w'.engine.Consistent σ.loader σ.id := by
  induction h with
  | here => exact ⟨hx.1, hw⟩
  | @answered first _ _ r w _ _ ha _ ih =>
    have hw' := consistent_answer σ k first stack w hw
    rw [ha] at hw'
    exact ih (hx.2 () r trivial trivial) hw'
  | @acted action _ _ r w _ _ ha _ ih =>
    have hw' := consistent_act σ action stack w hw
    rw [ha] at hw'
    exact ih (hx.2 () r trivial (hw.acted ha)) hw'

namespace Moment

variable {m m' : Moment}

/-- A moment is about a proper goal, in a world that is consistent. -/
structure Valid (σ : Setting) (m : Moment) : Prop where
  /-- The goal is proper. -/
  proper : m.goal.Proper
  /-- What is noted of module paths is what becomes of them. -/
  consistent : m.world.engine.Consistent σ.loader σ.id

/-- **What a moment leads to** is one of the goals to which its goal leads. -/
theorem Next.leads (h : Next σ m m') (hm : m.Valid σ) :
    m.goal.Leads σ.loader m'.goal ∧ m'.Valid σ := by
  have hplan : m.goal.plan.Follows (m.goal.protocol σ.loader) (fun _ _ => True) () :=
    Goal.plan_leads hm.proper
  cases h with
  | primary ha =>
    obtain ⟨hleads, hw⟩ := ha.leads hplan hm.consistent
    exact ⟨hleads, hleads.proper, hw⟩
  | frame _ _ ha =>
    obtain ⟨hleads, hw⟩ := ha.leads hplan hm.consistent
    exact ⟨hleads, hleads.proper, hw⟩

theorem Valid.arises (hm : m.Valid σ) (h : ReflTransGen (Next σ) m m') : m'.Valid σ := by
  induction h with
  | refl => exact hm
  | tail _ hnext ih => exact (hnext.leads ih).2

end Moment

/-! ### Budgets -/

/-- A step that finishes does the same as another one. -/
def EvalM.Repeats {α : Type} (x y : EvalM α) : Prop :=
  ∀ stack w, Finished (x.exec stack w).1 → y.exec stack w = x.exec stack w

theorem EvalM.related_repeats (σ : Setting) :
    (handler σ).Related (fun _ x y => x.Repeats y) (fun _ => True) (handler σ) where
  pure _ _ _ _ := rfl
  bind {α β x y f g} hx hf stack w hfinished := by
    rw [exec_bind] at hfinished ⊢
    rw [exec_bind]
    have hfirst := hx stack w
    rcases hr : x.exec stack w with ⟨halt | a, w'⟩
    · rw [hr] at hfirst hfinished
      rw [hfirst hfinished.halt]
    · rw [hr] at hfirst hfinished
      rw [hfirst (finished_ok a)]
      exact hf a stack w' hfinished
  fail _ _ _ _ := rfl
  exhaust _ _ _ := rfl
  perform _ _ _ _ := rfl
  visit {f f' x y} htext hx stack w hfinished := by
    rw [visit_congr htext σ σ]
    rw [exec_visit] at hfinished ⊢
    rw [exec_visit]
    split
    · rfl
    rename_i hs
    rw [if_neg hs] at hfinished
    cases hc : w.cells.get? f.text with
    | some v => rfl
    | none =>
      rw [hc] at hfinished
      dsimp only at hfinished ⊢
      have hinside := hx (stack ++ [f.text]) w
      rcases hr : x.exec (stack ++ [f.text]) w with ⟨halt | v, w'⟩
      · rw [hr] at hinside hfinished
        rw [hinside hfinished]
      · rw [hr] at hinside
        rw [hinside (finished_ok v)]

/-- With a larger budget, an evaluation that finishes does the same. -/
theorem EvalM.repeats_answer {k' : Nat} (h : k ≤ k') (goal : Goal) :
    ((handler σ).answer k goal).Repeats ((handler σ).answer k' goal) := by
  induction k generalizing k' goal with
  | zero => exact fun stack w hfinished => absurd rfl hfinished
  | succ k ih =>
    obtain ⟨k', rfl⟩ : ∃ j, k' = j + 1 := ⟨k' - 1, by omega⟩
    have hplan : (goal.plan.run (handler σ) ((handler σ).answer k)).Repeats
        (goal.plan.run (handler σ) ((handler σ).answer k')) :=
      (related_repeats σ).run _ _ (fun goal => ih (Nat.le_of_succ_le_succ h) goal) goal.plan
    cases goal with
    | primary s n => exact hplan
    | frame f => exact (related_repeats σ).visit rfl hplan

end GatedRules
