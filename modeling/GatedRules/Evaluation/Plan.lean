import GatedRules.Evaluation.Engine
import GatedRules.Evaluation.Scope

/-!
# Plans of evaluations

How a name gets its value is laid down in plans. A plan has a result, or fails, or goes on after an
action or with the answer to a goal; so it says what is asked for, in which order and under which
conditions, but not how goals are answered nor what actions do. A `Handler` says what actions do in
a monad, and with answers to all goals it runs a plan there.
-/

namespace GatedRules

/-- A call of a function that keeps state, with the values of its arguments. -/
inductive StatefulCall
  /-- Count once more in a group. -/
  | count (groups : List Value)
  /-- Count a value in a group, if it was not counted yet. -/
  | countUnique (value : Value) (groups : List Value)
  /-- Take one from the quota of a group. -/
  | takeQuota (quota : Int) (groups : List Value)

/-- What an evaluation does besides asking for values. -/
inductive Action
  /-- Read the input of a name. -/
  | input (name : String)
  /-- Make a stateful call for a slot. -/
  | call (slot : String) (call : StatefulCall)
  /-- Note that a closed gate keeps a stateful definition from being evaluated. -/
  | skip
  /-- Find out what becomes of a module path. -/
  | resolve (path : String)

/-- What an action results in. -/
def Action.Result : Action → Type
  | input _ => Value
  | call _ _ => Value
  | skip => Unit
  | resolve _ => Outcome

/-- What an evaluation asks for. -/
inductive Goal
  /-- The value of a frame. -/
  | frame (frame : Frame)
  /-- The value of a name from its proper definition or from a module included at a site. -/
  | primary (scope : Scope) (name : String)

/-- How a goal is answered. -/
def Goal.Answer : Goal → Type
  | frame _ => Value
  | primary _ _ => Option Value

/-- What is left to do for a result. -/
inductive Plan (α : Type)
  /-- The result is there. -/
  | done (a : α)
  /-- Fail with an error. -/
  | fail (error : EvalError)
  /-- Act, and go on. -/
  | perform (action : Action) (next : action.Result → Plan α)
  /-- Ask for something, and go on with the answer. -/
  | ask (goal : Goal) (next : goal.Answer → Plan α)

/-- What actions do, and what happens around the evaluation of a frame. -/
structure Handler (m : Type → Type) where
  /-- Fail with an error. -/
  fail : {α : Type} → EvalError → m α
  /-- Halt because the budget is exhausted. -/
  exhaust : {α : Type} → m α
  /-- Act. -/
  perform : (action : Action) → m action.Result
  /-- The value of a frame, given how to compute it. -/
  visit : Frame → m Value → m Value

namespace Plan

variable {α β : Type}

/-- Go on with the result of a plan. -/
def bind : Plan α → (α → Plan β) → Plan β
  | done a, f => f a
  | fail error, _ => fail error
  | perform action next, f => perform action fun r => (next r).bind f
  | ask goal next, f => ask goal fun r => (next r).bind f

instance : Monad Plan where
  pure := done
  bind := bind

/-- The input of a name. -/
def input (name : String) : Plan Value :=
  perform (.input name) done

/-- The value of a stateful call for a slot. -/
def call (slot : String) (c : StatefulCall) : Plan Value :=
  perform (.call slot c) done

/-- Note that a closed gate keeps a stateful definition from being evaluated. -/
def skip : Plan Unit :=
  perform .skip done

/-- What becomes of a module path. -/
def resolve (path : String) : Plan Outcome :=
  perform (.resolve path) done

/-- The value of a frame. -/
def value (frame : Frame) : Plan Value :=
  ask (.frame frame) done

/-- The value of a name from its proper definition or from a module included at a site. -/
def primary (scope : Scope) (name : String) : Plan (Option Value) :=
  ask (.primary scope name) done

/-- The results of plans, from the first to the last. -/
def all : List (Plan α) → Plan (List α)
  | [] => pure []
  | x :: xs => do
    let a ← x
    let as ← all xs
    return a :: as

/-- The result of an operation on values. -/
def ofValue (result : Except TypeFault Value) : Plan Value :=
  match result with
  | .ok v => pure v
  | .error fault => fail (.type fault)

/-- Run a plan, where goals are answered as given. -/
def run {m : Type → Type} [Monad m] (h : Handler m) (answer : (goal : Goal) → m goal.Answer) :
    Plan α → m α
  | done a => pure a
  | fail error => h.fail error
  | perform action next => do
    let r ← h.perform action
    (next r).run h answer
  | ask goal next => do
    let r ← answer goal
    (next r).run h answer

end Plan

end GatedRules
