import GatedRules.Evaluation.Lookup

/-!
# Steps of an evaluation

An evaluation changes the engine and the cells of its execution, and what it has changed stays
changed when it fails. It halts with an error, or because its budget is exhausted; the budget bounds
the depth of the evaluation, and running out of it says nothing about the program.

A cell holds a value that has been computed, under the text of the frame that computed it. Cells are
filled by values only: after an error the next evaluation tries again. The stack holds the texts of
the frames that have been entered, so an evaluation that needs itself is noticed.
-/

namespace GatedRules

/-- What an evaluation may change. -/
structure World where
  /-- What outlives the execution. -/
  engine : Engine
  /-- The values computed in the execution. -/
  cells : Table String Value

/-- Why an evaluation halts. -/
inductive Halt
  /-- It fails. -/
  | failed (error : EvalError)
  /-- Its budget is exhausted. -/
  | exhausted

/-- A step of an evaluation, which knows the stack. -/
abbrev EvalM : Type → Type :=
  ReaderT (List String) (ExceptT Halt (StateM World))

/-- What an evaluation depends on and does not change. -/
structure Setting where
  /-- Where modules come from. -/
  loader : Loader
  /-- The number of the execution. -/
  id : ExecutionId
  /-- The inputs of the execution. -/
  inputs : Table String Value

/-- The input of a name; null if there is none. -/
def Setting.input (s : Setting) (name : String) : Value :=
  (s.inputs.get? name).getD .null

namespace EvalM

variable {α β : Type}

/-- What a step results in and leaves behind, given the stack. -/
def exec (x : EvalM α) (stack : List String) (w : World) : Except Halt α × World :=
  (x.run stack).run.run w

/-- Fail with an error. -/
def fail (error : EvalError) : EvalM α :=
  throw (.failed error)

/-- Halt because the budget is exhausted. -/
def exhaust : EvalM α :=
  throw .exhausted

/-- Do something with the store. -/
def withStore (f : Store → Except StoreFault α × Store) : EvalM α := do
  let w ← get
  let (result, store) := f w.engine.store
  set { w with engine := { w.engine with store } }
  match result with
  | .ok a => return a
  | .error fault => fail (.store fault)

/-- Count something. -/
def count (f : Metrics → Metrics) : EvalM Unit :=
  modify fun w => { w with engine := { w.engine with metrics := f w.engine.metrics } }

/-- What becomes of a module path in the execution. -/
def resolve (setting : Setting) (path : String) : EvalM Outcome := do
  let w ← get
  let (result, engine) := w.engine.resolvePath setting.loader setting.id path
  set { w with engine }
  match result with
  | .ok outcome => return outcome
  | .error error => fail error

/-- The value of a stateful call of a slot. -/
def call (slot : String) : StatefulCall → EvalM Value
  | .count groups => do
    let n ← withStore fun s => s.increment (.ofCall Function.count.name slot groups)
    return .int n
  | .countUnique value groups => do
    let key := .ofCall Function.countUnique.name slot groups
    let member := value.pathText?.getD value.compact
    withStore fun s => s.addMembers key [member]
    withStore fun s => (.ok (.int (s.countMembers [key])), s)
  | .takeQuota quota groups => do
    let n ← withStore fun s => s.takeQuota (.ofCall Function.rateLimit.name slot groups) quota 1
    return .int n

/-- The value of a cell, which is computed if the cell is empty. -/
def memo (cell : String) (compute : EvalM Value) : EvalM Value := do
  match (← get).cells.get? cell with
  | some v => return v
  | none =>
    let v ← compute
    modify fun w => { w with cells := w.cells.insert cell v }
    return v

/-- Do something inside a frame, which must not be entered already. -/
def enter (frame : String) (inside : EvalM α) : EvalM α := do
  let stack ← read
  if stack.contains frame then fail (.recursion (stack ++ [frame]))
  else withReader (fun stack => stack ++ [frame]) inside

/-- What actions do in an execution. -/
def act (setting : Setting) : (action : Action) → EvalM action.Result
  | .input name => pure (setting.input name)
  | .call slot c => call slot c
  | .skip => count Metrics.countGatedSkip
  | .resolve path => resolve setting path

/-- How an execution goes about an evaluation. -/
def handler (setting : Setting) : Handler EvalM where
  fail := fail
  exhaust := exhaust
  perform := act setting
  visit frame compute := enter frame.text (memo frame.text compute)

/-! ### Laws -/

theorem exec_bind (x : EvalM α) (f : α → EvalM β) (stack : List String) (w : World) :
    (x >>= f).exec stack w =
      match x.exec stack w with
      | (.ok a, w) => (f a).exec stack w
      | (.error halt, w) => (.error halt, w) := by
  change (match x.exec stack w with
    | (r, w') => (ExceptT.bindCont (fun a => (f a).run stack) r).run w') = _
  rcases x.exec stack w with ⟨_ | _, _⟩ <;> rfl

@[simp]
theorem exec_count (f : Metrics → Metrics) (stack : List String) (w : World) :
    (count f).exec stack w =
      (.ok (), { w with engine := { w.engine with metrics := f w.engine.metrics } }) :=
  rfl

theorem exec_get (stack : List String) (w : World) :
    (get : EvalM World).exec stack w = (.ok w, w) :=
  rfl

theorem exec_withStore (f : Store → Except StoreFault α × Store) (stack : List String)
    (w : World) :
    (withStore f).exec stack w =
      ((f w.engine.store).1.mapError fun fault => .failed (.store fault),
        { w with engine := { w.engine with store := (f w.engine.store).2 } }) := by
  unfold withStore
  rw [exec_bind, exec_get]
  dsimp only
  rw [exec_bind]
  rcases f w.engine.store with ⟨_ | _, _⟩ <;> rfl

theorem exec_resolve (setting : Setting) (path : String) (stack : List String) (w : World) :
    (resolve setting path).exec stack w =
      ((w.engine.resolvePath setting.loader setting.id path).1.mapError .failed,
        { w with engine := (w.engine.resolvePath setting.loader setting.id path).2 }) := by
  unfold resolve
  rw [exec_bind, exec_get]
  dsimp only
  rw [exec_bind]
  rcases w.engine.resolvePath setting.loader setting.id path with ⟨_ | _, _⟩ <;> rfl

theorem exec_enter (frame : String) (x : EvalM α) (stack : List String) (w : World) :
    (enter frame x).exec stack w =
      if stack.contains frame then (.error (.failed (.recursion (stack ++ [frame]))), w)
      else x.exec (stack ++ [frame]) w := by
  change (if stack.contains frame then _ else _ : EvalM α).exec stack w = _
  split <;> rfl

theorem exec_memo (cell : String) (x : EvalM Value) (stack : List String) (w : World) :
    (memo cell x).exec stack w =
      match w.cells.get? cell with
      | some v => (.ok v, w)
      | none =>
        match x.exec stack w with
        | (.ok v, w) => (.ok v, { w with cells := w.cells.insert cell v })
        | (.error halt, w) => (.error halt, w) := by
  unfold memo
  rw [exec_bind, exec_get]
  dsimp only
  cases w.cells.get? cell with
  | some v => rfl
  | none =>
    dsimp only
    rw [exec_bind]
    rcases x.exec stack w with ⟨_ | _, _⟩ <;> rfl

end EvalM

end GatedRules
