import GatedRules.Evaluation.World

/-!
# Executions

An execution evaluates names of one graph against one set of inputs. It keeps what it has computed,
so that every definition is evaluated at most once, and the engine keeps what became of its sites.
-/

namespace GatedRules

/-- An evaluation of a graph against inputs. -/
structure Execution where
  /-- The number of the execution. -/
  id : ExecutionId
  /-- The graph of the entry module. -/
  graph : Graph
  /-- The inputs. -/
  inputs : Table String Value
  /-- The values computed so far. -/
  cells : Table String Value

namespace Execution

/-- The budget of an evaluation: how deeply look-ups may call each other. -/
def budget : Nat :=
  1000000

/-- Start an execution. -/
def start (e : Engine) (graph : Graph) (inputs : Table String Value) : Execution × Engine :=
  (⟨e.nextId, graph, inputs, .empty⟩,
    { e with metrics := e.metrics.countExecution, nextId := e.nextId + 1 })

/-- The value of a name, with a given budget, where actions do what a handler says. -/
def fetchWith (h : Handler EvalM) (budget : Nat) (x : Execution) (e : Engine) (name : String) :
    Except Halt Value × Execution × Engine :=
  let answer : EvalM Value := h.answer budget (.frame (.name (.entry x.graph) name))
  let (result, w) := answer.exec [] ⟨e, x.cells⟩
  (result, { x with cells := w.cells }, w.engine)

/-- What the evaluations of an execution depend on. -/
def setting (x : Execution) (loader : Loader) : Setting :=
  ⟨loader, x.id, x.inputs⟩

/-- The value of a name, with a given budget. -/
def fetchWithin (budget : Nat) (x : Execution) (e : Engine) (loader : Loader) (name : String) :
    Except Halt Value × Execution × Engine :=
  x.fetchWith (EvalM.handler (x.setting loader)) budget e name

/-- The value of a name. -/
def fetch (x : Execution) (e : Engine) (loader : Loader) (name : String) :
    Except Halt Value × Execution × Engine :=
  x.fetchWithin budget e loader name

/-- The values of names, one after the other, with a given budget for each. The first error ends it.

The names may be asked for at the same time. An evaluation waits for nothing but its loader and its
store, and a loader is a function here, which answers at once: then an evaluation that has begun
gets to its end before the next one begins, and this is their order. -/
def fetchAllWithin (budget : Nat) (x : Execution) (e : Engine) (loader : Loader) :
    List String → Except Halt (List Value) × Execution × Engine
  | [] => (.ok [], x, e)
  | name :: names =>
    match x.fetchWithin budget e loader name with
    | (.error halt, x, e) => (.error halt, x, e)
    | (.ok v, x, e) =>
      match x.fetchAllWithin budget e loader names with
      | (.error halt, x, e) => (.error halt, x, e)
      | (.ok vs, x, e) => (.ok (v :: vs), x, e)

/-- The values of names, one after the other. -/
def fetchAll (x : Execution) (e : Engine) (loader : Loader) (names : List String) :
    Except Halt (List Value) × Execution × Engine :=
  x.fetchAllWithin budget e loader names

/-- End an execution: what the engine keeps for it is forgotten. -/
def drop (x : Execution) (e : Engine) : Engine :=
  (e.finish x.id).2

end Execution

end GatedRules
