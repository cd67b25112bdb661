import GatedRules.Evaluation.Plan

/-!
# Values of expressions

The value of an expression in a scope. Operands are evaluated from left to right, and all of them,
with these exceptions: `AND` and `OR` stop at an operand that decides, `if` evaluates one of its
branches, and a stateful call whose quota, counted value or group is null is not made.

Functions see the number of their arguments before any of them is evaluated. `input` is the input of
the slot that the expression defines.
-/

namespace GatedRules

/-- The functions of rule source. -/
inductive Function
  /-- The input of the slot itself. -/
  | input
  /-- One of two values, by a condition. -/
  | choose
  /-- The joined texts of values. -/
  | concat
  /-- The truth value that a value is taken for. -/
  | bool
  /-- How often the slot was counted. -/
  | count
  /-- How many different values the slot has seen. -/
  | countUnique
  /-- How much is left of a quota. -/
  | rateLimit
deriving DecidableEq, Repr

namespace Function

/-- The name of a function in rule source. -/
def name : Function → String
  | input => "input"
  | choose => "if"
  | concat => "concat"
  | bool => "bool"
  | count => "count"
  | countUnique => "count_unique"
  | rateLimit => "rate_limit"

/-- Every function. -/
def all : List Function :=
  [input, choose, concat, bool, count, countUnique, rateLimit]

/-- The function of a name. -/
def ofName? (name : String) : Option Function :=
  all.find? fun f => f.name = name

/-- How many arguments a function takes, if not any number. -/
def arity? : Function → Option Arity
  | input => some (.exactly 0)
  | choose => some (.either 2)
  | concat => none
  | bool => some (.exactly 1)
  | count => some (.exactly 0)
  | countUnique => some (.exactly 1)
  | rateLimit => some (.exactly 1)

end Function

/-- The quota that a value is, if it is not null. -/
def Value.quota? : Value → Except TypeFault (Option Int)
  | .null => .ok none
  | .int n =>
    if -Store.integerBound ≤ n ∧ n < Store.integerBound then .ok (some n)
    else .error (.quotaNotInteger (.int n))
  | .float x => .error (.quotaNotInteger (.float x))
  | v => .error (.quotaNotNumber v)

/-- The value of a stateful call for a slot, unless one of the groups is null. -/
def Plan.grouped (slot : String) (groups : List (Plan Value))
    (stateful : List Value → StatefulCall) : Plan Value := do
  let gs ← all groups
  if gs.any Value.isNull then return .null else call slot (stateful gs)

namespace Function

/-- The value of a function, given plans for its groups and for its arguments. -/
def apply (slot : String) (groups : List (Plan Value)) :
    Function → List (Plan Value) → Plan Value
  | input, _ => .input slot
  | choose, condition :: yes :: rest => do
    let c ← condition
    if c.isTrue then yes else rest.headD (pure .null)
  | concat, args => do
    let vs ← Plan.all args
    .ofValue (Value.concat vs)
  | bool, arg :: _ => do
    let v ← arg
    return .bool v.truth
  | count, _ => .grouped slot groups .count
  | countUnique, arg :: _ => do
    let v ← arg
    if v.isNull then return .null else .grouped slot groups (.countUnique v)
  | rateLimit, arg :: _ => do
    let v ← arg
    match v.quota? with
    | .error fault => .fail (.type fault)
    | .ok none => return .null
    | .ok (some quota) => .grouped slot groups (.takeQuota quota)
  | _, _ => pure .null

/-- The value of a call by name, given plans for its arguments and groups. -/
def call (slot function : String) (args groups : List (Plan Value)) : Plan Value :=
  match ofName? function with
  | none => .fail (.unknownFunction function)
  | some f =>
    match f.arity?.filter fun a => !a.admits args.length with
    | some arity => .fail (.arity function arity args.length)
    | none => f.apply slot groups args

end Function

namespace Expr

mutual

/-- The value of an expression in a scope; it belongs to a definition of `slot`. -/
def eval (scope : Scope) (slot : String) : Expr → Plan Value
  | literal l => pure (.ofLiteral l)
  | name n => .value (.name scope n)
  | unary op e => do
    let v ← eval scope slot e
    match op with
    | .not => .ofValue v.not
    | .neg => .ofValue v.negate
  | binary op l r => do
    let a ← eval scope slot l
    if (op = .and ∧ a = .bool false) ∨ (op = .or ∧ a = .bool true) then return a
    else
      let b ← eval scope slot r
      .ofValue (Value.binary op a b)
  | isNull e negated => do
    let v ← eval scope slot e
    return .bool (v.isNull != negated)
  | call function args groups =>
    Function.call slot function (evalEach scope slot args) (evalEach scope slot groups)

/-- The values of expressions. -/
def evalEach (scope : Scope) (slot : String) : List Expr → List (Plan Value)
  | [] => []
  | e :: es => eval scope slot e :: evalEach scope slot es

end

end Expr

end GatedRules
