import GatedRules.Evaluation.Error
import GatedRules.Module.Expr

/-!
# Operations on values

What the operators and the functions without state do with values. Null is the absent value: an
operation on it has no result, that is, null again. A number that comes out whole and of at most
fifteen digits is an integer, any other finite one a float, and what is not finite is null.
-/

namespace GatedRules

namespace Value

/-- The value of a number. -/
def ofNumber (x : Float) : Value :=
  match Decimal.smallWhole? x with
  | some n => int n
  | none =>
    match Decimal.Binary.ofFloat x with
    | .finite .. => float x
    | _ => null

/-- The value of a literal. -/
def ofLiteral : Literal → Value
  | .null => null
  | .bool b => bool b
  | .number x => ofNumber x
  | .string s => string s

/-- The text that a value has in a path or a text; null, arrays and objects have none. -/
def pathText? : Value → Option String
  | string s => some s
  | int n => some (Decimal.sourceText (Decimal.ofInt n))
  | float x => some (Decimal.sourceText x)
  | bool b => some (if b then "true" else "false")
  | _ => none

/-- Whether a value opens a gate: only `true` does. -/
def isTrue : Value → Bool
  | bool true => true
  | _ => false

theorem isTrue_iff {v : Value} : v.isTrue = true ↔ v = .bool true := by
  cases v with
  | bool b => cases b <;> simp [isTrue]
  | _ => simp [isTrue]

/-- The truth value that a value is taken for. -/
def truth : Value → Bool
  | null => false
  | bool b => b
  | int n => Decimal.ofInt n != 0
  | float x => x != 0
  | string s => !s.isEmpty
  | array items => !items.isEmpty
  | object _ => true

/-- The other truth value. -/
def not : Value → Except TypeFault Value
  | null => .ok null
  | bool b => .ok (bool (!b))
  | v => .error (.notBoolean v)

/-- The number with the other sign. -/
def negate (v : Value) : Except TypeFault Value :=
  if v.isNull then .ok null
  else
    match v.toFloat? with
    | some x => .ok (ofNumber (-x))
    | none => .error (.notNumber v)

/-- The truth value of an operand; null has none. -/
def operand (op : BinaryOp) : Value → Except TypeFault (Option Bool)
  | null => .ok none
  | bool b => .ok (some b)
  | v => .error (.logicalOperand op v)

/-- The conjunction or disjunction of truth values, of which some may be absent. -/
def logical (op : BinaryOp) (left right : Value) : Except TypeFault Value := do
  let l ← operand op left
  let r ← operand op right
  return match op, l, r with
    | .and, some false, _ | .and, _, some false => bool false
    | .and, some true, some true => bool true
    | .or, some true, _ | .or, _, some true => bool true
    | .or, some false, some false => bool false
    | _, _, _ => null

/-- The order of two texts by their characters. -/
def textOrder (a b : String) : Ordering :=
  if a < b then .lt else if a = b then .eq else .gt

/-- The order of two doubles. -/
def floatOrder (a b : Float) : Option Ordering :=
  if a < b then some .lt else if b < a then some .gt else if a == b then some .eq else none

/-- The order of two truth values: `false` comes first. -/
def boolOrder : Bool → Bool → Ordering
  | false, true => .lt
  | true, false => .gt
  | _, _ => .eq

/-- The order of two values of one kind. Numbers are compared as doubles. -/
def order? (left right : Value) : Option Ordering :=
  match left, right with
  | string a, string b => some (textOrder a b)
  | bool a, bool b => some (boolOrder a b)
  | l, r =>
    match l.toFloat?, r.toFloat? with
    | some a, some b => floatOrder a b
    | _, _ => none

/-- Compare two values. Values of different kinds are different, and otherwise without order. -/
def compare (op : BinaryOp) (left right : Value) : Except TypeFault Value :=
  if left.isNull || right.isNull then .ok null
  else
    match op, order? left right with
    | .eq, o => .ok (bool (o == some .eq))
    | .notEq, o => .ok (bool (o != some .eq))
    | op, none => .error (.incomparable op left right)
    | .lt, some o => .ok (bool (o == .lt))
    | .ltEq, some o => .ok (bool (o != .gt))
    | .gt, some o => .ok (bool (o == .gt))
    | .gtEq, some o => .ok (bool (o != .lt))
    | op, some _ => .error (.noComparison op)

/-- Calculate with two doubles. Nothing is divided by zero. -/
def calculate (op : BinaryOp) (a b : Float) : Except TypeFault Value :=
  match op with
  | .add => .ok (ofNumber (a + b))
  | .sub => .ok (ofNumber (a - b))
  | .mul => .ok (ofNumber (a * b))
  | .div => .ok (if b == 0 then null else ofNumber (a / b))
  | op => .error (.noArithmetic op)

/-- Calculate with two values. Two texts can be added: they are joined. -/
def arithmetic (op : BinaryOp) (left right : Value) : Except TypeFault Value :=
  if left.isNull || right.isNull then .ok null
  else
    match op, left, right with
    | .add, string a, string b => .ok (string (a ++ b))
    | op, l, r =>
      match l.toFloat?, r.toFloat? with
      | some a, some b => calculate op a b
      | _, _ => .error (.arithmeticOperand op l r)

/-- Apply an operator to two values. -/
def binary (op : BinaryOp) (left right : Value) : Except TypeFault Value :=
  match op with
  | .and | .or => logical op left right
  | .add | .sub | .mul | .div => arithmetic op left right
  | _ => compare op left right

/-- The joined texts of values, from the first to the last; null if one of them is null. -/
def concatFrom (text : String) : List Value → Except TypeFault Value
  | [] => .ok (string text)
  | v :: vs =>
    if v.isNull then .ok null
    else
      match v.pathText? with
      | some t => concatFrom (text ++ t) vs
      | none => .error (.noText v)

/-- The joined texts of values; null if one of them is null. -/
def concat (values : List Value) : Except TypeFault Value :=
  concatFrom "" values

end Value

end GatedRules
