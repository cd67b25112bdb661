import GatedRules.Json.Printer
import GatedRules.Json.Reader
import GatedRules.Module.Statement

/-!
# Statements as JSON

The interchange form of a rule module. A constant is the JSON value that it is; every other form is
an object of one field, whose key is its tag. `toJson` lists the fields of a body in a fixed order;
`ofJson?` takes them in any order, as the reader of JSON text leaves them.

A number that is not finite has no JSON text of its own: it is written as `null`, and so reads back
as the constant null.
-/

namespace GatedRules

namespace Value

/-- A value under a tag. -/
def tagged (tag : String) (body : Value) : Value :=
  object [(tag, body)]

/-- The characters of a text value. -/
def string? : Value → Option String
  | string s => some s
  | _ => none

/-- The flag of a truth value. -/
def bool? : Value → Option Bool
  | bool b => some b
  | _ => none

/-- The number of a natural integer. -/
def nat? : Value → Option Nat
  | int n => n.toNat?
  | _ => none

/-- The items of an array. -/
def items? : Value → Option (List Value)
  | array items => some items
  | _ => none

theorem sizeOf_of_items? {v : Value} {items : List Value} (h : v.items? = some items) :
    sizeOf items < sizeOf v := by
  cases v <;> cases h
  simp

theorem sizeOf_of_field? {v w : Value} {key : String} (h : v.field? key = some w) :
    sizeOf w < sizeOf v := by
  cases v <;> try cases h
  obtain ⟨⟨k, u⟩, hf, rfl⟩ := Option.map_eq_some_iff.1 h
  have := List.sizeOf_lt_of_mem (List.mem_of_find?_eq_some hf)
  simp only [object.sizeOf_spec, Prod.mk.sizeOf_spec] at this ⊢
  omega

end Value

/-! ### Constants and operators -/

/-- The JSON value of a constant. -/
def Literal.toJson : Literal → Value
  | null => .null
  | bool b => .bool b
  | number x => .float x
  | string s => .string s

/-- The constant of a JSON value. -/
def Literal.ofJson? : Value → Option Literal
  | .null => some null
  | .bool b => some (bool b)
  | .int n => some (number (Decimal.ofInt n))
  | .float x => some (number x)
  | .string s => some (string s)
  | .array _ | .object _ => none

/-- The tag of an operator. -/
def UnaryOp.tag : UnaryOp → String
  | not => "Not"
  | neg => "Neg"

/-- The operator of a tag. -/
def UnaryOp.ofTag? (tag : String) : Option UnaryOp :=
  [not, neg].find? fun op => op.tag = tag

/-- The tag of an operator. -/
def BinaryOp.tag : BinaryOp → String
  | and => "And"
  | or => "Or"
  | eq => "Eq"
  | notEq => "NotEq"
  | lt => "Lt"
  | ltEq => "LtEq"
  | gt => "Gt"
  | gtEq => "GtEq"
  | add => "Add"
  | sub => "Sub"
  | mul => "Mul"
  | div => "Div"

/-- The operator of a tag. -/
def BinaryOp.ofTag? (tag : String) : Option BinaryOp :=
  all.find? fun op => op.tag = tag

/-! ### Expressions -/

namespace Expr

open Value (tagged)

mutual

/-- The JSON value of an expression. -/
def toJson : Expr → Value
  | literal value => tagged "Literal" value.toJson
  | name n => tagged "Name" (.string n)
  | unary op e => tagged "Unary" (.object [("op", .string op.tag), ("expr", toJson e)])
  | binary op l r =>
    tagged "Binary" (.object [("op", .string op.tag), ("left", toJson l), ("right", toJson r)])
  | isNull e negated => tagged "IsNull" (.object [("expr", toJson e), ("negated", .bool negated)])
  | call function args groups =>
    tagged "Call" <| .object
      [("func", .string function), ("args", .array (toJsonAll args)),
        ("by", .array (toJsonAll groups))]

/-- The JSON values of a list of expressions. -/
def toJsonAll : List Expr → List Value
  | [] => []
  | e :: es => toJson e :: toJsonAll es

end

mutual

/-- The expression of a JSON value. -/
def ofJson? : Value → Option Expr
  | .object [(tag, body)] =>
    if tag = "Literal" then (Literal.ofJson? body).map literal
    else if tag = "Name" then body.string?.map name
    else if tag = "Unary" then do
      let op ← body.field? "op"
      let op ← UnaryOp.ofTag? (← op.string?)
      return unary op (← ofField? "expr" body)
    else if tag = "Binary" then do
      let op ← body.field? "op"
      let op ← BinaryOp.ofTag? (← op.string?)
      return binary op (← ofField? "left" body) (← ofField? "right" body)
    else if tag = "IsNull" then do
      let negated ← body.field? "negated"
      return isNull (← ofField? "expr" body) (← negated.bool?)
    else if tag = "Call" then do
      let function ← body.field? "func"
      return call (← function.string?) (← ofItems? "args" body) (← ofItems? "by" body)
    else none
  | _ => none
termination_by v => (sizeOf v, 0)

/-- The expression in a field of a body. -/
def ofField? (key : String) (body : Value) : Option Expr :=
  match _h : body.field? key with
  | none => none
  | some v => ofJson? v
termination_by (sizeOf body, 1)
decreasing_by exact .left _ _ (Value.sizeOf_of_field? _h)

/-- The expressions in a field of a body. -/
def ofItems? (key : String) (body : Value) : Option (List Expr) :=
  match _h : body.field? key with
  | none => none
  | some v =>
    match _hi : v.items? with
    | none => none
    | some items => ofJsonAll? items
termination_by (sizeOf body, 1)
decreasing_by
  exact .left _ _ (Nat.lt_trans (Value.sizeOf_of_items? _hi) (Value.sizeOf_of_field? _h))

/-- The expressions of a list of JSON values. -/
def ofJsonAll? : List Value → Option (List Expr)
  | [] => some []
  | v :: vs => do return (← ofJson? v) :: (← ofJsonAll? vs)
termination_by vs => (sizeOf vs, 0)

end

end Expr

/-! ### Statements -/

/-- The JSON value of a segment. -/
def Segment.toJson : Segment → Value
  | literal text => .tagged "Literal" (.string text)
  | input name => .tagged "Input" (.string name)

/-- The segment of a JSON value. -/
def Segment.ofJson? : Value → Option Segment
  | .object [(tag, .string s)] =>
    if tag = "Literal" then some (literal s)
    else if tag = "Input" then some (input s)
    else none
  | _ => none

/-- The JSON value of an include target. -/
def Template.toJson (t : Template) : Value :=
  .tagged "segments" (.array (t.segments.map Segment.toJson))

/-- The include target of a JSON value. -/
def Template.ofJson? (v : Value) : Option Template := do
  let segments ← v.field? "segments"
  return ⟨← (← segments.items?).mapM Segment.ofJson?⟩

namespace Statement

/-- The JSON value of a statement. -/
def toJson : Statement → Value
  | binding name expr isDefault line =>
    .tagged "Let" <| .object
      [("name", .string name), ("expr", expr.toJson), ("is_default", .bool isDefault),
        ("line", .int line)]
  | inclusion directive =>
    .tagged "Include" <| .object
      [("target", directive.target.toJson),
        ("gate", (directive.condition.map Expr.toJson).getD .null), ("line", .int directive.line)]

/-- The statement of a JSON value. -/
def ofJson? : Value → Option Statement
  | .object [(tag, body)] => do
    let line ← (← body.field? "line").nat?
    if tag = "Let" then
      let name ← (← body.field? "name").string?
      let isDefault ← (← body.field? "is_default").bool?
      return binding name (← Expr.ofField? "expr" body) isDefault line
    else if tag = "Include" then
      let target ← Template.ofJson? (← body.field? "target")
      match ← body.field? "gate" with
      | .null => return inclusion ⟨target, none, line⟩
      | gate => return inclusion ⟨target, ← Expr.ofJson? gate, line⟩
    else none
  | _ => none

/-- The JSON text of the statements of a module. -/
def jsonText (statements : List Statement) : String :=
  (Value.array (statements.map toJson)).compact

/-- The statements of a module from their JSON text. -/
def readJson? (text : String) : Option (List Statement) := do
  (← (← Value.read? text).items?).mapM ofJson?

end Statement

end GatedRules
