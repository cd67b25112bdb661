import GatedRules.Decimal.Layout
import GatedRules.Text.Joined

/-!
# Expressions

The expressions that rule modules bind to names. `references` lists the names that an expression
mentions, each once and in the order of first mention; `isStateful` says whether evaluating it may
read or change state that outlives an execution.

`render` writes an expression in canonical form: comparison and arithmetic without blanks, logical
operators with blanks around them, and an operand in parentheses exactly when it is a binary
operation or a test for null. The canonical text of a condition is also the name of the slot that
holds it.
-/

namespace GatedRules

/-- A constant in rule source. -/
inductive Literal
  /-- The absent value. -/
  | null
  /-- A truth value. -/
  | bool (b : Bool)
  /-- A number. -/
  | number (x : Float)
  /-- A text. -/
  | string (s : String)
deriving DecidableEq

/-- An operator with one operand. -/
inductive UnaryOp
  /-- Logical negation. -/
  | not
  /-- Arithmetic negation. -/
  | neg
deriving DecidableEq, Repr

/-- An operator with two operands. -/
inductive BinaryOp
  | and
  | or
  | eq
  | notEq
  | lt
  | ltEq
  | gt
  | gtEq
  | add
  | sub
  | mul
  | div
deriving DecidableEq, Repr

/-- The spelling of an operator in rule source. -/
def BinaryOp.symbol : BinaryOp → String
  | and => "AND"
  | or => "OR"
  | eq => "="
  | notEq => "!="
  | lt => "<"
  | ltEq => "<="
  | gt => ">"
  | gtEq => ">="
  | add => "+"
  | sub => "-"
  | mul => "*"
  | div => "/"

/-- Every operator. -/
def BinaryOp.all : List BinaryOp :=
  [and, or, eq, notEq, lt, ltEq, gt, gtEq, add, sub, mul, div]

/-- Whether an operator joins truth values. -/
def BinaryOp.isLogical : BinaryOp → Bool
  | and | or => true
  | _ => false

/-- An expression of rule source. -/
inductive Expr
  /-- A constant. -/
  | literal (value : Literal)
  /-- The value of a name. -/
  | name (name : String)
  /-- An operation on one operand. -/
  | unary (op : UnaryOp) (operand : Expr)
  /-- An operation on two operands. -/
  | binary (op : BinaryOp) (left right : Expr)
  /-- Whether the operand is null, or whether it is not. -/
  | isNull (operand : Expr) (negated : Bool)
  /-- A call of a function; `groups` are the dimensions by which a stateful function groups. -/
  | call (function : String) (args groups : List Expr)

namespace Literal

/-- The text of a literal that can stand in a path. -/
def pathText? : Literal → Option String
  | string s => some s
  | number x => some (Decimal.sourceText x)
  | null | bool _ => none

/-- A text between quotation marks. The quotation mark and the backslash are escaped. -/
def quoted (s : String) : List Char :=
  '"' :: s.toList.flatMap (fun c => if c = '"' ∨ c = '\\' then ['\\', c] else [c]) ++ ['"']

/-- A literal the way rule source writes it. -/
def chars : Literal → List Char
  | null => "null".toList
  | bool true => "true".toList
  | bool false => "false".toList
  | number x => Decimal.sourceChars x
  | string s => quoted s

/-- A literal the way rule source writes it. -/
def text (l : Literal) : String :=
  String.ofList l.chars

end Literal

namespace Expr

instance : Inhabited Expr :=
  ⟨literal .null⟩

/-- The name that an expression consists of. -/
def asName? : Expr → Option String
  | name n => some n
  | _ => none

/-! ### Names -/

mutual

/-- Every mention of a name, from left to right. -/
def mentions : Expr → List String
  | literal _ => []
  | name n => [n]
  | unary _ e => mentions e
  | binary _ l r => mentions l ++ mentions r
  | isNull e _ => mentions e
  | call _ args groups => mentionsAll args ++ mentionsAll groups

/-- Every mention of a name in a list of expressions, from left to right. -/
def mentionsAll : List Expr → List String
  | [] => []
  | e :: es => mentions e ++ mentionsAll es

end

/-- The names that an expression mentions, each once, in the order of first mention. -/
def references (e : Expr) : List String :=
  e.mentions.eraseDups

/-! ### State -/

/-- The functions that read or change state. -/
def statefulFunctions : List String :=
  ["count", "count_unique", "rate_limit"]

mutual

/-- Whether an expression calls a function that reads or changes state. -/
def isStateful : Expr → Bool
  | literal _ => false
  | name _ => false
  | unary _ e => isStateful e
  | binary _ l r => isStateful l || isStateful r
  | isNull e _ => isStateful e
  | call function args groups =>
    statefulFunctions.contains function || anyStateful args || anyStateful groups

/-- Whether one of the expressions is stateful. -/
def anyStateful : List Expr → Bool
  | [] => false
  | e :: es => isStateful e || anyStateful es

end

/-! ### Canonical text -/

/-- Whether an expression is written in parentheses where it is an operand. -/
def isCompound : Expr → Bool
  | binary .. => true
  | isNull .. => true
  | _ => false

/-- A text in parentheses. -/
def parens (cs : List Char) : List Char :=
  '(' :: cs ++ [')']

/-- A text in parentheses if it is that of a compound expression. -/
def operand (e : Expr) (cs : List Char) : List Char :=
  if e.isCompound then parens cs else cs

mutual

/-- The canonical text of an expression, in which `spell` writes the names. -/
def renderChars (spell : String → List Char) : Expr → List Char
  | literal l => l.chars
  | name n => spell n
  | unary .not e => "NOT ".toList ++ operand e (renderChars spell e)
  | unary .neg e => '-' :: operand e (renderChars spell e)
  | binary op l r =>
    let symbol := op.symbol.toList
    operand l (renderChars spell l) ++
      (if op.isLogical then ' ' :: symbol ++ [' '] else symbol) ++ operand r (renderChars spell r)
  | isNull e negated =>
    operand e (renderChars spell e) ++ (if negated then " IS NOT NULL" else " IS NULL").toList
  | call function args groups =>
    function.toList ++
      parens (Text.joined [',', ' '] (renderAll spell args) ++
        if groups.isEmpty then []
        else
          (if args.isEmpty then [] else [' ']) ++ "BY ".toList ++
            Text.joined [',', ' '] (renderAll spell groups))

/-- The canonical texts of a list of expressions. -/
def renderAll (spell : String → List Char) : List Expr → List (List Char)
  | [] => []
  | e :: es => renderChars spell e :: renderAll spell es

end

/-- The canonical text of an expression, in which `spell` writes the names. -/
def render (spell : String → String) (e : Expr) : String :=
  String.ofList (e.renderChars fun n => (spell n).toList)

/-- The canonical text of an expression. -/
def text (e : Expr) : String :=
  e.render id

/-! ### Equality -/

mutual

/-- Whether two expressions are the same. -/
def same : Expr → Expr → Bool
  | literal a, literal b => a = b
  | name a, name b => a = b
  | unary o a, unary p b => o = p && a.same b
  | binary o a b, binary p c d => o = p && a.same c && b.same d
  | isNull a m, isNull b n => a.same b && m = n
  | call f as gs, call g bs hs => f = g && sameAll as bs && sameAll gs hs
  | _, _ => false

/-- Whether two lists of expressions are the same. -/
def sameAll : List Expr → List Expr → Bool
  | [], [] => true
  | a :: as, b :: bs => a.same b && sameAll as bs
  | _, _ => false

end

mutual

theorem same_iff : ∀ a b : Expr, a.same b = true ↔ a = b
  | literal _, b => by cases b <;> simp [same]
  | name _, b => by cases b <;> simp [same]
  | unary _ a, b => by cases b <;> simp [same, same_iff a]
  | binary _ a a', b => by cases b <;> simp [same, same_iff a, same_iff a', and_assoc]
  | isNull a _, b => by cases b <;> simp [same, same_iff a]
  | call _ as gs, b => by cases b <;> simp [same, sameAll_iff as, sameAll_iff gs, and_assoc]

theorem sameAll_iff : ∀ as bs : List Expr, sameAll as bs = true ↔ as = bs
  | [], bs => by cases bs <;> simp [sameAll]
  | a :: as, bs => by cases bs <;> simp [sameAll, same_iff a, sameAll_iff as]

end

instance : DecidableEq Expr := fun a b =>
  decidable_of_iff _ (same_iff a b)

end Expr

end GatedRules
