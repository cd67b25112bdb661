import GatedRules.Inclusion.Error
import GatedRules.Store.Basic

/-!
# Why an evaluation fails

The causes for which a name has no value in an execution, and the messages for them. Values stand in
messages as compact JSON text.
-/

namespace GatedRules

/-- A value of a kind that an operation does not take. -/
inductive TypeFault
  /-- Something other than a truth value is negated. -/
  | notBoolean (value : Value)
  /-- Something other than a number is negated. -/
  | notNumber (value : Value)
  /-- Something other than a truth value is joined by a logical operator. -/
  | logicalOperand (op : BinaryOp) (value : Value)
  /-- Two values have no order. -/
  | incomparable (op : BinaryOp) (left right : Value)
  /-- An operator does not compare. -/
  | noComparison (op : BinaryOp)
  /-- An arithmetic operator has an operand that it does not take. -/
  | arithmeticOperand (op : BinaryOp) (left right : Value)
  /-- An operator does not calculate. -/
  | noArithmetic (op : BinaryOp)
  /-- A value has no text. -/
  | noText (value : Value)
  /-- A quota is a number but no integer. -/
  | quotaNotInteger (value : Value)
  /-- A quota is no number. -/
  | quotaNotNumber (value : Value)

/-- The message for a fault. -/
def TypeFault.message : TypeFault → String
  | notBoolean v => "NOT expects a boolean, got " ++ v.compact
  | notNumber v => "cannot negate " ++ v.compact
  | logicalOperand op v => op.symbol ++ " expects booleans, got " ++ v.compact
  | incomparable op l r => "cannot compare " ++ l.compact ++ " " ++ op.symbol ++ " " ++ r.compact
  | noComparison op => "`" ++ op.symbol ++ "` is not a comparison"
  | arithmeticOperand op l r =>
    "cannot apply `" ++ op.symbol ++ "` to " ++ l.compact ++ " and " ++ r.compact
  | noArithmetic op => "`" ++ op.symbol ++ "` is not an arithmetic operator"
  | noText v => "cannot concat " ++ v.compact
  | quotaNotInteger v => "rate_limit expects an integer maximum, got " ++ v.compact
  | quotaNotNumber v => "rate_limit expects a number, got " ++ v.compact

/-- How many arguments a function takes. -/
inductive Arity
  /-- Exactly so many. -/
  | exactly (n : Nat)
  /-- One of two consecutive numbers. -/
  | either (n : Nat)
deriving DecidableEq, Repr

namespace Arity

/-- Whether a function takes so many arguments. -/
def admits : Arity → Nat → Bool
  | exactly n, found => found = n
  | either n, found => found = n || found = n + 1

/-- A number of arguments as messages write it. -/
def text : Arity → String
  | exactly n => toString n
  | either n => toString n ++ " or " ++ toString (n + 1)

end Arity

/-- Why an evaluation fails. -/
inductive EvalError
  /-- The target of a site names an input without text. -/
  | unresolvedInput (template name : String)
  /-- The module of a site does not compile. -/
  | compile (path : String) (error : CompileError)
  /-- An operation of the store fails. -/
  | store (fault : StoreFault)
  /-- An evaluation needs itself; the frame that comes back is the last of the chain. -/
  | recursion (chain : List String)
  /-- A function is called with the wrong number of arguments. -/
  | arity (function : String) (expected : Arity) (found : Nat)
  /-- An operation does not take a value. -/
  | type (fault : TypeFault)
  /-- There is no such function. -/
  | unknownFunction (name : String)

/-- The message for an error. -/
def EvalError.message : EvalError → String
  | unresolvedInput template name =>
    "include template \"" ++ template ++ "\" references unbound input `" ++ name ++ "`"
  | compile path error =>
    "failed to compile dynamic include `" ++ path ++ "`: " ++ error.message
  | store fault => "state backend error: " ++ fault.message
  | recursion chain => "recursive slot evaluation: " ++ CompileError.chainText chain
  | arity function expected found =>
    "`" ++ function ++ "` expects " ++ expected.text ++ " argument(s), found " ++ toString found
  | type fault => "type error: " ++ fault.message
  | unknownFunction name => "unknown function `" ++ name ++ "`"

end GatedRules
