import GatedRules.Module.Statement
import GatedRules.Module.Token

/-!
# Reading rule source

Recursive descent over a list of tokens. Each reader answers with what it has read and the tokens
that remain, or with a fault and the tokens from which it arises; the first of those, or the end
of the text, is the place of the error.

The readers of the grammar's levels are stated for an arbitrary reader `sub` of the expressions
that stand inside parentheses, and `expression` ties the knot. It is given a bound on the depth of
nesting; the number of tokens is one, and for it the bound can only run out where no token is
left, which is where an expression is missing anyway. A chain of operators takes the number of
tokens that remain as its bound in the same way.

The levels, from loose to tight: `OR`, `AND`, `NOT`, one comparison with a test for null, sums,
products, minus signs, and what stands by itself. A keyword is a word in upper or lower case.
-/

namespace GatedRules

/-- A reserved word. -/
inductive Keyword
  | letWord
  | includeWord
  | whereWord
  | defaultWord
  | andWord
  | orWord
  | notWord
  | isWord
  | nullWord
  | trueWord
  | falseWord
  | byWord
deriving DecidableEq, Repr

namespace Keyword

/-- The two spellings of a keyword. -/
def spellings : Keyword → List String
  | letWord => ["LET", "let"]
  | includeWord => ["INCLUDE", "include"]
  | whereWord => ["WHERE", "where"]
  | defaultWord => ["DEFAULT", "default"]
  | andWord => ["AND", "and"]
  | orWord => ["OR", "or"]
  | notWord => ["NOT", "not"]
  | isWord => ["IS", "is"]
  | nullWord => ["NULL", "null"]
  | trueWord => ["TRUE", "true"]
  | falseWord => ["FALSE", "false"]
  | byWord => ["BY", "by"]

/-- Every keyword. -/
def all : List Keyword :=
  [letWord, includeWord, whereWord, defaultWord, andWord, orWord, notWord, isWord, nullWord,
    trueWord, falseWord, byWord]

/-- The keyword that a word is. -/
def ofWord? (word : String) : Option Keyword :=
  all.find? fun k => k.spellings.contains word

end Keyword

/-- The keyword that a token is. -/
def Kind.keyword? : Kind → Option Keyword
  | ident word => Keyword.ofWord? word
  | _ => none

namespace Parser

/-- Why and where reading stopped. -/
structure Stuck where
  /-- The tokens from which the fault arises. -/
  rest : List Token
  /-- What is wrong. -/
  fault : SyntaxFault
deriving DecidableEq

/-- What a reader answers: what it has read, and the tokens that remain. -/
abbrev Parsed (α : Type) : Type :=
  Except Stuck (α × List Token)

/-- Another token was looked for than the next one. -/
def unexpected {α : Type} (wanted : Wanted) (ts : List Token) : Except Stuck α :=
  .error ⟨ts, .unexpected wanted (ts.head?.map Token.kind)⟩

/-- The tokens after a given keyword, if it comes next. -/
def after? (keyword : Keyword) : List Token → Option (List Token)
  | [] => none
  | t :: ts => if t.kind.keyword? = some keyword then some ts else none

/-- The tokens after a token of a given kind, which must come next. -/
def expect (kind : Kind) (wanted : Wanted) : List Token → Except Stuck (List Token)
  | [] => unexpected wanted []
  | t :: ts => if t.kind = kind then .ok ts else unexpected wanted (t :: ts)

/-! ### Operators -/

/-- The operator that joins the operands of the loosest level. -/
def orOp? (kind : Kind) : Option BinaryOp :=
  if kind.keyword? = some .orWord then some .or else none

/-- The operator that joins conditions. -/
def andOp? (kind : Kind) : Option BinaryOp :=
  if kind.keyword? = some .andWord then some .and else none

/-- The operators that compare. -/
def compareOp? : Kind → Option BinaryOp
  | .eq => some .eq
  | .notEq => some .notEq
  | .lt => some .lt
  | .ltEq => some .ltEq
  | .gt => some .gt
  | .gtEq => some .gtEq
  | _ => none

/-- The operators of sums. -/
def sumOp? : Kind → Option BinaryOp
  | .plus => some .add
  | .minus => some .sub
  | _ => none

/-- The operators of products. -/
def productOp? : Kind → Option BinaryOp
  | .star => some .mul
  | .slash => some .div
  | _ => none

/-- Read on after a first operand: operators with an operand each, joined from the left. -/
def chain (op? : Kind → Option BinaryOp) (operand : List Token → Parsed Expr) :
    Nat → Expr → List Token → Parsed Expr
  | 0, left, ts => .ok (left, ts)
  | _ + 1, left, [] => .ok (left, [])
  | n + 1, left, t :: ts =>
    match op? t.kind with
    | none => .ok (left, t :: ts)
    | some op =>
      match operand ts with
      | .error stuck => .error stuck
      | .ok (right, rest) => chain op? operand n (.binary op left right) rest

/-- Read operands with operators between them. -/
def level (op? : Kind → Option BinaryOp) (operand : List Token → Parsed Expr) (ts : List Token) :
    Parsed Expr :=
  match operand ts with
  | .error stuck => .error stuck
  | .ok (left, rest) => chain op? operand rest.length left rest

/-! ### Calls -/

/-- Read grouping dimensions up to the closing parenthesis. -/
def groups (sub : List Token → Parsed Expr) : Nat → List Token → Parsed (List Expr)
  | 0, ts => unexpected .expression ts
  | n + 1, ts =>
    match sub ts with
    | .error stuck => .error stuck
    | .ok (e, ⟨.comma, _⟩ :: rest) =>
      match groups sub n rest with
      | .error stuck => .error stuck
      | .ok (es, rest) => .ok (e :: es, rest)
    | .ok (e, rest) =>
      match expect .rightParen .closeParen rest with
      | .error stuck => .error stuck
      | .ok rest => .ok ([e], rest)

/-- Read arguments, of which there is at least one, and grouping dimensions up to the closing
parenthesis. -/
def arguments (sub : List Token → Parsed Expr) :
    Nat → List Token → Parsed (List Expr × List Expr)
  | 0, ts => unexpected .expression ts
  | n + 1, ts =>
    match after? .byWord ts with
    | some rest =>
      match groups sub n rest with
      | .error stuck => .error stuck
      | .ok (es, rest) => .ok (([], es), rest)
    | none =>
      match sub ts with
      | .error stuck => .error stuck
      | .ok (e, ⟨.rightParen, _⟩ :: rest) => .ok (([e], []), rest)
      | .ok (e, rest) =>
        let next :=
          if (after? .byWord rest).isSome then .ok rest else expect .comma .commaOrClose rest
        match next with
        | .error stuck => .error stuck
        | .ok rest =>
          match arguments sub n rest with
          | .error stuck => .error stuck
          | .ok ((es, gs), rest) => .ok ((e :: es, gs), rest)

/-- Read a call after its opening parenthesis. -/
def call (sub : List Token → Parsed Expr) (function : String) (ts : List Token) : Parsed Expr :=
  match ts with
  | ⟨.rightParen, _⟩ :: rest => .ok (.call function [] [], rest)
  | ts =>
    match arguments sub ts.length ts with
    | .error stuck => .error stuck
    | .ok ((es, gs), rest) => .ok (.call function es gs, rest)

/-! ### Levels -/

/-- Read what stands by itself: a constant, a name, a call, or an expression in parentheses. -/
def primary (sub : List Token → Parsed Expr) : List Token → Parsed Expr
  | [] => unexpected .expression []
  | t :: ts =>
    match t.kind with
    | .number x => .ok (.literal (.number x), ts)
    | .string s => .ok (.literal (.string s), ts)
    | .leftParen =>
      match sub ts with
      | .error stuck => .error stuck
      | .ok (e, rest) =>
        match expect .rightParen .closeParen rest with
        | .error stuck => .error stuck
        | .ok rest => .ok (e, rest)
    | .ident word =>
      match Keyword.ofWord? word with
      | some .nullWord => .ok (.literal .null, ts)
      | some .trueWord => .ok (.literal (.bool true), ts)
      | some .falseWord => .ok (.literal (.bool false), ts)
      | some _ => unexpected .expression (t :: ts)
      | none =>
        match ts with
        | ⟨.leftParen, _⟩ :: rest => call sub word rest
        | ts => .ok (.name word, ts)
    | _ => unexpected .expression (t :: ts)

/-- Read minus signs and what they stand before. -/
def unary (sub : List Token → Parsed Expr) : List Token → Parsed Expr
  | [] => primary sub []
  | t :: ts =>
    if t.kind = .minus then
      match unary sub ts with
      | .error stuck => .error stuck
      | .ok (e, rest) => .ok (.unary .neg e, rest)
    else primary sub (t :: ts)

/-- Read products. -/
def product (sub : List Token → Parsed Expr) : List Token → Parsed Expr :=
  level productOp? (unary sub)

/-- Read sums. -/
def sum (sub : List Token → Parsed Expr) : List Token → Parsed Expr :=
  level sumOp? (product sub)

/-- Read a test for null after its operand, if there is one. -/
def nullTest (e : Expr) (ts : List Token) : Parsed Expr :=
  match after? .isWord ts with
  | none => .ok (e, ts)
  | some rest =>
    let negated := (after? .notWord rest).isSome
    let rest := (after? .notWord rest).getD rest
    match after? .nullWord rest with
    | none => unexpected .nullWord rest
    | some rest => .ok (.isNull e negated, rest)

/-- Read a sum, or a comparison of two, and then a test for null. -/
def comparison (sub : List Token → Parsed Expr) (ts : List Token) : Parsed Expr :=
  match sum sub ts with
  | .error stuck => .error stuck
  | .ok (left, []) => nullTest left []
  | .ok (left, t :: rest) =>
    match compareOp? t.kind with
    | none => nullTest left (t :: rest)
    | some op =>
      match sum sub rest with
      | .error stuck => .error stuck
      | .ok (right, rest) => nullTest (.binary op left right) rest

/-- Read negations and what they stand before. -/
def negation (sub : List Token → Parsed Expr) : List Token → Parsed Expr
  | [] => comparison sub []
  | t :: ts =>
    if t.kind.keyword? = some .notWord then
      match negation sub ts with
      | .error stuck => .error stuck
      | .ok (e, rest) => .ok (.unary .not e, rest)
    else comparison sub (t :: ts)

/-- Read an expression whose parts in parentheses are read by `sub`. -/
def alternatives (sub : List Token → Parsed Expr) : List Token → Parsed Expr :=
  level orOp? (level andOp? (negation sub))

/-- Read an expression with at most so many levels of parentheses. -/
def expressionWithin : Nat → List Token → Parsed Expr
  | 0 => unexpected .expression
  | n + 1 => alternatives (expressionWithin n)

/-- Read an expression. -/
def expression (ts : List Token) : Parsed Expr :=
  expressionWithin ts.length ts

/-! ### Statements -/

/-- Read a binding after its keyword. -/
def binding (line : Nat) : List Token → Except Stuck (Statement × List Token)
  | [] => unexpected .slotName []
  | t :: ts =>
    match t.kind with
    | .ident name =>
      if (Keyword.ofWord? name).isSome then unexpected .slotName (t :: ts)
      else do
        let rest ← expect .assign .assign ts
        let (e, rest) ← expression rest
        let isDefault := (after? .defaultWord rest).isSome
        let rest ← expect .semicolon .semicolon ((after? .defaultWord rest).getD rest)
        return (.binding name e isDefault line, rest)
    | _ => unexpected .slotName (t :: ts)

/-- Read the condition of an include, if it has one. -/
def condition (ts : List Token) : Parsed (Option Expr) :=
  match after? .whereWord ts with
  | none => .ok (none, ts)
  | some rest =>
    match expression rest with
    | .error stuck => .error stuck
    | .ok (e, rest) => .ok (some e, rest)

/-- Read an include after its keyword. -/
def inclusion (line : Nat) : List Token → Except Stuck (Statement × List Token)
  | [] => unexpected .includePath []
  | t :: ts =>
    match t.kind with
    | .string raw =>
      match Template.parse raw with
      | .error fault => .error ⟨t :: ts, .template raw fault⟩
      | .ok target => do
        let (condition, rest) ← condition ts
        let rest ← expect .semicolon .semicolon rest
        return (.inclusion ⟨target, condition, line⟩, rest)
    | _ => unexpected .includePath (t :: ts)

/-- Read a statement. -/
def statement : List Token → Except Stuck (Statement × List Token)
  | [] => unexpected .statement []
  | t :: ts =>
    match t.kind.keyword? with
    | some .letWord => binding t.position.line ts
    | some .includeWord => inclusion t.position.line ts
    | _ => unexpected .statement (t :: ts)

/-- Read at most so many statements, up to the end. -/
def statementsWithin : Nat → List Token → Except Stuck (List Statement)
  | _, [] => .ok []
  | 0, t :: ts => unexpected .statement (t :: ts)
  | n + 1, t :: ts => do
    let (s, rest) ← statement (t :: ts)
    return s :: (← statementsWithin n rest)

/-- Read statements up to the end. -/
def statements (ts : List Token) : Except Stuck (List Statement) :=
  statementsWithin ts.length ts

/-- Read an expression up to the end. -/
def wholeExpression (ts : List Token) : Except Stuck Expr := do
  let (e, rest) ← expression ts
  if rest.isEmpty then .ok e else unexpected .endOfExpression rest

/-- The error that a fault makes in a text. -/
def Stuck.toError (path : String) (stop : Position) (stuck : Stuck) : SyntaxError :=
  ⟨path, (stuck.rest.head?.map Token.position).getD stop, stuck.fault⟩

/-- Read the tokens of a text with a reader. -/
def run {α : Type} (reader : List Token → Except Stuck α) (path source : String) :
    Except SyntaxError α := do
  let scanned ← Tokens.scan path source
  (reader scanned.tokens).mapError (Stuck.toError path scanned.stop)

end Parser

/-- The statements of a module's source. -/
def Statement.parse (path source : String) : Except SyntaxError (List Statement) :=
  Parser.run Parser.statements path source

/-- The expression that a text consists of. -/
def Expr.parse (path source : String) : Except SyntaxError Expr :=
  Parser.run Parser.wholeExpression path source

end GatedRules
