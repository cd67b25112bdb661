import GatedRules.Module.Parser

/-!
# The grammar of rule source

The grammar of expressions and statements, stated without a reader. A derivation is a tree
(`Grammar.Tree`), which has the terminals that it spells and the value that it denotes; in the
notation of a grammar, where `{…}` stands for any number of times and `[…]` for at most once:

* `or ::= and {OR and}` and `and ::= negation {AND negation}`;
* `negation ::= NOT negation | comparison`;
* `comparison ::= sum [comparator sum] [IS [NOT] NULL]`;
* `sum ::= product {(+ | -) product}` and `product ::= unary {(* | /) unary}`;
* `unary ::= - unary | primary`;
* `primary ::= number | string | NULL | TRUE | FALSE | name | name ( arguments ) | ( or )`;
* `arguments ::= | list [[,] BY list] | BY list` and `list ::= or {, or}`;
* `statement ::= LET name := or [DEFAULT] ; | INCLUDE string [WHERE or] ;`.

A name is no keyword. The grammar is unambiguous (`Tree.unique`): two trees of one category that
spell the beginning of the same terminals are the same, provided that what follows cannot go on
either of them. How strongly a terminal holds on to what stands before it is its grip: a tree of a
layer is not gone on by a terminal whose grip is looser than the layer.
-/

namespace GatedRules

/-! ### Terminals -/

theorem Keyword.ofWord?_eq_some_iff {word : String} {k : Keyword} :
    ofWord? word = some k ↔ word ∈ k.spellings := by
  have hall : ∀ k ∈ all, ∀ word ∈ k.spellings, ofWord? word = some k := by decide +kernel
  refine ⟨fun h => by simpa using List.find?_some h, fun h => hall k ?_ word h⟩
  cases k <;> decide

namespace Grammar

/-- A token as the grammar sees it. -/
inductive Terminal
  /-- A keyword in either spelling. -/
  | word (keyword : Keyword)
  /-- Any other token. -/
  | plain (kind : Kind)
deriving DecidableEq

/-- The terminal that a kind of token is. -/
def terminal (kind : Kind) : Terminal :=
  match kind.keyword? with
  | some k => .word k
  | none => .plain kind

/-- What tokens spell. -/
def spelled (ts : List Token) : List Terminal :=
  ts.map fun t => terminal t.kind

theorem spelled_cons (t : Token) (ts : List Token) :
    spelled (t :: ts) = terminal t.kind :: spelled ts :=
  rfl

theorem spelled_append (ts ts' : List Token) : spelled (ts ++ ts') = spelled ts ++ spelled ts' :=
  List.map_append

theorem terminal_eq_word {kind : Kind} {k : Keyword} :
    terminal kind = .word k ↔ kind.keyword? = some k := by
  unfold terminal
  cases kind.keyword? <;> simp

theorem terminal_eq_plain {kind kind' : Kind} :
    terminal kind = .plain kind' ↔ kind = kind' ∧ kind.keyword? = none := by
  unfold terminal
  cases kind.keyword? <;> simp

/-! ### Categories -/

/-- The ways to join operands from the left. -/
inductive Join
  | or
  | and
  | sum
  | product
deriving DecidableEq

/-- The layers of expressions. -/
inductive Layer
  | join (j : Join)
  | negation
  | comparison
  | unary
  | primary
deriving DecidableEq

/-- What a tree is a tree of. -/
inductive Category
  /-- An expression. -/
  | layer (l : Layer)
  /-- Operators with an operand each, after a first operand. -/
  | tail (j : Join)
  /-- Expressions with commas between them. -/
  | list
  /-- What stands between the parentheses of a call. -/
  | arguments

/-- The operators of a way to join. -/
def Join.operators : Join → List BinaryOp
  | or => [.or]
  | and => [.and]
  | sum => [.add, .sub]
  | product => [.mul, .div]

/-- The layer of the operands. -/
def Join.operand : Join → Layer
  | or => .join .and
  | and => .negation
  | sum => .join .product
  | product => .unary

/-- The operators that compare. -/
def comparators : List BinaryOp :=
  [.eq, .notEq, .lt, .ltEq, .gt, .gtEq]

/-- What trees of a category denote. -/
abbrev Category.Value : Category → Type
  | layer _ => Expr
  | tail _ => Expr → Expr
  | list => List Expr
  | arguments => List Expr × List Expr

/-- The terminal of an operator. -/
def operator : BinaryOp → Terminal
  | .and => .word .andWord
  | .or => .word .orWord
  | .eq => .plain .eq
  | .notEq => .plain .notEq
  | .lt => .plain .lt
  | .ltEq => .plain .ltEq
  | .gt => .plain .gt
  | .gtEq => .plain .gtEq
  | .add => .plain .plus
  | .sub => .plain .minus
  | .mul => .plain .star
  | .div => .plain .slash

/-- The terminal of a constant. -/
def constant : Literal → Terminal
  | .null => .word .nullWord
  | .bool true => .word .trueWord
  | .bool false => .word .falseWord
  | .number x => .plain (.number x)
  | .string s => .plain (.string s)

/-- The terminals of a test for null; `some true` is the negated one. -/
def testTerminals : Option Bool → List Terminal
  | none => []
  | some false => [.word .isWord, .word .nullWord]
  | some true => [.word .isWord, .word .notWord, .word .nullWord]

/-! ### Trees -/

/-- Derivations. -/
inductive Tree : Category → Type
  /-- Operands with operators between them. -/
  | chain {j : Join} (first : Tree (.layer j.operand)) (rest : Tree (.tail j)) :
    Tree (.layer (.join j))
  /-- There is no further operand. -/
  | stop {j : Join} : Tree (.tail j)
  /-- There is a further operand. -/
  | more {j : Join} (op : BinaryOp) (h : op ∈ j.operators) (operand : Tree (.layer j.operand))
    (rest : Tree (.tail j)) : Tree (.tail j)
  /-- A negation. -/
  | not (operand : Tree (.layer .negation)) : Tree (.layer .negation)
  /-- No negation. -/
  | affirm (operand : Tree (.layer .comparison)) : Tree (.layer .negation)
  /-- A sum, with or without a test for null. -/
  | sum (left : Tree (.layer (.join .sum))) (test : Option Bool) : Tree (.layer .comparison)
  /-- A comparison of two sums, with or without a test for null. -/
  | compare (op : BinaryOp) (h : op ∈ comparators) (left right : Tree (.layer (.join .sum)))
    (test : Option Bool) : Tree (.layer .comparison)
  /-- A minus sign. -/
  | neg (operand : Tree (.layer .unary)) : Tree (.layer .unary)
  /-- No minus sign. -/
  | bare (operand : Tree (.layer .primary)) : Tree (.layer .unary)
  /-- A constant. -/
  | constant (value : Literal) : Tree (.layer .primary)
  /-- A name. -/
  | name (name : String) (h : Keyword.ofWord? name = none) : Tree (.layer .primary)
  /-- A call. -/
  | call (function : String) (h : Keyword.ofWord? function = none) (arguments : Tree .arguments) :
    Tree (.layer .primary)
  /-- An expression in parentheses. -/
  | parens (inner : Tree (.layer (.join .or))) : Tree (.layer .primary)
  /-- A last expression. -/
  | last (e : Tree (.layer (.join .or))) : Tree .list
  /-- An expression before others. -/
  | cons (e : Tree (.layer (.join .or))) (rest : Tree .list) : Tree .list
  /-- No arguments. -/
  | empty : Tree .arguments
  /-- Arguments. -/
  | args (args : Tree .list) : Tree .arguments
  /-- Dimensions. -/
  | groups (groups : Tree .list) : Tree .arguments
  /-- Arguments and dimensions, with or without a comma between them. -/
  | both (args : Tree .list) (comma : Bool) (groups : Tree .list) : Tree .arguments

namespace Tree

/-- What a tree spells. -/
def terminals {c : Category} : Tree c → List Terminal
  | chain first rest => first.terminals ++ rest.terminals
  | stop => []
  | more op _ operand rest => operator op :: (operand.terminals ++ rest.terminals)
  | not operand => .word .notWord :: operand.terminals
  | affirm operand => operand.terminals
  | sum left test => left.terminals ++ testTerminals test
  | compare op _ left right test =>
    left.terminals ++ operator op :: (right.terminals ++ testTerminals test)
  | neg operand => .plain .minus :: operand.terminals
  | bare operand => operand.terminals
  | constant value => [Grammar.constant value]
  | name n _ => [.plain (.ident n)]
  | call f _ arguments =>
    .plain (.ident f) :: .plain .leftParen :: (arguments.terminals ++ [.plain .rightParen])
  | parens inner => .plain .leftParen :: (inner.terminals ++ [.plain .rightParen])
  | last e => e.terminals
  | cons e rest => e.terminals ++ .plain .comma :: rest.terminals
  | empty => []
  | args es => es.terminals
  | groups gs => .word .byWord :: gs.terminals
  | both es comma gs =>
    es.terminals ++ (if comma then [.plain .comma] else []) ++ .word .byWord :: gs.terminals

/-- An expression with or without a test for null. -/
def tested (e : Expr) : Option Bool → Expr
  | none => e
  | some negated => .isNull e negated

/-- What a tree denotes. -/
def value {c : Category} : Tree c → c.Value
  | chain first rest => rest.value first.value
  | stop => fun (left : Expr) => left
  | more op _ operand rest => fun (left : Expr) => rest.value (.binary op left operand.value)
  | not operand => Expr.unary .not operand.value
  | affirm operand => operand.value
  | sum left test => tested left.value test
  | compare op _ left right test => tested (.binary op left.value right.value) test
  | neg operand => Expr.unary .neg operand.value
  | bare operand => operand.value
  | constant value => Expr.literal value
  | name n _ => Expr.name n
  | call f _ arguments => Expr.call f arguments.value.1 arguments.value.2
  | parens inner => inner.value
  | last e => [e.value]
  | cons e rest => List.cons e.value rest.value
  | empty => ([], [])
  | args es => (es.value, [])
  | groups gs => ([], gs.value)
  | both es _ gs => (es.value, gs.value)

end Tree

/-! ### Grip -/

/-- How tightly a terminal holds on to an expression before it: a parenthesis makes a call of a
name, and an operator takes an operand of the tighter layers. -/
def Terminal.grip : Terminal → Nat
  | .plain .leftParen => 0
  | .plain .star | .plain .slash => 1
  | .plain .plus | .plain .minus => 2
  | .plain .eq | .plain .notEq | .plain .lt | .plain .ltEq | .plain .gt | .plain .gtEq => 3
  | .word .isWord => 3
  | .word .andWord => 4
  | .word .orWord => 5
  | _ => 6

/-- The grip of the operators of a way to join. -/
def Join.grip : Join → Nat
  | or => 5
  | and => 4
  | sum => 2
  | product => 1

/-- The loosest grip by which an expression of a layer is gone on. -/
def Layer.grip : Layer → Nat
  | join j => j.grip
  | negation | comparison => 3
  | unary | primary => 0

/-- Terminals that do not go on an expression which is gone on by a grip. -/
def Apart (grip : Nat) (xs : List Terminal) : Prop :=
  ∀ x ∈ xs.head?, grip < x.grip

/-- Terminals that may follow a tree of a category. -/
def Category.Before : Category → List Terminal → Prop
  | layer l, xs => Apart l.grip xs
  | tail j, xs => Apart j.grip xs
  | list, xs => ∃ ys, xs = .plain .rightParen :: ys ∨ xs = .word .byWord :: ys ∨
    xs = .plain .comma :: .word .byWord :: ys
  | arguments, xs => ∃ ys, xs = .plain .rightParen :: ys

theorem Apart.mono {grip grip' : Nat} {xs : List Terminal} (h : Apart grip xs)
    (hle : grip' ≤ grip) : Apart grip' xs :=
  fun x hx => Nat.lt_of_le_of_lt hle (h x hx)

theorem apart_cons {grip : Nat} {x : Terminal} {xs : List Terminal} :
    Apart grip (x :: xs) ↔ grip < x.grip := by
  simp [Apart]

theorem Join.grip_operator {j : Join} {op : BinaryOp} (h : op ∈ j.operators) :
    (operator op).grip = j.grip := by
  revert h
  cases j <;> cases op <;> decide

theorem Join.operand_lt (j : Join) : j.operand.grip < j.grip := by
  cases j <;> decide

theorem grip_comparator {op : BinaryOp} (h : op ∈ comparators) : (operator op).grip = 3 := by
  revert h
  cases op <;> decide

theorem apart_comparator {op : BinaryOp} (h : op ∈ comparators) {xs : List Terminal} :
    Apart 2 (operator op :: xs) := by
  rw [apart_cons, grip_comparator h]
  decide

/-- What follows a list in a call does not go on an expression. -/
theorem Category.Before.apart {xs : List Terminal} (h : list.Before xs) : Apart 5 xs := by
  obtain ⟨ys, rfl | rfl | rfl⟩ := h <;> exact apart_cons.2 (by decide)

namespace Tree

/-- After an operand comes an operator or what follows the whole, so it is not gone on. -/
theorem apart_tail {j : Join} (t : Tree (.tail j)) {xs : List Terminal} (h : Apart j.grip xs) :
    Apart j.operand.grip (t.terminals ++ xs) := by
  cases t with
  | stop => exact h.mono (Nat.le_of_lt j.operand_lt)
  | more op hop operand rest =>
    rw [terminals, List.cons_append, apart_cons, Join.grip_operator hop]
    exact j.operand_lt

/-- A test for null does not go on a sum. -/
theorem apart_test (test : Option Bool) {xs : List Terminal} (h : Apart 3 xs) :
    Apart 2 (testTerminals test ++ xs) := by
  cases test with
  | none => exact h.mono (by decide)
  | some negated => cases negated <;> exact apart_cons.2 (by decide)

end Tree

/-! ### Beginnings -/

/-- Terminals with which no expression of a layer begins. -/
def Layer.barred : Layer → List Terminal
  | join .or | join .and | negation => [.word .byWord, .plain .rightParen]
  | comparison | join .sum | join .product | unary =>
    [.word .byWord, .plain .rightParen, .word .notWord]
  | primary => [.word .byWord, .plain .rightParen, .word .notWord, .plain .minus]

/-- Terminals begin, and not with one that is barred. -/
def Begins (barred xs : List Terminal) : Prop :=
  ∃ x ys, xs = x :: ys ∧ x ∉ barred

theorem Begins.append {barred barred' xs : List Terminal} (h : Begins barred xs)
    (hsubset : barred' ⊆ barred) (ys : List Terminal) : Begins barred' (xs ++ ys) := by
  obtain ⟨x, zs, rfl, hx⟩ := h
  exact ⟨x, zs ++ ys, rfl, fun hm => hx (hsubset hm)⟩

theorem Begins.mono {barred barred' xs : List Terminal} (h : Begins barred xs)
    (hsubset : barred' ⊆ barred) : Begins barred' xs :=
  xs.append_nil ▸ h.append hsubset []

theorem barred_operand (j : Join) : (Layer.join j).barred ⊆ j.operand.barred := by
  cases j <;> decide

theorem begins_constant (value : Literal) :
    Begins Layer.primary.barred [Grammar.constant value] := by
  cases value with
  | bool b => cases b <;> exact ⟨_, _, rfl, by simp [constant, Layer.barred]⟩
  | _ => exact ⟨_, _, rfl, by simp [constant, Layer.barred]⟩

theorem Tree.begins {l : Layer} : ∀ t : Tree (.layer l), Begins l.barred t.terminals
  | chain (j := j) first rest => first.begins.append (barred_operand j) rest.terminals
  | not _ => ⟨_, _, rfl, by decide⟩
  | affirm operand => operand.begins.mono (by decide)
  | sum left test => left.begins.append (by decide) (testTerminals test)
  | compare _ _ left _ _ => left.begins.append (by decide) _
  | neg _ => ⟨_, _, rfl, by decide⟩
  | bare operand => operand.begins.mono (by decide)
  | constant value => begins_constant value
  | name _ _ => ⟨_, _, rfl, by simp [Layer.barred]⟩
  | call _ _ _ => ⟨_, _, rfl, by simp [Layer.barred]⟩
  | parens _ => ⟨_, _, rfl, by decide⟩

theorem Tree.begins_list : ∀ t : Tree .list, Begins (Layer.join .or).barred t.terminals
  | last e => e.begins
  | cons e _ => e.begins.append (List.Subset.refl _) _

/-! ### Unique derivations -/

theorem constant_injective {a b : Literal} (h : constant a = constant b) : a = b := by
  rcases a with _ | (_ | _) | _ | _ <;> rcases b with _ | (_ | _) | _ | _ <;>
    simp_all [constant]

theorem operator_injective {a b : BinaryOp} (h : operator a = operator b) : a = b := by
  revert h
  cases a <;> cases b <;> decide

theorem constant_ne_ident {value : Literal} {n : String} :
    constant value ≠ .plain (.ident n) := by
  rcases value with _ | (_ | _) | _ | _ <;> simp [constant]

theorem constant_ne_leftParen {value : Literal} : constant value ≠ .plain .leftParen := by
  rcases value with _ | (_ | _) | _ | _ <;> simp [constant]

/-- No expression begins with a terminal that is barred. -/
theorem Begins.not_mem {barred xs ys zs : List Terminal} {x : Terminal} (h : Begins barred xs)
    (heq : xs ++ ys = x :: zs) : x ∉ barred := by
  obtain ⟨y, xs, rfl, hy⟩ := h
  cases heq
  exact hy

/-- No terminal that may follow an expression of a layer goes on it. -/
theorem Apart.ne {grip : Nat} {xs ys : List Terminal} {x : Terminal} (h : Apart grip xs)
    (hx : x.grip ≤ grip) : xs ≠ x :: ys := by
  rintro rfl
  exact absurd (apart_cons.1 h) (Nat.not_lt.2 hx)

theorem testTerminals_unique {test test' : Option Bool} {xs xs' : List Terminal}
    (heq : testTerminals test ++ xs = testTerminals test' ++ xs') (h : Apart 3 xs)
    (h' : Apart 3 xs') : test = test' ∧ xs = xs' := by
  rcases test with _ | _ | _ <;> rcases test' with _ | _ | _ <;>
    simp only [testTerminals, List.nil_append, List.cons_append, List.cons.injEq] at heq
  · exact ⟨rfl, heq⟩
  · exact absurd heq (h.ne (by decide))
  · exact absurd heq (h.ne (by decide))
  · exact absurd heq.symm (h'.ne (by decide))
  · exact ⟨rfl, heq.2.2⟩
  · exact absurd heq.2.1 (by decide)
  · exact absurd heq.symm (h'.ne (by decide))
  · exact absurd heq.2.1 (by decide)
  · exact ⟨rfl, heq.2.2.2⟩

/-- What follows a sum is either a comparison or not. -/
theorem testTerminals_ne {test : Option Bool} {op : BinaryOp} {xs ys : List Terminal}
    (hop : op ∈ comparators) (h : Apart 3 xs) : testTerminals test ++ xs ≠ operator op :: ys := by
  cases test with
  | none => exact h.ne (Nat.le_of_eq (grip_comparator hop))
  | some negated =>
    have hne : (Terminal.word .isWord) ≠ operator op := by
      revert hop
      cases op <;> decide
    cases negated <;> exact fun heq => hne (List.cons.inj heq).1

/-- After a list comes no comma with another expression. -/
theorem Category.Before.ne_comma {xs ys : List Terminal} (h : list.Before xs) (t : Tree .list) :
    xs ≠ .plain .comma :: (t.terminals ++ ys) := by
  rintro rfl
  obtain ⟨zs, heq | heq | heq⟩ := h
  · cases heq
  · cases heq
  · exact absurd (by decide) (t.begins_list.not_mem (List.cons.inj heq).2)

theorem before_groups (comma : Bool) (gs : Tree .list) (xs : List Terminal) :
    Category.list.Before
      ((if comma then [.plain .comma] else []) ++ (.word .byWord :: gs.terminals ++ xs)) := by
  cases comma
  · exact ⟨_, .inr (.inl rfl)⟩
  · exact ⟨_, .inr (.inr rfl)⟩

theorem groups_unique {comma comma' : Bool} {xs xs' : List Terminal}
    (heq : (if comma then [.plain .comma] else []) ++ Terminal.word .byWord :: xs =
      (if comma' then [.plain .comma] else []) ++ .word .byWord :: xs') :
    comma = comma' ∧ xs = xs' := by
  cases comma <;> cases comma' <;> cases heq <;> exact ⟨rfl, rfl⟩

namespace Tree

/-- **The grammar is unambiguous**: where two trees of one category spell the beginning of the same
terminals, and nothing goes on either, they are the same tree. -/
theorem unique {c : Category} (t t' : Tree c) {xs xs' : List Terminal}
    (heq : t.terminals ++ xs = t'.terminals ++ xs') (h : c.Before xs) (h' : c.Before xs') :
    t = t' ∧ xs = xs' := by
  induction t generalizing xs xs' with
  | chain first rest ihfirst ihrest =>
    cases t' with
    | chain first' rest' =>
      simp only [terminals, List.append_assoc] at heq
      obtain ⟨rfl, hrest⟩ := ihfirst first' heq (rest.apart_tail h) (rest'.apart_tail h')
      obtain ⟨rfl, hxs⟩ := ihrest rest' hrest h h'
      exact ⟨rfl, hxs⟩
  | stop =>
    cases t' with
    | stop => exact ⟨rfl, heq⟩
    | more op hop => exact absurd heq (h.ne (Nat.le_of_eq (Join.grip_operator hop)))
  | more op hop operand rest ihoperand ihrest =>
    cases t' with
    | stop => exact absurd heq.symm (h'.ne (Nat.le_of_eq (Join.grip_operator hop)))
    | more op' hop' operand' rest' =>
      simp only [terminals, List.cons_append, List.append_assoc, List.cons.injEq] at heq
      obtain rfl := operator_injective heq.1
      obtain ⟨rfl, hrest⟩ := ihoperand operand' heq.2 (rest.apart_tail h) (rest'.apart_tail h')
      obtain ⟨rfl, hxs⟩ := ihrest rest' hrest h h'
      exact ⟨rfl, hxs⟩
  | not operand ih =>
    cases t' with
    | not operand' =>
      obtain ⟨rfl, hxs⟩ := ih operand' (List.cons.inj heq).2 h h'
      exact ⟨rfl, hxs⟩
    | affirm operand' => exact absurd (by decide) (operand'.begins.not_mem heq.symm)
  | affirm operand ih =>
    cases t' with
    | not operand' => exact absurd (by decide) (operand.begins.not_mem heq)
    | affirm operand' =>
      obtain ⟨rfl, hxs⟩ := ih operand' heq h h'
      exact ⟨rfl, hxs⟩
  | sum left test ih =>
    cases t' with
    | sum left' test' =>
      simp only [terminals, List.append_assoc] at heq
      obtain ⟨rfl, htest⟩ := ih left' heq (apart_test test h) (apart_test test' h')
      obtain ⟨rfl, hxs⟩ := testTerminals_unique htest h h'
      exact ⟨rfl, hxs⟩
    | compare op hop left' right' test' =>
      simp only [terminals, List.append_assoc, List.cons_append] at heq
      obtain ⟨-, htest⟩ := ih left' heq (apart_test test h) (apart_comparator hop)
      exact absurd htest (testTerminals_ne hop h)
  | compare op hop left right test ihleft ihright =>
    cases t' with
    | sum left' test' =>
      simp only [terminals, List.append_assoc, List.cons_append] at heq
      obtain ⟨-, htest⟩ := ihleft left' heq (apart_comparator hop) (apart_test test' h')
      exact absurd htest.symm (testTerminals_ne hop h')
    | compare op' hop' left' right' test' =>
      simp only [terminals, List.append_assoc, List.cons_append] at heq
      obtain ⟨rfl, hright⟩ := ihleft left' heq (apart_comparator hop) (apart_comparator hop')
      obtain rfl := operator_injective (List.cons.inj hright).1
      obtain ⟨rfl, htest⟩ := ihright right' (List.cons.inj hright).2 (apart_test test h)
        (apart_test test' h')
      obtain ⟨rfl, hxs⟩ := testTerminals_unique htest h h'
      exact ⟨rfl, hxs⟩
  | neg operand ih =>
    cases t' with
    | neg operand' =>
      obtain ⟨rfl, hxs⟩ := ih operand' (List.cons.inj heq).2 h h'
      exact ⟨rfl, hxs⟩
    | bare operand' => exact absurd (by decide) (operand'.begins.not_mem heq.symm)
  | bare operand ih =>
    cases t' with
    | neg operand' => exact absurd (by decide) (operand.begins.not_mem heq)
    | bare operand' =>
      obtain ⟨rfl, hxs⟩ := ih operand' heq h h'
      exact ⟨rfl, hxs⟩
  | constant value =>
    cases t' with
    | constant value' =>
      obtain ⟨hhead, hxs⟩ := List.cons.inj heq
      obtain rfl := constant_injective hhead
      exact ⟨rfl, hxs⟩
    | name => exact absurd (List.cons.inj heq).1 constant_ne_ident
    | call => exact absurd (List.cons.inj heq).1 constant_ne_ident
    | parens => exact absurd (List.cons.inj heq).1 constant_ne_leftParen
  | name n hn =>
    cases t' with
    | constant => exact absurd (List.cons.inj heq).1.symm constant_ne_ident
    | name n' =>
      cases heq
      exact ⟨rfl, rfl⟩
    | call => exact absurd (List.cons.inj heq).2 (h.ne (by decide))
    | parens => cases heq
  | call f hf arguments ih =>
    cases t' with
    | constant => exact absurd (List.cons.inj heq).1.symm constant_ne_ident
    | name => exact absurd (List.cons.inj heq).2.symm (h'.ne (by decide))
    | call f' hf' arguments' =>
      simp only [terminals, List.append_assoc, List.cons_append, List.nil_append,
        List.cons.injEq] at heq
      obtain ⟨hhead, -, hcall⟩ := heq
      cases hhead
      obtain ⟨rfl, hxs⟩ := ih arguments' hcall ⟨_, rfl⟩ ⟨_, rfl⟩
      exact ⟨rfl, (List.cons.inj hxs).2⟩
    | parens => cases heq
  | parens inner ih =>
    cases t' with
    | constant => exact absurd (List.cons.inj heq).1.symm constant_ne_leftParen
    | name => cases heq
    | call => cases heq
    | parens inner' =>
      simp only [terminals, List.append_assoc, List.cons_append, List.nil_append,
        List.cons.injEq] at heq
      obtain ⟨rfl, hxs⟩ := ih inner' heq.2 (apart_cons.2 (by decide)) (apart_cons.2 (by decide))
      exact ⟨rfl, (List.cons.inj hxs).2⟩
  | last e ih =>
    cases t' with
    | last e' =>
      obtain ⟨rfl, hxs⟩ := ih e' heq h.apart h'.apart
      exact ⟨rfl, hxs⟩
    | cons e' rest' =>
      simp only [terminals, List.append_assoc, List.cons_append] at heq
      obtain ⟨-, hxs⟩ := ih e' heq h.apart (apart_cons.2 (by decide))
      exact absurd hxs (h.ne_comma rest')
  | cons e rest ihe ihrest =>
    cases t' with
    | last e' =>
      simp only [terminals, List.append_assoc, List.cons_append] at heq
      obtain ⟨-, hxs⟩ := ihe e' heq (apart_cons.2 (by decide)) h'.apart
      exact absurd hxs.symm (h'.ne_comma rest)
    | cons e' rest' =>
      simp only [terminals, List.append_assoc, List.cons_append] at heq
      obtain ⟨rfl, hrest⟩ := ihe e' heq (apart_cons.2 (by decide)) (apart_cons.2 (by decide))
      obtain ⟨rfl, hxs⟩ := ihrest rest' (List.cons.inj hrest).2 h h'
      exact ⟨rfl, hxs⟩
  | empty =>
    obtain ⟨ys, rfl⟩ := h
    cases t' with
    | empty => exact ⟨rfl, heq⟩
    | args es' => exact absurd (by decide) (es'.begins_list.not_mem heq.symm)
    | groups gs' => cases heq
    | both es' comma' gs' =>
      simp only [terminals, List.append_assoc] at heq
      exact absurd (by decide) (es'.begins_list.not_mem heq.symm)
  | args es ih =>
    obtain ⟨ys, rfl⟩ := h
    obtain ⟨ys', rfl⟩ := h'
    cases t' with
    | empty => exact absurd (by decide) (es.begins_list.not_mem heq)
    | args es' =>
      obtain ⟨rfl, hxs⟩ := ih es' heq ⟨_, .inl rfl⟩ ⟨_, .inl rfl⟩
      exact ⟨rfl, hxs⟩
    | groups gs' => exact absurd (by decide) (es.begins_list.not_mem heq)
    | both es' comma' gs' =>
      simp only [terminals, List.append_assoc] at heq
      obtain ⟨-, hxs⟩ := ih es' heq ⟨_, .inl rfl⟩ (before_groups comma' gs' _)
      cases comma' <;> cases hxs
  | groups gs ih =>
    obtain ⟨ys, rfl⟩ := h
    obtain ⟨ys', rfl⟩ := h'
    cases t' with
    | empty => cases heq
    | args es' => exact absurd (by decide) (es'.begins_list.not_mem heq.symm)
    | groups gs' =>
      obtain ⟨rfl, hxs⟩ := ih gs' (List.cons.inj heq).2 ⟨_, .inl rfl⟩ ⟨_, .inl rfl⟩
      exact ⟨rfl, hxs⟩
    | both es' comma' gs' =>
      simp only [terminals, List.append_assoc] at heq
      exact absurd (by decide) (es'.begins_list.not_mem heq.symm)
  | both es comma gs ihes ihgs =>
    obtain ⟨ys, rfl⟩ := h
    obtain ⟨ys', rfl⟩ := h'
    simp only [terminals, List.append_assoc] at heq
    cases t' with
    | empty => exact absurd (by decide) (es.begins_list.not_mem heq)
    | args es' =>
      obtain ⟨-, hxs⟩ := ihes es' heq (before_groups comma gs _) ⟨_, .inl rfl⟩
      cases comma <;> cases hxs
    | groups gs' => exact absurd (by decide) (es.begins_list.not_mem heq)
    | both es' comma' gs' =>
      simp only [terminals, List.append_assoc] at heq
      obtain ⟨rfl, hgroups⟩ := ihes es' heq (before_groups comma gs _) (before_groups comma' gs' _)
      obtain ⟨rfl, hgs⟩ := groups_unique hgroups
      obtain ⟨rfl, hxs⟩ := ihgs gs' hgs ⟨_, .inl rfl⟩ ⟨_, .inl rfl⟩
      exact ⟨rfl, hxs⟩

end Tree

end Grammar

end GatedRules
