import GatedRules.Module.Parser

/-!
# Rule source further down

The same source may start on a later line. Its tokens are then the same, on lines further down
(`scanFrom_down`), and so is what readers make of them, since they look at nothing of a token but
what it is: an answer is the same, with statements on lines further down, and a reader is stuck at
the same token (`Parser.statements_down`). This is proved reader by reader, each from those that it
calls (`Parser.Steady`).
-/

namespace GatedRules

/-- The place in the same column, so many lines further down. -/
def Position.down (k : Nat) (p : Position) : Position :=
  { p with line := p.line + k }

/-- The same token, so many lines further down. -/
def Token.down (k : Nat) (t : Token) : Token :=
  { t with position := t.position.down k }

@[simp]
theorem Token.kind_down (k : Nat) (t : Token) : (t.down k).kind = t.kind :=
  rfl

@[simp]
theorem Token.line_down (k : Nat) (t : Token) :
    (t.down k).position.line = t.position.line + k :=
  rfl

/-- The same statement, so many lines further down. -/
def Statement.down (k : Nat) : Statement → Statement
  | binding name expr isDefault line => binding name expr isDefault (line + k)
  | inclusion directive => inclusion { directive with line := directive.line + k }

/-- The same error, so many lines further down. -/
def SyntaxError.down (k : Nat) (e : SyntaxError) : SyntaxError :=
  { e with position := e.position.down k }

/-! ### Tokens -/

/-- What a text is split into, so many lines further down. -/
def Tokens.downScan (k : Nat) :
    Except (Position × SyntaxFault) (List Token × Position) →
      Except (Position × SyntaxFault) (List Token × Position)
  | .ok (tokens, stop) => .ok (tokens.map (Token.down k), stop.down k)
  | .error (position, fault) => .error (position.down k, fault)

/-- A character that is not blank and starts no comment starts a token. -/
theorem scanFrom_cons {c : Char} {cs : List Char} (hline : c ≠ '\n')
    (hblank : ¬ Text.isBlank c = true) (hhash : c ≠ '#') (position : Position) :
    scanFrom position (c :: cs) =
      match lexeme c cs with
      | .error fault => .error (position, fault)
      | .ok (kind, rest) =>
        (scanFrom ⟨position.line, position.column + (cs.length + 1 - rest.length)⟩ rest).map
          fun (tokens, stop) => (⟨kind, position⟩ :: tokens, stop) := by
  rw [scanFrom, if_neg hline, if_neg hblank, if_neg hhash]
  split <;> simp [*]

/-- Text that starts further down has the same tokens further down, or the same fault. -/
theorem scanFrom_down (k : Nat) (position : Position) (cs : List Char) :
    scanFrom (position.down k) cs = Tokens.downScan k (scanFrom position cs) := by
  fun_induction scanFrom position cs with
  | case1 position =>
    rw [scanFrom]
    rfl
  | case2 position cs ih =>
    rw [scanFrom, if_pos rfl, ← ih]
    exact congrArg (scanFrom · cs) (by simp [Position.down]; omega)
  | case3 position c cs hline hblank ih =>
    rw [scanFrom, if_neg hline, if_pos hblank, ← ih]
    rfl
  | case4 position cs hline hblank ih =>
    rw [scanFrom, if_neg hline, if_neg hblank, if_pos rfl, ih]
  | case5 position c cs hline hblank hhash fault hlexeme =>
    rw [scanFrom_cons hline hblank hhash, hlexeme]
    rfl
  | case6 position c cs hline hblank hhash kind rest hlexeme width ih =>
    rw [scanFrom_cons hline hblank hhash, hlexeme]
    change (scanFrom (Position.down k ⟨position.line, position.column + width⟩) rest).map _ = _
    rw [ih]
    rcases scanFrom ⟨position.line, position.column + width⟩ rest with ⟨_, _⟩ | ⟨_, _⟩ <;> rfl

namespace Parser

variable {k : Nat} {α β : Type}

/-- What a reader is stuck at, so many lines further down. -/
def Stuck.down (k : Nat) (s : Stuck) : Stuck :=
  { s with rest := s.rest.map (Token.down k) }

/-- What a reader answers to tokens that are so many lines further down. -/
def Parsed.down (k : Nat) : Parsed α → Parsed α
  | .ok (a, rest) => .ok (a, rest.map (Token.down k))
  | .error stuck => .error (stuck.down k)

/-- A reader does not care on which lines tokens are. -/
def Steady (k : Nat) (reader : List Token → Parsed α) : Prop :=
  ∀ ts, reader (ts.map (Token.down k)) = Parsed.down k (reader ts)

theorem unexpected_down (wanted : Wanted) (ts : List Token) :
    (unexpected wanted (ts.map (Token.down k)) : Parsed α) =
      Parsed.down k (unexpected wanted ts) := by
  cases ts <;> rfl

theorem after?_down (keyword : Keyword) (ts : List Token) :
    after? keyword (ts.map (Token.down k)) =
      (after? keyword ts).map (List.map (Token.down k)) := by
  cases ts with
  | nil => rfl
  | cons t ts =>
    rw [List.map_cons, after?, after?, Token.kind_down]
    split <;> rfl

/-- An expected token is found, or not, and the rest goes on further down. -/
theorem expect_down (kind : Kind) (wanted : Wanted) (ts : List Token) :
    expect kind wanted (ts.map (Token.down k)) =
      match expect kind wanted ts with
      | .ok rest => .ok (rest.map (Token.down k))
      | .error stuck => .error (stuck.down k) := by
  cases ts with
  | nil => rfl
  | cons t ts =>
    rw [List.map_cons, expect, expect, Token.kind_down]
    split <;> rfl

/-! ### Expressions -/

variable {op? : Kind → Option BinaryOp} {operand sub : List Token → Parsed Expr}

theorem steady_chain (h : Steady k operand) (n : Nat) (left : Expr) :
    Steady k (chain op? operand n left) := by
  induction n generalizing left with
  | zero => exact fun ts => by cases ts <;> rfl
  | succ n ih =>
    intro ts
    cases ts with
    | nil => rfl
    | cons t ts =>
      rw [List.map_cons, chain, chain, Token.kind_down]
      cases op? t.kind with
      | none => rfl
      | some op =>
        dsimp only
        rw [h ts]
        rcases operand ts with stuck | ⟨right, rest⟩
        · rfl
        · exact ih (.binary op left right) rest

theorem steady_level (h : Steady k operand) : Steady k (level op? operand) := by
  intro ts
  rw [level, level, h ts]
  rcases operand ts with stuck | ⟨left, rest⟩
  · rfl
  · dsimp only [Parsed.down]
    rw [List.length_map]
    exact steady_chain h rest.length left rest

/-- The tokens after a token of a given kind, if it comes next. -/
def next? (kind : Kind) : List Token → Option (List Token)
  | [] => none
  | t :: ts => if t.kind = kind then some ts else none

theorem next?_down (kind : Kind) (ts : List Token) :
    next? kind (ts.map (Token.down k)) = (next? kind ts).map (List.map (Token.down k)) := by
  cases ts with
  | nil => rfl
  | cons t ts =>
    rw [List.map_cons, next?, next?, Token.kind_down]
    split <;> rfl

theorem groups_succ (n : Nat) (ts : List Token) :
    groups sub (n + 1) ts =
      match sub ts with
      | .error stuck => .error stuck
      | .ok (e, rest) =>
        match next? .comma rest with
        | some rest =>
          match groups sub n rest with
          | .error stuck => .error stuck
          | .ok (es, rest) => .ok (e :: es, rest)
        | none =>
          match expect .rightParen .closeParen rest with
          | .error stuck => .error stuck
          | .ok rest => .ok ([e], rest) := by
  rw [groups]
  rcases sub ts with stuck | ⟨e, _ | ⟨⟨kind, position⟩, rest⟩⟩
  · rfl
  · rfl
  · cases kind <;> rfl

theorem steady_groups (h : Steady k sub) (n : Nat) : Steady k (groups sub n) := by
  induction n with
  | zero => exact fun ts => unexpected_down _ ts
  | succ n ih =>
    intro ts
    rw [groups_succ, groups_succ, h ts]
    rcases sub ts with stuck | ⟨e, rest⟩
    · rfl
    dsimp only [Parsed.down]
    rw [next?_down]
    cases next? .comma rest with
    | some rest =>
      dsimp only [Option.map_some]
      rw [ih rest]
      rcases groups sub n rest with stuck | ⟨es, rest⟩ <;> rfl
    | none =>
      dsimp only [Option.map_none]
      rw [expect_down]
      rcases expect .rightParen .closeParen rest with stuck | rest <;> rfl

/-- The tokens after what stands between an argument and the rest. -/
def separator (ts : List Token) : Except Stuck (List Token) :=
  if (after? .byWord ts).isSome then .ok ts else expect .comma .commaOrClose ts

theorem separator_down (ts : List Token) :
    separator (ts.map (Token.down k)) =
      match separator ts with
      | .ok rest => .ok (rest.map (Token.down k))
      | .error stuck => .error (stuck.down k) := by
  rw [separator, separator, after?_down, Option.isSome_map]
  split
  · rfl
  · exact expect_down ..

theorem arguments_succ (n : Nat) (ts : List Token) :
    arguments sub (n + 1) ts =
      match after? .byWord ts with
      | some rest =>
        match groups sub n rest with
        | .error stuck => .error stuck
        | .ok (es, rest) => .ok (([], es), rest)
      | none =>
        match sub ts with
        | .error stuck => .error stuck
        | .ok (e, rest) =>
          match next? .rightParen rest with
          | some rest => .ok (([e], []), rest)
          | none =>
            match separator rest with
            | .error stuck => .error stuck
            | .ok rest =>
              match arguments sub n rest with
              | .error stuck => .error stuck
              | .ok ((es, gs), rest) => .ok ((e :: es, gs), rest) := by
  rw [arguments]
  cases after? .byWord ts with
  | some rest => rfl
  | none =>
    dsimp only
    rcases sub ts with stuck | ⟨e, _ | ⟨⟨kind, position⟩, rest⟩⟩
    · rfl
    · rfl
    · cases kind <;> rfl

theorem steady_arguments (h : Steady k sub) (n : Nat) : Steady k (arguments sub n) := by
  induction n with
  | zero => exact fun ts => unexpected_down _ ts
  | succ n ih =>
    intro ts
    rw [arguments_succ, arguments_succ, after?_down]
    cases after? .byWord ts with
    | some rest =>
      dsimp only [Option.map_some]
      rw [steady_groups h n rest]
      rcases groups sub n rest with stuck | ⟨es, rest⟩ <;> rfl
    | none =>
      dsimp only [Option.map_none]
      rw [h ts]
      rcases sub ts with stuck | ⟨e, rest⟩
      · rfl
      dsimp only [Parsed.down]
      rw [next?_down]
      cases next? .rightParen rest with
      | some rest => rfl
      | none =>
        dsimp only [Option.map_none]
        rw [separator_down]
        rcases separator rest with stuck | rest
        · rfl
        · dsimp only
          rw [ih rest]
          rcases arguments sub n rest with stuck | ⟨⟨es, gs⟩, rest⟩ <;> rfl

theorem call_eq (function : String) (ts : List Token) :
    call sub function ts =
      match next? .rightParen ts with
      | some rest => .ok (.call function [] [], rest)
      | none =>
        match arguments sub ts.length ts with
        | .error stuck => .error stuck
        | .ok ((es, gs), rest) => .ok (.call function es gs, rest) := by
  rcases ts with _ | ⟨⟨kind, position⟩, rest⟩
  · rfl
  · cases kind <;> rfl

theorem steady_call (h : Steady k sub) (function : String) : Steady k (call sub function) := by
  intro ts
  rw [call_eq, call_eq, next?_down]
  cases next? .rightParen ts with
  | some rest => rfl
  | none =>
    dsimp only [Option.map_none]
    rw [List.length_map, steady_arguments h ts.length ts]
    rcases arguments sub ts.length ts with stuck | ⟨⟨es, gs⟩, rest⟩ <;> rfl

theorem primary_leftParen (position : Position) (ts : List Token) :
    primary sub (⟨.leftParen, position⟩ :: ts) =
      match sub ts with
      | .error stuck => .error stuck
      | .ok (e, rest) =>
        match expect .rightParen .closeParen rest with
        | .error stuck => .error stuck
        | .ok rest => .ok (e, rest) :=
  rfl

theorem primary_name {word : String} (h : Keyword.ofWord? word = none) (position : Position)
    (ts : List Token) :
    primary sub (⟨.ident word, position⟩ :: ts) =
      match next? .leftParen ts with
      | some rest => call sub word rest
      | none => .ok (.name word, ts) := by
  simp only [primary, h]
  rcases ts with _ | ⟨⟨kind, position⟩, rest⟩
  · rfl
  · cases kind <;> rfl

theorem steady_primary (h : Steady k sub) : Steady k (primary sub) := by
  intro ts
  rcases ts with _ | ⟨⟨kind, position⟩, ts⟩
  · rfl
  rw [List.map_cons, Token.down]
  cases kind with
  | leftParen =>
    rw [primary_leftParen, primary_leftParen, h ts]
    rcases sub ts with stuck | ⟨e, rest⟩
    · rfl
    dsimp only [Parsed.down]
    rw [expect_down]
    rcases expect .rightParen .closeParen rest with stuck | rest <;> rfl
  | ident word =>
    cases hword : Keyword.ofWord? word with
    | none =>
      rw [primary_name hword, primary_name hword, next?_down]
      cases next? .leftParen ts with
      | some rest => exact steady_call h word rest
      | none => rfl
    | some keyword =>
      simp only [primary, hword]
      cases keyword <;> rfl
  | _ => rfl

theorem steady_unary (h : Steady k sub) : Steady k (unary sub) := by
  intro ts
  induction ts with
  | nil => exact steady_primary h []
  | cons t ts ih =>
    rw [List.map_cons, unary, unary, Token.kind_down]
    split
    · rw [ih]
      rcases unary sub ts with stuck | ⟨e, rest⟩ <;> rfl
    · exact steady_primary h (t :: ts)

theorem steady_sum (h : Steady k sub) : Steady k (sum sub) :=
  steady_level (steady_level (steady_unary h))

theorem steady_nullTest (e : Expr) : Steady k (nullTest e) := by
  intro ts
  rw [nullTest, nullTest, after?_down]
  cases after? .isWord ts with
  | none => rfl
  | some rest =>
    dsimp only [Option.map_some]
    rw [after?_down, Option.isSome_map]
    have hrest : ((after? .notWord rest).map (List.map (Token.down k))).getD
        (rest.map (Token.down k)) =
        ((after? .notWord rest).getD rest).map (Token.down k) := by
      cases after? .notWord rest <;> rfl
    rw [hrest, after?_down]
    cases after? .nullWord ((after? .notWord rest).getD rest) with
    | none => exact unexpected_down ..
    | some rest => rfl

theorem steady_comparison (h : Steady k sub) : Steady k (comparison sub) := by
  intro ts
  rw [comparison, comparison, steady_sum h ts]
  rcases sum sub ts with stuck | ⟨left, _ | ⟨t, rest⟩⟩
  · rfl
  · exact steady_nullTest left []
  simp only [Parsed.down, List.map_cons, Token.kind_down]
  cases compareOp? t.kind with
  | none => exact steady_nullTest left (t :: rest)
  | some op =>
    dsimp only
    rw [steady_sum h rest]
    rcases sum sub rest with stuck | ⟨right, rest⟩
    · rfl
    · exact steady_nullTest _ rest

theorem steady_negation (h : Steady k sub) : Steady k (negation sub) := by
  intro ts
  induction ts with
  | nil => exact steady_comparison h []
  | cons t ts ih =>
    rw [List.map_cons, negation, negation, Token.kind_down]
    split
    · rw [ih]
      rcases negation sub ts with stuck | ⟨e, rest⟩ <;> rfl
    · exact steady_comparison h (t :: ts)

theorem steady_expressionWithin (n : Nat) : Steady k (expressionWithin n) := by
  induction n with
  | zero => exact unexpected_down _
  | succ n ih => exact steady_level (steady_level (steady_negation ih))

theorem steady_expression : Steady k expression := by
  intro ts
  rw [expression, expression, List.length_map]
  exact steady_expressionWithin ts.length ts

/-! ### Statements -/

/-- What a reader of statements answers to tokens that are so many lines further down. -/
def downStatement (k : Nat) (x : Parsed Statement) : Parsed Statement :=
  (Parsed.down k x).map (Prod.map (Statement.down k) id)

theorem binding_down (line : Nat) (ts : List Token) :
    binding (line + k) (ts.map (Token.down k)) = downStatement k (binding line ts) := by
  rcases ts with _ | ⟨⟨kind, position⟩, ts⟩
  · rfl
  rw [List.map_cons, Token.down]
  cases kind with
  | ident name =>
    rw [binding, binding]
    dsimp only
    split
    · rfl
    rw [expect_down]
    rcases expect .assign .assign ts with stuck | rest
    · rfl
    dsimp only [bind, Except.bind]
    rw [steady_expression rest]
    rcases expression rest with stuck | ⟨e, rest⟩
    · rfl
    dsimp only [Parsed.down]
    rw [after?_down, Option.isSome_map]
    have hrest : ((after? .defaultWord rest).map (List.map (Token.down k))).getD
        (rest.map (Token.down k)) =
        ((after? .defaultWord rest).getD rest).map (Token.down k) := by
      cases after? .defaultWord rest <;> rfl
    rw [hrest, expect_down]
    rcases expect .semicolon .semicolon ((after? .defaultWord rest).getD rest) with stuck | rest <;>
      rfl
  | _ => rfl

theorem steady_condition : Steady k condition := by
  intro ts
  rw [condition, condition, after?_down]
  cases after? .whereWord ts with
  | none => rfl
  | some rest =>
    dsimp only [Option.map_some]
    rw [steady_expression rest]
    rcases expression rest with stuck | ⟨e, rest⟩ <;> rfl

theorem inclusion_down (line : Nat) (ts : List Token) :
    inclusion (line + k) (ts.map (Token.down k)) = downStatement k (inclusion line ts) := by
  rcases ts with _ | ⟨⟨kind, position⟩, ts⟩
  · rfl
  rw [List.map_cons, Token.down]
  cases kind with
  | string raw =>
    rw [inclusion, inclusion]
    dsimp only
    cases Template.parse raw with
    | error fault => rfl
    | ok target =>
      dsimp only
      rw [steady_condition ts]
      rcases condition ts with stuck | ⟨condition, rest⟩
      · rfl
      dsimp only [Parsed.down, bind, Except.bind]
      rw [expect_down]
      rcases expect .semicolon .semicolon rest with stuck | rest <;> rfl
  | _ => rfl

theorem statement_down (ts : List Token) :
    statement (ts.map (Token.down k)) = downStatement k (statement ts) := by
  rcases ts with _ | ⟨t, ts⟩
  · rfl
  rw [List.map_cons, statement, statement, Token.kind_down, Token.line_down]
  split
  · exact binding_down ..
  · exact inclusion_down ..
  · rfl

theorem statementsWithin_down (n : Nat) (ts : List Token) :
    statementsWithin n (ts.map (Token.down k)) =
      match statementsWithin n ts with
      | .ok ss => .ok (ss.map (Statement.down k))
      | .error stuck => .error (stuck.down k) := by
  induction n generalizing ts with
  | zero => cases ts <;> rfl
  | succ n ih =>
    cases ts with
    | nil => rfl
    | cons t ts =>
      have hstatement := statement_down (k := k) (t :: ts)
      rw [List.map_cons] at hstatement ⊢
      rw [statementsWithin, statementsWithin, hstatement]
      rcases statement (t :: ts) with stuck | ⟨s, rest⟩
      · rfl
      dsimp only [downStatement, Parsed.down, Except.map, Prod.map, bind, Except.bind, id]
      rw [ih rest]
      rcases statementsWithin n rest with stuck | ss <;> rfl

/-- Statements are read further down as they are read above, on lines further down. -/
theorem statements_down (ts : List Token) :
    statements (ts.map (Token.down k)) =
      match statements ts with
      | .ok ss => .ok (ss.map (Statement.down k))
      | .error stuck => .error (stuck.down k) := by
  rw [statements, statements, List.length_map, statementsWithin_down]

end Parser

end GatedRules
