import GatedRules.Proofs.Lines

/-!
# What readers complain of

A reader that is stuck answers with a fault and with the tokens from which the fault arises. The
fault names the first of these tokens as what has been found, or says that there is none; only a
template that is not well-formed is complained of by its own text, and then the first token is the
string with that text (`Stuck.Precise`). So the place of an error, which is that of the first token,
is the place of what the message is about. Every reader is precise if those that it calls are.
-/

namespace GatedRules

namespace Parser

/-- A fault is about the first of the tokens from which it arises, or about their end. -/
def Stuck.Precise (stuck : Stuck) : Prop :=
  (∃ wanted, stuck.fault = .unexpected wanted (stuck.rest.head?.map Token.kind)) ∨
    ∃ t ts raw fault, stuck.rest = t :: ts ∧ t.kind = .string raw ∧
      stuck.fault = .template raw fault

/-- If there is no answer, then there is a fault about the first of the tokens. -/
def Precise {α : Type} (x : Except Stuck α) : Prop :=
  ∀ stuck, x = .error stuck → stuck.Precise

variable {α : Type} {ts : List Token}

theorem precise_ok (a : α) : Precise (.ok a) :=
  nofun

theorem precise_error {stuck : Stuck} (h : stuck.Precise) :
    Precise (.error stuck : Except Stuck α) := by
  intro _ heq
  cases heq
  exact h

theorem precise_unexpected (wanted : Wanted) (ts : List Token) :
    Precise (unexpected wanted ts : Except Stuck α) :=
  precise_error (.inl ⟨wanted, rfl⟩)

theorem precise_expect (kind : Kind) (wanted : Wanted) (ts : List Token) :
    Precise (expect kind wanted ts) := by
  cases ts with
  | nil => exact precise_unexpected wanted []
  | cons t ts =>
    rw [expect]
    split
    · exact precise_ok ts
    · exact precise_unexpected wanted (t :: ts)

/-! ### Expressions -/

variable {op? : Kind → Option BinaryOp} {operand sub : List Token → Parsed Expr}

theorem precise_chain (h : ∀ ts, Precise (operand ts)) (n : Nat) (left : Expr) (ts : List Token) :
    Precise (chain op? operand n left ts) := by
  induction n generalizing left ts with
  | zero => cases ts <;> exact precise_ok _
  | succ n ih =>
    cases ts with
    | nil => exact precise_ok _
    | cons t ts =>
      rw [chain]
      cases op? t.kind with
      | none => exact precise_ok _
      | some op =>
        dsimp only
        rcases hoperand : operand ts with stuck | ⟨right, rest⟩
        · exact precise_error (h ts _ hoperand)
        · exact ih (.binary op left right) rest

theorem precise_level (h : ∀ ts, Precise (operand ts)) (ts : List Token) :
    Precise (level op? operand ts) := by
  rw [level]
  rcases hoperand : operand ts with stuck | ⟨left, rest⟩
  · exact precise_error (h ts _ hoperand)
  · exact precise_chain h rest.length left rest

theorem precise_groups (h : ∀ ts, Precise (sub ts)) (n : Nat) (ts : List Token) :
    Precise (groups sub n ts) := by
  induction n generalizing ts with
  | zero => exact precise_unexpected _ ts
  | succ n ih =>
    rw [groups_succ]
    rcases hsub : sub ts with stuck | ⟨e, rest⟩
    · exact precise_error (h ts _ hsub)
    dsimp only
    cases next? .comma rest with
    | some rest =>
      dsimp only
      rcases hgroups : groups sub n rest with stuck | ⟨es, rest⟩
      · exact precise_error (ih rest _ hgroups)
      · exact precise_ok _
    | none =>
      dsimp only
      rcases hclose : expect .rightParen .closeParen rest with stuck | rest
      · exact precise_error (precise_expect _ _ _ _ hclose)
      · exact precise_ok _

theorem precise_separator (ts : List Token) : Precise (separator ts) := by
  rw [separator]
  split
  · exact precise_ok ts
  · exact precise_expect _ _ _

theorem precise_arguments (h : ∀ ts, Precise (sub ts)) (n : Nat) (ts : List Token) :
    Precise (arguments sub n ts) := by
  induction n generalizing ts with
  | zero => exact precise_unexpected _ ts
  | succ n ih =>
    rw [arguments_succ]
    cases after? .byWord ts with
    | some rest =>
      dsimp only
      rcases hgroups : groups sub n rest with stuck | ⟨es, rest⟩
      · exact precise_error (precise_groups h n rest _ hgroups)
      · exact precise_ok _
    | none =>
      dsimp only
      rcases hsub : sub ts with stuck | ⟨e, rest⟩
      · exact precise_error (h ts _ hsub)
      dsimp only
      cases next? .rightParen rest with
      | some rest => exact precise_ok _
      | none =>
        dsimp only
        rcases hseparator : separator rest with stuck | rest
        · exact precise_error (precise_separator _ _ hseparator)
        dsimp only
        rcases harguments : arguments sub n rest with stuck | ⟨⟨es, gs⟩, rest⟩
        · exact precise_error (ih rest _ harguments)
        · exact precise_ok _

theorem precise_call (h : ∀ ts, Precise (sub ts)) (function : String) (ts : List Token) :
    Precise (call sub function ts) := by
  rw [call_eq]
  cases next? .rightParen ts with
  | some rest => exact precise_ok _
  | none =>
    dsimp only
    rcases harguments : arguments sub ts.length ts with stuck | ⟨⟨es, gs⟩, rest⟩
    · exact precise_error (precise_arguments h _ ts _ harguments)
    · exact precise_ok _

theorem precise_primary (h : ∀ ts, Precise (sub ts)) (ts : List Token) :
    Precise (primary sub ts) := by
  rcases ts with _ | ⟨⟨kind, position⟩, ts⟩
  · exact precise_unexpected _ []
  cases kind with
  | number x => exact precise_ok _
  | string s => exact precise_ok _
  | leftParen =>
    rw [primary_leftParen]
    rcases hsub : sub ts with stuck | ⟨e, rest⟩
    · exact precise_error (h ts _ hsub)
    dsimp only
    rcases hclose : expect .rightParen .closeParen rest with stuck | rest
    · exact precise_error (precise_expect _ _ _ _ hclose)
    · exact precise_ok _
  | ident word =>
    cases hword : Keyword.ofWord? word with
    | none =>
      rw [primary_name hword]
      cases next? .leftParen ts with
      | some rest => exact precise_call h word rest
      | none => exact precise_ok _
    | some keyword =>
      simp only [primary, hword]
      cases keyword <;> first | exact precise_ok _ | exact precise_unexpected _ _
  | _ => exact precise_unexpected _ _

theorem precise_unary (h : ∀ ts, Precise (sub ts)) (ts : List Token) : Precise (unary sub ts) := by
  induction ts with
  | nil => exact precise_primary h []
  | cons t ts ih =>
    rw [unary]
    split
    · rcases hunary : unary sub ts with stuck | ⟨e, rest⟩
      · exact precise_error (ih _ hunary)
      · exact precise_ok _
    · exact precise_primary h (t :: ts)

theorem precise_sum (h : ∀ ts, Precise (sub ts)) (ts : List Token) : Precise (sum sub ts) :=
  precise_level (precise_level (precise_unary h)) ts

theorem precise_nullTest (e : Expr) (ts : List Token) : Precise (nullTest e ts) := by
  rw [nullTest]
  cases after? .isWord ts with
  | none => exact precise_ok _
  | some rest =>
    dsimp only
    cases after? .nullWord ((after? .notWord rest).getD rest) with
    | none => exact precise_unexpected _ _
    | some rest => exact precise_ok _

theorem precise_comparison (h : ∀ ts, Precise (sub ts)) (ts : List Token) :
    Precise (comparison sub ts) := by
  rw [comparison]
  rcases hleft : sum sub ts with stuck | ⟨left, _ | ⟨t, rest⟩⟩
  · exact precise_error (precise_sum h ts _ hleft)
  · exact precise_nullTest left []
  dsimp only
  cases compareOp? t.kind with
  | none => exact precise_nullTest left (t :: rest)
  | some op =>
    dsimp only
    rcases hright : sum sub rest with stuck | ⟨right, rest'⟩
    · exact precise_error (precise_sum h rest _ hright)
    · exact precise_nullTest _ rest'

theorem precise_negation (h : ∀ ts, Precise (sub ts)) (ts : List Token) :
    Precise (negation sub ts) := by
  induction ts with
  | nil => exact precise_comparison h []
  | cons t ts ih =>
    rw [negation]
    split
    · rcases hnegation : negation sub ts with stuck | ⟨e, rest⟩
      · exact precise_error (ih _ hnegation)
      · exact precise_ok _
    · exact precise_comparison h (t :: ts)

theorem precise_expressionWithin (n : Nat) (ts : List Token) :
    Precise (expressionWithin n ts) := by
  induction n generalizing ts with
  | zero => exact precise_unexpected _ ts
  | succ n ih => exact precise_level (precise_level (precise_negation ih)) ts

theorem precise_expression (ts : List Token) : Precise (expression ts) :=
  precise_expressionWithin ts.length ts

/-- An expression that is not the whole text is complained of at the first token after it. -/
theorem precise_wholeExpression (ts : List Token) : Precise (wholeExpression ts) := by
  rw [wholeExpression]
  rcases hexpression : expression ts with stuck | ⟨e, rest⟩
  · exact precise_error (precise_expression ts _ hexpression)
  · dsimp only [bind, Except.bind]
    split
    · exact precise_ok e
    · exact precise_unexpected _ rest

/-! ### Statements -/

theorem precise_binding (line : Nat) (ts : List Token) : Precise (binding line ts) := by
  rcases ts with _ | ⟨⟨kind, position⟩, ts⟩
  · exact precise_unexpected _ []
  cases kind with
  | ident name =>
    rw [binding]
    dsimp only
    split
    · exact precise_unexpected _ _
    rcases hassign : expect .assign .assign ts with stuck | rest
    · exact precise_error (precise_expect _ _ _ _ hassign)
    dsimp only [bind, Except.bind]
    rcases hexpression : expression rest with stuck | ⟨e, rest⟩
    · exact precise_error (precise_expression _ _ hexpression)
    dsimp only
    rcases hend : expect .semicolon .semicolon ((after? .defaultWord rest).getD rest) with
      stuck | rest
    · exact precise_error (precise_expect _ _ _ _ hend)
    · exact precise_ok _
  | _ => exact precise_unexpected _ _

theorem precise_condition (ts : List Token) : Precise (condition ts) := by
  rw [condition]
  cases after? .whereWord ts with
  | none => exact precise_ok _
  | some rest =>
    dsimp only
    rcases hexpression : expression rest with stuck | ⟨e, rest⟩
    · exact precise_error (precise_expression _ _ hexpression)
    · exact precise_ok _

theorem precise_inclusion (line : Nat) (ts : List Token) : Precise (inclusion line ts) := by
  rcases ts with _ | ⟨⟨kind, position⟩, ts⟩
  · exact precise_unexpected _ []
  cases kind with
  | string raw =>
    rw [inclusion]
    dsimp only
    cases Template.parse raw with
    | error fault => exact precise_error (.inr ⟨_, _, raw, fault, rfl, rfl, rfl⟩)
    | ok target =>
      dsimp only
      rcases hcondition : condition ts with stuck | ⟨condition, rest⟩
      · exact precise_error (precise_condition ts _ hcondition)
      dsimp only [bind, Except.bind]
      rcases hend : expect .semicolon .semicolon rest with stuck | rest
      · exact precise_error (precise_expect _ _ _ _ hend)
      · exact precise_ok _
  | _ => exact precise_unexpected _ _

theorem precise_statement (ts : List Token) : Precise (statement ts) := by
  rcases ts with _ | ⟨t, ts⟩
  · exact precise_unexpected _ []
  rw [statement]
  split
  · exact precise_binding _ _
  · exact precise_inclusion _ _
  · exact precise_unexpected _ _

theorem precise_statementsWithin (n : Nat) (ts : List Token) :
    Precise (statementsWithin n ts) := by
  induction n generalizing ts with
  | zero =>
    cases ts with
    | nil => exact precise_ok _
    | cons t ts => exact precise_unexpected _ _
  | succ n ih =>
    cases ts with
    | nil => exact precise_ok _
    | cons t ts =>
      rw [statementsWithin]
      rcases hstatement : statement (t :: ts) with stuck | ⟨s, rest⟩
      · exact precise_error (precise_statement _ _ hstatement)
      dsimp only [bind, Except.bind]
      rcases hrest : statementsWithin n rest with stuck | ss
      · exact precise_error (ih rest _ hrest)
      · exact precise_ok _

/-- The reader of a module complains of the token at which it is stuck. -/
theorem precise_statements (ts : List Token) : Precise (statements ts) :=
  precise_statementsWithin ts.length ts

end Parser

end GatedRules
