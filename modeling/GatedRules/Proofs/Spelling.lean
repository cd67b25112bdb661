import GatedRules.Proofs.Rendering

/-!
# The canonical text determines the expression

Two expressions with the same canonical text are the same (`Expr.text_injective`). Parsing the text
does not show it, since not every text is parsed: a negation may stand where the grammar has none,
and a line break in a string ends the string. So the text is read in two steps that need less than
the grammar.

First, the text has one list of tokens once the line breaks in its strings are escaped
(`Grammar.unbroken`), and they are those of `Expr.terminals`. The text is scanned by a function, so
it determines the tokens. Second, the tokens determine the expression: an operand stops before any
token but an opening parenthesis (`Grammar.OperandUnique`), and an expression is an operand with or
without an operator or a test for null after it (`Grammar.WholeUnique`). Which of the two rules
applies is visible, for the operands that are operations on two operands or tests for null stand in
parentheses.
-/

namespace GatedRules

namespace Expr

open Grammar

/-! ### Tokens of the canonical text -/

/-- The token of an operator with one operand. -/
def sign : UnaryOp → Terminal
  | .not => .word .notWord
  | .neg => .plain .minus

/-- Tokens in parentheses if they are those of a compound expression. -/
def enclosed (e : Expr) (xs : List Terminal) : List Terminal :=
  if e.isCompound then .plain .leftParen :: (xs ++ [.plain .rightParen]) else xs

/-- The tokens of further expressions of a list, after a comma. -/
def further (es : List Expr) (xs : List Terminal) : List Terminal :=
  if es.isEmpty then [] else .plain .comma :: xs

/-- The tokens of the dimensions of a call. -/
def grouped (groups : List Expr) (xs : List Terminal) : List Terminal :=
  if groups.isEmpty then [] else .word .byWord :: xs

mutual

/-- The tokens of the canonical text. -/
def terminals : Expr → List Terminal
  | literal value => [constant value]
  | name n => [.plain (.ident n)]
  | unary op e => sign op :: enclosed e (terminals e)
  | binary op l r => enclosed l (terminals l) ++ operator op :: enclosed r (terminals r)
  | isNull e negated => enclosed e (terminals e) ++ testTerminals (some negated)
  | call f args groups =>
    .plain (.ident f) :: .plain .leftParen ::
      (terminalsAll args ++ (grouped groups (terminalsAll groups) ++ [.plain .rightParen]))

/-- The tokens of the canonical texts of several expressions, with commas between them. -/
def terminalsAll : List Expr → List Terminal
  | [] => []
  | e :: es => terminals e ++ further es (terminalsAll es)

end

/-- The tokens of an expression where it is an operand. -/
def operandTerminals (e : Expr) : List Terminal :=
  enclosed e e.terminals

/-- The operand with which the text of an expression begins. -/
def first : Expr → Expr
  | binary _ l _ => l
  | isNull e _ => e
  | e => e

/-- The tokens after the first operand. -/
def afterFirst : Expr → List Terminal
  | binary op _ r => operator op :: operandTerminals r
  | isNull _ negated => testTerminals (some negated)
  | _ => []

theorem operandTerminals_of_compound {e : Expr} (h : e.isCompound = true) :
    e.operandTerminals = .plain .leftParen :: (e.terminals ++ [.plain .rightParen]) := by
  rw [operandTerminals, enclosed, if_pos h]

theorem operandTerminals_of_not_compound {e : Expr} (h : e.isCompound = false) :
    e.operandTerminals = e.terminals := by
  rw [operandTerminals, enclosed, h, if_neg Bool.false_ne_true]

/-- An expression is its first operand and what comes after it. -/
theorem terminals_eq (e : Expr) : e.terminals = e.first.operandTerminals ++ e.afterFirst := by
  cases e with
  | binary => rw [terminals, first, afterFirst, operandTerminals, operandTerminals]
  | isNull => rw [terminals, first, afterFirst, operandTerminals]
  | _ => exact ((List.append_nil _).trans (operandTerminals_of_not_compound rfl)).symm

/-- An expression that is not compound has one operand, itself. -/
theorem atom_of_not_compound {e : Expr} (h : e.isCompound = false) :
    e.first = e ∧ e.afterFirst = [] := by
  cases e with
  | binary => cases h
  | isNull => cases h
  | _ => exact ⟨rfl, rfl⟩

end Expr

open GatedRules.Expr

namespace Grammar

/-! ### The tokens determine the expression -/

/-- The tokens of an expression as an operand are told apart from what follows, unless that is an
opening parenthesis. -/
def OperandUnique (e : Expr) : Prop :=
  ∀ ⦃e' : Expr⦄ ⦃xs xs' : List Terminal⦄, e.operandTerminals ++ xs = e'.operandTerminals ++ xs' →
    Apart 0 xs → Apart 0 xs' → e = e' ∧ xs = xs'

/-- The tokens of an expression are told apart from what follows, unless that goes on it. -/
def WholeUnique (e : Expr) : Prop :=
  ∀ ⦃e' : Expr⦄ ⦃xs xs' : List Terminal⦄, e.terminals ++ xs = e'.terminals ++ xs' →
    Apart 5 xs → Apart 5 xs' → e = e' ∧ xs = xs'

theorem constant_ne_sign {value : Literal} {op : UnaryOp} : constant value ≠ sign op := by
  rcases value with _ | (_ | _) | _ | _ <;> cases op <;> simp [constant, sign]

theorem sign_ne_leftParen {op : UnaryOp} : sign op ≠ .plain .leftParen := by
  cases op <;> decide

theorem sign_ne_ident {op : UnaryOp} {n : String} : sign op ≠ .plain (.ident n) := by
  cases op <;> simp [sign]

theorem sign_injective {op op' : UnaryOp} (h : sign op = sign op') : op = op' := by
  revert h
  cases op <;> cases op' <;> decide

theorem grip_operator_pos (op : BinaryOp) : 0 < (operator op).grip ∧ (operator op).grip ≤ 5 := by
  cases op <;> decide

theorem operator_ne_isWord (op : BinaryOp) : operator op ≠ .word .isWord := by
  cases op <;> decide

/-- A test for null begins like no operator. -/
theorem testTerminals_some (negated : Bool) :
    ∃ xs, testTerminals (some negated) = .word .isWord :: xs := by
  cases negated <;> exact ⟨_, rfl⟩

/-- What comes after the first operand does not go on it. -/
theorem apart_afterFirst (e : Expr) {xs : List Terminal} (h : Apart 5 xs) :
    Apart 0 (e.afterFirst ++ xs) := by
  cases e with
  | binary op l r => exact apart_cons.2 (grip_operator_pos op).1
  | isNull e negated =>
    obtain ⟨ys, hys⟩ := testTerminals_some negated
    rw [afterFirst, hys]
    exact apart_cons.2 (by decide)
  | _ => exact h.mono (by decide)

/-- No compound expression is one that is not, gone on by what follows. -/
theorem afterFirst_ne {e : Expr} (h : e.isCompound = true) {xs xs' : List Terminal}
    (h' : Apart 5 xs') : e.afterFirst ++ xs ≠ xs' := by
  cases e with
  | binary op l r => exact (h'.ne (grip_operator_pos op).2).symm
  | isNull e negated =>
    obtain ⟨ys, hys⟩ := testTerminals_some negated
    rw [afterFirst, hys]
    exact (h'.ne (by decide)).symm
  | _ => cases h

/-- What comes after the first operand of a compound expression determines it, if its second operand
is determined. -/
theorem afterFirst_unique {e e' : Expr} {xs xs' : List Terminal} (hcompound : e.isCompound = true)
    (hcompound' : e'.isCompound = true) (hfirst : e.first = e'.first)
    (hsecond : ∀ op l r, e = .binary op l r → OperandUnique r)
    (heq : e.afterFirst ++ xs = e'.afterFirst ++ xs') (h : Apart 5 xs) (h' : Apart 5 xs') :
    e = e' ∧ xs = xs' := by
  cases e with
  | binary op l r =>
    cases e' with
    | binary op' l' r' =>
      obtain ⟨hop, hrest⟩ := List.cons.inj heq
      obtain ⟨rfl, hxs⟩ := hsecond op l r rfl hrest (h.mono (by decide)) (h'.mono (by decide))
      obtain rfl := operator_injective hop
      obtain rfl : l = l' := hfirst
      exact ⟨rfl, hxs⟩
    | isNull e' negated =>
      obtain ⟨ys, hys⟩ := testTerminals_some negated
      rw [afterFirst, afterFirst, hys] at heq
      exact absurd (List.cons.inj heq).1 (operator_ne_isWord op)
    | _ => cases hcompound'
  | isNull operand negated =>
    cases e' with
    | binary op' l' r' =>
      obtain ⟨ys, hys⟩ := testTerminals_some negated
      rw [afterFirst, afterFirst, hys] at heq
      exact absurd (List.cons.inj heq).1.symm (operator_ne_isWord op')
    | isNull operand' negated' =>
      obtain ⟨htest, hxs⟩ := testTerminals_unique heq (h.mono (by decide)) (h'.mono (by decide))
      obtain rfl := Option.some.inj htest
      obtain rfl : operand = operand' := hfirst
      exact ⟨rfl, hxs⟩
    | _ => cases hcompound'
  | _ => cases hcompound

/-- An expression is determined if its operands are. -/
theorem wholeUnique_of_operands {e : Expr} (hfirst : OperandUnique e.first)
    (hsecond : ∀ op l r, e = .binary op l r → OperandUnique r) : WholeUnique e := by
  intro e' xs xs' heq h h'
  rw [e.terminals_eq, e'.terminals_eq, List.append_assoc, List.append_assoc] at heq
  obtain ⟨hoperand, hrest⟩ := hfirst heq (apart_afterFirst e h) (apart_afterFirst e' h')
  cases hcompound : e.isCompound with
  | false =>
    obtain ⟨hatom, hnothing⟩ := atom_of_not_compound hcompound
    rw [hnothing, List.nil_append] at hrest
    cases hcompound' : e'.isCompound with
    | false =>
      obtain ⟨hatom', hnothing'⟩ := atom_of_not_compound hcompound'
      rw [hnothing', List.nil_append] at hrest
      exact ⟨hatom.symm.trans (hoperand.trans hatom'), hrest⟩
    | true => exact absurd hrest.symm (afterFirst_ne hcompound' h)
  | true =>
    cases hcompound' : e'.isCompound with
    | false =>
      rw [(atom_of_not_compound hcompound').2, List.nil_append] at hrest
      exact absurd hrest (afterFirst_ne hcompound h')
    | true => exact afterFirst_unique hcompound hcompound' hoperand hsecond hrest h h'

/-- Only compound operands begin with a parenthesis. -/
theorem isCompound_of_leftParen {e : Expr} {xs ys : List Terminal}
    (h : e.operandTerminals ++ xs = .plain .leftParen :: ys) : e.isCompound = true := by
  cases e with
  | literal value => exact absurd (List.cons.inj h).1 constant_ne_leftParen
  | name => cases (List.cons.inj h).1
  | unary => exact absurd (List.cons.inj h).1 sign_ne_leftParen
  | binary => rfl
  | isNull => rfl
  | call => cases (List.cons.inj h).1

/-- In parentheses, an expression is an operand that is told apart from anything. -/
theorem operandUnique_of_whole {e : Expr} (hcompound : e.isCompound = true)
    (hwhole : WholeUnique e) : OperandUnique e := by
  intro e' xs xs' heq _ _
  rw [operandTerminals_of_compound hcompound] at heq
  have hcompound' : e'.isCompound = true := isCompound_of_leftParen heq.symm
  rw [operandTerminals_of_compound hcompound'] at heq
  simp only [List.cons_append, List.append_assoc, List.nil_append, List.cons.injEq, true_and] at heq
  obtain ⟨rfl, hrest⟩ := hwhole heq (apart_cons.2 (by decide)) (apart_cons.2 (by decide))
  exact ⟨rfl, (List.cons.inj hrest).2⟩

theorem operandUnique_literal (value : Literal) : OperandUnique (.literal value) := by
  intro e' xs xs' heq _ _
  cases e' with
  | literal value' =>
    obtain ⟨hvalue, hxs⟩ := List.cons.inj heq
    obtain rfl := constant_injective hvalue
    exact ⟨rfl, hxs⟩
  | name => exact absurd (List.cons.inj heq).1 constant_ne_ident
  | unary => exact absurd (List.cons.inj heq).1 constant_ne_sign
  | call => exact absurd (List.cons.inj heq).1 constant_ne_ident
  | _ => exact absurd (List.cons.inj heq).1 constant_ne_leftParen

theorem operandUnique_name (n : String) : OperandUnique (.name n) := by
  intro e' xs xs' heq h _
  cases e' with
  | literal => exact absurd (List.cons.inj heq).1.symm constant_ne_ident
  | name =>
    cases heq
    exact ⟨rfl, rfl⟩
  | unary => exact absurd (List.cons.inj heq).1.symm sign_ne_ident
  | call => exact absurd (List.cons.inj heq).2 (h.ne (by decide))
  | _ => cases (List.cons.inj heq).1

theorem operandUnique_unary (op : UnaryOp) {e : Expr} (he : OperandUnique e) :
    OperandUnique (.unary op e) := by
  intro e' xs xs' heq h h'
  cases e' with
  | literal => exact absurd (List.cons.inj heq).1.symm constant_ne_sign
  | name => exact absurd (List.cons.inj heq).1 sign_ne_ident
  | unary op' e' =>
    obtain ⟨hop, hrest⟩ := List.cons.inj heq
    obtain ⟨rfl, hxs⟩ := he hrest h h'
    obtain rfl := sign_injective hop
    exact ⟨rfl, hxs⟩
  | call => exact absurd (List.cons.inj heq).1 sign_ne_ident
  | _ => exact absurd (List.cons.inj heq).1 sign_ne_leftParen

/-! ### Calls -/

/-- What may come after the expressions of a list in a call. -/
def AfterList (xs : List Terminal) : Prop :=
  ∃ ys, xs = .plain .rightParen :: ys ∨ xs = .word .byWord :: ys

/-- The tokens of a list in a call are told apart from what follows. -/
def ListUnique (es : List Expr) : Prop :=
  ∀ ⦃es' : List Expr⦄ ⦃xs xs' : List Terminal⦄, terminalsAll es ++ xs = terminalsAll es' ++ xs' →
    AfterList xs → AfterList xs' → es = es' ∧ xs = xs'

theorem AfterList.apart {xs : List Terminal} (h : AfterList xs) : Apart 5 xs := by
  obtain ⟨ys, rfl | rfl⟩ := h <;> exact apart_cons.2 (by decide)

/-- Operands begin neither like the end of a call nor like its dimensions. -/
theorem begins_operand : ∀ e : Expr, Begins (Layer.join .or).barred e.operandTerminals
  | .literal value => (begins_constant value).mono (by decide)
  | .name _ => ⟨_, _, rfl, by simp [Layer.barred]⟩
  | .unary op _ => ⟨_, _, rfl, by cases op <;> decide⟩
  | .binary .. => ⟨_, _, rfl, by decide⟩
  | .isNull .. => ⟨_, _, rfl, by decide⟩
  | .call .. => ⟨_, _, rfl, by simp [Layer.barred]⟩

theorem begins_cons (e : Expr) (es : List Expr) :
    Begins (Layer.join .or).barred (terminalsAll (e :: es)) := by
  rw [terminalsAll, e.terminals_eq, List.append_assoc]
  exact (begins_operand e.first).append (List.Subset.refl _) _

/-- No list of expressions begins like what comes after it. -/
theorem AfterList.ne_cons {xs ys : List Terminal} (h : AfterList xs) (e : Expr) (es : List Expr) :
    xs ≠ terminalsAll (e :: es) ++ ys := by
  rintro rfl
  obtain ⟨zs, heq | heq⟩ := h
  · exact absurd (by decide) ((begins_cons e es).not_mem heq)
  · exact absurd (by decide) ((begins_cons e es).not_mem heq)

theorem apart_further (es : List Expr) {xs : List Terminal} (h : AfterList xs) :
    Apart 5 (further es (terminalsAll es) ++ xs) := by
  cases es with
  | nil => exact h.apart
  | cons => exact apart_cons.2 (by decide)

theorem AfterList.ne_comma {xs ys : List Terminal} (h : AfterList xs) :
    xs ≠ .plain .comma :: ys := by
  rintro rfl
  obtain ⟨zs, heq | heq⟩ := h <;> cases heq

theorem listUnique_nil : ListUnique [] := by
  intro es' xs xs' heq h _
  cases es' with
  | nil => exact ⟨rfl, heq⟩
  | cons e' es' => exact absurd heq (h.ne_cons e' es')

theorem listUnique_cons {e : Expr} {es : List Expr} (he : WholeUnique e) (hes : ListUnique es) :
    ListUnique (e :: es) := by
  intro es' xs xs' heq h h'
  cases es' with
  | nil => exact absurd heq.symm (h'.ne_cons e es)
  | cons e' es' =>
    rw [terminalsAll, terminalsAll, List.append_assoc, List.append_assoc] at heq
    obtain ⟨rfl, hrest⟩ := he heq (apart_further es h) (apart_further es' h')
    cases es with
    | nil =>
      cases es' with
      | nil => exact ⟨rfl, hrest⟩
      | cons => exact absurd hrest h.ne_comma
    | cons =>
      cases es' with
      | nil => exact absurd hrest.symm h'.ne_comma
      | cons =>
        obtain ⟨hes', hxs⟩ := hes (List.cons.inj hrest).2 h h'
        exact ⟨hes' ▸ rfl, hxs⟩

theorem afterList_grouped (groups : List Expr) (xs : List Terminal) :
    AfterList (grouped groups (terminalsAll groups) ++ .plain .rightParen :: xs) := by
  cases groups with
  | nil => exact ⟨_, .inl rfl⟩
  | cons => exact ⟨_, .inr rfl⟩

theorem grouped_unique {groups groups' : List Expr} (hgroups : ListUnique groups)
    {xs xs' : List Terminal}
    (heq : grouped groups (terminalsAll groups) ++ .plain .rightParen :: xs =
      grouped groups' (terminalsAll groups') ++ .plain .rightParen :: xs') :
    groups = groups' ∧ xs = xs' := by
  cases groups with
  | nil =>
    cases groups' with
    | nil => exact ⟨rfl, (List.cons.inj heq).2⟩
    | cons => cases (List.cons.inj heq).1
  | cons =>
    cases groups' with
    | nil => cases (List.cons.inj heq).1
    | cons =>
      obtain ⟨hgroups', hxs⟩ := hgroups (List.cons.inj heq).2 ⟨_, .inl rfl⟩ ⟨_, .inl rfl⟩
      exact ⟨hgroups', (List.cons.inj hxs).2⟩

theorem operandUnique_call (f : String) {args groups : List Expr} (hargs : ListUnique args)
    (hgroups : ListUnique groups) : OperandUnique (.call f args groups) := by
  intro e' xs xs' heq _ h'
  cases e' with
  | literal => exact absurd (List.cons.inj heq).1.symm constant_ne_ident
  | name => exact absurd (List.cons.inj heq).2.symm (h'.ne (by decide))
  | unary => exact absurd (List.cons.inj heq).1.symm sign_ne_ident
  | call f' args' groups' =>
    obtain ⟨hf, hcall⟩ := List.cons.inj heq
    have harguments := (List.cons.inj hcall).2
    simp only [List.append_eq, List.append_assoc, List.singleton_append] at harguments
    obtain ⟨rfl, hrest⟩ := hargs harguments (afterList_grouped groups xs)
      (afterList_grouped groups' xs')
    obtain ⟨rfl, hxs⟩ := grouped_unique hgroups hrest
    cases hf
    exact ⟨rfl, hxs⟩
  | _ => cases (List.cons.inj heq).1

/-! ### All expressions -/

/-- An operand that is not compound is a whole expression. -/
theorem OperandUnique.whole {e : Expr} (h : OperandUnique e) (hcompound : e.isCompound = false) :
    OperandUnique e ∧ WholeUnique e := by
  refine ⟨h, wholeUnique_of_operands ((atom_of_not_compound hcompound).1.symm ▸ h) ?_⟩
  rintro op l r rfl
  cases hcompound

/-- A compound expression is an operand in parentheses. -/
theorem WholeUnique.operand {e : Expr} (h : WholeUnique e) (hcompound : e.isCompound = true) :
    OperandUnique e ∧ WholeUnique e :=
  ⟨operandUnique_of_whole hcompound h, h⟩

mutual

theorem unique : ∀ e : Expr, OperandUnique e ∧ WholeUnique e
  | .literal value => (operandUnique_literal value).whole rfl
  | .name n => (operandUnique_name n).whole rfl
  | .unary op e => (operandUnique_unary op (unique e).1).whole rfl
  | .binary op l r =>
    have hl : OperandUnique (Expr.binary op l r).first := (unique l).1
    have hr : OperandUnique r := (unique r).1
    (wholeUnique_of_operands hl fun _ _ _ h => by cases h; exact hr).operand rfl
  | .isNull e negated =>
    have he : OperandUnique (Expr.isNull e negated).first := (unique e).1
    (wholeUnique_of_operands he fun _ _ _ h => by cases h).operand rfl
  | .call f args groups =>
    (operandUnique_call f (listUnique args) (listUnique groups)).whole rfl

theorem listUnique : ∀ es : List Expr, ListUnique es
  | [] => listUnique_nil
  | e :: es => listUnique_cons (unique e).2 (listUnique es)

end

/-- The tokens of the canonical text determine the expression. -/
theorem terminals_injective {e e' : Expr} (h : e.terminals = e'.terminals) : e = e' := by
  have hnothing : Apart 5 [] := fun x hx => by cases hx
  have hend : e.terminals ++ [] = e'.terminals ++ [] := by rw [h]
  exact ((unique e).2 hend hnothing hnothing).1

/-! ### The text spells the tokens -/

/-- A text with an escape for every line break. -/
def unbroken (cs : List Char) : List Char :=
  cs.flatMap fun c => if c = '\n' then ['\\', 'n'] else [c]

theorem unbroken_append (cs ds : List Char) : unbroken (cs ++ ds) = unbroken cs ++ unbroken ds :=
  List.flatMap_append

theorem unbroken_of_not_mem {cs : List Char} (h : '\n' ∉ cs) : unbroken cs = cs := by
  induction cs with
  | nil => rfl
  | cons c cs ih =>
    rw [List.mem_cons, not_or] at h
    rw [unbroken, List.flatMap_cons, if_neg fun heq => h.1 heq.symm]
    exact congrArg (c :: ·) (ih h.2)

theorem unbroken_operand (e : Expr) (cs : List Char) :
    unbroken (e.operand cs) = e.operand (unbroken cs) := by
  have hopen : unbroken ['('] = ['('] := unbroken_of_not_mem (by decide)
  have hclose : unbroken [')'] = [')'] := unbroken_of_not_mem (by decide)
  rw [Expr.operand, Expr.operand]
  split
  · rw [parens, parens, List.cons_append, ← List.singleton_append, unbroken_append,
      unbroken_append, hopen, hclose, List.singleton_append, List.cons_append]
  · rfl

/-- A text spells tokens before a word or a sign that does not go on it, once line breaks are
escaped; and it does not go on an operator before it. -/
structure Spelt (cs : List Char) (xs : List Terminal) : Prop where
  /-- The text does not go on an operator before it. -/
  starts : Starts Stands (unbroken cs)
  /-- It spells the tokens. -/
  writes : Writes Ends (unbroken cs) xs

section

variable {cs ds : List Char} {xs ys : List Terminal} {e e' : Expr}

/-- A string is read back from its text in quotation marks, once line breaks are escaped. -/
theorem stringBody_unbroken (cs rest : List Char) :
    stringBody (unbroken (cs.flatMap fun c => if c = '"' ∨ c = '\\' then ['\\', c] else [c]) ++
      '"' :: rest) = some (cs, rest) := by
  induction cs with
  | nil => rfl
  | cons c cs ih =>
    rw [List.flatMap_cons, unbroken_append, List.append_assoc]
    by_cases hquoted : c = '"' ∨ c = '\\'
    · have hchars : unbroken ['\\', c] = ['\\', c] :=
        unbroken_of_not_mem (by rcases hquoted with rfl | rfl <;> decide)
      rw [if_pos hquoted, hchars, List.cons_append, List.cons_append, List.nil_append, stringBody,
        ih]
      rcases hquoted with rfl | rfl <;> rfl
    rw [if_neg hquoted]
    rw [not_or] at hquoted
    by_cases hline : c = '\n'
    · subst hline
      have hchars : unbroken ['\n'] = ['\\', 'n'] := by decide
      rw [hchars, List.cons_append, List.cons_append, List.nil_append, stringBody, ih]
      rfl
    · have hchars : unbroken [c] = [c] :=
        unbroken_of_not_mem (by simpa using fun heq => hline heq.symm)
      rw [hchars, List.cons_append, List.nil_append, stringBody, ih]
      · rfl
      · exact hquoted.1
      · exact hline
      · exact hquoted.2

theorem spelt_string (s : String) : Spelt (Literal.quoted s) [.plain (.string s)] := by
  have hmark : unbroken ['"'] = ['"'] := unbroken_of_not_mem (by decide)
  have hchars : unbroken (Literal.quoted s) = '"' ::
      (unbroken (s.toList.flatMap fun c => if c = '"' ∨ c = '\\' then ['\\', c] else [c]) ++
        ['"']) := by
    rw [Literal.quoted, List.cons_append, ← List.singleton_append, unbroken_append,
      unbroken_append, hmark, List.singleton_append]
  refine ⟨hchars ▸ starts_cons ⟨by decide, by decide⟩, fun rest ys _ hrest => ?_⟩
  have hbody := stringBody_unbroken s.toList rest
  have hlexeme : ∀ cs, stringBody cs = some (s.toList, rest) →
      lexeme '"' cs = .ok (.string s, rest) := fun cs hcs => by
    rw [lexeme, if_neg (by decide), if_neg (by decide), if_pos rfl, hcs]
    dsimp only
    rw [String.ofList_toList]
  rw [hchars, List.cons_append, List.append_assoc, List.singleton_append]
  exact scans_lexeme (hlexeme _ hbody) hrest

/-- A text without line breaks. -/
theorem spelt_of_writes (hline : '\n' ∉ cs) (hstarts : Starts Stands cs)
    (hwrites : Writes Ends cs xs) : Spelt cs xs := by
  rw [← unbroken_of_not_mem hline] at hstarts hwrites
  exact ⟨hstarts, hwrites⟩

theorem Name.not_line {word : String} (h : Name word) : '\n' ∉ word.toList := by
  obtain ⟨c, cs, hword, hc, hcs⟩ := h
  rw [hword, List.mem_cons, not_or]
  refine ⟨?_, fun hm => absurd (hcs _ hm) (by decide)⟩
  rintro rfl
  exact absurd hc (by decide)

/-- A word that is no keyword. -/
theorem spelt_word {n : String} (hn : Name n) (hkeyword : Keyword.ofWord? n = none) :
    Spelt n.toList [.plain (.ident n)] := by
  have hterminal : terminal (.ident n) = .plain (.ident n) := terminal_eq_plain.2 ⟨rfl, hkeyword⟩
  exact spelt_of_writes hn.not_line hn.starts (hterminal ▸ writes_word hn)

theorem spelt_literal {value : Literal} (hnumber : ∀ x, value = .number x → Decimal.ReadsBack x) :
    Spelt value.chars [constant value] := by
  cases value with
  | null =>
    exact spelt_of_writes (by decide) (starts_cons ⟨by decide, by decide⟩)
      (writes_literal nofun nofun)
  | bool b =>
    refine spelt_of_writes (by cases b <;> decide) ?_ (writes_literal nofun nofun)
    cases b <;> exact ⟨_, _, rfl, by decide, by decide⟩
  | number x =>
    obtain ⟨c, cs, hcs, hc, hnumberChar⟩ := exists_digit (hnumber x rfl)
    have hline : '\n' ∉ Decimal.sourceChars x := by
      rw [hcs, List.mem_cons, not_or]
      refine ⟨?_, fun hm => absurd (hnumberChar _ hm) (by decide)⟩
      rintro rfl
      exact absurd hc (by decide)
    exact spelt_of_writes hline ⟨c, cs, hcs, stands_of_isWordChar (isWordChar_of_isDigit hc)⟩
      (writes_number (hnumber x rfl))
  | string s => exact spelt_string s

/-! ### Operations -/

theorem Spelt.parens (h : Spelt cs xs) :
    Starts Stands (Expr.parens (unbroken cs)) ∧ Writes Ends (Expr.parens (unbroken cs))
      (.plain .leftParen :: (xs ++ [.plain .rightParen])) :=
  ⟨starts_cons ⟨by decide, by decide⟩, h.writes.parens⟩

/-- A text as an operand. -/
theorem Spelt.operand (h : Spelt cs e.terminals) :
    Spelt (e.operand cs) e.operandTerminals := by
  have hchars := unbroken_operand e cs
  cases hcompound : e.isCompound with
  | false =>
    rw [operandTerminals_of_not_compound hcompound, Expr.operand, hcompound,
      if_neg Bool.false_ne_true]
    exact h
  | true =>
    rw [Expr.operand, if_pos hcompound, Expr.operand, if_pos hcompound] at hchars
    rw [operandTerminals_of_compound hcompound, Expr.operand, if_pos hcompound]
    exact ⟨hchars ▸ h.parens.1, hchars ▸ h.parens.2⟩

theorem Spelt.not (h : Spelt cs xs) : Spelt ("NOT ".toList ++ cs) (.word .notWord :: xs) := by
  have hword : Name "NOT" := ⟨'N', ['O', 'T'], rfl, rfl, by simp [isWordChar]⟩
  have hchars : unbroken ("NOT ".toList ++ cs) = "NOT".toList ++ [' '] ++ unbroken cs := by
    rw [unbroken_append, unbroken_of_not_mem (by decide)]
    rfl
  exact ⟨hchars ▸ (hword.starts.append _).append _,
    hchars ▸ (writes_keyword hword).append h.writes h.starts⟩

theorem Spelt.neg (h : Spelt cs xs) : Spelt ('-' :: cs) (.plain .minus :: xs) := by
  have hchars : unbroken ('-' :: cs) = '-' :: unbroken cs := by
    rw [← List.singleton_append, unbroken_append, unbroken_of_not_mem (by decide),
      List.singleton_append]
  exact ⟨hchars ▸ starts_cons ⟨by decide, by decide⟩,
    hchars ▸ h.writes.sign (c := '-') .minus fun _ => rfl⟩

theorem unbroken_operatorChars (op : BinaryOp) : unbroken (operatorChars op) = operatorChars op :=
  unbroken_of_not_mem (by cases op <;> decide)

theorem Spelt.binary (op : BinaryOp) (h : Spelt cs xs) (h' : Spelt ds ys) :
    Spelt (cs ++ operatorChars op ++ ds) (xs ++ operator op :: ys) := by
  have hchars : unbroken (cs ++ operatorChars op ++ ds) =
      unbroken cs ++ operatorChars op ++ unbroken ds := by
    rw [unbroken_append, unbroken_append, unbroken_operatorChars]
  have hwrites : Writes Ends (unbroken cs ++ operatorChars op ++ unbroken ds)
      (xs ++ operator op :: (ys ++ [])) := writes_operation h.writes h'.writes h'.starts
  rw [List.append_nil] at hwrites
  exact ⟨hchars ▸ (h.starts.append _).append _, hchars ▸ hwrites⟩

theorem Spelt.test (negated : Bool) (h : Spelt cs xs) :
    Spelt (cs ++ testChars negated) (xs ++ testTerminals (some negated)) := by
  have hchars : unbroken (cs ++ testChars negated) = unbroken cs ++ testChars negated := by
    have hblank : '\n' ∉ testChars negated := by cases negated <;> decide
    rw [unbroken_append, unbroken_of_not_mem hblank]
  exact ⟨hchars ▸ h.starts.append _,
    hchars ▸ h.writes.append (writes_test negated) (starts_test negated)⟩

/-! ### Calls -/

theorem Spelt.comma (h : Spelt cs xs) (h' : Spelt ds ys) :
    Spelt (cs ++ [',', ' '] ++ ds) (xs ++ .plain .comma :: ys) := by
  have hchars : unbroken (cs ++ [',', ' '] ++ ds) =
      unbroken cs ++ ',' :: ' ' :: unbroken ds := by
    have hblank : '\n' ∉ [',', ' '] := by decide
    rw [unbroken_append, unbroken_append, unbroken_of_not_mem hblank, List.append_assoc]
    rfl
  have hcomma := h'.writes.blank.sign (c := ',') .comma fun _ => rfl
  exact ⟨hchars ▸ h.starts.append _,
    hchars ▸ h.writes.append hcomma (starts_cons ⟨by decide, by decide⟩)⟩

/-- The text of the dimensions of a call. -/
def groupChars (args groups : List Expr) (cs : List Char) : List Char :=
  if groups.isEmpty then [] else (if args.isEmpty then [] else [' ']) ++ "BY ".toList ++ cs

/-- What stands between the parentheses of a call. -/
theorem writes_contents {args groups : List Expr} (hargs : args ≠ [] → Spelt cs xs)
    (hgroups : groups ≠ [] → Spelt ds ys) (hcs : args = [] → cs = [] ∧ xs = []) :
    Writes Ends (unbroken (cs ++ groupChars args groups ds)) (xs ++ grouped groups ys) := by
  have hword : Name "BY" := ⟨'B', ['Y'], rfl, rfl, by simp [isWordChar]⟩
  cases groups with
  | nil =>
    rw [groupChars, grouped, List.isEmpty_nil, if_pos rfl, if_pos rfl, List.append_nil,
      List.append_nil]
    cases args with
    | nil =>
      obtain ⟨rfl, rfl⟩ := hcs rfl
      exact writes_nil
    | cons => exact (hargs (List.cons_ne_nil _ _)).writes
  | cons =>
    have hds := hgroups (List.cons_ne_nil _ _)
    have hby := (writes_keyword hword).append hds.writes hds.starts
    have hchars : unbroken ("BY ".toList ++ ds) = "BY".toList ++ [' '] ++ unbroken ds := by
      rw [unbroken_append, unbroken_of_not_mem (by decide)]
      rfl
    rw [groupChars, grouped, List.isEmpty_cons, if_neg Bool.false_ne_true,
      if_neg Bool.false_ne_true]
    cases args with
    | nil =>
      obtain ⟨rfl, rfl⟩ := hcs rfl
      rw [List.isEmpty_nil, if_pos rfl, List.nil_append, List.nil_append, List.nil_append, hchars]
      exact hby
    | cons =>
      have hblank : unbroken ([' '] ++ "BY ".toList ++ ds) =
          ' ' :: ("BY".toList ++ [' '] ++ unbroken ds) := by
        rw [List.append_assoc, unbroken_append, hchars, unbroken_of_not_mem (by decide)]
        rfl
      rw [List.isEmpty_cons, if_neg Bool.false_ne_true, unbroken_append, hblank]
      exact (hargs (List.cons_ne_nil _ _)).writes.append hby.blank
        (starts_cons ⟨by decide, by decide⟩)

theorem spelt_call {f : String} (hf : Name f) (hkeyword : Keyword.ofWord? f = none)
    (h : Writes Ends (unbroken cs) xs) :
    Spelt (f.toList ++ Expr.parens cs)
      (.plain (.ident f) :: .plain .leftParen :: (xs ++ [.plain .rightParen])) := by
  have hword := spelt_word hf hkeyword
  have hopen : unbroken ['('] = ['('] := unbroken_of_not_mem (by decide)
  have hclose : unbroken [')'] = [')'] := unbroken_of_not_mem (by decide)
  have hchars : unbroken (f.toList ++ Expr.parens cs) =
      unbroken f.toList ++ Expr.parens (unbroken cs) := by
    rw [unbroken_append, Expr.parens, List.cons_append, ← List.singleton_append, unbroken_append,
      unbroken_append, hopen, hclose]
    rfl
  exact ⟨hchars ▸ hword.starts.append _,
    hchars ▸ hword.writes.append h.parens (starts_cons ⟨by decide, by decide⟩)⟩

end

/-! ### All texts -/

/-- What an expression consists of has been read: numbers read back, and names are names. -/
structure Legible (e : Expr) : Prop where
  number : ∀ x, e = .literal (.number x) → Decimal.ReadsBack x
  name : ∀ n, e = .name n → Name n ∧ Keyword.ofWord? n = none
  call : ∀ f args groups, e = .call f args groups → Name f ∧ Keyword.ofWord? f = none

mutual

theorem spelt : ∀ {e : Expr}, (∀ part ∈ e.parts, Legible part) →
    Spelt (e.renderChars fun n => (id n).toList) e.terminals
  | .literal value, h => by
    have hself := h _ (mem_parts_self _)
    exact spelt_literal fun x hx => hself.number x (hx ▸ rfl)
  | .name n, h => by
    obtain ⟨hn, hkeyword⟩ := (h _ (mem_parts_self _)).name n rfl
    exact spelt_word hn hkeyword
  | .unary .not e, h =>
    (spelt (e := e) fun part hpart => h part (List.mem_cons_of_mem _ hpart)).operand.not
  | .unary .neg e, h =>
    (spelt (e := e) fun part hpart => h part (List.mem_cons_of_mem _ hpart)).operand.neg
  | .binary op l r, h => by
    have hl := (spelt (e := l) fun part hpart =>
      h part (List.mem_cons_of_mem _ (List.mem_append_left _ hpart))).operand
    have hr := (spelt (e := r) fun part hpart =>
      h part (List.mem_cons_of_mem _ (List.mem_append_right _ hpart))).operand
    exact hl.binary op hr
  | .isNull e negated, h =>
    (spelt (e := e) fun part hpart => h part (List.mem_cons_of_mem _ hpart)).operand.test negated
  | .call f args groups, h => by
    obtain ⟨hf, hkeyword⟩ := (h _ (mem_parts_self _)).call f args groups rfl
    have hargs := fun hne => speltAll args hne fun part hpart =>
      h part (List.mem_cons_of_mem _ (List.mem_append_left _ hpart))
    have hgroups := fun hne => speltAll groups hne fun part hpart =>
      h part (List.mem_cons_of_mem _ (List.mem_append_right _ hpart))
    have hcontents := writes_contents hargs hgroups (by rintro rfl; exact ⟨rfl, rfl⟩)
    rw [terminals, ← List.append_assoc]
    exact spelt_call hf hkeyword hcontents

theorem speltAll : ∀ (es : List Expr), es ≠ [] → (∀ part ∈ partsAll es, Legible part) →
    Spelt (Text.joined [',', ' '] (renderAll (fun n => (id n).toList) es)) (terminalsAll es)
  | [], hne, _ => absurd rfl hne
  | [e], _, h => by
    rw [terminalsAll, further, List.isEmpty_nil, if_pos rfl, List.append_nil]
    exact spelt fun part hpart => h part (List.mem_append_left _ hpart)
  | e :: e' :: es, _, h => by
    have he := spelt (e := e) fun part hpart => h part (List.mem_append_left _ hpart)
    have hrest := speltAll (e' :: es) (List.cons_ne_nil _ _) fun part hpart =>
      h part (List.mem_append_right _ hpart)
    exact he.comma hrest

end

/-- **The canonical text determines the expression**, provided that its numbers are read back and
its names are no keywords. -/
theorem text_injective {e e' : Expr} (he : ∀ part ∈ e.parts, Legible part)
    (he' : ∀ part ∈ e'.parts, Legible part) (h : e.text = e'.text) : e = e' := by
  have hchars : e.renderChars (fun n => (id n).toList) = e'.renderChars fun n => (id n).toList := by
    simpa only [text, render, String.ofList_inj] using h
  obtain ⟨ts, stop, hscan, hts⟩ := (spelt he).writes.scans ⟨1, 1⟩
  obtain ⟨ts', stop', hscan', hts'⟩ := (spelt he').writes.scans ⟨1, 1⟩
  have hsame : (ts, stop) = (ts', stop') :=
    Except.ok.inj (hscan.symm.trans (hchars ▸ hscan'))
  obtain rfl : ts = ts' := congrArg Prod.fst hsame
  exact terminals_injective (hts.symm.trans hts')

end Grammar

end GatedRules
