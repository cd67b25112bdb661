import GatedRules.Proofs.Concatenation
import GatedRules.Proofs.Cursors
import GatedRules.Proofs.Recognition

/-!
# What readers answer, a cursor finds

Every procedure that moves a cursor ends, and it ends as the reader of `GatedRules.Parser` says that
answers where the same tokens remain (`endsWithin_read`). The readers have bounds and the procedures
have none, so this is where it shows that the bounds are never met, and that no loop goes on at the
end of the text.

What ends a loop is a token that it has used since it began: an operator, a comma, or that with
which an expression or a statement begins. What ends the descent into parentheses is the opening
one. The descent from layer to layer uses nothing, and is finite by itself. So procedures are
treated in the order in which they call each other, for a reader of the expressions inside that does
what it should where fewer tokens remain (`Inner`), and the knot is tied by induction on the number
of tokens (`inner_expressionWithin`).
-/

namespace GatedRules

namespace Cursor

open Grammar GatedRules.Parser

variable {ts : Tokens} {sub operand : List Token → Parsed Expr} {j : Join} {m : Nat}

/-! ### Tokens are used -/

/-- An expression takes a token at least. -/
theorem length_lt_of_sound {l : Layer} {reader : List Token → Parsed Expr}
    (h : Sound (.layer l) reader) {us rest : List Token} {e : Expr}
    (hread : reader us = .ok (e, rest)) : rest.length < us.length := by
  obtain ⟨used, rest', _, hx, rfl, t, ht, rfl⟩ | ⟨stuck, hx, -⟩ := (h us).cases
  · rw [hread] at hx
    cases hx
    obtain ⟨u, used, rfl, -⟩ := t.first ht.symm
    rw [List.length_append, List.length_cons]
    omega
  · rw [hread] at hx
    cases hx

theorem next?_cons_eq_some {kind : Kind} {t : Token} {us rest : List Token} :
    next? kind (t :: us) = some rest ↔ t.kind = kind ∧ us = rest := by
  simp [next?]

theorem next?_cons_eq_none {kind : Kind} {t : Token} {us : List Token} :
    next? kind (t :: us) = none ↔ ¬ t.kind = kind := by
  simp [next?]

theorem after?_cons_eq_some {k : Keyword} {t : Token} {us rest : List Token} :
    after? k (t :: us) = some rest ↔ t.kind.keyword? = some k ∧ us = rest := by
  simp [after?]

theorem after?_cons_eq_none {k : Keyword} {t : Token} {us : List Token} :
    after? k (t :: us) = none ↔ ¬ t.kind.keyword? = some k := by
  simp [after?]

theorem length_lt_of_next? {kind : Kind} {us rest : List Token} (h : next? kind us = some rest) :
    rest.length < us.length := by
  cases us with
  | nil => cases h
  | cons t us =>
    rw [next?, Option.ite_none_right_eq_some] at h
    cases h.2
    exact Nat.lt_succ_self _

theorem length_lt_of_expect {kind : Kind} {wanted : Wanted} {us rest : List Token}
    (h : expect kind wanted us = .ok rest) : rest.length < us.length := by
  obtain ⟨t, rest', hx, rfl, -⟩ | ⟨stuck, hx, -⟩ := expect_cases kind wanted us
  · cases hx.symm.trans h
    exact Nat.lt_succ_self _
  · cases hx.symm.trans h

theorem length_lt_of_after? {k : Keyword} {us rest : List Token} (h : after? k us = some rest) :
    rest.length < us.length := by
  obtain ⟨t, rfl, -⟩ := after?_eq_some h
  exact Nat.lt_succ_self _

/-! ### Expressions -/

/-- Where fewer than so many tokens remain, a procedure does what a reader answers. -/
def Reads (ts : Tokens) (m : Nat) (p : Procedure) (reader : List Token → Parsed p.Result) : Prop :=
  ∀ us, us.length < m → Does ts (Program.run p) us (reader us)

/-- A reader of the expressions inside of others: where fewer than so many tokens remain, the
procedure for expressions does what it answers; and it answers only what the grammar derives. -/
structure Inner (ts : Tokens) (m : Nat) (sub : List Token → Parsed Expr) : Prop where
  /-- The procedure does what it answers. -/
  reads : Reads ts m .expression sub
  /-- It answers what the grammar derives. -/
  sound : Sound (.layer (.join .or)) sub
  /-- Where no token remains, an expression is missing. -/
  nil : sub [] = unexpected .expression []

/-- Where no token remains, an expression is missing, whatever was to be done with it. -/
theorem Inner.missing {α : Type} (h : Inner ts m sub) (hm : 0 < m) (f : Expr → Program α) :
    Does ts (Program.run .expression >>= f) [] (unexpected .expression []) := by
  have hexpression := h.reads [] hm
  rw [h.nil] at hexpression
  refine hexpression.bind nofun fun stuck hstuck => ?_
  cases hstuck
  rfl

/-- The loop over operators with an operand each ends, since an operator is a token. -/
theorem does_more (ho : Reads ts m (.layer j.operand) operand) (n : Nat) :
    ∀ (left : Expr) (us : List Token), us.length ≤ n → us.length < m →
      Does ts (Program.run (.more j left)) us (chain j.op? operand n left us) := by
  induction n with
  | zero =>
    intro left us hn _
    obtain rfl := List.length_eq_zero_iff.1 (Nat.le_zero.1 hn)
    exact .run ((Does.item []).andThen (.pure left [])) nofun
  | succ n ih =>
    intro left us hn hm
    refine .run ((Does.item us).andThen ?_) nofun
    cases us with
    | nil => exact .pure left []
    | cons t us =>
      have hop : (ts.front (t :: us)).kind?.bind j.op? = j.op? t.kind := rfl
      rw [chain, hop]
      cases j.op? t.kind with
      | none => exact .pure left (t :: us)
      | some op =>
        have hlt : us.length < m := Nat.lt_of_succ_lt hm
        refine (Does.step t us).andThen ((ho us hlt).bind (fun right rest hr hrest => ?_)
          fun stuck hr => ?_)
        · have hle := hrest.length_le
          simp only [hr]
          exact ih _ rest (Nat.le_trans hle (Nat.le_of_succ_le_succ hn))
            (Nat.lt_of_le_of_lt hle hlt)
        · simp only [hr]

/-- Operands with operators between them. -/
theorem reads_level (ho : Reads ts m (.layer j.operand) operand) :
    Reads ts m (.layer (.join j)) (level j.op? operand) := by
  intro us hus
  refine .run (p := .layer (.join j))
    ((ho us hus).bind (fun left rest hl hrest => ?_) fun stuck hl => ?_) nofun
  · rw [level, hl]
    exact does_more ho rest.length left rest (Nat.le_refl _)
      (Nat.lt_of_le_of_lt hrest.length_le hus)
  · rw [level, hl]

/-- The loop over dimensions ends, since a comma is a token. -/
theorem does_groups (h : Inner ts m sub) (f : String) (args : List Expr) (n : Nat) :
    ∀ (dimensions : List Expr) (us : List Token), us.length ≤ n → us.length < m →
      Does ts (Program.run (.groups f args dimensions)) us
        ((groups sub n us).map fun (es, rest) => (.call f args (dimensions ++ es), rest)) := by
  induction n with
  | zero =>
    intro dimensions us hn hm
    obtain rfl := List.length_eq_zero_iff.1 (Nat.le_zero.1 hn)
    exact .run (h.missing hm _) nofun
  | succ n ih =>
    intro dimensions us hn hm
    refine .run (p := .groups f args dimensions)
      ((h.reads us hm).bind (fun e rest he hrest => ?_) fun stuck he => ?_) nofun
    · have hle := hrest.length_le
      rw [groups_succ, he]
      refine .ifEat (fun rest' hcomma => ?_) fun hcomma => ?_
      · have hlt := length_lt_of_next? hcomma
        have hmore := ih (dimensions ++ [e]) rest' (by omega) (by omega)
        simp only [hcomma]
        rcases hgroups : groups sub n rest' with stuck | ⟨es, rest''⟩
        · rw [hgroups] at hmore
          exact hmore
        · rw [hgroups] at hmore
          simp only [Except.map, List.append_assoc] at hmore
          exact hmore
      · simp only [hcomma]
        refine .afterExpect (fun rest' hclose => ?_) fun stuck hclose => ?_
        · rw [hclose]
          exact .pure _ rest'
        · rw [hclose]
          rfl
    · rw [groups_succ, he]
      rfl

/-- What has been read is put before what the loop over arguments reads after it. -/
theorem does_prepend {x : Program Expr} {f : String} {args : List Expr} {e : Expr}
    {us : List Token} {z : Parsed (List Expr × List Expr)}
    (h : Does ts x us (z.map fun ((es, gs), rest) => (.call f (args ++ [e] ++ es) gs, rest))) :
    Does ts x us (Except.map (fun ((es, gs), rest) => (.call f (args ++ es) gs, rest))
      (match z with
      | .error stuck => .error stuck
      | .ok ((es, gs), rest) => .ok ((e :: es, gs), rest))) := by
  rcases z with stuck | ⟨⟨es, gs⟩, rest⟩
  · exact h
  · simp only [Except.map, List.append_assoc] at h
    exact h

/-- The loop over arguments ends, since an argument takes a token: there need be nothing else
before the dimensions. -/
theorem does_arguments (h : Inner ts m sub) (f : String) (n : Nat) :
    ∀ (args : List Expr) (us : List Token), us.length ≤ n → us.length < m →
      Does ts (Program.run (.arguments f args)) us
        ((arguments sub n us).map fun ((es, gs), rest) => (.call f (args ++ es) gs, rest)) := by
  induction n with
  | zero =>
    intro args us hn hm
    obtain rfl := List.length_eq_zero_iff.1 (Nat.le_zero.1 hn)
    exact .run (.ifEatKeyword nofun fun _ => h.missing hm _) nofun
  | succ n ih =>
    intro args us hn hm
    rw [arguments_succ]
    refine .run (p := .arguments f args)
      (.ifEatKeyword (fun rest hby => ?_) fun hby => ?_) nofun
    · have hlt := length_lt_of_after? hby
      have hgroups := does_groups h f args n [] rest (by omega) (by omega)
      simp only [hby]
      rcases hg : groups sub n rest with stuck | ⟨gs, rest'⟩
      · rw [hg] at hgroups
        exact hgroups
      · rw [hg] at hgroups
        rw [Except.map, List.append_nil]
        exact hgroups
    · simp only [hby]
      refine (h.reads us hm).bind (fun e rest he _ => ?_) fun stuck he => ?_
      · have hlt := length_lt_of_sound h.sound he
        rw [he]
        refine .ifEat (fun rest' hclose => ?_) fun hclose => ?_
        · simp only [hclose]
          exact .pure _ rest'
        · simp only [hclose]
          rw [separator]
          refine .ifAtKeyword (fun hby => ?_) fun hby => ?_
          · rw [if_pos hby]
            exact does_prepend (ih (args ++ [e]) rest (by omega) (by omega))
          · have hno : ¬ (after? .byWord rest).isSome = true := by
              rw [hby]
              exact Bool.false_ne_true
            rw [if_neg hno]
            refine .afterExpect (fun rest' hcomma => ?_) fun stuck hcomma => ?_
            · have hless := length_lt_of_expect hcomma
              rw [hcomma]
              exact does_prepend (ih (args ++ [e]) rest' (by omega) (by omega))
            · rw [hcomma]
              rfl
      · rw [he]
        rfl

theorem reads_call (h : Inner ts m sub) (f : String) : Reads ts m (.call f) (call sub f) := by
  intro us hus
  refine .run (p := .call f) (.ifEat (fun rest hclose => ?_) fun hclose => ?_) nofun
  · rw [call_eq, hclose]
    exact .pure _ rest
  · have hargs := does_arguments h f us.length [] us (Nat.le_refl _) hus
    rw [call_eq, hclose]
    rcases ha : arguments sub us.length us with stuck | ⟨⟨es, gs⟩, rest⟩
    · rw [ha] at hargs
      exact hargs
    · rw [ha] at hargs
      exact hargs

/-- What stands by itself; the rest of a call or of parentheses has fewer tokens. -/
theorem reads_primary (h : Inner ts m sub) : Reads ts (m + 1) (.layer .primary) (primary sub) := by
  intro us hus
  refine .run (p := .layer .primary) ((Does.item us).andThen ?_) nofun
  rcases us with _ | ⟨⟨kind, position⟩, us⟩
  · exact .unexpected .expression []
  have hlt : us.length < m := Nat.lt_of_succ_lt_succ hus
  cases kind with
  | number x => exact (Does.step _ us).andThen (.pure _ us)
  | string x => exact (Does.step _ us).andThen (.pure _ us)
  | leftParen =>
    rw [primary_leftParen]
    refine (Does.step _ us).andThen ((h.reads us hlt).bind (fun e rest he _ => ?_)
      fun stuck he => ?_)
    · rw [he]
      refine .afterExpect (fun rest' hclose => ?_) fun stuck hclose => ?_
      · simp only [hclose]
        exact .pure e rest'
      · simp only [hclose]
    · rw [he]
  | ident word =>
    dsimp only [Tokens.front]
    cases hword : Keyword.ofWord? word with
    | none =>
      rw [primary_name hword]
      refine (Does.step _ us).andThen (.ifEat (fun rest hopen => ?_) fun hopen => ?_)
      · have hcall := length_lt_of_next? hopen
        rw [hopen]
        exact reads_call h word rest (Nat.lt_trans hcall hlt)
      · rw [hopen]
        exact .pure _ us
    | some k =>
      simp only [primary, hword]
      cases k <;>
        first
        | exact (Does.step _ us).andThen (.pure _ us)
        | exact .unexpected .expression _
  | _ => exact .unexpected .expression _

theorem reads_unary (h : Reads ts m (.layer .primary) (primary sub)) :
    Reads ts m (.layer .unary) (unary sub) := by
  intro us
  induction us with
  | nil => exact fun hus => .run (p := .layer .unary) (.ifEat nofun fun _ => h [] hus) nofun
  | cons t us ih =>
    intro hus
    rw [unary]
    refine .run (p := .layer .unary) (.ifEat (fun rest hminus => ?_) fun hminus => ?_) nofun
    · obtain ⟨hkind, rfl⟩ := next?_cons_eq_some.1 hminus
      rw [if_pos hkind]
      refine (ih (Nat.lt_of_succ_lt hus)).bind (fun e rest he _ => ?_) fun stuck he => ?_
      · rw [he]
        exact .pure _ rest
      · rw [he]
    · rw [if_neg (next?_cons_eq_none.1 hminus)]
      exact h (t :: us) hus

/-- A test for null takes no procedure. -/
theorem does_nullTest (e : Expr) (us : List Token) :
    Does ts (Program.nullTest e) us (nullTest e us) := by
  rw [nullTest]
  refine .ifEatKeyword (fun rest his => ?_) fun his => ?_
  · rw [his]
    refine (Does.eatKeyword .notWord rest).andThen (.ifEatKeyword (fun rest' hnull => ?_)
      fun hnull => ?_)
    · simp only [hnull]
      exact .pure _ rest'
    · simp only [hnull]
      exact .unexpected .nullWord _
  · rw [his]
    exact .pure e us

theorem reads_comparison (h : Reads ts m (.layer (.join .sum)) (sum sub)) :
    Reads ts m (.layer .comparison) (comparison sub) := by
  intro us hus
  refine .run (p := .layer .comparison)
    ((h us hus).bind (fun left rest hl hrest => ?_) fun stuck hl => ?_) nofun
  · have hlt : rest.length < m := Nat.lt_of_le_of_lt hrest.length_le hus
    rw [comparison, hl]
    refine (Does.item rest).andThen ?_
    cases rest with
    | nil => exact does_nullTest left []
    | cons t rest =>
      have hop : (ts.front (t :: rest)).kind?.bind compareOp? = compareOp? t.kind := rfl
      dsimp only
      rw [hop]
      cases compareOp? t.kind with
      | none => exact does_nullTest left (t :: rest)
      | some op =>
        refine (Does.step t rest).andThen ((h rest (Nat.lt_of_succ_lt hlt)).bind
          (fun right rest' hr _ => ?_) fun stuck hr => ?_)
        · simp only [hr]
          exact does_nullTest _ rest'
        · simp only [hr]
  · rw [comparison, hl]

theorem reads_negation (h : Reads ts m (.layer .comparison) (comparison sub)) :
    Reads ts m (.layer .negation) (negation sub) := by
  intro us
  induction us with
  | nil =>
    exact fun hus => .run (p := .layer .negation) (.ifEatKeyword nofun fun _ => h [] hus) nofun
  | cons t us ih =>
    intro hus
    rw [negation]
    refine .run (p := .layer .negation) (.ifEatKeyword (fun rest hnot => ?_) fun hnot => ?_) nofun
    · obtain ⟨hkeyword, rfl⟩ := after?_cons_eq_some.1 hnot
      rw [if_pos hkeyword]
      refine (ih (Nat.lt_of_succ_lt hus)).bind (fun e rest he _ => ?_) fun stuck he => ?_
      · rw [he]
        exact .pure _ rest
      · rw [he]
    · rw [if_neg (after?_cons_eq_none.1 hnot)]
      exact h (t :: us) hus

/-- Every layer is read as by its reader, given how expressions with fewer tokens are read. -/
theorem reads_layer (h : Inner ts m sub) (l : Layer) :
    Reads ts (m + 1) (.layer l) (l.read sub) := by
  have hprimary := reads_primary h
  have hunary := reads_unary hprimary
  have hproduct : Reads ts (m + 1) (.layer (.join .product)) (product sub) := reads_level hunary
  have hsum : Reads ts (m + 1) (.layer (.join .sum)) (sum sub) := reads_level hproduct
  have hcomparison := reads_comparison hsum
  have hnegation := reads_negation hcomparison
  have hand : Reads ts (m + 1) (.layer (.join .and)) (level andOp? (negation sub)) :=
    reads_level hnegation
  cases l with
  | join j =>
    cases j with
    | or => exact reads_level hand
    | and => exact hand
    | sum => exact hsum
    | product => exact hproduct
  | negation => exact hnegation
  | comparison => exact hcomparison
  | unary => exact hunary
  | primary => exact hprimary

theorem expressionWithin_nil (n : Nat) : expressionWithin n [] = unexpected .expression [] := by
  cases n <;> rfl

/-- As many levels of parentheses are enough as there are tokens. -/
theorem inner_expressionWithin (n : Nat) : Inner ts (n + 1) (expressionWithin n) := by
  refine ⟨?_, expressionWithin_sound n, expressionWithin_nil n⟩
  induction n with
  | zero =>
    have hinner : Inner ts 0 (expressionWithin 0) :=
      ⟨fun us hus => absurd hus (Nat.not_lt_zero _), expressionWithin_sound 0,
        expressionWithin_nil 0⟩
    intro us hus
    obtain rfl := List.length_eq_zero_iff.1 (Nat.lt_one_iff.1 hus)
    exact .run (reads_layer hinner (.join .or) [] hus) nofun
  | succ n ih =>
    have hinner : Inner ts (n + 1) (expressionWithin n) :=
      ⟨ih, expressionWithin_sound n, expressionWithin_nil n⟩
    exact fun us hus => .run (reads_layer hinner (.join .or) us hus) nofun

/-- However many tokens remain, an expression is read. -/
theorem does_expression (us : List Token) :
    Does ts (Program.run .expression) us (expression us) :=
  (inner_expressionWithin us.length).reads us (Nat.lt_succ_self _)

/-! ### Statements -/

theorem does_binding (line : Nat) (us : List Token) :
    Does ts (Program.binding line) us (binding line us) := by
  refine (Does.item us).andThen ?_
  rcases us with _ | ⟨⟨kind, position⟩, us⟩
  · exact .unexpected .slotName []
  cases kind with
  | ident name =>
    rw [binding]
    dsimp only [Tokens.front]
    split
    · exact .unexpected .slotName _
    refine (Does.step _ us).andThen (.afterExpect (fun rest hassign => ?_) fun stuck hassign => ?_)
    · simp only [hassign, bind, Except.bind]
      refine (does_expression rest).bind (fun e rest' he _ => ?_) fun stuck he => ?_
      · simp only [he]
        refine (Does.eatKeyword .defaultWord rest').andThen
          (.afterExpect (fun rest'' hsemicolon => ?_) fun stuck hsemicolon => ?_)
        · simp only [hsemicolon]
          exact .pure _ rest''
        · simp only [hsemicolon]
      · simp only [he]
    · simp only [hassign, bind, Except.bind]
  | _ => exact .unexpected .slotName _

theorem does_condition (us : List Token) : Does ts Program.condition us (condition us) := by
  rw [condition]
  refine .ifEatKeyword (fun rest hwhere => ?_) fun hwhere => ?_
  · rw [hwhere]
    refine (does_expression rest).bind (fun e rest' he _ => ?_) fun stuck he => ?_
    · simp only [he]
      exact .pure _ rest'
    · simp only [he]
  · rw [hwhere]
    exact .pure none us

theorem does_inclusion (line : Nat) (us : List Token) :
    Does ts (Program.inclusion line) us (inclusion line us) := by
  refine (Does.item us).andThen ?_
  rcases us with _ | ⟨⟨kind, position⟩, us⟩
  · exact .unexpected .includePath []
  cases kind with
  | string raw =>
    rw [inclusion]
    dsimp only [Tokens.front]
    cases Template.parse raw with
    | error fault => exact .error _ _
    | ok target =>
      refine (Does.step _ us).andThen
        ((does_condition us).bind (fun c rest hc _ => ?_) fun stuck hc => ?_)
      · simp only [hc, bind, Except.bind]
        refine .afterExpect (fun rest' hsemicolon => ?_) fun stuck hsemicolon => ?_
        · simp only [hsemicolon]
          exact .pure _ rest'
        · simp only [hsemicolon]
      · simp only [hc, bind, Except.bind]
  | _ => exact .unexpected .includePath _

/-- A statement is read without calling for another one. -/
theorem does_statement (us : List Token) :
    Does ts Procedure.statement.body us (statement us) := by
  refine (Does.item us).andThen ?_
  cases us with
  | nil => exact .ifEatKeyword nofun fun _ => .ifEatKeyword nofun fun _ => .unexpected .statement []
  | cons t us =>
    rw [statement]
    refine .ifEatKeyword (fun rest hlet => ?_) fun hlet => ?_
    · obtain ⟨hkeyword, rfl⟩ := after?_cons_eq_some.1 hlet
      rw [hkeyword]
      exact does_binding t.position.line us
    refine .ifEatKeyword (fun rest hinclude => ?_) fun hinclude => ?_
    · obtain ⟨hkeyword, rfl⟩ := after?_cons_eq_some.1 hinclude
      rw [hkeyword]
      exact does_inclusion t.position.line us
    · have hlet := after?_cons_eq_none.1 hlet
      have hinclude := after?_cons_eq_none.1 hinclude
      split
      · exact absurd ‹_› hlet
      · exact absurd ‹_› hinclude
      · exact .unexpected .statement _

/-- An expression is read up to the end. -/
theorem does_whole (us : List Token) :
    Does ts Procedure.whole.body us ((wholeExpression us).map fun e => (e, [])) := by
  refine (does_expression us).bind (fun e rest he _ => ?_) fun stuck he => ?_
  · simp only [wholeExpression, he, bind, Except.bind]
    refine (Does.atEnd rest).andThen ?_
    cases rest with
    | nil => exact .pure e []
    | cons t rest => exact .unexpected .endOfExpression _
  · simp only [wholeExpression, he, bind, Except.bind]
    rfl

/-! ### Modules -/

/-- How the body of a procedure ends: the cursor never leaves the tokens and their end, and so many
statements are read at most. -/
def EndsWithin (ts : Tokens) (p : Procedure) (us : List Token) (n : Nat) (y : Parsed p.Result) :
    Prop :=
  ∃ log, Ends ts p.body (ts.place us) log (outcome ts y) ∧ (∀ e ∈ log, e.pos ≤ ts.last) ∧
    log.countP Event.isStatement ≤ n

theorem countP_isStatement_eq_zero {log : List Event}
    (h : ∀ e ∈ log, e.pos ≤ ts.last ∧ e.isStatement = false) :
    log.countP Event.isStatement = 0 :=
  List.countP_eq_zero.2 fun e he => Bool.eq_false_iff.1 (h e he).2

theorem Does.endsWithin {p : Procedure} {us : List Token} {y : Parsed p.Result}
    (h : Does ts p.body us y) (hus : us <:+ ts.tokens) (n : Nat) : EndsWithin ts p us n y := by
  obtain ⟨log, hends, hlog⟩ := h.ends hus
  have hnone := countP_isStatement_eq_zero hlog
  exact ⟨log, hends, fun e he => (hlog e he).1, hnone ▸ Nat.zero_le n⟩

/-- Every statement takes a token at least, so the loop over statements comes to the end. -/
theorem endsWithin_module (n : Nat) : ∀ (read : List Statement) (us : List Token),
    us <:+ ts.tokens → us.length ≤ n → EndsWithin ts (.module read) us us.length
      ((statementsWithin n us).map fun ss => (read ++ ss, [])) := by
  have hend : ∀ (read : List Statement) (n : Nat), EndsWithin ts (.module read) [] 0
      ((statementsWithin n []).map fun ss => (read ++ ss, [])) := by
    intro read n
    have hdoes : Does ts (Procedure.module read).body [] (.ok (read, [])) :=
      (Does.atEnd []).andThen (.pure read [])
    have hnone : (statementsWithin n []).map (fun ss => (read ++ ss, ([] : List Token))) =
        .ok (read, []) := by
      cases n <;> simp [statementsWithin, Except.map]
    rw [hnone]
    exact hdoes.endsWithin List.nil_suffix 0
  induction n with
  | zero =>
    intro read us _ hn
    obtain rfl := List.length_eq_zero_iff.1 (Nat.le_zero.1 hn)
    exact hend read 0
  | succ n ih =>
    intro read us hus hn
    cases us with
    | nil => exact hend read (n + 1)
    | cons t us =>
      have hdoes : Does ts Procedure.statement.body (t :: us) (statement (t :: us)) :=
        does_statement (t :: us)
      obtain ⟨look, hlook, hlooked⟩ := (Does.atEnd (t :: us)).ends hus
      obtain ⟨log, hstatement, hlog⟩ := hdoes.ends hus
      have hquiet := countP_isStatement_eq_zero hlooked
      have hnone := countP_isStatement_eq_zero hlog
      have hplace := ts.place_le (t :: us)
      rcases hs : statement (t :: us) with stuck | ⟨s, rest⟩
      · rw [hs] at hstatement
        rw [statementsWithin, hs]
        refine ⟨_, hlook.bind (.failed hstatement), ?_, ?_⟩
        · simp only [List.mem_append, List.mem_cons]
          rintro e (he | rfl | he)
          · exact (hlooked e he).1
          · exact hplace
          · exact (hlog e he).1
        · rw [List.countP_append, List.countP_cons_of_pos rfl, List.length_cons]
          omega
      · have hle := length_of_statement hs
        obtain ⟨log', hmodule, hlog', hcount⟩ := ih (read ++ [s]) rest
          ((hdoes.suffix s rest hs).trans hus) (Nat.le_trans hle (Nat.le_of_succ_le_succ hn))
        -- What has been read is put before what the loop reads after it.
        have hread :
            (statementsWithin n rest).map (fun ss => (read ++ [s] ++ ss, ([] : List Token))) =
              (statementsWithin (n + 1) (t :: us)).map fun ss => (read ++ ss, []) := by
          rw [statementsWithin, hs]
          rcases hrest : statementsWithin n rest with stuck | ss <;>
            simp [Except.map, bind, Except.bind, pure, Except.pure, hrest]
        rw [hs] at hstatement
        rw [hread] at hmodule
        refine ⟨_, hlook.bind (.returned hstatement hmodule.run), ?_, ?_⟩
        · simp only [List.mem_append, List.mem_cons]
          rintro e (he | rfl | he | rfl | he)
          · exact (hlooked e he).1
          · exact hplace
          · exact (hlog e he).1
          · exact ts.place_le rest
          · exact hlog' e he
        · rw [List.countP_append, List.countP_cons_of_pos rfl, List.countP_append,
            List.countP_cons_of_neg Bool.false_ne_true, List.length_cons]
          omega

/-! ### Procedures -/

/-- What a procedure reads, as a reader. -/
def Procedure.read : (p : Procedure) → List Token → Parsed p.Result
  | module read, us => (statements us).map fun ss => (read ++ ss, [])
  | whole, us => (wholeExpression us).map fun e => (e, [])
  | statement, us => Parser.statement us
  | expression, us => Parser.expression us
  | layer l, us => l.read (expressionWithin us.length) us
  | more j left, us => chain j.op? (j.operand.read (expressionWithin us.length)) us.length left us
  | call f, us => Parser.call (expressionWithin us.length) f us
  | arguments f args, us =>
    (Parser.arguments (expressionWithin us.length) us.length us).map fun ((es, gs), rest) =>
      (.call f (args ++ es) gs, rest)
  | groups f args dimensions, us =>
    (Parser.groups (expressionWithin us.length) us.length us).map fun (es, rest) =>
      (.call f args (dimensions ++ es), rest)

/-- A procedure does what its reader answers. -/
theorem endsWithin_read (p : Procedure) {us : List Token} (hus : us <:+ ts.tokens) :
    EndsWithin ts p us us.length (p.read us) := by
  have hinner : Inner ts (us.length + 1) (expressionWithin us.length) :=
    inner_expressionWithin us.length
  have hlayer : ∀ l, Reads ts (us.length + 1) (.layer l) (l.read (expressionWithin us.length)) :=
    fun l us' hus' => reads_layer hinner l us' (Nat.lt_succ_of_lt hus')
  have hlt := Nat.lt_succ_self us.length
  cases p with
  | module read => exact endsWithin_module us.length read us hus (Nat.le_refl _)
  | whole => exact (does_whole us).endsWithin hus _
  | statement => exact (does_statement us).endsWithin hus _
  | expression => exact (does_expression us).body.endsWithin hus _
  | layer l => exact (hlayer l us hlt).body.endsWithin hus _
  | more j left =>
    exact (does_more (hlayer j.operand) us.length left us (Nat.le_refl _) hlt).body.endsWithin hus _
  | call f => exact (reads_call hinner f us hlt).body.endsWithin hus _
  | arguments f args =>
    exact (does_arguments hinner f us.length args us (Nat.le_refl _) hlt).body.endsWithin
      hus _
  | groups f args dimensions =>
    exact (does_groups hinner f args us.length dimensions us (Nat.le_refl _) hlt).body.endsWithin
      hus _

end Cursor

end GatedRules
