import GatedRules.Proofs.Readers
import GatedRules.Proofs.Words

/-!
# Readers find every derivation

Where the beginning of some tokens spells a tree, and what follows does not go on it, the reader of
its category uses just these tokens and answers what the tree denotes (`Grammar.Tree.read`). The
induction is on the tree; what a reader decides by its next token is decided by how a tree begins
and by the grip of what follows. The bounds of the readers are large enough, since every step that
lowers one uses a token.

With what the readers answer (`GatedRules.Proofs.Readers`) and with the grammar being unambiguous,
parsing a text accepts exactly what the grammar derives (`Grammar.parse_accepts_grammar`).
-/

namespace GatedRules

namespace Grammar

open GatedRules.Parser

/-! ### Tokens of terminals -/

theorem spelled_eq_cons {ts : List Token} {x : Terminal} {xs : List Terminal} :
    spelled ts = x :: xs ↔ ∃ t ts', ts = t :: ts' ∧ terminal t.kind = x ∧ spelled ts' = xs :=
  List.map_eq_cons_iff

theorem spelled_eq_append {ts : List Token} {xs ys : List Terminal} :
    spelled ts = xs ++ ys ↔ ∃ us vs, ts = us ++ vs ∧ spelled us = xs ∧ spelled vs = ys :=
  List.map_eq_append_iff

theorem length_spelled (ts : List Token) : (spelled ts).length = ts.length :=
  List.length_map _

theorem after?_of_terminal {k : Keyword} {t : Token} (h : terminal t.kind = .word k)
    (ts : List Token) : after? k (t :: ts) = some ts := by
  rw [after?, if_pos (terminal_eq_word.1 h)]

theorem after?_eq_none {k : Keyword} {ts : List Token}
    (h : ∀ t ∈ ts.head?, terminal t.kind ≠ .word k) : after? k ts = none := by
  cases ts with
  | nil => rfl
  | cons t ts => rw [after?, if_neg fun hk => h t rfl (terminal_eq_word.2 hk)]

theorem expect_of_terminal {kind : Kind} {t : Token} (h : terminal t.kind = .plain kind)
    (wanted : Wanted) (ts : List Token) : expect kind wanted (t :: ts) = .ok ts := by
  rw [expect, if_pos (terminal_eq_plain.1 h).1]

/-- The first of the tokens that spell an expression is none that is barred. -/
theorem Tree.first {l : Layer} (t : Tree (.layer l)) {ts : List Token}
    (h : spelled ts = t.terminals) :
    ∃ u us, ts = u :: us ∧ terminal u.kind ∉ l.barred := by
  obtain ⟨x, xs, hx, hbarred⟩ := t.begins
  obtain ⟨u, us, rfl, rfl, -⟩ := spelled_eq_cons.1 (h.trans hx)
  exact ⟨u, us, rfl, hbarred⟩

/-- What does not go on an expression is no token of a tighter grip. -/
theorem Apart.terminal_ne {grip : Nat} {ts : List Token} (h : Apart grip (spelled ts))
    {x : Terminal} (hx : x.grip ≤ grip) : ∀ t ∈ ts.head?, terminal t.kind ≠ x := by
  rintro t ht rfl
  refine absurd (h _ ?_) (Nat.not_lt.2 hx)
  rw [spelled, List.head?_map, Option.mem_def.1 ht]
  rfl

/-- A bound on the tokens of an expression is not zero. -/
theorem exists_of_nonempty {l : Layer} (t : Tree (.layer l)) {ts : List Token}
    (h : spelled ts = t.terminals) {n : Nat} (hn : ts.length ≤ n) : ∃ m, n = m + 1 := by
  obtain ⟨u, us, rfl, -⟩ := t.first h
  exact ⟨n - 1, (Nat.sub_add_cancel (Nat.le_trans (Nat.le_add_left 1 us.length) hn)).symm⟩

theorem not_by {l : Layer} (t : Tree (.layer l)) {ts rest : List Token}
    (h : spelled ts = t.terminals) : after? .byWord (ts ++ rest) = none := by
  obtain ⟨u, us, rfl, hu⟩ := t.first h
  refine after?_eq_none fun v hv heq => hu ?_
  cases hv
  rw [heq]
  cases l with
  | join j => cases j <;> decide
  | _ => decide

theorem not_close (t : Tree .list) {ts rest : List Token} (h : spelled ts = t.terminals) :
    ∀ u ∈ (ts ++ rest).head?, terminal u.kind ≠ .plain .rightParen := by
  obtain ⟨x, xs, hx, hbarred⟩ := t.begins_list
  obtain ⟨u, us, rfl, rfl, -⟩ := spelled_eq_cons.1 (h.trans hx)
  intro v hv heq
  cases hv
  rw [heq] at hbarred
  exact hbarred (by decide)

/-! ### Reading trees -/

/-- The reader of a layer. -/
def Layer.read (sub : List Token → Parsed Expr) : Layer → List Token → Parsed Expr
  | join .or => Parser.alternatives sub
  | join .and => Parser.level Parser.andOp? (Parser.negation sub)
  | join .sum => Parser.sum sub
  | join .product => Parser.product sub
  | negation => Parser.negation sub
  | comparison => Parser.comparison sub
  | unary => Parser.unary sub
  | primary => Parser.primary sub

theorem Layer.read_join (sub : List Token → Parsed Expr) (j : Join) :
    (join j).read sub = level j.op? (j.operand.read sub) := by
  cases j <;> rfl

/-- Read on after an argument of a call. -/
def afterArgument (sub : List Token → Parsed Expr) (n : Nat) :
    List Token → Parsed (List Expr × List Expr)
  | ⟨.rightParen, _⟩ :: rest => .ok (([], []), rest)
  | rest =>
    match if (after? .byWord rest).isSome then .ok rest else expect .comma .commaOrClose rest with
    | .error stuck => .error stuck
    | .ok rest => arguments sub n rest

section

variable {sub : List Token → Parsed Expr} {ts rest rest' : List Token} {t : Token} {e : Expr}
  {es gs : List Expr} {n : Nat}

theorem groups_last (h : sub ts = .ok (e, t :: rest)) (ht : terminal t.kind = .plain .rightParen)
    (n : Nat) : groups sub (n + 1) ts = .ok ([e], rest) := by
  rw [groups, h]
  split
  · cases ‹_ = _›
  · cases ‹_ = _›
    cases ht
  · cases ‹_ = _›
    rw [expect_of_terminal ht]

theorem groups_cons (h : sub ts = .ok (e, t :: rest)) (ht : terminal t.kind = .plain .comma)
    (hrest : groups sub n rest = .ok (es, rest')) :
    groups sub (n + 1) ts = .ok (e :: es, rest') := by
  obtain ⟨kind, position⟩ := t
  obtain rfl : kind = .comma := (terminal_eq_plain.1 ht).1
  rw [groups, h]
  dsimp only
  rw [hrest]

theorem arguments_groups (ht : terminal t.kind = .word .byWord)
    (hrest : groups sub n rest = .ok (gs, rest')) :
    arguments sub (n + 1) (t :: rest) = .ok (([], gs), rest') := by
  rw [arguments, after?_of_terminal ht]
  dsimp only
  rw [hrest]

theorem arguments_cons (hby : after? .byWord ts = none) (h : sub ts = .ok (e, rest))
    (hrest : afterArgument sub n rest = .ok ((es, gs), rest')) :
    arguments sub (n + 1) ts = .ok ((e :: es, gs), rest') := by
  rw [arguments, hby]
  dsimp only
  rw [h]
  unfold afterArgument at hrest
  split at hrest
  · cases hrest
    rfl
  · rename_i hclose
    split
    · cases ‹_ = _›
    · cases ‹_ = _›
      exact absurd rfl (hclose _ _)
    · cases ‹_ = _›
      generalize (if (after? .byWord rest).isSome then .ok rest else
        expect .comma .commaOrClose rest) = next at hrest ⊢
      cases next with
      | error stuck => cases hrest
      | ok more =>
        dsimp only at hrest ⊢
        rw [hrest]

theorem call_of_arguments {function : String}
    (hclose : ∀ t ∈ ts.head?, terminal t.kind ≠ .plain .rightParen)
    (h : arguments sub ts.length ts = .ok ((es, gs), rest)) :
    call sub function ts = .ok (.call function es gs, rest) := by
  unfold call
  split
  · exact absurd rfl (hclose _ rfl)
  · rw [h]

theorem afterArgument_close (ht : terminal t.kind = .plain .rightParen) (n : Nat) :
    afterArgument sub n (t :: rest) = .ok (([], []), rest) := by
  obtain ⟨kind, position⟩ := t
  obtain rfl : kind = .rightParen := (terminal_eq_plain.1 ht).1
  rfl

theorem afterArgument_comma (ht : terminal t.kind = .plain .comma) (n : Nat) :
    afterArgument sub n (t :: rest) = arguments sub n rest := by
  obtain ⟨kind, position⟩ := t
  obtain rfl : kind = .comma := (terminal_eq_plain.1 ht).1
  rfl

theorem afterArgument_groups (ht : terminal t.kind = .word .byWord) (n : Nat) :
    afterArgument sub n (t :: rest) = arguments sub n (t :: rest) := by
  unfold afterArgument
  split
  · cases ‹_ = _›
    cases ht
  · rw [after?_of_terminal ht]
    rfl

end

/-- The reader of a category answers what a tree denotes, where tokens spell the tree and what
follows may follow it. Within the tree, so many levels of parentheses may be read. -/
def Tree.Read (n : Nat) : {c : Category} → Tree c → Prop
  | .layer l, t => ∀ {used rest : List Token}, spelled used = t.terminals →
    Apart l.grip (spelled rest) →
      l.read (expressionWithin n) (used ++ rest) = .ok (t.value, rest)
  | .tail j, t => ∀ {used rest : List Token}, spelled used = t.terminals →
    Apart j.grip (spelled rest) → ∀ {k : Nat}, used.length ≤ k → ∀ left,
      Parser.chain j.op? (j.operand.read (expressionWithin n)) k left (used ++ rest) =
        .ok (t.value left, rest)
  | .list, t => ∀ {used : List Token}, spelled used = t.terminals →
    (∀ {close : Token} {rest : List Token} {k : Nat}, terminal close.kind = .plain .rightParen →
      used.length ≤ k → Parser.groups (expressionWithin (n + 1)) k (used ++ close :: rest) =
        .ok (t.value, rest)) ∧
    ∀ {more rest : List Token} {es gs : List Expr}, Category.list.Before (spelled more) →
      (∀ k, more.length ≤ k →
        afterArgument (expressionWithin (n + 1)) k more = .ok ((es, gs), rest)) →
      ∀ k, used.length + more.length ≤ k →
        Parser.arguments (expressionWithin (n + 1)) k (used ++ more) =
          .ok ((t.value ++ es, gs), rest)
  | .arguments, t => ∀ {used : List Token}, spelled used = t.terminals →
    ∀ {close : Token} {rest : List Token} {function : String},
      terminal close.kind = .plain .rightParen →
      Parser.call (expressionWithin (n + 1)) function (used ++ close :: rest) =
        .ok (.call function t.value.1 t.value.2, rest)

/-- A test for null is read, or that there is none. -/
theorem nullTest_read (e : Expr) {test : Option Bool} {used rest : List Token}
    (h : spelled used = testTerminals test) (hapart : Apart 3 (spelled rest)) :
    nullTest e (used ++ rest) = .ok (Tree.tested e test, rest) := by
  unfold nullTest
  rcases test with _ | _ | _
  · obtain rfl : used = [] := List.map_eq_nil_iff.1 h
    rw [List.nil_append, after?_eq_none (hapart.terminal_ne (by decide))]
    rfl
  · obtain ⟨u, us, rfl, hu, hus⟩ := spelled_eq_cons.1 h
    obtain ⟨v, vs, rfl, hv, hvs⟩ := spelled_eq_cons.1 hus
    obtain rfl : vs = [] := List.map_eq_nil_iff.1 hvs
    have hnot : after? .notWord (v :: rest) = none :=
      after?_eq_none fun t ht => by
        cases ht
        rw [hv]
        decide
    simp only [List.cons_append, List.nil_append, after?_of_terminal hu, hnot, Option.getD_none,
      after?_of_terminal hv]
    rfl
  · obtain ⟨u, us, rfl, hu, hus⟩ := spelled_eq_cons.1 h
    obtain ⟨v, vs, rfl, hv, hvs⟩ := spelled_eq_cons.1 hus
    obtain ⟨w, ws, rfl, hw, hws⟩ := spelled_eq_cons.1 hvs
    obtain rfl : ws = [] := List.map_eq_nil_iff.1 hws
    simp only [List.cons_append, List.nil_append, after?_of_terminal hu, after?_of_terminal hv,
      Option.getD_some, after?_of_terminal hw]
    rfl

/-- Where there is no comparison, the test for null comes next. -/
theorem comparison_of_test {sub : List Token → Parsed Expr} {e : Expr} {ts used rest : List Token}
    {test : Option Bool} (hsum : Parser.sum sub ts = .ok (e, used ++ rest))
    (h : spelled used = testTerminals test) (hapart : Apart 3 (spelled rest)) :
    Parser.comparison sub ts = nullTest e (used ++ rest) := by
  have hspelled : spelled (used ++ rest) = testTerminals test ++ spelled rest := by
    rw [spelled_append, h]
  rw [Parser.comparison, hsum]
  cases hts : used ++ rest with
  | nil => rfl
  | cons t ts =>
    have hnone : compareOp? t.kind = none := Option.eq_none_iff_forall_ne_some.2 fun op hop => by
      obtain ⟨hmem, hterminal⟩ := compareOp?_eq_some_iff.1 hop
      rw [hts, spelled_cons, hterminal] at hspelled
      exact testTerminals_ne hmem hapart hspelled.symm
    dsimp only
    rw [hnone]

theorem primary_constant (sub : List Token → Parsed Expr) {value : Literal} {t : Token}
    (h : terminal t.kind = constant value) (ts : List Token) :
    Parser.primary sub (t :: ts) = .ok (.literal value, ts) := by
  -- A constant is a keyword or a kind of its own.
  have hword : ∀ {k : Keyword}, terminal t.kind = .word k →
      ∃ word, t.kind = .ident word ∧ Keyword.ofWord? word = some k := by
    intro k hk
    have hkeyword := terminal_eq_word.1 hk
    cases hkind : t.kind with
    | ident word => exact ⟨word, rfl, by rwa [hkind] at hkeyword⟩
    | _ => simp [hkind, Kind.keyword?] at hkeyword
  unfold Parser.primary
  rcases value with _ | (_ | _) | x | s
  · obtain ⟨word, hkind, hk⟩ := hword h
    simp only [hkind, hk]
  · obtain ⟨word, hkind, hk⟩ := hword h
    simp only [hkind, hk]
  · obtain ⟨word, hkind, hk⟩ := hword h
    simp only [hkind, hk]
  · simp only [(terminal_eq_plain.1 h).1]
  · simp only [(terminal_eq_plain.1 h).1]

/-! ### Each kind of tree is read -/

namespace Tree.Read

variable {n : Nat} {j : Join}

protected theorem chain {first : Tree (.layer j.operand)} {rest : Tree (.tail j)}
    (hfirst : first.Read n) (hrest : rest.Read n) : (Tree.chain first rest).Read n := by
  intro used after hspelled hapart
  obtain ⟨us, vs, rfl, hus, hvs⟩ := spelled_eq_append.1 hspelled
  have hfollow : Apart j.operand.grip (spelled (vs ++ after)) := by
    rw [spelled_append, hvs]
    exact rest.apart_tail hapart
  rw [Layer.read_join, level, List.append_assoc, hfirst hus hfollow]
  exact hrest hvs hapart (by simp) _

protected theorem stop : (Tree.stop (j := j)).Read n := by
  intro used after hspelled hapart k _ left
  obtain rfl : used = [] := List.map_eq_nil_iff.1 hspelled
  cases k with
  | zero => rfl
  | succ k =>
    cases after with
    | nil => rfl
    | cons u after =>
      have hnone : j.op? u.kind = none := Option.eq_none_iff_forall_ne_some.2 fun op hop => by
        obtain ⟨hmem, hterminal⟩ := Join.op?_eq_some_iff.1 hop
        exact hapart.terminal_ne (Nat.le_of_eq (Join.grip_operator hmem)) u rfl hterminal
      rw [List.nil_append, Parser.chain, hnone]
      rfl

protected theorem more {op : BinaryOp} (hop : op ∈ j.operators) {operand : Tree (.layer j.operand)}
    {rest : Tree (.tail j)} (hoperand : operand.Read n) (hrest : rest.Read n) :
    (Tree.more op hop operand rest).Read n := by
  intro used after hspelled hapart k hk left
  obtain ⟨u, us, rfl, hu, hus⟩ := spelled_eq_cons.1 hspelled
  obtain ⟨us, vs, rfl, hus, hvs⟩ := spelled_eq_append.1 hus
  have hfollow : Apart j.operand.grip (spelled (vs ++ after)) := by
    rw [spelled_append, hvs]
    exact rest.apart_tail hapart
  cases k with
  | zero => cases hk
  | succ k =>
    rw [List.cons_append, Parser.chain, Join.op?_eq_some_iff.2 ⟨hop, hu⟩, List.append_assoc]
    dsimp only
    rw [hoperand hus hfollow]
    refine hrest hvs hapart ?_ _
    simp only [List.length_cons, List.length_append] at hk
    omega

protected theorem not {operand : Tree (.layer .negation)} (hread : operand.Read n) :
    (Tree.not operand).Read n := by
  intro used after hspelled hapart
  obtain ⟨u, us, rfl, hu, hus⟩ := spelled_eq_cons.1 hspelled
  change Parser.negation _ (u :: (us ++ after)) = _
  rw [Parser.negation, if_pos (terminal_eq_word.1 hu)]
  have hread := hread hus hapart
  rw [Layer.read] at hread
  rw [hread]
  rfl

protected theorem affirm {operand : Tree (.layer .comparison)} (hread : operand.Read n) :
    (Tree.affirm operand).Read n := by
  intro used after hspelled hapart
  obtain ⟨u, us, rfl, hu⟩ := operand.first hspelled
  have hnot : u.kind.keyword? ≠ some .notWord := fun hk =>
    hu (terminal_eq_word.2 hk ▸ by decide)
  change Parser.negation _ (u :: (us ++ after)) = _
  rw [Parser.negation, if_neg hnot]
  exact hread hspelled hapart

protected theorem sum {left : Tree (.layer (.join .sum))} (hread : left.Read n)
    (test : Option Bool) : (Tree.sum left test).Read n := by
  intro used after hspelled hapart
  obtain ⟨us, vs, rfl, hus, hvs⟩ := spelled_eq_append.1 hspelled
  have hfollow : Apart 2 (spelled (vs ++ after)) := by
    rw [spelled_append, hvs]
    exact apart_test test hapart
  have hsum := hread hus hfollow
  rw [List.append_assoc]
  exact (comparison_of_test hsum hvs hapart).trans (nullTest_read _ hvs hapart)

protected theorem compare {op : BinaryOp} (hop : op ∈ comparators)
    {left right : Tree (.layer (.join .sum))} (hleft : left.Read n) (hright : right.Read n)
    (test : Option Bool) : (Tree.compare op hop left right test).Read n := by
  intro used after hspelled hapart
  obtain ⟨us, vs, rfl, hus, hvs⟩ := spelled_eq_append.1 hspelled
  obtain ⟨v, vs, rfl, hv, hvs⟩ := spelled_eq_cons.1 hvs
  obtain ⟨vs, ws, rfl, hvs, hws⟩ := spelled_eq_append.1 hvs
  have hfollow : Apart 2 (spelled (ws ++ after)) := by
    rw [spelled_append, hws]
    exact apart_test test hapart
  have hcompare : Apart 2 (spelled (v :: (vs ++ ws ++ after))) := by
    rw [spelled_cons, hv]
    exact apart_comparator hop
  have hleft := hleft hus hcompare
  have hright := hright hvs hfollow
  change Parser.sum _ _ = _ at hleft hright
  change Parser.comparison _ _ = _
  rw [List.append_assoc, List.cons_append, Parser.comparison, hleft]
  dsimp only
  rw [compareOp?_eq_some_iff.2 ⟨hop, hv⟩, List.append_assoc]
  dsimp only
  rw [hright]
  exact nullTest_read _ hws hapart

protected theorem neg {operand : Tree (.layer .unary)} (hread : operand.Read n) :
    (Tree.neg operand).Read n := by
  intro used after hspelled hapart
  obtain ⟨u, us, rfl, hu, hus⟩ := spelled_eq_cons.1 hspelled
  change Parser.unary _ (u :: (us ++ after)) = _
  rw [Parser.unary, if_pos (terminal_eq_plain.1 hu).1]
  have hread := hread hus hapart
  rw [Layer.read] at hread
  rw [hread]
  rfl

protected theorem bare {operand : Tree (.layer .primary)} (hread : operand.Read n) :
    (Tree.bare operand).Read n := by
  intro used after hspelled hapart
  obtain ⟨u, us, rfl, hu⟩ := operand.first hspelled
  have hminus : u.kind ≠ .minus := by
    rintro hk
    rw [hk] at hu
    exact hu (by decide)
  change Parser.unary _ (u :: (us ++ after)) = _
  rw [Parser.unary, if_neg hminus]
  exact hread hspelled hapart

protected theorem constant (value : Literal) : (Tree.constant value).Read n := by
  intro used after hspelled hapart
  obtain ⟨u, us, rfl, hu, hus⟩ := spelled_eq_cons.1 hspelled
  obtain rfl : us = [] := List.map_eq_nil_iff.1 hus
  exact primary_constant _ hu after

protected theorem name {name : String} (hname : Keyword.ofWord? name = none) :
    (Tree.name name hname).Read n := by
  intro used after hspelled hapart
  obtain ⟨u, us, rfl, hu, hus⟩ := spelled_eq_cons.1 hspelled
  obtain rfl : us = [] := List.map_eq_nil_iff.1 hus
  change Parser.primary _ (u :: after) = _
  simp only [Parser.primary, (terminal_eq_plain.1 hu).1, hname]
  split
  · exact absurd rfl (hapart.terminal_ne (x := .plain .leftParen) (by decide) _ rfl)
  · rfl

protected theorem call {f : String} (hf : Keyword.ofWord? f = none) {arguments : Tree .arguments}
    (hread : arguments.Read n) : (Tree.call f hf arguments).Read (n + 1) := by
  intro used after hspelled _
  obtain ⟨u, us, rfl, hu, hus⟩ := spelled_eq_cons.1 hspelled
  obtain ⟨v, args, rfl, hv, hargs⟩ := spelled_eq_cons.1 hus
  obtain ⟨vs, ws, rfl, hvs, hclose⟩ := spelled_eq_append.1 hargs
  obtain ⟨w, ws, rfl, hw, hws⟩ := spelled_eq_cons.1 hclose
  obtain rfl : ws = [] := List.map_eq_nil_iff.1 hws
  obtain ⟨kind, position⟩ := v
  obtain rfl : kind = .leftParen := (terminal_eq_plain.1 hv).1
  change Parser.primary _ (u :: ⟨.leftParen, position⟩ :: (vs ++ [w] ++ after)) = _
  simp only [Parser.primary, (terminal_eq_plain.1 hu).1, hf, List.append_assoc, List.cons_append,
    List.nil_append]
  exact hread hvs hw

protected theorem parens {inner : Tree (.layer (.join .or))} (hread : inner.Read n) :
    (Tree.parens inner).Read (n + 1) := by
  intro used after hspelled _
  obtain ⟨u, closed, rfl, hu, hclosed⟩ := spelled_eq_cons.1 hspelled
  obtain ⟨us, vs, rfl, hus, hclose⟩ := spelled_eq_append.1 hclosed
  obtain ⟨v, vs, rfl, hv, hvs⟩ := spelled_eq_cons.1 hclose
  obtain rfl : vs = [] := List.map_eq_nil_iff.1 hvs
  have hclose : Apart 5 (spelled (v :: after)) := by
    rw [spelled_cons, hv]
    exact apart_cons.2 (by decide)
  have hread : expressionWithin (n + 1) (us ++ v :: after) = .ok (inner.value, v :: after) :=
    hread hus hclose
  change Parser.primary _ (u :: (us ++ [v] ++ after)) = _
  simp only [Parser.primary, (terminal_eq_plain.1 hu).1, List.append_assoc, List.cons_append,
    List.nil_append, hread, expect_of_terminal hv]
  rfl

protected theorem last {e : Tree (.layer (.join .or))} (hread : e.Read n) :
    (Tree.last e).Read n := by
  intro used hspelled
  have hread : ∀ {rest : List Token}, Apart 5 (spelled rest) →
      expressionWithin (n + 1) (used ++ rest) = .ok (e.value, rest) := hread hspelled
  refine ⟨?_, ?_⟩
  · intro close rest k hclose hk
    obtain ⟨k, rfl⟩ := exists_of_nonempty e hspelled hk
    have hapart : Apart 5 (spelled (close :: rest)) := by
      rw [spelled_cons, hclose]
      exact apart_cons.2 (by decide)
    exact groups_last (hread hapart) hclose k
  · intro more rest es gs hbefore hmore k hk
    obtain ⟨k, rfl⟩ := exists_of_nonempty e hspelled (Nat.le_trans (Nat.le_add_right _ _) hk)
    refine arguments_cons (not_by e hspelled) (hread hbefore.apart) (hmore k ?_)
    obtain ⟨u, us, rfl, -⟩ := e.first hspelled
    simp only [List.length_cons] at hk
    omega

protected theorem cons {e : Tree (.layer (.join .or))} {rest : Tree .list} (he : e.Read n)
    (hrest : rest.Read n) : (Tree.cons e rest).Read n := by
  intro used hspelled
  obtain ⟨us, vs, rfl, hus, hvs⟩ := spelled_eq_append.1 hspelled
  obtain ⟨v, vs, rfl, hv, hvs⟩ := spelled_eq_cons.1 hvs
  have hread : ∀ {more : List Token},
      expressionWithin (n + 1) (us ++ v :: more) = .ok (e.value, v :: more) :=
    he hus (by rw [spelled_cons, hv]; exact apart_cons.2 (by decide))
  obtain ⟨hgroups, harguments⟩ := hrest hvs
  refine ⟨?_, ?_⟩
  · intro close after k hclose hk
    obtain ⟨k, rfl⟩ := exists_of_nonempty e hus (Nat.le_trans (by simp) hk)
    rw [List.append_assoc]
    refine groups_cons hread hv (hgroups hclose ?_)
    simp only [List.length_append, List.length_cons] at hk
    omega
  · intro more after es gs hbefore hmore k hk
    obtain ⟨k, rfl⟩ := exists_of_nonempty e hus (Nat.le_trans (by simp; omega) hk)
    rw [List.append_assoc]
    refine arguments_cons (not_by e hus) hread ?_
    rw [afterArgument_comma hv]
    refine harguments hbefore hmore k ?_
    simp only [List.length_append, List.length_cons] at hk
    omega

protected theorem empty : Tree.empty.Read n := by
  intro used hspelled close rest function hclose
  obtain rfl : used = [] := List.map_eq_nil_iff.1 hspelled
  obtain ⟨kind, position⟩ := close
  obtain rfl : kind = .rightParen := (terminal_eq_plain.1 hclose).1
  rfl

protected theorem args {es : Tree .list} (hread : es.Read n) : (Tree.args es).Read n := by
  intro used hspelled close rest function hclose
  have hbefore : Category.list.Before (spelled (close :: rest)) := ⟨_, .inl (by
    rw [spelled_cons, hclose])⟩
  have harguments := (hread hspelled).2 hbefore (fun k _ => afterArgument_close hclose k) _
    (Nat.le_of_eq List.length_append.symm)
  rw [List.append_nil] at harguments
  exact call_of_arguments (not_close es hspelled) harguments

/-- Dimensions are read. -/
theorem arguments_of_groups {gs : Tree .list} (hread : gs.Read n) {u close : Token}
    {us rest : List Token} (hu : terminal u.kind = .word .byWord) (hus : spelled us = gs.terminals)
    (hclose : terminal close.kind = .plain .rightParen) {k : Nat}
    (hk : (us ++ close :: rest).length < k) :
    Parser.arguments (expressionWithin (n + 1)) k (u :: (us ++ close :: rest)) =
      .ok (([], gs.value), rest) := by
  obtain ⟨k, rfl⟩ := Nat.exists_eq_succ_of_ne_zero (Nat.ne_of_gt (Nat.zero_lt_of_lt hk))
  rw [List.length_append] at hk
  exact arguments_groups hu ((hread hus).1 hclose (by omega))

protected theorem groups {gs : Tree .list} (hread : gs.Read n) : (Tree.groups gs).Read n := by
  intro used hspelled close rest function hclose
  obtain ⟨u, us, rfl, hu, hus⟩ := spelled_eq_cons.1 hspelled
  refine call_of_arguments (fun t ht => ?_)
    (hread.arguments_of_groups hu hus hclose (Nat.lt_succ_self _))
  cases ht
  rw [hu]
  decide

protected theorem both {es gs : Tree .list} (hes : es.Read n) (comma : Bool) (hgs : gs.Read n) :
    (Tree.both es comma gs).Read n := by
  intro used hspelled close rest function hclose
  simp only [terminals, List.append_assoc] at hspelled
  obtain ⟨us, vs, rfl, hus, hvs⟩ := spelled_eq_append.1 hspelled
  -- Dimensions come next, after a comma if there is one.
  have hmore : ∀ k, (vs ++ close :: rest).length ≤ k →
      afterArgument (expressionWithin (n + 1)) k (vs ++ close :: rest) =
        .ok (([], gs.value), rest) := by
    intro k hk
    cases comma with
    | true =>
      obtain ⟨v, vs, rfl, hv, hvs⟩ := spelled_eq_cons.1 hvs
      obtain ⟨u, us, rfl, hu, hus⟩ := spelled_eq_cons.1 hvs
      rw [List.cons_append, afterArgument_comma hv]
      exact hgs.arguments_of_groups hu hus hclose (Nat.le_of_succ_le hk)
    | false =>
      obtain ⟨u, us, rfl, hu, hus⟩ := spelled_eq_cons.1 hvs
      rw [List.cons_append, afterArgument_groups hu]
      exact hgs.arguments_of_groups hu hus hclose hk
  have hbefore : Category.list.Before (spelled (vs ++ close :: rest)) := by
    rw [spelled_append, hvs, List.append_assoc]
    exact before_groups comma gs _
  have harguments := (hes hus).2 hbefore hmore _ (Nat.le_of_eq List.length_append.symm)
  rw [List.append_nil] at harguments
  rw [List.append_assoc]
  exact call_of_arguments (not_close es hus) harguments

end Tree.Read

/-- Every tree is read, if as many levels of parentheses may be read as it spells terminals. -/
theorem Tree.read {c : Category} (t : Tree c) {n : Nat} (h : t.terminals.length ≤ n + 1) :
    t.Read n := by
  induction t generalizing n with
  | chain first rest ihfirst ihrest =>
    simp only [terminals, List.length_append] at h
    exact Read.chain (ihfirst (by omega)) (ihrest (by omega))
  | stop => exact Read.stop
  | more op hop operand rest ihoperand ihrest =>
    simp only [terminals, List.length_cons, List.length_append] at h
    exact Read.more hop (ihoperand (by omega)) (ihrest (by omega))
  | not operand ih => exact Read.not (ih (Nat.le_of_succ_le h))
  | affirm operand ih => exact Read.affirm (ih h)
  | sum left test ih =>
    simp only [terminals, List.length_append] at h
    exact Read.sum (ih (by omega)) test
  | compare op hop left right test ihleft ihright =>
    simp only [terminals, List.length_append, List.length_cons] at h
    exact Read.compare hop (ihleft (by omega)) (ihright (by omega)) test
  | neg operand ih => exact Read.neg (ih (Nat.le_of_succ_le h))
  | bare operand ih => exact Read.bare (ih h)
  | constant value => exact Read.constant value
  | name name hname => exact Read.name hname
  | call f hf arguments ih =>
    simp only [terminals, List.length_cons, List.length_append] at h
    obtain ⟨n, rfl⟩ : ∃ m, n = m + 1 := ⟨n - 1, by omega⟩
    exact Read.call hf (ih (by omega))
  | parens inner ih =>
    simp only [terminals, List.length_cons, List.length_append] at h
    obtain ⟨n, rfl⟩ : ∃ m, n = m + 1 := ⟨n - 1, by omega⟩
    exact Read.parens (ih (by omega))
  | last e ih => exact Read.last (ih h)
  | cons e rest ihe ihrest =>
    simp only [terminals, List.length_append, List.length_cons] at h
    exact Read.cons (ihe (by omega)) (ihrest (by omega))
  | empty => exact Read.empty
  | args es ih => exact Read.args (ih h)
  | groups gs ih => exact Read.groups (ih (Nat.le_of_succ_le h))
  | both es comma gs ihes ihgs =>
    simp only [terminals, List.length_append, List.length_cons] at h
    exact Read.both (ihes (by omega)) comma (ihgs (by omega))

/-! ### Reading statements -/

theorem expression_read (t : Tree (.layer (.join .or))) {used rest : List Token}
    (h : spelled used = t.terminals) (hapart : Apart 5 (spelled rest)) :
    expression (used ++ rest) = .ok (t.value, rest) := by
  have hlength : used.length ≤ (used ++ rest).length := by simp
  obtain ⟨n, hn⟩ := exists_of_nonempty t h hlength
  rw [hn, ← length_spelled, h] at hlength
  rw [expression, hn]
  exact t.read hlength h hapart

theorem apart_default (isDefault : Bool) (xs : List Terminal) :
    Apart 5 (defaultTerminals isDefault ++ .plain .semicolon :: xs) := by
  cases isDefault <;> exact apart_cons.2 (by decide)

theorem default_read {isDefault : Bool} {used : List Token} {t : Token}
    (h : spelled used = defaultTerminals isDefault) (ht : terminal t.kind = .plain .semicolon)
    (rest : List Token) :
    (after? .defaultWord (used ++ t :: rest)).isSome = isDefault ∧
      (after? .defaultWord (used ++ t :: rest)).getD (used ++ t :: rest) = t :: rest := by
  cases isDefault with
  | true =>
    obtain ⟨u, us, rfl, hu, hus⟩ := spelled_eq_cons.1 h
    obtain rfl : us = [] := List.map_eq_nil_iff.1 hus
    rw [List.cons_append, after?_of_terminal hu]
    exact ⟨rfl, rfl⟩
  | false =>
    obtain rfl : used = [] := List.map_eq_nil_iff.1 h
    rw [List.nil_append, after?_eq_none fun u hu => by cases hu; rw [ht]; decide]
    exact ⟨rfl, rfl⟩

theorem condition_read {condition : Option (Tree (.layer (.join .or)))} {used rest : List Token}
    {t : Token} (h : spelled used = conditionTerminals condition)
    (ht : terminal t.kind = .plain .semicolon) :
    Parser.condition (used ++ t :: rest) = .ok (condition.map Tree.value, t :: rest) := by
  cases condition with
  | none =>
    obtain rfl : used = [] := List.map_eq_nil_iff.1 h
    rw [List.nil_append, Parser.condition,
      after?_eq_none fun u hu => by cases hu; rw [ht]; decide]
    rfl
  | some e =>
    obtain ⟨u, us, rfl, hu, hus⟩ := spelled_eq_cons.1 h
    have hapart : Apart 5 (spelled (t :: rest)) := by
      rw [spelled_cons, ht]
      exact apart_cons.2 (by decide)
    rw [List.cons_append, Parser.condition, after?_of_terminal hu]
    dsimp only
    rw [expression_read e hus hapart]
    rfl

theorem statement_read (tree : StatementTree) {t : Token} {used : List Token}
    (h : spelled (t :: used) = tree.terminals) (rest : List Token) :
    statement (t :: (used ++ rest)) = .ok (tree.value t.position.line, rest) := by
  cases tree with
  | binding name hname e isDefault =>
    obtain ⟨ht, hused⟩ := List.cons.inj h
    obtain ⟨u, us, rfl, hu, hus⟩ := spelled_eq_cons.1 hused
    obtain ⟨v, vs, rfl, hv, hvs⟩ := spelled_eq_cons.1 hus
    obtain ⟨ws, cs, rfl, hws, hcs⟩ := spelled_eq_append.1 hvs
    obtain ⟨es, ds, rfl, hes, hds⟩ := spelled_eq_append.1 hws
    obtain ⟨c, cs, rfl, hc, hnil⟩ := spelled_eq_cons.1 hcs
    obtain rfl : cs = [] := List.map_eq_nil_iff.1 hnil
    have hapart : Apart 5 (spelled (ds ++ c :: rest)) := by
      rw [spelled_append, hds, spelled_cons, hc]
      exact apart_default _ _
    obtain ⟨hsome, hget⟩ := default_read hds hc rest
    rw [statement, terminal_eq_word.1 ht]
    simp only [List.cons_append, List.append_assoc, List.nil_append, Parser.binding,
      (terminal_eq_plain.1 hu).1, hname, expect_of_terminal hv, expression_read e hes hapart, hsome,
      hget, expect_of_terminal hc, bind, Except.bind, pure, Except.pure]
    rfl
  | inclusion raw target hraw condition =>
    obtain ⟨ht, hused⟩ := List.cons.inj h
    obtain ⟨u, us, rfl, hu, hus⟩ := spelled_eq_cons.1 hused
    obtain ⟨es, cs, rfl, hes, hcs⟩ := spelled_eq_append.1 hus
    obtain ⟨c, cs, rfl, hc, hnil⟩ := spelled_eq_cons.1 hcs
    obtain rfl : cs = [] := List.map_eq_nil_iff.1 hnil
    rw [statement, terminal_eq_word.1 ht]
    simp only [List.cons_append, List.append_assoc, List.nil_append, Parser.inclusion,
      (terminal_eq_plain.1 hu).1, hraw, condition_read hes hc, expect_of_terminal hc, bind,
      Except.bind, pure, Except.pure]
    rfl

theorem statementsWithin_read {trees : List StatementTree} {ts : List Token}
    {ss : List Statement} (h : Derives trees ts ss) :
    ∀ n, ts.length ≤ n → statementsWithin n ts = .ok ss := by
  induction h with
  | nil =>
    intro n _
    cases n <;> rfl
  | @cons tree trees t used rest ss htree _ ih =>
    intro n hn
    cases n with
    | zero => cases hn
    | succ n =>
      simp only [List.length_cons, List.length_append] at hn
      rw [statementsWithin, statement_read tree htree rest]
      simp only [bind, Except.bind, ih n (by omega), pure, Except.pure]

theorem wholeExpression_read (t : Tree (.layer (.join .or))) {ts : List Token}
    (h : t.terminals = spelled ts) : wholeExpression ts = .ok t.value := by
  have hapart : Apart 5 (spelled []) := fun x hx => by cases hx
  have hread := expression_read t h.symm hapart
  rw [List.append_nil] at hread
  rw [wholeExpression, hread]
  rfl

/-! ### Unique statements -/

theorem StatementTree.unique {tree tree' : StatementTree} {xs xs' : List Terminal}
    (h : tree.terminals ++ xs = tree'.terminals ++ xs') : tree = tree' := by
  cases tree with
  | binding name hname e isDefault =>
    cases tree' with
    | inclusion => cases (List.cons.inj h).1
    | binding name' hname' e' isDefault' =>
      simp only [terminals, List.cons_append, List.append_assoc, List.nil_append,
        List.cons.injEq, Terminal.plain.injEq, Kind.ident.injEq, true_and] at h
      obtain ⟨rfl, h⟩ := h
      obtain ⟨rfl, hdefault⟩ := e.unique e' h (apart_default _ _) (apart_default _ _)
      cases isDefault <;> cases isDefault' <;> cases hdefault <;> rfl
  | inclusion raw target hraw condition =>
    cases tree' with
    | binding => cases (List.cons.inj h).1
    | inclusion raw' target' hraw' condition' =>
      simp only [terminals, List.cons_append, List.append_assoc, List.nil_append,
        List.cons.injEq, Terminal.plain.injEq, Kind.string.injEq, true_and] at h
      obtain ⟨rfl, h⟩ := h
      obtain rfl := Except.ok.inj (hraw.symm.trans hraw')
      cases condition with
      | none =>
        cases condition' <;> cases h
        rfl
      | some e =>
        cases condition' with
        | none => cases h
        | some e' =>
          have hapart : ∀ ys, Apart 5 (.plain .semicolon :: ys) := fun ys =>
            apart_cons.2 (by decide)
          obtain ⟨rfl, -⟩ := e.unique e' (List.cons.inj h).2 (hapart _) (hapart _)
          rfl

theorem Derives.unique {trees trees' : List StatementTree} {ts : List Token}
    {ss ss' : List Statement} (h : Derives trees ts ss) (h' : Derives trees' ts ss') :
    trees = trees' := by
  induction h generalizing trees' ss' with
  | nil =>
    cases h'
    rfl
  | @cons tree trees t used rest ss htree _ ih =>
    generalize hts : t :: (used ++ rest) = ts at h'
    cases h' with
    | nil => cases hts
    | @cons tree' trees' t' used' rest' ss' htree' hrest' =>
      obtain ⟨rfl, hrest⟩ := List.cons.inj hts
      obtain rfl : tree = tree' := by
        have hspelled : tree.terminals ++ spelled rest = tree'.terminals ++ spelled rest' := by
          rw [← htree, ← htree', ← spelled_append, ← spelled_append, List.cons_append, hts]
          rfl
        exact StatementTree.unique hspelled
      have hlength := congrArg List.length (htree.trans htree'.symm)
      rw [length_spelled, length_spelled] at hlength
      obtain ⟨rfl, rfl⟩ := List.append_inj hrest (Nat.succ.inj hlength)
      rw [ih hrest']

end Grammar

/-! ### Texts -/

/-- The places of tokens, and of their end. -/
def Tokens.places (scanned : Tokens) : List Position :=
  scanned.tokens.map Token.position ++ [scanned.stop]

/-- An answer about the tokens of a text is what there is a derivation of; there is at most one, and
if there is none, the answer is an error at one of the tokens or at their end. -/
structure Accepts {α D : Type} (derives : D → α → Prop) (path : String) (scanned : Tokens)
    (answer : Except SyntaxError α) : Prop where
  /-- What is answered is derived, and what is derived is answered. -/
  accepted : ∀ a, answer = .ok a ↔ ∃ d, derives d a
  /-- There is at most one derivation. -/
  unique : ∀ {d d' a a'}, derives d a → derives d' a' → d = d'
  /-- What is not derived is refused. -/
  refused : (¬ ∃ d a, derives d a) → ∃ error, answer = .error error ∧ error.path = path ∧
    error.position ∈ scanned.places

theorem mem_places {scanned : Tokens} {stuck : Parser.Stuck} (h : stuck.rest <:+ scanned.tokens)
    (path : String) : (stuck.toError path scanned.stop).position ∈ scanned.places := by
  rw [Tokens.places, List.mem_append, List.mem_singleton]
  unfold Parser.Stuck.toError
  cases hrest : stuck.rest with
  | nil => exact .inr rfl
  | cons t ts =>
    rw [hrest] at h
    exact .inl (List.mem_map.2 ⟨t, h.subset (List.mem_cons_self ..), rfl⟩)

/-- A reader that answers derivations, and answers all of them, accepts what is derived. -/
theorem accepts_of_cases {α D : Type} {derives : D → α → Prop} {path source : String}
    {scanned : Tokens} {reader : List Token → Except Parser.Stuck α}
    (hscan : Tokens.scan path source = .ok scanned)
    (hcases : (∃ a d, reader scanned.tokens = .ok a ∧ derives d a) ∨
      ∃ stuck : Parser.Stuck, reader scanned.tokens = .error stuck ∧
        stuck.rest <:+ scanned.tokens)
    (hread : ∀ {d a}, derives d a → reader scanned.tokens = .ok a)
    (hunique : ∀ {d d' a a'}, derives d a → derives d' a' → d = d') :
    Accepts derives path scanned (Parser.run reader path source) := by
  have hrun : Parser.run reader path source =
      (reader scanned.tokens).mapError (Parser.Stuck.toError path scanned.stop) := by
    rw [Parser.run, hscan]
    rfl
  rw [hrun]
  obtain ⟨a, d, hok, hd⟩ | ⟨stuck, herror, hs⟩ := hcases
  · rw [hok]
    refine ⟨fun b => ⟨fun h => ?_, fun ⟨d', hd'⟩ => ?_⟩, hunique, fun h => absurd ⟨d, a, hd⟩ h⟩
    · cases h
      exact ⟨d, hd⟩
    · rw [Except.ok.inj (hok.symm.trans (hread hd'))]
      rfl
  · rw [herror]
    refine ⟨fun b => ⟨fun h => ?_, fun ⟨d, hd⟩ => ?_⟩, hunique,
      fun _ => ⟨_, rfl, rfl, mem_places hs path⟩⟩
    · cases h
    · exact absurd (herror.symm.trans (hread hd)) (by simp)

/-- **Parsing accepts exactly the grammar.** Where a text has tokens, the statements of a module are
those that the grammar derives from them, each on the line of its first token, and there is but one
derivation; otherwise the answer is an error at a token or at the end. The same holds of the
expression that a text consists of. A keyword is a word in one of its two spellings. -/
theorem parse_accepts_grammar {path source : String} {scanned : Tokens}
    (h : Tokens.scan path source = .ok scanned) :
    Accepts (fun trees => Grammar.Derives trees scanned.tokens) path scanned
        (Statement.parse path source) ∧
      Accepts (fun (t : Grammar.Tree (.layer (.join .or))) e =>
        t.terminals = Grammar.spelled scanned.tokens ∧ t.value = e) path scanned
        (Expr.parse path source) ∧
      ∀ word k, Grammar.terminal (.ident word) = .word k ↔ word ∈ k.spellings := by
  refine ⟨accepts_of_cases h ?_ ?_ ?_, accepts_of_cases h ?_ ?_ ?_, fun word k => ?_⟩
  · obtain ⟨ss, trees, hok, htrees⟩ | herror := Parser.statementsWithin_cases _ scanned.tokens
    · exact .inl ⟨ss, trees, hok, htrees⟩
    · exact .inr herror
  · exact fun htrees => Grammar.statementsWithin_read htrees _ (Nat.le_refl _)
  · exact fun htrees htrees' => htrees.unique htrees'
  · obtain ⟨t, hok, ht⟩ | herror := Parser.wholeExpression_cases scanned.tokens
    · exact .inl ⟨_, t, hok, ht, rfl⟩
    · exact .inr herror
  · rintro t e ⟨ht, rfl⟩
    exact Grammar.wholeExpression_read t ht
  · rintro t t' e e' ⟨ht, -⟩ ⟨ht', -⟩
    have hterminals : t.terminals ++ [] = t'.terminals ++ [] := by rw [ht, ht']
    have hbefore : (Grammar.Category.layer (.join .or)).Before [] := fun x hx => by cases hx
    exact (t.unique t' hterminals hbefore hbefore).1
  · rw [Grammar.terminal_eq_word]
    exact Keyword.ofWord?_eq_some_iff

/-- A default with a call, and an include under a condition in lower case. -/
def visits : String :=
  "LET n := count(user BY ip) + 1 * -2 DEFAULT;\nINCLUDE \"x\" where not n is not null;"

theorem visits_accepted : ∃ scanned trees, Tokens.scan "main" visits = .ok scanned ∧
    Grammar.Derives trees scanned.tokens [
      .binding "n" (.binary .add (.call "count" [.name "user"] [.name "ip"])
        (.binary .mul (.literal (.number 1)) (.unary .neg (.literal (.number 2))))) true 1,
      .inclusion ⟨.literal "x", some (.unary .not (.isNull (.name "n") true)), 2⟩] := by
  have hparse : (Statement.parse "main" visits).toOption = some [
      .binding "n" (.binary .add (.call "count" [.name "user"] [.name "ip"])
        (.binary .mul (.literal (.number 1)) (.unary .neg (.literal (.number 2))))) true 1,
      .inclusion ⟨.literal "x", some (.unary .not (.isNull (.name "n") true)), 2⟩] := by
    decide +kernel
  have hparse := eq_ok_of_toOption hparse
  obtain ⟨scanned, hscan, -⟩ := bind_eq_ok.1 hparse
  obtain ⟨trees, htrees⟩ := ((parse_accepts_grammar hscan).1.accepted _).1 hparse
  exact ⟨scanned, trees, hscan, htrees⟩

end GatedRules
