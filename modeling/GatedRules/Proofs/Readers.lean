import GatedRules.Proofs.Grammar

/-!
# Readers follow the grammar

Whatever a reader of rule source answers is derived by the grammar: the tokens that it has used
spell a tree, and its answer is what the tree denotes; and where it is stuck, it is stuck at one of
its tokens or at their end. This is one statement about a reader (`Parser.Answers`), which is proved
for every reader from those of the readers that it calls.
-/

namespace GatedRules

namespace Grammar

/-! ### Statements -/

/-- Derivations of statements. -/
inductive StatementTree
  /-- A binding. -/
  | binding (name : String) (h : Keyword.ofWord? name = none) (expr : Tree (.layer (.join .or)))
    (isDefault : Bool)
  /-- An include. -/
  | inclusion (raw : String) (target : Template) (h : Template.parse raw = .ok target)
    (condition : Option (Tree (.layer (.join .or))))

/-- What marks a default. -/
def defaultTerminals (isDefault : Bool) : List Terminal :=
  if isDefault then [.word .defaultWord] else []

/-- What the derivation of a condition spells. -/
def conditionTerminals : Option (Tree (.layer (.join .or))) → List Terminal
  | none => []
  | some e => .word .whereWord :: e.terminals

/-- What the derivation of a statement spells. -/
def StatementTree.terminals : StatementTree → List Terminal
  | binding name _ expr isDefault =>
    .word .letWord :: .plain (.ident name) :: .plain .assign ::
      (expr.terminals ++ defaultTerminals isDefault ++ [.plain .semicolon])
  | inclusion raw _ _ condition =>
    .word .includeWord :: .plain (.string raw) ::
      (conditionTerminals condition ++ [.plain .semicolon])

/-- The statement that a derivation denotes, on the line where it starts. -/
def StatementTree.value (line : Nat) : StatementTree → Statement
  | binding name _ expr isDefault => .binding name expr.value isDefault line
  | inclusion _ target _ condition => .inclusion ⟨target, condition.map Tree.value, line⟩

/-- Tokens spell statements, one after the other, each of which is on the line of its first token.
-/
inductive Derives : List StatementTree → List Token → List Statement → Prop
  /-- There are no tokens and no statements. -/
  | nil : Derives [] [] []
  /-- The first tokens spell the first statement. -/
  | cons {tree : StatementTree} {trees : List StatementTree} {t : Token} {used rest : List Token}
    {ss : List Statement} :
    spelled (t :: used) = tree.terminals → Derives trees rest ss →
    Derives (tree :: trees) (t :: (used ++ rest)) (tree.value t.position.line :: ss)

/-! ### Operators -/

/-- The operator that a token is, if it is one of a way to join. -/
def Join.op? : Join → Kind → Option BinaryOp
  | or => Parser.orOp?
  | and => Parser.andOp?
  | sum => Parser.sumOp?
  | product => Parser.productOp?

/-- An operator that is a keyword. -/
theorem joinWord_eq_some_iff {k : Keyword} {kind : Kind} {op op' : BinaryOp}
    (h : operator op' = .word k) :
    (if kind.keyword? = some k then some op' else none) = some op ↔
      op ∈ [op'] ∧ terminal kind = operator op := by
  rw [Option.ite_none_right_eq_some, List.mem_singleton, Option.some.injEq, ← terminal_eq_word]
  constructor
  · rintro ⟨hk, rfl⟩
    exact ⟨rfl, hk.trans h.symm⟩
  · rintro ⟨rfl, hk⟩
    exact ⟨hk.trans h, rfl⟩

theorem Join.op?_eq_some_iff {j : Join} {kind : Kind} {op : BinaryOp} :
    j.op? kind = some op ↔ op ∈ j.operators ∧ terminal kind = operator op := by
  cases j with
  | or => exact joinWord_eq_some_iff rfl
  | and => exact joinWord_eq_some_iff rfl
  | sum =>
    constructor
    · intro h
      cases kind <;> cases h <;> exact ⟨by decide, rfl⟩
    · rintro ⟨h, heq⟩
      simp only [operators, List.mem_cons, List.not_mem_nil, or_false] at h
      rcases h with rfl | rfl <;> obtain ⟨rfl, -⟩ := terminal_eq_plain.1 heq <;> rfl
  | product =>
    constructor
    · intro h
      cases kind <;> cases h <;> exact ⟨by decide, rfl⟩
    · rintro ⟨h, heq⟩
      simp only [operators, List.mem_cons, List.not_mem_nil, or_false] at h
      rcases h with rfl | rfl <;> obtain ⟨rfl, -⟩ := terminal_eq_plain.1 heq <;> rfl

theorem compareOp?_eq_some_iff {kind : Kind} {op : BinaryOp} :
    Parser.compareOp? kind = some op ↔ op ∈ comparators ∧ terminal kind = operator op := by
  constructor
  · intro h
    unfold Parser.compareOp? at h
    split at h <;> cases h <;> exact ⟨by decide, rfl⟩
  · rintro ⟨h, heq⟩
    simp only [comparators, List.mem_cons, List.not_mem_nil, or_false] at h
    rcases h with rfl | rfl | rfl | rfl | rfl | rfl <;>
      obtain ⟨rfl, -⟩ := terminal_eq_plain.1 heq <;> rfl

end Grammar

namespace Parser

open Grammar

/-! ### Answers -/

/-- A reader of tokens answers with something that stands in a relation to what the tokens that it
has used spell, or it is stuck within the tokens. -/
inductive Answers {α : Type} (Q : List Terminal → α → Prop) (ts : List Token) : Parsed α → Prop
  /-- The reader has used the first tokens. -/
  | ok (used : List Token) {rest : List Token} {a : α} :
    ts = used ++ rest → Q (spelled used) a → Answers Q ts (.ok (a, rest))
  /-- The reader is stuck. -/
  | stuck {stuck : Stuck} : stuck.rest <:+ ts → Answers Q ts (.error stuck)

/-- Terminals are those of a tree that denotes a value. -/
def Derived (c : Category) (xs : List Terminal) (v : c.Value) : Prop :=
  ∃ t : Tree c, t.terminals = xs ∧ t.value = v

variable {α β : Type} {Q R : List Terminal → α → Prop} {ts : List Token}

/-- After some tokens have been used, a reader of the others answers. -/
theorem Answers.after (used : List Token) {rest : List Token} {x : Parsed α} (h : Answers Q rest x)
    (hQ : ∀ xs a, Q xs a → R (spelled used ++ xs) a) : Answers R (used ++ rest) x := by
  cases h with
  | @ok used' rest' a hts hq =>
    refine .ok (used ++ used') (by rw [hts, List.append_assoc]) ?_
    rw [spelled, List.map_append]
    exact hQ _ _ hq
  | stuck hs => exact .stuck (hs.trans (List.suffix_append _ _))

/-- After one token has been used, a reader of the others answers. -/
theorem Answers.after_one {t : Token} {x : Parsed α} (h : Answers Q ts x)
    (hQ : ∀ xs a, Q xs a → R (terminal t.kind :: xs) a) : Answers R (t :: ts) x :=
  h.after [t] hQ

theorem Answers.imp {x : Parsed α} (h : Answers Q ts x) (hQ : ∀ xs a, Q xs a → R xs a) :
    Answers R ts x :=
  h.after [] hQ

theorem Answers.cases {x : Parsed α} (h : Answers Q ts x) :
    (∃ used rest a, x = .ok (a, rest) ∧ ts = used ++ rest ∧ Q (spelled used) a) ∨
      ∃ stuck : Stuck, x = .error stuck ∧ stuck.rest <:+ ts := by
  cases h with
  | ok _ hts hq => exact .inl ⟨_, _, _, rfl, hts, hq⟩
  | stuck hs => exact .inr ⟨_, rfl, hs⟩

theorem answers_unexpected {wanted : Wanted} : Answers Q ts (unexpected wanted ts) :=
  .stuck (List.suffix_refl ts)

theorem after?_eq_some {k : Keyword} {rest : List Token} (h : after? k ts = some rest) :
    ∃ t, ts = t :: rest ∧ terminal t.kind = .word k := by
  unfold after? at h
  split at h
  · cases h
  · split at h
    · cases h
      exact ⟨_, rfl, terminal_eq_word.2 ‹_›⟩
    · cases h

/-- A token that is expected is there, or its lack is where the reader is stuck. -/
theorem expect_cases (kind : Kind) (wanted : Wanted) (ts : List Token) :
    (∃ t rest, expect kind wanted ts = .ok rest ∧ ts = t :: rest ∧ t.kind = kind) ∨
      ∃ stuck : Stuck, expect kind wanted ts = .error stuck ∧ stuck.rest <:+ ts := by
  cases ts with
  | nil => exact .inr ⟨_, rfl, List.suffix_refl _⟩
  | cons t ts =>
    rw [expect]
    split
    · exact .inl ⟨t, ts, rfl, rfl, ‹_›⟩
    · exact .inr ⟨_, rfl, List.suffix_refl _⟩

/-! ### Readers of expressions -/

/-- Whatever a reader answers is derived by the grammar. -/
def Sound (c : Category) (reader : List Token → Parsed c.Value) : Prop :=
  ∀ ts, Answers (Derived c) ts (reader ts)

/-- The closing parenthesis after terminals. -/
def Closed (Q : List Terminal → α → Prop) (xs : List Terminal) (a : α) : Prop :=
  ∃ ys, xs = ys ++ [.plain .rightParen] ∧ Q ys a

section

variable {sub operand : List Token → Parsed Expr} {j : Join}

theorem chain_answers (ho : Sound (.layer j.operand) operand) (n : Nat) (left : Expr)
    (ts : List Token) :
    Answers (fun xs e => ∃ t : Tree (.tail j), t.terminals = xs ∧ t.value left = e) ts
      (chain j.op? operand n left ts) := by
  induction n generalizing left ts with
  | zero => exact .ok [] rfl ⟨.stop, rfl, rfl⟩
  | succ n ih =>
    cases ts with
    | nil => exact .ok [] rfl ⟨.stop, rfl, rfl⟩
    | cons t ts =>
      rw [chain]
      split
      · exact .ok [] rfl ⟨.stop, rfl, rfl⟩
      · rename_i op hop
        obtain ⟨hmem, hterminal⟩ := Join.op?_eq_some_iff.1 hop
        obtain ⟨used, rest, _, hx, rfl, operand', hoperand, rfl⟩ | ⟨_, hx, hs⟩ := (ho ts).cases
        · rw [hx]
          exact (ih _ _).after (t :: used) fun xs e ⟨rest, hrest, he⟩ =>
            ⟨.more op hmem operand' rest,
              by rw [Tree.terminals, ← hterminal, hoperand, hrest, spelled_cons, List.cons_append],
              he⟩
        · rw [hx]
          exact .stuck (hs.trans (List.suffix_cons t ts))

theorem level_sound (ho : Sound (.layer j.operand) operand) :
    Sound (.layer (.join j)) (level j.op? operand) := by
  intro ts
  unfold level
  obtain ⟨used, rest, _, hx, rfl, first, hfirst, rfl⟩ | ⟨_, hx, hs⟩ := (ho ts).cases
  · rw [hx]
    exact (chain_answers ho _ _ _).after _ fun xs e ⟨rest, hrest, he⟩ =>
      ⟨.chain first rest, by rw [Tree.terminals, hfirst, hrest], he⟩
  · rw [hx]
    exact .stuck hs

/-- An expression and the closing parenthesis after it. -/
theorem closed_answers {Q : List Terminal → α → Prop} {wanted : Wanted} {used rest : List Token}
    {a : α} (hq : Q (spelled used) a) :
    Answers (Closed Q) (used ++ rest)
      (match expect .rightParen wanted rest with
        | .error stuck => .error stuck
        | .ok rest => .ok (a, rest)) := by
  obtain ⟨t, rest, hx, rfl, ht⟩ | ⟨_, hx, hs⟩ := expect_cases .rightParen wanted rest
  · rw [hx]
    refine .ok (used ++ [t]) (by rw [List.append_assoc]; rfl) ⟨_, ?_, hq⟩
    rw [spelled_append, spelled_cons, ht]
    rfl
  · rw [hx]
    exact .stuck (hs.trans (List.suffix_append _ _))

theorem groups_answers (hs : Sound (.layer (.join .or)) sub) (n : Nat) (ts : List Token) :
    Answers (Closed (Derived .list)) ts (groups sub n ts) := by
  induction n generalizing ts with
  | zero => exact answers_unexpected
  | succ n ih =>
    rw [groups]
    obtain ⟨used, rest, _, hx, rfl, e, he, rfl⟩ | ⟨_, hx, hs⟩ := (hs ts).cases
    · rw [hx]
      split
      · cases ‹_ = _›
      · rename_i position rest heq
        cases heq
        obtain ⟨used', rest', _, hx', rfl, _, hclosed, es, rfl, rfl⟩ | ⟨_, hx', hs'⟩ :=
          (ih rest).cases
        · rw [hx']
          refine .ok (used ++ ⟨.comma, position⟩ :: used') (by simp)
            ⟨_, ?_, .cons e es, rfl, rfl⟩
          rw [spelled_append, spelled_cons, hclosed, ← he, Tree.terminals, List.append_assoc]
          rfl
        · rw [hx']
          exact .stuck (hs'.trans ((List.suffix_cons _ _).trans (List.suffix_append _ _)))
      · rename_i heq
        cases heq
        exact closed_answers ⟨.last e, he, rfl⟩
    · rw [hx]
      exact .stuck hs

/-- Terminals are those of arguments or dimensions, of which there is at least one. -/
def Given (xs : List Terminal) (a : List Expr × List Expr) : Prop :=
  ∃ t : Tree .arguments, t ≠ .empty ∧ t.terminals = xs ∧ t.value = a

theorem Given.cons (e : Tree (.layer (.join .or))) {xs : List Terminal}
    {a : List Expr × List Expr} (h : Given xs a) :
    Given (e.terminals ++ .plain .comma :: xs) (e.value :: a.1, a.2) := by
  obtain ⟨t, hne, rfl, rfl⟩ := h
  cases t with
  | empty => exact absurd rfl hne
  | args es => exact ⟨.args (.cons e es), by simp, rfl, rfl⟩
  | groups gs => exact ⟨.both (.last e) true gs, by simp, by simp [Tree.terminals], rfl⟩
  | both es comma gs =>
    exact ⟨.both (.cons e es) comma gs, by simp, by simp [Tree.terminals], rfl⟩

/-- After `BY`, dimensions are read. -/
theorem dimensions_answers (hs : Sound (.layer (.join .or)) sub) (n : Nat) {ts rest : List Token}
    (h : after? .byWord ts = some rest) :
    Answers (Closed fun xs a => ∃ gs : Tree .list, .word .byWord :: gs.terminals = xs ∧
      ([], gs.value) = a) ts (arguments sub n ts) := by
  cases n with
  | zero => exact answers_unexpected
  | succ n =>
    obtain ⟨t, rfl, ht⟩ := after?_eq_some h
    rw [arguments, h]
    dsimp only
    obtain ⟨used, rest, _, hx, rfl, _, hclosed, gs, rfl, rfl⟩ | ⟨_, hx, hs⟩ :=
      (groups_answers hs n rest).cases
    · rw [hx]
      refine .ok (t :: used) rfl ⟨_, ?_, gs, rfl, rfl⟩
      rw [spelled_cons, ht, hclosed]
      rfl
    · rw [hx]
      exact .stuck (hs.trans (List.suffix_cons _ _))

theorem arguments_answers (hs : Sound (.layer (.join .or)) sub) (n : Nat) (ts : List Token) :
    Answers (Closed Given) ts (arguments sub n ts) := by
  induction n generalizing ts with
  | zero => exact answers_unexpected
  | succ n ih =>
    cases hby : after? .byWord ts with
    | some rest =>
      refine (dimensions_answers hs _ hby).imp ?_
      rintro xs a ⟨ys, rfl, gs, rfl, rfl⟩
      exact ⟨_, rfl, .groups gs, by simp, rfl, rfl⟩
    | none =>
      rw [arguments, hby]
      dsimp only
      obtain ⟨used, rest, _, hx, rfl, e, he, rfl⟩ | ⟨_, hx, hs⟩ := (hs ts).cases
      · rw [hx]
        split
        · cases ‹_ = _›
        · rename_i position rest heq
          cases heq
          refine .ok (used ++ [⟨.rightParen, position⟩]) (by simp)
            ⟨_, ?_, .args (.last e), by simp, he, rfl⟩
          rw [spelled_append]
          rfl
        · rename_i heq
          cases heq
          split
          · rename_i stuck hnext
            split at hnext
            · cases hnext
            · obtain ⟨_, _, hx', _⟩ | ⟨_, hx', hs'⟩ := expect_cases .comma .commaOrClose rest
              · rw [hx'] at hnext
                cases hnext
              · rw [hx'] at hnext
                cases hnext
                exact .stuck (hs'.trans (List.suffix_append _ _))
          · rename_i rest' hnext
            split at hnext
            · -- Without a comma, only dimensions may come next.
              cases hnext
              obtain ⟨rest', hby'⟩ := Option.isSome_iff_exists.1 ‹_›
              obtain ⟨used', rest', _, hx', rfl, _, hclosed, gs, rfl, rfl⟩ | ⟨_, hx', hs'⟩ :=
                (dimensions_answers hs n hby').cases
              · rw [hx']
                refine .ok (used ++ used') (by simp)
                  ⟨_, ?_, .both (.last e) false gs, by simp, rfl, rfl⟩
                rw [spelled_append, hclosed, ← he]
                simp [Tree.terminals]
              · rw [hx']
                exact .stuck (hs'.trans (List.suffix_append _ _))
            · obtain ⟨t, _, hx', rfl, ht⟩ | ⟨_, hx', _⟩ := expect_cases .comma .commaOrClose rest
              · rw [hx'] at hnext
                cases hnext
                obtain ⟨used', rest', _, hx', rfl, _, hclosed, hgiven⟩ | ⟨_, hx', hs'⟩ :=
                  (ih rest').cases
                · rw [hx']
                  refine .ok (used ++ t :: used') (by simp) ⟨_, ?_, hgiven.cons e⟩
                  rw [spelled_append, spelled_cons, hclosed, ← he, ht, List.append_assoc]
                  rfl
                · rw [hx']
                  exact .stuck (hs'.trans ((List.suffix_cons _ _).trans (List.suffix_append _ _)))
              · rw [hx'] at hnext
                cases hnext
      · rw [hx]
        exact .stuck hs

theorem call_answers (hs : Sound (.layer (.join .or)) sub) (function : String) (ts : List Token) :
    Answers (Closed fun xs e => ∃ t : Tree .arguments, t.terminals = xs ∧
      Expr.call function t.value.1 t.value.2 = e) ts (call sub function ts) := by
  unfold call
  split
  · rename_i position rest
    exact .ok [⟨.rightParen, position⟩] rfl ⟨_, rfl, .empty, rfl, rfl⟩
  · obtain ⟨used, rest, _, hx, rfl, _, hclosed, t, -, rfl, rfl⟩ | ⟨_, hx, hs⟩ :=
      (arguments_answers hs ts.length ts).cases
    · rw [hx]
      exact .ok _ rfl ⟨_, hclosed, t, rfl, rfl⟩
    · rw [hx]
      exact .stuck hs

theorem primary_sound (hs : Sound (.layer (.join .or)) sub) :
    Sound (.layer .primary) (primary sub) := by
  intro ts
  unfold primary
  split
  · exact answers_unexpected
  rename_i t ts
  -- A constant is a single token.
  have hconstant : ∀ value, Grammar.constant value = terminal t.kind →
      Answers (Derived (.layer .primary)) (t :: ts) (.ok (.literal value, ts)) := by
    intro value hvalue
    exact .ok [t] rfl ⟨.constant value, by rw [Tree.terminals, hvalue]; rfl, rfl⟩
  split
  · rename_i x hkind
    exact hconstant (.number x) (by rw [hkind]; rfl)
  · rename_i s hkind
    exact hconstant (.string s) (by rw [hkind]; rfl)
  · rename_i hkind
    obtain ⟨used, rest, _, hx, rfl, e, he, rfl⟩ | ⟨_, hx, hs⟩ := (hs ts).cases
    · rw [hx]
      refine (closed_answers (Q := Derived (.layer (.join .or))) ⟨e, he, rfl⟩).after_one ?_
      rintro xs _ ⟨_, rfl, inner, rfl, rfl⟩
      exact ⟨.parens inner, by rw [Tree.terminals, hkind]; rfl, rfl⟩
    · rw [hx]
      exact .stuck (hs.trans (List.suffix_cons _ _))
  · rename_i word hkind
    have hterminal : ∀ k, Keyword.ofWord? word = some k → terminal t.kind = .word k := by
      intro k hk
      rw [hkind]
      exact terminal_eq_word.2 hk
    split
    · exact hconstant .null (hterminal _ ‹_›).symm
    · exact hconstant (.bool true) (hterminal _ ‹_›).symm
    · exact hconstant (.bool false) (hterminal _ ‹_›).symm
    · exact answers_unexpected
    · rename_i hword
      have hname : terminal t.kind = .plain (.ident word) := by
        rw [hkind]
        exact terminal_eq_plain.2 ⟨rfl, hword⟩
      split
      · rename_i position rest
        refine ((call_answers hs word rest).after_one (t := ⟨.leftParen, position⟩)
          (R := fun xs e => ∃ t : Tree (.layer .primary),
            t.terminals = .plain (.ident word) :: xs ∧ t.value = e) ?_).after_one ?_
        · rintro xs e ⟨_, rfl, arguments, rfl, rfl⟩
          exact ⟨.call word hword arguments, rfl, rfl⟩
        · rintro xs e ⟨t, ht, he⟩
          exact ⟨t, by rw [ht, hname], he⟩
      · refine .ok [t] rfl ⟨.name word hword, ?_, rfl⟩
        rw [spelled_cons, hname]
        rfl
  · exact answers_unexpected

theorem unary_sound (hs : Sound (.layer (.join .or)) sub) : Sound (.layer .unary) (unary sub) := by
  intro ts
  have hbare : ∀ ts, Answers (Derived (.layer .unary)) ts (primary sub ts) := fun ts =>
    (primary_sound hs ts).imp fun xs e ⟨t, ht, he⟩ => ⟨.bare t, ht, he⟩
  induction ts with
  | nil => exact hbare []
  | cons t ts ih =>
    rw [unary]
    split
    · rename_i hminus
      obtain ⟨used, rest, _, hx, rfl, e, he, rfl⟩ | ⟨_, hx, hs⟩ := ih.cases
      · rw [hx]
        refine .ok (t :: used) rfl ⟨.neg e, ?_, rfl⟩
        rw [Tree.terminals, he, spelled_cons, hminus]
        rfl
      · rw [hx]
        exact .stuck (hs.trans (List.suffix_cons _ _))
    · exact hbare (t :: ts)

theorem sum_sound (hs : Sound (.layer (.join .or)) sub) : Sound (.layer (.join .sum)) (sum sub) :=
  level_sound (j := .sum) (level_sound (j := .product) (unary_sound hs))

/-- A test for null may come after something that has been read. -/
theorem nullTest_answers (e : Expr) (ts : List Token) :
    Answers (fun xs e' => ∃ test, testTerminals test = xs ∧ Tree.tested e test = e') ts
      (nullTest e ts) := by
  unfold nullTest
  split
  · exact .ok [] rfl ⟨none, rfl, rfl⟩
  · rename_i rest his
    obtain ⟨t, rfl, ht⟩ := after?_eq_some his
    dsimp only
    split
    · refine .stuck (List.IsSuffix.trans ?_ (List.suffix_cons t rest))
      cases hnot : after? .notWord rest with
      | none => exact List.suffix_refl _
      | some rest' =>
        obtain ⟨u, rfl, -⟩ := after?_eq_some hnot
        exact List.suffix_cons _ _
    · rename_i rest' hnull
      obtain ⟨v, hv, hv'⟩ := after?_eq_some hnull
      cases hnot : after? .notWord rest with
      | none =>
        rw [hnot] at hv
        obtain rfl : rest = v :: rest' := hv
        refine .ok [t, v] rfl ⟨some false, ?_, rfl⟩
        rw [spelled_cons, spelled_cons, ht, hv']
        rfl
      | some rest'' =>
        rw [hnot] at hv
        obtain rfl : rest'' = v :: rest' := hv
        obtain ⟨u, rfl, hu⟩ := after?_eq_some hnot
        refine .ok [t, u, v] rfl ⟨some true, ?_, rfl⟩
        rw [spelled_cons, spelled_cons, spelled_cons, ht, hu, hv']
        rfl

theorem comparison_sound (hs : Sound (.layer (.join .or)) sub) :
    Sound (.layer .comparison) (comparison sub) := by
  intro ts
  unfold comparison
  have hsum : ∀ (left : Tree (.layer (.join .sum))) {used : List Token} (rest : List Token),
      left.terminals = spelled used →
      Answers (Derived (.layer .comparison)) (used ++ rest) (nullTest left.value rest) := by
    intro left used rest hleft
    refine (nullTest_answers left.value rest).after _ ?_
    rintro xs _ ⟨test, rfl, rfl⟩
    exact ⟨.sum left test, by rw [Tree.terminals, hleft], rfl⟩
  obtain ⟨used, rest, _, hx, rfl, left, hleft, rfl⟩ | ⟨_, hx, hs'⟩ := (sum_sound hs ts).cases
  · rw [hx]
    cases rest with
    | nil => exact hsum left [] hleft
    | cons t rest =>
      dsimp only
      split
      · exact hsum left (t :: rest) hleft
      · rename_i op hop
        obtain ⟨hmem, hterminal⟩ := compareOp?_eq_some_iff.1 hop
        obtain ⟨used', rest, _, hx', rfl, right, hright, rfl⟩ | ⟨_, hx', hs''⟩ :=
          (sum_sound hs rest).cases
        · rw [hx']
          have hnull := (nullTest_answers (.binary op left.value right.value) rest).after
            (used ++ t :: used') (R := Derived (.layer .comparison)) ?_
          · rw [List.append_assoc] at hnull
            exact hnull
          rintro xs _ ⟨test, rfl, rfl⟩
          refine ⟨.compare op hmem left right test, ?_, rfl⟩
          rw [Tree.terminals, hleft, hright, ← hterminal, spelled_append, spelled_cons,
            List.append_assoc]
          rfl
        · rw [hx']
          exact .stuck (hs''.trans ((List.suffix_cons _ _).trans (List.suffix_append _ _)))
  · rw [hx]
    exact .stuck hs'

theorem negation_sound (hs : Sound (.layer (.join .or)) sub) :
    Sound (.layer .negation) (negation sub) := by
  intro ts
  have haffirm : ∀ ts, Answers (Derived (.layer .negation)) ts (comparison sub ts) := fun ts =>
    (comparison_sound hs ts).imp fun xs e ⟨t, ht, he⟩ => ⟨.affirm t, ht, he⟩
  induction ts with
  | nil => exact haffirm []
  | cons t ts ih =>
    rw [negation]
    split
    · rename_i hnot
      obtain ⟨used, rest, _, hx, rfl, e, he, rfl⟩ | ⟨_, hx, hs⟩ := ih.cases
      · rw [hx]
        refine .ok (t :: used) rfl ⟨.not e, ?_, rfl⟩
        rw [Tree.terminals, he, spelled_cons, terminal_eq_word.2 hnot]
      · rw [hx]
        exact .stuck (hs.trans (List.suffix_cons _ _))
    · exact haffirm (t :: ts)

theorem alternatives_sound (hs : Sound (.layer (.join .or)) sub) :
    Sound (.layer (.join .or)) (alternatives sub) :=
  level_sound (j := .or) (level_sound (j := .and) (negation_sound hs))

end

theorem expressionWithin_sound (n : Nat) : Sound (.layer (.join .or)) (expressionWithin n) := by
  induction n with
  | zero => exact fun ts => answers_unexpected
  | succ n ih => exact alternatives_sound ih

theorem expression_sound : Sound (.layer (.join .or)) expression :=
  fun ts => expressionWithin_sound ts.length ts

/-! ### Readers of statements -/

/-- Terminals after a keyword are those of a statement that starts on a line. -/
def Follows (k : Keyword) (line : Nat) (xs : List Terminal) (s : Statement) : Prop :=
  ∃ tree : StatementTree, tree.terminals = .word k :: xs ∧ tree.value line = s

/-- The mark of a default, if it comes next. -/
theorem default_cases (ts : List Token) : ∃ used rest, ts = used ++ rest ∧
    spelled used = defaultTerminals (after? .defaultWord ts).isSome ∧
    (after? .defaultWord ts).getD ts = rest := by
  cases h : after? .defaultWord ts with
  | none => exact ⟨[], ts, rfl, rfl, rfl⟩
  | some rest =>
    obtain ⟨t, rfl, ht⟩ := after?_eq_some h
    exact ⟨[t], rest, rfl, by rw [spelled_cons, ht]; rfl, rfl⟩

theorem binding_answers (line : Nat) (ts : List Token) :
    Answers (Follows .letWord line) ts (binding line ts) := by
  unfold binding
  split
  · exact answers_unexpected
  rename_i t ts
  split
  · rename_i name hkind
    split
    · exact answers_unexpected
    rename_i hname
    have hname : Keyword.ofWord? name = none := by simpa using hname
    have hterminal : terminal t.kind = .plain (.ident name) := by
      rw [hkind]
      exact terminal_eq_plain.2 ⟨rfl, hname⟩
    obtain ⟨u, rest, hx, rfl, hu⟩ | ⟨_, hx, hs⟩ := expect_cases .assign .assign ts
    · rw [hx]
      obtain ⟨used, rest, _, hx, rfl, e, he, rfl⟩ | ⟨_, hx, hs⟩ := (expression_sound rest).cases
      · obtain ⟨mark, rest, rfl, hmark, hget⟩ := default_cases rest
        simp only [bind, Except.bind, hx, hget]
        obtain ⟨v, rest, hx, rfl, hv⟩ | ⟨_, hx, hs⟩ := expect_cases .semicolon .semicolon rest
        · rw [hx]
          refine .ok (t :: u :: (used ++ mark ++ [v])) (by simp)
            ⟨.binding name hname e _, ?_, rfl⟩
          simp only [spelled_cons, spelled_append, hterminal, hu, hv, hmark, ← he]
          rfl
        · rw [hx]
          exact .stuck (hs.trans ⟨t :: u :: (used ++ mark), by simp⟩)
      · simp only [bind, Except.bind, hx]
        exact .stuck (hs.trans ((List.suffix_cons _ _).trans (List.suffix_cons _ _)))
    · rw [hx]
      exact .stuck (hs.trans (List.suffix_cons _ _))
  · exact answers_unexpected

theorem condition_answers (ts : List Token) :
    Answers (fun xs c => ∃ e, conditionTerminals e = xs ∧ e.map Tree.value = c) ts
      (condition ts) := by
  unfold condition
  split
  · exact .ok [] rfl ⟨none, rfl, rfl⟩
  · rename_i rest hwhere
    obtain ⟨t, rfl, ht⟩ := after?_eq_some hwhere
    obtain ⟨used, rest, _, hx, rfl, e, he, rfl⟩ | ⟨_, hx, hs⟩ := (expression_sound rest).cases
    · rw [hx]
      refine .ok (t :: used) rfl ⟨some e, ?_, rfl⟩
      rw [spelled_cons, ht, ← he]
      rfl
    · rw [hx]
      exact .stuck (hs.trans (List.suffix_cons _ _))

theorem inclusion_answers (line : Nat) (ts : List Token) :
    Answers (Follows .includeWord line) ts (inclusion line ts) := by
  unfold inclusion
  split
  · exact answers_unexpected
  rename_i t ts
  split
  · rename_i raw hkind
    split
    · exact .stuck (List.suffix_refl _)
    rename_i target htarget
    have hterminal : terminal t.kind = .plain (.string raw) := by
      rw [hkind]
      rfl
    obtain ⟨used, rest, _, hx, rfl, c, hc, rfl⟩ | ⟨_, hx, hs⟩ := (condition_answers ts).cases
    · simp only [bind, Except.bind, hx]
      obtain ⟨v, rest, hx, rfl, hv⟩ | ⟨_, hx, hs⟩ := expect_cases .semicolon .semicolon rest
      · rw [hx]
        refine .ok (t :: (used ++ [v])) (by simp) ⟨.inclusion raw target htarget c, ?_, rfl⟩
        simp only [spelled_cons, spelled_append, hterminal, hv, ← hc]
        rfl
      · rw [hx]
        exact .stuck (hs.trans ⟨t :: used, by simp⟩)
    · rw [hx]
      exact .stuck (hs.trans (List.suffix_cons _ _))
  · exact answers_unexpected

theorem statement_answers (t : Token) (ts : List Token) :
    Answers (fun xs s => ∃ tree : StatementTree, tree.terminals = xs ∧
      tree.value t.position.line = s) (t :: ts) (statement (t :: ts)) := by
  rw [statement]
  split
  · rename_i hk
    exact (binding_answers _ ts).after_one fun xs s ⟨tree, ht, hs⟩ =>
      ⟨tree, by rw [ht, terminal_eq_word.2 hk], hs⟩
  · rename_i hk
    exact (inclusion_answers _ ts).after_one fun xs s ⟨tree, ht, hs⟩ =>
      ⟨tree, by rw [ht, terminal_eq_word.2 hk], hs⟩
  · exact answers_unexpected

/-- The statements that are read are derived from the tokens, or the reader is stuck within them. -/
theorem statementsWithin_cases (n : Nat) (ts : List Token) :
    (∃ ss trees, statementsWithin n ts = .ok ss ∧ Derives trees ts ss) ∨
      ∃ stuck : Stuck, statementsWithin n ts = .error stuck ∧ stuck.rest <:+ ts := by
  induction n generalizing ts with
  | zero =>
    cases ts with
    | nil => exact .inl ⟨[], [], rfl, .nil⟩
    | cons t ts => exact .inr ⟨_, rfl, List.suffix_refl _⟩
  | succ n ih =>
    cases ts with
    | nil => exact .inl ⟨[], [], rfl, .nil⟩
    | cons t ts =>
      rw [statementsWithin]
      obtain ⟨used, rest, _, hx, hts, tree, htree, rfl⟩ | ⟨stuck, hx, hs⟩ :=
        (statement_answers t ts).cases
      · obtain ⟨u, used, rfl⟩ : ∃ u used', used = u :: used' := by
          cases used with
          | nil => cases tree <;> cases htree
          | cons u used => exact ⟨u, used, rfl⟩
        cases hts
        rw [hx]
        obtain ⟨ss, trees, hx', htrees⟩ | ⟨stuck, hx', hs⟩ := ih rest
        · exact .inl ⟨_, _, by simp only [bind, Except.bind, hx']; rfl, .cons htree.symm htrees⟩
        · exact .inr ⟨stuck, by simp only [bind, Except.bind, hx'],
            hs.trans ((List.suffix_append used rest).trans (List.suffix_cons t _))⟩
      · rw [hx]
        exact .inr ⟨stuck, rfl, hs⟩

/-- The expression that is read is derived from the tokens, or the reader is stuck within them. -/
theorem wholeExpression_cases (ts : List Token) :
    (∃ t : Tree (.layer (.join .or)), wholeExpression ts = .ok t.value ∧
      t.terminals = spelled ts) ∨
      ∃ stuck : Stuck, wholeExpression ts = .error stuck ∧ stuck.rest <:+ ts := by
  unfold wholeExpression
  obtain ⟨used, rest, _, hx, rfl, e, he, rfl⟩ | ⟨stuck, hx, hs⟩ := (expression_sound ts).cases
  · rw [hx]
    cases rest with
    | nil => exact .inl ⟨e, rfl, by rw [he, List.append_nil]⟩
    | cons t rest => exact .inr ⟨_, rfl, List.suffix_append _ _⟩
  · rw [hx]
    exact .inr ⟨stuck, rfl, hs⟩

end Parser

end GatedRules
