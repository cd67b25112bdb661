import GatedRules.Proofs.Recognition
import GatedRules.Proofs.Rescanning

/-!
# Rendering is undone by parsing

The canonical text of an expression is parsed as the expression (`parse_text`). The text decides
about parentheses by what an operand is, and the grammar by layers, so every expression is given the
layer at which its text is read (`Grammar.layerOf`): an operand in parentheses is read at every
layer, and one without is a negation or tighter. A negation is too loose for an operand of a minus
sign, of a comparison or of arithmetic, which is why it must not stand there.

What a parsed expression consists of has been read as tokens (`leaf_of_parse`). So its names are
words, and its numbers, where they are finite, are read back from their texts.

The text begins with no `=` or `>`, so it does not go on an operator before it, and an operator, a
blank, a comma or a parenthesis after it does not go on it (`Grammar.Rendered`).
-/

namespace GatedRules

namespace Expr

/-! ### Parts -/

mutual

/-- An expression and everything within it. -/
def parts : Expr → List Expr
  | literal l => [literal l]
  | name n => [name n]
  | unary op e => unary op e :: parts e
  | binary op l r => binary op l r :: (parts l ++ parts r)
  | isNull e negated => isNull e negated :: parts e
  | call f args groups => call f args groups :: (partsAll args ++ partsAll groups)

/-- Several expressions and everything within them. -/
def partsAll : List Expr → List Expr
  | [] => []
  | e :: es => parts e ++ partsAll es

end

theorem mem_parts_self (e : Expr) : e ∈ e.parts := by
  cases e <;> exact List.mem_cons_self ..

/-- The direct operands of a minus sign, of a comparison, of arithmetic and of a test for null. -/
def tightOperands : Expr → List Expr
  | unary .neg e => [e]
  | binary op l r => if op.isLogical then [] else [l, r]
  | isNull e _ => [e]
  | _ => []

/-- An expression is, its parts aside, written in a way that can be read: strings hold no line
breaks, numbers read back, names are names, and no negation is an operand of a tighter operation. -/
structure Writable (e : Expr) : Prop where
  string : ∀ s, e = literal (.string s) → '\n' ∉ s.toList
  number : ∀ x, e = literal (.number x) → Decimal.ReadsBack x
  name : ∀ n, e = name n → Grammar.Name n ∧ Keyword.ofWord? n = none
  call : ∀ f args groups, e = call f args groups → Grammar.Name f ∧ Keyword.ofWord? f = none
  tight : ∀ negated, unary .not negated ∉ e.tightOperands

/-- The terminal by which an expression is a constant, a name or a call of a function. -/
def leaf? : Expr → Option Grammar.Terminal
  | literal value => some (Grammar.constant value)
  | name n => some (.plain (.ident n))
  | call f _ _ => some (.plain (.ident f))
  | _ => none

end Expr

namespace Grammar

/-! ### Leaves -/

section

variable {q : Terminal → Prop}

/-- The leaves of expressions have a property. -/
def Leaves (q : Terminal → Prop) (es : List Expr) : Prop :=
  ∀ e ∈ es, ∀ x ∈ e.leaf?, q x

/-- The leaves of what a tree of a category denotes have a property. -/
def Category.Leaves (q : Terminal → Prop) : (c : Category) → c.Value → Prop
  | layer _, e => Grammar.Leaves q e.parts
  | tail _, f => ∀ left : Expr, Grammar.Leaves q left.parts → Grammar.Leaves q (f left).parts
  | list, es => Grammar.Leaves q (Expr.partsAll es)
  | arguments, a => Grammar.Leaves q (Expr.partsAll a.1 ++ Expr.partsAll a.2)

theorem leaves_nil : Leaves q [] :=
  fun _ he => absurd he List.not_mem_nil

theorem leaves_cons {e : Expr} {es : List Expr} (h : ∀ x ∈ e.leaf?, q x) (hes : Leaves q es) :
    Leaves q (e :: es) :=
  List.forall_mem_cons.2 ⟨h, hes⟩

theorem Leaves.append {es fs : List Expr} (hes : Leaves q es) (hfs : Leaves q fs) :
    Leaves q (es ++ fs) :=
  List.forall_mem_append.2 ⟨hes, hfs⟩

theorem leaves_tested {e : Expr} (h : Leaves q e.parts) (test : Option Bool) :
    Leaves q (Tree.tested e test).parts := by
  cases test with
  | none => exact h
  | some negated => exact leaves_cons (by simp [Expr.leaf?]) h

/-- Every leaf of what a tree denotes is a terminal that it spells. -/
theorem Tree.leaves_value {c : Category} (t : Tree c) (h : ∀ x ∈ t.terminals, q x) :
    c.Leaves q t.value := by
  induction t with
  | chain first rest ihfirst ihrest =>
    exact ihrest (fun x hx => h x (List.mem_append_right _ hx)) _
      (ihfirst fun x hx => h x (List.mem_append_left _ hx))
  | stop => exact fun left hleft => hleft
  | more op _ operand rest ihoperand ihrest =>
    refine fun left hleft => ihrest (fun x hx => h x (by simp [terminals, hx])) _ ?_
    exact leaves_cons (by simp [Expr.leaf?])
      (hleft.append (ihoperand fun x hx => h x (by simp [terminals, hx])))
  | not operand ih =>
    exact leaves_cons (by simp [Expr.leaf?]) (ih fun x hx => h x (List.mem_cons_of_mem _ hx))
  | affirm operand ih => exact ih h
  | sum left test ih => exact leaves_tested (ih fun x hx => h x (List.mem_append_left _ hx)) test
  | compare op _ left right test ihleft ihright =>
    refine leaves_tested (leaves_cons (by simp [Expr.leaf?]) (Leaves.append ?_ ?_)) test
    · exact ihleft fun x hx => h x (List.mem_append_left _ hx)
    · exact ihright fun x hx => h x (by simp [terminals, hx])
  | neg operand ih =>
    exact leaves_cons (by simp [Expr.leaf?]) (ih fun x hx => h x (List.mem_cons_of_mem _ hx))
  | bare operand ih => exact ih h
  | constant value => exact leaves_cons (by simpa [Expr.leaf?, terminals] using h) leaves_nil
  | name n _ => exact leaves_cons (by simpa [Expr.leaf?, terminals] using h) leaves_nil
  | call f _ arguments ih =>
    refine leaves_cons (fun x hx => ?_) (ih fun x hx => h x (by simp [terminals, hx]))
    cases hx
    exact h _ (List.mem_cons_self ..)
  | parens inner ih => exact ih fun x hx => h x (by simp [terminals, hx])
  | last e ih => exact (ih h).append leaves_nil
  | cons e rest ihe ihrest =>
    exact (ihe fun x hx => h x (List.mem_append_left _ hx)).append
      (ihrest fun x hx => h x (by simp [terminals, hx]))
  | empty => exact leaves_nil.append leaves_nil
  | args es ih => exact (ih h).append leaves_nil
  | groups gs ih => exact ih fun x hx => h x (List.mem_cons_of_mem _ hx)
  | both es comma gs ihes ihgs =>
    exact (ihes fun x hx => h x (by simp [terminals, hx])).append
      (ihgs fun x hx => h x (by simp [terminals, hx]))

end

/-! ### Texts of layers -/

/-- The layer at which the text of an expression is read. -/
def layerOf : Expr → Layer
  | .literal _ | .name _ | .call .. => .primary
  | .unary .neg _ => .unary
  | .unary .not _ => .negation
  | .isNull .. => .comparison
  | .binary .or _ _ => .join .or
  | .binary .and _ _ => .join .and
  | .binary .add _ _ | .binary .sub _ _ => .join .sum
  | .binary .mul _ _ | .binary .div _ _ => .join .product
  | .binary .. => .comparison

/-- A text is read at a layer as an expression, unless what comes after it goes on it. -/
structure Rendered (l : Layer) (cs : List Char) (e : Expr) : Prop where
  /-- The text does not go on an operator before it. -/
  starts : Starts Stands cs
  /-- It spells a tree of the layer which denotes the expression. -/
  tree : ∃ t : Tree (.layer l), t.value = e ∧ Writes Ends cs t.terminals

section

variable {l l' : Layer} {cs ds : List Char} {e e' : Expr}

theorem Rendered.lift (h : Rendered l cs e) (f : Tree (.layer l) → Tree (.layer l'))
    (hvalue : ∀ t, (f t).value = t.value) (hterminals : ∀ t, (f t).terminals = t.terminals) :
    Rendered l' cs e := by
  obtain ⟨t, rfl, hwrites⟩ := h.tree
  exact ⟨h.starts, f t, hvalue t, hterminals t ▸ hwrites⟩

/-- An operand by itself. -/
theorem Rendered.single {j : Join} (h : Rendered j.operand cs e) : Rendered (.join j) cs e :=
  h.lift (fun t => .chain t .stop) (fun _ => rfl) fun _ => List.append_nil _

theorem Rendered.bare (h : Rendered .primary cs e) : Rendered .unary cs e :=
  h.lift .bare (fun _ => rfl) fun _ => rfl

theorem Rendered.affirm (h : Rendered .comparison cs e) : Rendered .negation cs e :=
  h.lift .affirm (fun _ => rfl) fun _ => rfl

theorem Rendered.untested (h : Rendered (.join .sum) cs e) : Rendered .comparison cs e :=
  h.lift (fun t => .sum t none) (fun _ => rfl) fun _ => List.append_nil _

theorem Rendered.sum (h : Rendered .unary cs e) : Rendered (.join .sum) cs e :=
  Rendered.single (j := .sum) (Rendered.single (j := .product) h)

/-- What is read at any layer is an expression. -/
theorem Rendered.whole (h : Rendered l cs e) : Rendered (.join .or) cs e := by
  have hand : ∀ {cs e}, Rendered .negation cs e → Rendered (.join .or) cs e := fun h =>
    Rendered.single (j := .or) (Rendered.single (j := .and) h)
  cases l with
  | join j =>
    cases j with
    | or => exact h
    | and => exact h.single (j := .or)
    | sum => exact hand h.untested.affirm
    | product => exact hand (h.single (j := .sum)).untested.affirm
  | negation => exact hand h
  | comparison => exact hand h.affirm
  | unary => exact hand h.sum.untested.affirm
  | primary => exact hand h.bare.sum.untested.affirm

theorem Rendered.parens (h : Rendered l cs e) : Rendered .primary (Expr.parens cs) e := by
  obtain ⟨t, rfl, hwrites⟩ := h.whole.tree
  exact ⟨starts_cons ⟨by decide, by decide⟩, .parens t, rfl, hwrites.parens⟩

/-- An operand is read as a negation, -/
theorem Rendered.operand_negation (h : Rendered (layerOf e) cs e) :
    Rendered .negation (e.operand cs) e := by
  cases e with
  | literal => exact h.bare.sum.untested.affirm
  | name => exact h.bare.sum.untested.affirm
  | call => exact h.bare.sum.untested.affirm
  | unary op =>
    cases op with
    | not => exact h
    | neg => exact h.sum.untested.affirm
  | binary => exact h.parens.bare.sum.untested.affirm
  | isNull => exact h.parens.bare.sum.untested.affirm

/-- and one that is no negation is read more tightly. -/
theorem Rendered.operand_unary (h : Rendered (layerOf e) cs e)
    (hnot : ∀ negated, e ≠ .unary .not negated) : Rendered .unary (e.operand cs) e := by
  cases e with
  | literal => exact h.bare
  | name => exact h.bare
  | call => exact h.bare
  | unary op =>
    cases op with
    | not => exact absurd rfl (hnot _)
    | neg => exact h
  | binary => exact h.parens.bare
  | isNull => exact h.parens.bare

/-! ### Operations -/

theorem Rendered.not (h : Rendered .negation cs e) :
    Rendered .negation ("NOT ".toList ++ cs) (.unary .not e) := by
  have hword : Name "NOT" := ⟨'N', ['O', 'T'], rfl, rfl, by simp [isWordChar]⟩
  have hchars : "NOT ".toList = "NOT".toList ++ [' '] := rfl
  obtain ⟨t, rfl, hwrites⟩ := h.tree
  rw [hchars]
  exact ⟨(hword.starts.append _).append _, .not t, rfl,
    (writes_keyword hword).append hwrites h.starts⟩

theorem Rendered.neg (h : Rendered .unary cs e) :
    Rendered .unary ('-' :: cs) (.unary .neg e) := by
  obtain ⟨t, rfl, hwrites⟩ := h.tree
  exact ⟨starts_cons ⟨by decide, by decide⟩, .neg t, rfl,
    hwrites.sign (c := '-') .minus fun _ => rfl⟩

theorem writes_operation {op : BinaryOp} {xs ys : List Terminal} (h : Writes Ends cs xs)
    (h' : Writes Ends ds ys) (hstarts : Starts Stands ds) :
    Writes Ends (cs ++ operatorChars op ++ ds) (xs ++ operator op :: (ys ++ [])) := by
  have hwrites := (h.append (writes_operator op) (starts_operator op)).append h' hstarts
  rwa [List.append_assoc xs, List.singleton_append, ← List.append_nil ys] at hwrites

theorem Rendered.join {j : Join} {op : BinaryOp} (hop : op ∈ j.operators)
    (h : Rendered j.operand cs e) (h' : Rendered j.operand ds e') :
    Rendered (.join j) (cs ++ operatorChars op ++ ds) (.binary op e e') := by
  obtain ⟨t, rfl, hwrites⟩ := h.tree
  obtain ⟨t', rfl, hwrites'⟩ := h'.tree
  exact ⟨(h.starts.append _).append _, .chain t (.more op hop t' .stop), rfl,
    writes_operation hwrites hwrites' h'.starts⟩

theorem Rendered.compare {op : BinaryOp} (hop : op ∈ comparators) (h : Rendered (.join .sum) cs e)
    (h' : Rendered (.join .sum) ds e') :
    Rendered .comparison (cs ++ operatorChars op ++ ds) (.binary op e e') := by
  obtain ⟨t, rfl, hwrites⟩ := h.tree
  obtain ⟨t', rfl, hwrites'⟩ := h'.tree
  exact ⟨(h.starts.append _).append _, .compare op hop t t' none, rfl,
    writes_operation hwrites hwrites' h'.starts⟩

theorem Rendered.test (h : Rendered (.join .sum) cs e) (negated : Bool) :
    Rendered .comparison (cs ++ testChars negated) (.isNull e negated) := by
  obtain ⟨t, rfl, hwrites⟩ := h.tree
  exact ⟨h.starts.append _, .sum t (some negated), rfl,
    hwrites.append (writes_test negated) (starts_test negated)⟩

theorem Rendered.binary {op : BinaryOp} (h : Rendered (layerOf e) cs e)
    (h' : Rendered (layerOf e') ds e')
    (htight : ∀ negated, .unary .not negated ∉ (Expr.binary op e e').tightOperands) :
    Rendered (layerOf (.binary op e e')) (e.operand cs ++ operatorChars op ++ e'.operand ds)
      (.binary op e e') := by
  have hunary : op.isLogical = false →
      Rendered .unary (e.operand cs) e ∧ Rendered .unary (e'.operand ds) e' := fun hop => by
    simp only [Expr.tightOperands, hop, Bool.false_eq_true, if_false, List.mem_cons,
      List.not_mem_nil, or_false, not_or] at htight
    exact ⟨h.operand_unary fun negated heq => (htight negated).1 heq.symm,
      h'.operand_unary fun negated heq => (htight negated).2 heq.symm⟩
  cases op with
  | or =>
    exact .join (j := .or) (by decide) (h.operand_negation.single (j := .and))
      (h'.operand_negation.single (j := .and))
  | and => exact .join (j := .and) (by decide) h.operand_negation h'.operand_negation
  | add | sub =>
    obtain ⟨hl, hr⟩ := hunary rfl
    exact .join (j := .sum) (by decide) (hl.single (j := .product)) (hr.single (j := .product))
  | mul | div =>
    obtain ⟨hl, hr⟩ := hunary rfl
    exact .join (j := .product) (by decide) hl hr
  | _ =>
    obtain ⟨hl, hr⟩ := hunary rfl
    exact .compare (by decide) hl.sum hr.sum

/-! ### Calls -/

/-- A text is read as expressions with commas between them. -/
def Listed (cs : List Char) (es : List Expr) : Prop :=
  Starts (fun _ => True) cs ∧ ∃ t : Tree .list, t.value = es ∧ Writes Ends cs t.terminals

theorem Rendered.last (h : Rendered l cs e) : Listed cs [e] := by
  obtain ⟨t, rfl, hwrites⟩ := h.whole.tree
  exact ⟨h.starts.imp fun _ _ => trivial, .last t, rfl, hwrites⟩

theorem Rendered.cons {es : List Expr} (h : Rendered l cs e) (hrest : Listed ds es) :
    Listed (cs ++ [',', ' '] ++ ds) (e :: es) := by
  obtain ⟨t, rfl, hwrites⟩ := h.whole.tree
  obtain ⟨-, ts, rfl, hlist⟩ := hrest
  have hcomma := hlist.blank.sign (c := ',') .comma fun _ => rfl
  rw [List.append_assoc]
  exact ⟨(h.starts.append _).imp fun _ _ => trivial, .cons t ts, rfl,
    hwrites.append hcomma (starts_cons ⟨by decide, by decide⟩)⟩

/-- What stands between the parentheses of a call. -/
theorem writes_arguments {args groups : List Expr} (hargs : args ≠ [] → Listed cs args)
    (hgroups : groups ≠ [] → Listed ds groups) (hcs : args = [] → cs = []) :
    ∃ t : Tree .arguments, t.value = (args, groups) ∧
      Writes Ends (cs ++ if groups.isEmpty then []
        else (if args.isEmpty then [] else [' ']) ++ "BY ".toList ++ ds) t.terminals := by
  have hword : Name "BY" := ⟨'B', ['Y'], rfl, rfl, by simp [isWordChar]⟩
  have hchars : "BY ".toList = "BY".toList ++ [' '] := rfl
  rw [hchars]
  cases groups with
  | nil =>
    rw [List.isEmpty_nil, if_pos rfl, List.append_nil]
    cases args with
    | nil => exact ⟨.empty, rfl, hcs rfl ▸ writes_nil⟩
    | cons =>
      obtain ⟨-, t, ht, hwrites⟩ := hargs (List.cons_ne_nil _ _)
      exact ⟨.args t, by rw [Tree.value, ht], hwrites⟩
  | cons =>
    obtain ⟨hstarts, t, ht, hwrites⟩ := hgroups (List.cons_ne_nil _ _)
    have hby := (writes_keyword hword).append hwrites hstarts
    rw [List.isEmpty_cons, if_neg Bool.false_ne_true]
    cases args with
    | nil =>
      rw [hcs rfl]
      exact ⟨.groups t, by rw [Tree.value, ht], hby⟩
    | cons =>
      obtain ⟨-, ts, hts, hwrites'⟩ := hargs (List.cons_ne_nil _ _)
      refine ⟨.both ts false t, by rw [Tree.value, hts, ht], ?_⟩
      rw [List.isEmpty_cons, if_neg Bool.false_ne_true, Tree.terminals, if_neg Bool.false_ne_true,
        List.append_nil]
      exact hwrites'.append hby.blank (starts_cons ⟨by decide, by decide⟩)

theorem rendered_call {f : String} {args groups : List Expr} (hf : Name f)
    (hkeyword : Keyword.ofWord? f = none)
    (h : ∃ t : Tree .arguments, t.value = (args, groups) ∧ Writes Ends cs t.terminals) :
    Rendered .primary (f.toList ++ Expr.parens cs) (.call f args groups) := by
  obtain ⟨t, ht, hwrites⟩ := h
  have hterminal : terminal (.ident f) = .plain (.ident f) := terminal_eq_plain.2 ⟨rfl, hkeyword⟩
  refine ⟨hf.starts.append _, .call f hkeyword t, by rw [Tree.value, ht], ?_⟩
  rw [Tree.terminals, ← hterminal]
  exact (writes_word hf).append hwrites.parens (starts_cons ⟨by decide, by decide⟩)

theorem rendered_name {n : String} (hn : Name n) (hkeyword : Keyword.ofWord? n = none) :
    Rendered .primary n.toList (.name n) := by
  have hterminal : terminal (.ident n) = .plain (.ident n) := terminal_eq_plain.2 ⟨rfl, hkeyword⟩
  refine ⟨hn.starts, .name n hkeyword, rfl, ?_⟩
  rw [Tree.terminals, ← hterminal]
  exact writes_word hn

theorem rendered_literal {value : Literal} (hstring : ∀ s, value = .string s → '\n' ∉ s.toList)
    (hnumber : ∀ x, value = .number x → Decimal.ReadsBack x) :
    Rendered .primary value.chars (.literal value) := by
  refine ⟨?_, .constant value, rfl, writes_literal hstring hnumber⟩
  cases value with
  | null => exact ⟨'n', _, rfl, by decide, by decide⟩
  | bool b => cases b <;> exact ⟨_, _, rfl, by decide, by decide⟩
  | number x =>
    obtain ⟨c, cs, hcs, hc, -⟩ := exists_digit (hnumber x rfl)
    exact ⟨c, cs, hcs, stands_of_isWordChar (isWordChar_of_isDigit hc)⟩
  | string s => exact starts_cons ⟨by decide, by decide⟩

end

/-! ### Expressions -/

mutual

theorem rendered : ∀ {e : Expr}, (∀ part ∈ e.parts, part.Writable) →
    Rendered (layerOf e) (e.renderChars fun n => (id n).toList) e
  | .literal value, h => by
    have hself := h _ (Expr.mem_parts_self _)
    exact rendered_literal (fun s hs => hself.string s (hs ▸ rfl))
      fun x hx => hself.number x (hx ▸ rfl)
  | .name n, h => by
    obtain ⟨hn, hkeyword⟩ := (h _ (Expr.mem_parts_self _)).name n rfl
    exact rendered_name hn hkeyword
  | .unary .not e, h =>
    (rendered (e := e) fun part hpart => h part (List.mem_cons_of_mem _ hpart)).operand_negation.not
  | .unary .neg e, h => by
    have htight := (h _ (Expr.mem_parts_self _)).tight
    refine Rendered.neg (Rendered.operand_unary (rendered fun part hpart =>
      h part (List.mem_cons_of_mem _ hpart)) fun negated heq => htight negated ?_)
    exact heq ▸ List.mem_cons_self ..
  | .binary op l r, h => by
    refine Rendered.binary (rendered fun part hpart => h part ?_)
      (rendered fun part hpart => h part ?_) (h _ (Expr.mem_parts_self _)).tight
    · exact List.mem_cons_of_mem _ (List.mem_append_left _ hpart)
    · exact List.mem_cons_of_mem _ (List.mem_append_right _ hpart)
  | .isNull e negated, h => by
    have htight := (h _ (Expr.mem_parts_self _)).tight
    refine Rendered.test (Rendered.sum (Rendered.operand_unary (rendered fun part hpart =>
      h part (List.mem_cons_of_mem _ hpart)) fun negated heq => htight negated ?_)) negated
    exact heq ▸ List.mem_cons_self ..
  | .call f args groups, h => by
    obtain ⟨hf, hkeyword⟩ := (h _ (Expr.mem_parts_self _)).call f args groups rfl
    refine rendered_call hf hkeyword (writes_arguments
      (fun hne => listed hne fun part hpart => h part ?_)
      (fun hne => listed hne fun part hpart => h part ?_) ?_)
    · exact List.mem_cons_of_mem _ (List.mem_append_left _ hpart)
    · exact List.mem_cons_of_mem _ (List.mem_append_right _ hpart)
    · rintro rfl
      rfl

theorem listed : ∀ {es : List Expr}, es ≠ [] → (∀ part ∈ Expr.partsAll es, part.Writable) →
    Listed (Text.joined [',', ' '] (Expr.renderAll (fun n => (id n).toList) es)) es
  | [], hne, _ => absurd rfl hne
  | [_], _, h => (rendered fun part hpart => h part (List.mem_append_left _ hpart)).last
  | _ :: _ :: _, _, h =>
    (rendered fun part hpart => h part (List.mem_append_left _ hpart)).cons
      (listed (List.cons_ne_nil _ _) fun part hpart => h part (List.mem_append_right _ hpart))

end

end Grammar

namespace Expr

/-- The leaves of a parsed expression have been read as tokens. -/
theorem leaf_of_parse {path source : String} {e : Expr} (h : Expr.parse path source = .ok e) :
    ∀ part ∈ e.parts, ∀ x ∈ part.leaf?, ∃ c cs kind rest,
      lexeme c cs = .ok (kind, rest) ∧ Grammar.terminal kind = x := by
  unfold Expr.parse Parser.run at h
  obtain ⟨scanned, hscan, h⟩ := bind_eq_ok.1 h
  obtain ⟨t, hok, ht⟩ | ⟨stuck, herror, -⟩ := Parser.wholeExpression_cases scanned.tokens
  · rw [hok] at h
    cases h
    refine t.leaves_value fun x hx => ?_
    rw [ht] at hx
    obtain ⟨token, htoken, rfl⟩ := List.mem_map.1 hx
    obtain ⟨c, cs, rest, hlexeme⟩ := lexeme_of_scan hscan token htoken
    exact ⟨c, cs, _, rest, hlexeme, rfl⟩
  · rw [herror] at h
    cases h

/-- **Rendering is undone by parsing.** A line break in a string would end the string, an infinite
number has a word as its text, and a negation is looser than what it would be an operand of; every
other parsed expression is read back from its text, wherever that stands. -/
theorem parse_text {path source : String} {e : Expr} (h : Expr.parse path source = .ok e)
    (hstrings : ∀ s, literal (.string s) ∈ e.parts → '\n' ∉ s.toList)
    (hnumbers : ∀ x, literal (.number x) ∈ e.parts → x.isFinite = true)
    (hnot : ∀ part ∈ e.parts, ∀ negated, unary .not negated ∉ part.tightOperands)
    (path' : String) : Expr.parse path' e.text = .ok e := by
  have hleaf := leaf_of_parse h
  have hname : ∀ part ∈ e.parts, ∀ n, part.leaf? = some (.plain (.ident n)) →
      Grammar.Name n ∧ Keyword.ofWord? n = none := fun part hpart n hn => by
    obtain ⟨c, cs, kind, rest, hlexeme, hterminal⟩ := hleaf part hpart _ hn
    obtain ⟨rfl, hkeyword⟩ := Grammar.terminal_eq_plain.1 hterminal
    exact ⟨⟨c, start_of_lexeme hlexeme⟩, hkeyword⟩
  have hnumber : ∀ x, literal (.number x) ∈ e.parts → Decimal.ReadsBack x := fun x hx => by
    obtain ⟨c, cs, kind, rest, hlexeme, hterminal⟩ := hleaf _ hx _ rfl
    obtain ⟨rfl, -⟩ := Grammar.terminal_eq_plain.1 hterminal
    exact readsBack_of_lexeme hlexeme (hnumbers x hx)
  have hwritable : ∀ part ∈ e.parts, part.Writable := fun part hpart => by
    refine ⟨?_, ?_, ?_, ?_, hnot part hpart⟩
    · rintro s rfl
      exact hstrings s hpart
    · rintro x rfl
      exact hnumber x hpart
    · rintro n rfl
      exact hname _ hpart n rfl
    · rintro f args groups rfl
      exact hname _ hpart f rfl
  obtain ⟨t, rfl, hwrites⟩ := (Grammar.rendered hwritable).whole.tree
  obtain ⟨ts, stop, hscan, hts⟩ := hwrites.scans ⟨1, 1⟩
  have htokens : Tokens.scan path' (text t.value) = .ok ⟨ts, stop⟩ := by
    rw [Tokens.scan, text, render, String.toList_ofList, hscan]
  rw [Expr.parse, Parser.run, htokens]
  change (Parser.wholeExpression ts).mapError _ = _
  rw [Grammar.wholeExpression_read t hts.symm]
  rfl

/-- A rate with an escape, a negated comparison and a call that groups. -/
def rate : Expr :=
  .binary .and (.unary .not (.binary .gt (.name "total") (.literal (.number 0.5))))
    (.isNull (.call "count" [.literal (.string "a\"b"), .unary .neg (.name "n")] [.name "ip"]) true)

theorem parse_text_rate : ∃ source, Expr.parse "main" source = .ok rate ∧
    ∀ path, Expr.parse path rate.text = .ok rate := by
  have hparse : (Expr.parse "main"
      "not (total > 0.5) and count( \"a\\\"b\", -n, by ip) is not null").toOption = some rate := by
    decide +kernel
  refine ⟨_, eq_ok_of_toOption hparse, parse_text (eq_ok_of_toOption hparse) ?_ ?_ ?_⟩
  · intro s hs
    simp [rate, parts, partsAll] at hs
    subst hs
    decide
  · intro x hx
    simp [rate, parts, partsAll] at hx
    subst hx
    decide +kernel
  · intro part hpart negated hm
    simp only [rate, parts, partsAll, List.cons_append, List.nil_append, List.append_nil,
      List.mem_cons, List.not_mem_nil, or_false] at hpart
    rcases hpart with rfl | rfl | rfl | rfl | rfl | rfl | rfl | rfl | rfl | rfl | rfl <;>
      simp [tightOperands, BinaryOp.isLogical] at hm

end Expr

end GatedRules
