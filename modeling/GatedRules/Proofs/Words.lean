import GatedRules.Proofs.Readers

/-!
# The words of rule source

Every name in a parsed module is a word of its source: the names that expressions mention, the
functions that they call, and the names that are bound. For they are what the derivation of the
module spells, so a property that all words of the tokens have is a property of all these names
(`Grammar.Derives.spelled_statements`); in particular they consist of letters, digits and
underscores (`spelled_of_parse`), and so do the names in include targets (`isName_of_parse`).
-/

namespace GatedRules

/-! ### Names in expressions and statements -/

namespace Expr

mutual

/-- All names and functions of an expression have a property. -/
def Spelled (p : String → Prop) : Expr → Prop
  | literal _ => True
  | name n => p n
  | unary _ e => Spelled p e
  | binary _ l r => Spelled p l ∧ Spelled p r
  | isNull e _ => Spelled p e
  | call function args groups => p function ∧ SpelledAll p args ∧ SpelledAll p groups

/-- All names and functions of several expressions have a property. -/
def SpelledAll (p : String → Prop) : List Expr → Prop
  | [] => True
  | e :: es => Spelled p e ∧ SpelledAll p es

end

mutual

theorem Spelled.mentions {p : String → Prop} : ∀ {e : Expr}, e.Spelled p → ∀ n ∈ e.mentions, p n
  | literal _, _, n, hn => by simp [Expr.mentions] at hn
  | name m, h, n, hn => by
    rw [Expr.mentions, List.mem_singleton] at hn
    exact hn ▸ h
  | unary _ e, h, n, hn => Spelled.mentions (e := e) h n (by simpa [Expr.mentions] using hn)
  | binary _ l r, h, n, hn => by
    rw [Expr.mentions, List.mem_append] at hn
    exact hn.elim (Spelled.mentions h.1 n) (Spelled.mentions h.2 n)
  | isNull e _, h, n, hn => Spelled.mentions (e := e) h n (by simpa [Expr.mentions] using hn)
  | call _ args groups, h, n, hn => by
    rw [Expr.mentions, List.mem_append] at hn
    exact hn.elim (SpelledAll.mentionsAll h.2.1 n) (SpelledAll.mentionsAll h.2.2 n)

theorem SpelledAll.mentionsAll {p : String → Prop} :
    ∀ {es : List Expr}, SpelledAll p es → ∀ n ∈ Expr.mentionsAll es, p n
  | [], _, n, hn => by simp [Expr.mentionsAll] at hn
  | e :: es, h, n, hn => by
    rw [Expr.mentionsAll, List.mem_append] at hn
    exact hn.elim (Spelled.mentions h.1 n) (SpelledAll.mentionsAll h.2 n)

end

end Expr

/-- All names and functions of a statement have a property; the names in its include target are
words of their own kind. -/
def Statement.Spelled (p : String → Prop) : Statement → Prop
  | binding name expr _ _ => p name ∧ expr.Spelled p
  | inclusion directive =>
    (∀ e, directive.condition = some e → e.Spelled p) ∧
      ∀ n ∈ directive.target.inputs, n.toList.all Template.isNameChar = true

/-! ### Include targets -/

theorem bind_eq_ok {ε α β : Type} {x : Except ε α} {f : α → Except ε β} {b : β} :
    (x >>= f) = .ok b ↔ ∃ a, x = .ok a ∧ f a = .ok b := by
  cases x with
  | error e =>
    constructor
    · intro h
      cases h
    · rintro ⟨_, h, _⟩
      cases h
  | ok a =>
    constructor
    · exact fun h => ⟨a, rfl, h⟩
    · rintro ⟨_, h, hf⟩
      cases h
      exact hf

theorem map_eq_ok {ε α β : Type} {x : Except ε α} {f : α → β} {b : β} :
    x.map f = .ok b ↔ ∃ a, x = .ok a ∧ f a = b := by
  cases x <;> simp [Except.map]

theorem eq_ok_of_toOption {ε α : Type} {x : Except ε α} {a : α} (h : x.toOption = some a) :
    x = .ok a := by
  cases x with
  | error error => cases h
  | ok b =>
    cases h
    rfl

/-- What is known of a result that is there, it has. -/
theorem exists_ok_of_map {ε α β : Type} {x : Except ε α} {f : α → β} {b : β}
    (h : x.toOption.map f = some b) : ∃ a, x = .ok a ∧ f a = b := by
  obtain ⟨a, ha, hb⟩ := Option.map_eq_some_iff.1 h
  exact ⟨a, eq_ok_of_toOption ha, hb⟩

namespace Template

/-- The names of segments consist of letters, digits and underscores. -/
def Named (segments : List Segment) : Prop :=
  ∀ n, .input n ∈ segments → n.toList.all isNameChar = true

theorem named_flush (text : List Char) : Named (flush text) := by
  intro n hn
  unfold flush at hn
  split at hn <;> simp at hn

theorem isName_of_nameOf {text : List Char} {name : String} (h : nameOf text = .ok name) :
    name.toList.all isNameChar = true := by
  unfold nameOf at h
  dsimp only at h
  split at h
  · rename_i hname
    cases h
    rw [Bool.and_eq_true] at hname
    simpa using hname.2
  · cases h

theorem Named.append {segments segments' : List Segment} (h : Named segments)
    (h' : Named segments') : Named (segments ++ segments') :=
  fun n hn => (List.mem_append.1 hn).elim (h n) (h' n)

theorem Named.cons {name : String} {segments : List Segment}
    (hn : name.toList.all isNameChar = true) (h : Named segments) :
    Named (.input name :: segments) := by
  intro n hm
  rcases List.mem_cons.1 hm with he | hm
  · cases he
    exact hn
  · exact h n hm

mutual

theorem named_of_scanLiteral {text cs : List Char} {segments : List Segment}
    (h : scanLiteral text cs = .ok segments) : Named segments := by
  unfold scanLiteral at h
  split at h
  · cases h
    exact named_flush text
  · obtain ⟨rest, hr, h⟩ := bind_eq_ok.1 h
    cases h
    exact (named_flush text).append (named_of_scanName hr)
  · exact named_of_scanLiteral h
termination_by cs.length

theorem named_of_scanName {text cs : List Char} {segments : List Segment}
    (h : scanName text cs = .ok segments) : Named segments := by
  unfold scanName at h
  split at h
  · cases h
  · obtain ⟨name, hname, h⟩ := bind_eq_ok.1 h
    obtain ⟨rest, hr, h⟩ := bind_eq_ok.1 h
    cases h
    exact (named_of_scanLiteral hr).cons (isName_of_nameOf hname)
  · exact named_of_scanName h
termination_by cs.length

end

theorem isName_of_parse {raw : String} {t : Template} (h : parse raw = .ok t) :
    ∀ n ∈ t.inputs, n.toList.all isNameChar = true := by
  have hsegments : Named t.segments := by
    unfold parse at h
    split at h
    · cases h
      intro n hn
      simp [Template.literal] at hn
    · obtain ⟨segments, hs, rfl⟩ := map_eq_ok.1 h
      exact named_of_scanLiteral hs
  intro n hn
  obtain ⟨segment, hm, hs⟩ := List.mem_filterMap.1 hn
  cases segment with
  | literal text => cases hs
  | input name =>
    obtain rfl : name = n := by simpa using hs
    exact hsegments name hm

end Template

/-! ### Derivations -/

namespace Grammar

variable {p : String → Prop}

/-- All names and functions of what a tree of a category denotes have a property. -/
def Category.Spelled (p : String → Prop) : (c : Category) → c.Value → Prop
  | layer _, e => e.Spelled p
  | tail _, f => ∀ left : Expr, left.Spelled p → (f left).Spelled p
  | list, es => Expr.SpelledAll p es
  | arguments, a => Expr.SpelledAll p a.1 ∧ Expr.SpelledAll p a.2

theorem spelled_tested {e : Expr} (h : e.Spelled p) (test : Option Bool) :
    (Tree.tested e test).Spelled p := by
  cases test <;> exact h

/-- All names of what a tree denotes are words that it spells, and none of them is a keyword. -/
theorem Tree.spelled_value {c : Category} (t : Tree c)
    (h : ∀ n, Keyword.ofWord? n = none → .plain (.ident n) ∈ t.terminals → p n) :
    c.Spelled p t.value := by
  induction t with
  | chain first rest ihfirst ihrest =>
    exact ihrest (fun n hn hm => h n hn (List.mem_append_right _ hm)) _
      (ihfirst fun n hn hm => h n hn (List.mem_append_left _ hm))
  | stop => exact fun left hleft => hleft
  | more op _ operand rest ihoperand ihrest =>
    exact fun left hleft => ihrest (fun n hn hm => h n hn (by simp [terminals, hm])) _
      ⟨hleft, ihoperand fun n hn hm => h n hn (by simp [terminals, hm])⟩
  | not operand ih => exact ih fun n hn hm => h n hn (List.mem_cons_of_mem _ hm)
  | affirm operand ih => exact ih h
  | sum left test ih =>
    exact spelled_tested (ih fun n hn hm => h n hn (List.mem_append_left _ hm)) test
  | compare op _ left right test ihleft ihright =>
    exact spelled_tested (e := .binary op _ _)
      ⟨ihleft fun n hn hm => h n hn (by simp [terminals, hm]),
        ihright fun n hn hm => h n hn (by simp [terminals, hm])⟩ test
  | neg operand ih => exact ih fun n hn hm => h n hn (List.mem_cons_of_mem _ hm)
  | bare operand ih => exact ih h
  | constant value => trivial
  | name n hname => exact h n hname (List.mem_cons_self ..)
  | call f hf arguments ih =>
    exact ⟨h f hf (List.mem_cons_self ..), ih fun n hn hm => h n hn (by simp [terminals, hm])⟩
  | parens inner ih => exact ih fun n hn hm => h n hn (by simp [terminals, hm])
  | last e ih => exact ⟨ih h, trivial⟩
  | cons e rest ihe ihrest =>
    exact ⟨ihe fun n hn hm => h n hn (List.mem_append_left _ hm),
      ihrest fun n hn hm => h n hn (by simp [terminals, hm])⟩
  | empty => exact ⟨trivial, trivial⟩
  | args es ih => exact ⟨ih h, trivial⟩
  | groups gs ih => exact ⟨trivial, ih fun n hn hm => h n hn (List.mem_cons_of_mem _ hm)⟩
  | both es comma gs ihes ihgs =>
    exact ⟨ihes fun n hn hm => h n hn (by simp [terminals, hm]),
      ihgs fun n hn hm => h n hn (by simp [terminals, hm])⟩

/-- All words of tokens have a property. -/
def Words (p : String → Prop) (ts : List Token) : Prop :=
  ∀ t ∈ ts, ∀ word, t.kind = .ident word → p word

theorem Words.of_mem_spelled {ts : List Token} (h : Words p ts) {n : String}
    (hm : .plain (.ident n) ∈ spelled ts) : p n := by
  obtain ⟨t, ht, heq⟩ := List.mem_map.1 hm
  exact h t ht n (terminal_eq_plain.1 heq).1

theorem StatementTree.spelled_value {tree : StatementTree} (line : Nat)
    (h : ∀ n, .plain (.ident n) ∈ tree.terminals → p n) : (tree.value line).Spelled p := by
  cases tree with
  | binding name hname e isDefault =>
    exact ⟨h name (by simp [terminals]),
      e.spelled_value fun n _ hm => h n (by simp [terminals, hm])⟩
  | inclusion raw target hraw condition =>
    refine ⟨fun e he => ?_, Template.isName_of_parse hraw⟩
    obtain ⟨t, rfl, rfl⟩ := Option.map_eq_some_iff.1 he
    exact t.spelled_value fun n _ hm => h n (by simp [terminals, conditionTerminals, hm])

/-- All names of the statements that tokens spell are words of the tokens. -/
theorem Derives.spelled_statements {trees : List StatementTree} {ts : List Token}
    {ss : List Statement} (hd : Derives trees ts ss) (h : Words p ts) : ∀ s ∈ ss, s.Spelled p := by
  induction hd with
  | nil =>
    intro s hs
    cases hs
  | @cons tree trees t used rest ss htree _ ih =>
    intro s hs
    rcases List.mem_cons.1 hs with rfl | hs
    · refine StatementTree.spelled_value _ fun n hm => ?_
      rw [← htree] at hm
      refine Words.of_mem_spelled (fun u hu => h u ?_) hm
      rw [← List.cons_append]
      exact List.mem_append_left _ hu
    · exact ih (fun u hu => h u (by simp [hu])) s hs

end Grammar

/-! ### Texts -/

/-- A word consists of letters, digits and underscores. -/
def IsWord (word : String) : Prop :=
  ∀ c ∈ word.toList, isWordChar c = true

theorem isWordChar_of_isWordStart {c : Char} (h : isWordStart c = true) : isWordChar c = true := by
  unfold isWordStart at h
  unfold isWordChar Char.isAlphanum
  rw [Bool.or_eq_true] at h ⊢
  exact h.imp_left fun hc => by rw [hc, Bool.true_or]

/-- A sign is no word, number or string. -/
theorem plain_of_symbol? {c : Char} {cs rest : List Char} {kind : Kind}
    (h : symbol? c cs = some (kind, rest)) :
    (∀ word, kind ≠ .ident word) ∧ (∀ x, kind ≠ .number x) ∧ ∀ text, kind ≠ .string text := by
  unfold symbol? at h
  split at h <;> cases h <;> exact ⟨nofun, nofun, nofun⟩

/-- A word starts with a letter or an underscore. -/
theorem start_of_lexeme {c : Char} {cs rest : List Char} {word : String}
    (h : lexeme c cs = .ok (.ident word, rest)) :
    ∃ ds, word.toList = c :: ds ∧ isWordStart c = true ∧ ∀ d ∈ ds, isWordChar d = true := by
  obtain ⟨hc, hword, -⟩ | ⟨-, ⟨x, -, hkind⟩, -⟩ | ⟨-, text, -, hkind⟩ | hsymbol := lexeme_cases h
  · cases hword
    exact ⟨_, String.toList_ofList, hc, List.all_eq_true.1 List.all_takeWhile⟩
  · cases hkind
  · cases hkind
  · exact absurd rfl ((plain_of_symbol? hsymbol).1 word)

theorem isWord_of_lexeme {c : Char} {cs rest : List Char} {word : String}
    (h : lexeme c cs = .ok (.ident word, rest)) : IsWord word := by
  obtain ⟨ds, hword, hc, hds⟩ := start_of_lexeme h
  intro d hd
  rw [hword] at hd
  rcases List.mem_cons.1 hd with rfl | hd
  · exact isWordChar_of_isWordStart hc
  · exact hds d hd

/-- Every token is read from the characters where it stands. -/
theorem lexeme_of_scanFrom {position stop : Position} {cs : List Char} {ts : List Token}
    (h : scanFrom position cs = .ok (ts, stop)) :
    ∀ t ∈ ts, ∃ c cs rest, lexeme c cs = .ok (t.kind, rest) := by
  fun_induction scanFrom position cs generalizing ts stop with
  | case1 =>
    cases h
    intro t ht
    cases ht
  | case2 _ _ ih => exact ih h
  | case3 _ _ _ _ _ ih => exact ih h
  | case4 _ _ _ _ ih => exact ih h
  | case5 => cases h
  | case6 =>
    rename_i hlexeme _ ih
    obtain ⟨⟨tokens, stop'⟩, hs, he⟩ := map_eq_ok.1 h
    cases he
    intro t ht
    rcases List.mem_cons.1 ht with rfl | ht
    · exact ⟨_, _, _, hlexeme⟩
    · exact ih hs t ht

theorem lexeme_of_scan {path source : String} {scanned : Tokens}
    (h : Tokens.scan path source = .ok scanned) :
    ∀ t ∈ scanned.tokens, ∃ c cs rest, lexeme c cs = .ok (t.kind, rest) := by
  unfold Tokens.scan at h
  split at h
  · rename_i hs
    cases h
    exact lexeme_of_scanFrom hs
  · cases h

/-- All names of a parsed module consist of letters, digits and underscores. -/
theorem Statement.spelled_of_parse {path source : String} {ss : List Statement}
    (h : Statement.parse path source = .ok ss) : ∀ s ∈ ss, s.Spelled IsWord := by
  unfold Statement.parse Parser.run at h
  obtain ⟨scanned, hscan, h⟩ := bind_eq_ok.1 h
  obtain ⟨read, trees, hok, htrees⟩ | ⟨stuck, herror, -⟩ :=
    Parser.statementsWithin_cases scanned.tokens.length scanned.tokens
  · rw [Parser.statements, hok] at h
    cases h
    refine htrees.spelled_statements fun t ht word hword => ?_
    obtain ⟨c, cs, rest, hlexeme⟩ := lexeme_of_scan hscan t ht
    exact isWord_of_lexeme (hword ▸ hlexeme)
  · rw [Parser.statements, herror] at h
    cases h

end GatedRules
