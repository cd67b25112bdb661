import GatedRules.Proofs.Lines
import GatedRules.Proofs.Recognition

/-!
# Sources one after the other

A source that can be read may be gone on with on a new line, and what follows is read as if it stood
alone. Nothing that has been begun on a line is left open at its end: a token ends before it, so
does a comment, and a string cannot go past it (`scanFrom_append`). And no statement takes more than
its semicolon, which is what its derivation says (`Grammar.Derives.statements_append`). Where the
text that follows cannot be read, the error is the one that it has by itself, further down.
-/

namespace GatedRules

/-! ### Tokens -/

/-- Characters of a kind are followed no further than to the end of the line. -/
theorem takeWhile_line {p : Char → Bool} (hp : p '\n' = false) (cs ds : List Char) :
    (cs ++ '\n' :: ds).takeWhile p = cs.takeWhile p := by
  induction cs with
  | nil => simp [hp]
  | cons c cs ih =>
    rw [List.cons_append, List.takeWhile_cons, List.takeWhile_cons, ih]

theorem dropWhile_line {p : Char → Bool} (hp : p '\n' = false) (cs ds : List Char) :
    (cs ++ '\n' :: ds).dropWhile p = cs.dropWhile p ++ '\n' :: ds := by
  induction cs with
  | nil => simp [hp]
  | cons c cs ih =>
    rw [List.cons_append, List.dropWhile_cons, List.dropWhile_cons, ih]
    split <;> rfl

/-- A string is closed where it is closed, whatever follows. -/
theorem stringBody_append {cs text rest : List Char} (h : stringBody cs = some (text, rest))
    (ds : List Char) : stringBody (cs ++ ds) = some (text, rest ++ ds) := by
  fun_induction stringBody cs generalizing text with
  | case1 => cases h
  | case2 cs =>
    cases h
    rfl
  | case3 => cases h
  | case4 => cases h
  | case5 =>
    rename_i ih
    obtain ⟨⟨text', rest'⟩, hbody, he⟩ := Option.map_eq_some_iff.1 h
    cases he
    rw [List.cons_append, List.cons_append, stringBody, ih hbody]
    rfl
  | case6 c cs hquote hline hbackslash ih =>
    obtain ⟨⟨text', rest'⟩, hbody, he⟩ := Option.map_eq_some_iff.1 h
    cases he
    rw [List.cons_append, stringBody, ih hbody]
    · rfl
    all_goals assumption

/-- No sign reaches over the end of the line. -/
theorem symbol?_line {c : Char} {cs rest : List Char} {kind : Kind}
    (h : symbol? c cs = some (kind, rest)) (ds : List Char) :
    symbol? c (cs ++ '\n' :: ds) = some (kind, rest ++ '\n' :: ds) := by
  cases cs with
  | nil =>
    unfold symbol? at h
    split at h <;> cases h <;> first | rfl | cases ‹[] = _›
  | cons d cs =>
    rw [List.cons_append]
    unfold symbol? at h ⊢
    split at h <;> cases h <;> first | rfl | (split <;> simp_all)

/-- A token ends before the end of its line. -/
theorem lexeme_line {c : Char} {cs rest : List Char} {kind : Kind}
    (h : lexeme c cs = .ok (kind, rest)) (ds : List Char) :
    lexeme c (cs ++ '\n' :: ds) = .ok (kind, rest ++ '\n' :: ds) := by
  have hword : isWordChar '\n' = false := by decide
  have hnumber : isNumberChar '\n' = false := by decide
  unfold lexeme at h ⊢
  rw [takeWhile_line hword, dropWhile_line hword, takeWhile_line hnumber, dropWhile_line hnumber]
  split at h
  · cases h
    rw [if_pos ‹_›]
  rw [if_neg ‹_›]
  split at h
  · rw [if_pos ‹_›]
    dsimp only at h ⊢
    split at h
    · cases h
      rfl
    · cases h
  rw [if_neg ‹_›]
  split at h
  · rw [if_pos ‹_›]
    split at h
    · rename_i hbody
      cases h
      rw [stringBody_append hbody]
    · cases h
  rw [if_neg ‹_›]
  split at h
  · rename_i hsymbol
    cases h
    rw [symbol?_line hsymbol]
  · cases h

/-- Text that follows on a new line is split into tokens as if it stood there by itself. -/
theorem scanFrom_append {position stop : Position} {cs : List Char} {tokens : List Token}
    (h : scanFrom position cs = .ok (tokens, stop)) (ds : List Char) :
    scanFrom position (cs ++ '\n' :: ds) =
      (scanFrom ⟨stop.line + 1, 1⟩ ds).map fun (tokens', stop') => (tokens ++ tokens', stop') := by
  fun_induction scanFrom position cs generalizing tokens stop with
  | case1 position =>
    cases h
    rw [List.nil_append, scanFrom, if_pos rfl]
    rcases scanFrom ⟨position.line + 1, 1⟩ ds with _ | ⟨_, _⟩ <;> rfl
  | case2 position cs ih =>
    rw [List.cons_append, scanFrom, if_pos rfl, ih h]
  | case3 position c cs hline hblank ih =>
    rw [List.cons_append, scanFrom, if_neg hline, if_pos hblank, ih h]
  | case4 position cs hline hblank ih =>
    have hstop : decide ('\n' ≠ '\n') = false := by decide
    rw [List.cons_append, scanFrom, if_neg hline, if_neg hblank, if_pos rfl,
      dropWhile_line hstop, ih h]
  | case5 => cases h
  | case6 position c cs hline hblank hhash kind rest hlexeme =>
    rename_i ih
    obtain ⟨⟨tokens', stop'⟩, hrest, he⟩ := map_eq_ok.1 h
    cases he
    -- The width of the token does not change.
    have hwidth : (cs ++ '\n' :: ds).length + 1 - (rest ++ '\n' :: ds).length =
        cs.length + 1 - rest.length := by
      have hle := length_of_lexeme hlexeme
      simp only [List.length_append]
      omega
    rw [List.cons_append, scanFrom_cons hline hblank hhash, lexeme_line hlexeme]
    dsimp only
    rw [hwidth, ih hrest]
    rcases scanFrom ⟨stop.line + 1, 1⟩ ds with _ | ⟨_, _⟩ <;> rfl

/-! ### Statements -/

namespace Parser

open Grammar

/-- A statement takes a token at least. -/
theorem length_of_statement {t : Token} {ts rest : List Token} {s : Statement}
    (h : statement (t :: ts) = .ok (s, rest)) : rest.length ≤ ts.length := by
  obtain ⟨used, rest', s', hx, hts, tree, htree, -⟩ | ⟨stuck, hx, -⟩ :=
    (statement_answers t ts).cases
  · rw [hx] at h
    cases h
    cases used with
    | nil => cases tree <;> cases htree
    | cons u used =>
      rw [List.cons_append, List.cons.injEq] at hts
      rw [hts.2, List.length_append]
      exact Nat.le_add_left _ _
  · rw [hx] at h
    cases h

/-- A bound that is large enough makes no difference. -/
theorem statementsWithin_eq {n : Nat} {ts : List Token} (h : ts.length ≤ n) :
    statementsWithin n ts = statements ts := by
  suffices hbound : ∀ m, ts.length ≤ m → statementsWithin n ts = statementsWithin m ts from
    hbound _ (Nat.le_refl _)
  induction n generalizing ts with
  | zero =>
    obtain rfl := List.length_eq_zero_iff.1 (Nat.le_zero.1 h)
    intro m _
    cases m <;> rfl
  | succ n ih =>
    intro m hm
    cases ts with
    | nil => cases m <;> rfl
    | cons t ts =>
      cases m with
      | zero => cases hm
      | succ m =>
        rw [statementsWithin, statementsWithin]
        rcases hs : statement (t :: ts) with stuck | ⟨s, rest⟩
        · rfl
        have hrest := length_of_statement hs
        dsimp only [bind, Except.bind]
        rw [ih (Nat.le_trans hrest (Nat.le_of_succ_le_succ h)) m
          (Nat.le_trans hrest (Nat.le_of_succ_le_succ hm))]

end Parser

/-- The statements of some tokens are read whatever follows, and then what follows is read. -/
theorem Grammar.Derives.statements_append {trees : List StatementTree} {ts : List Token}
    {ss : List Statement} (h : Derives trees ts ss) (us : List Token) :
    Parser.statements (ts ++ us) = (Parser.statements us).map (ss ++ ·) := by
  induction h with
  | nil =>
    rw [List.nil_append]
    cases Parser.statements us <;> rfl
  | @cons tree trees t used rest ss htree _ ih =>
    have hlength : (rest ++ us).length ≤ (used ++ (rest ++ us)).length := by simp
    rw [List.cons_append, List.append_assoc, Parser.statements, List.length_cons,
      Parser.statementsWithin, statement_read tree htree]
    dsimp only [bind, Except.bind]
    rw [Parser.statementsWithin_eq hlength, ih]
    cases Parser.statements us <;> rfl

/-! ### Sources -/

/-- Both sources are split into the tokens of the first one and those of the second one further
down. -/
theorem Tokens.scan_append {path first : String} {scanned : Tokens}
    (h : Tokens.scan path first = .ok scanned) (second : String) :
    Tokens.scan path (first ++ "\n" ++ second) =
      match Tokens.scan path second with
      | .ok following => .ok ⟨scanned.tokens ++ following.tokens.map (Token.down scanned.stop.line),
          following.stop.down scanned.stop.line⟩
      | .error error => .error (error.down scanned.stop.line) := by
  have hchars : (first ++ "\n" ++ second).toList = first.toList ++ '\n' :: second.toList := by
    simp
  have hstart : (⟨scanned.stop.line + 1, 1⟩ : Position) =
      Position.down scanned.stop.line ⟨1, 1⟩ := by
    simp [Position.down, Nat.add_comm]
  obtain ⟨tokens, stop, hscan, rfl⟩ : ∃ tokens stop,
      scanFrom ⟨1, 1⟩ first.toList = .ok (tokens, stop) ∧ ⟨tokens, stop⟩ = scanned := by
    unfold scan at h
    split at h
    · exact ⟨_, _, ‹_›, Except.ok.inj h⟩
    · cases h
  rw [scan, hchars, scanFrom_append hscan, hstart, scanFrom_down, scan]
  rcases scanFrom ⟨1, 1⟩ second.toList with ⟨_, _⟩ | ⟨_, _⟩ <;> rfl

/-- An error is at the same token further down. -/
theorem Parser.Stuck.toError_down (path : String) (stop : Position) (k : Nat) (stuck : Stuck) :
    (stuck.down k).toError path (stop.down k) = (stuck.toError path stop).down k := by
  obtain ⟨_ | ⟨t, rest⟩, fault⟩ := stuck <;> rfl

/-- **Parsing is compositional.** A source that can be read may be gone on with on a new line. The
statements of both are those of the first source and those of the second, further down by as many
lines as the first one ends on. If the second one cannot be read, the error is the same, further
down by as many lines. -/
theorem Statement.parse_append {path first : String} {ss : List Statement}
    (h : Statement.parse path first = .ok ss) (second : String) :
    ∃ scanned, Tokens.scan path first = .ok scanned ∧
      Statement.parse path (first ++ "\n" ++ second) =
        match Statement.parse path second with
        | .ok ss' => .ok (ss ++ ss'.map (Statement.down scanned.stop.line))
        | .error error => .error (error.down scanned.stop.line) := by
  obtain ⟨scanned, hscan, hread⟩ := bind_eq_ok.1 h
  refine ⟨scanned, hscan, ?_⟩
  obtain ⟨trees, htrees⟩ : ∃ trees, Grammar.Derives trees scanned.tokens ss := by
    obtain ⟨ss', trees, hok, htrees⟩ | ⟨stuck, herror, -⟩ :=
      Parser.statementsWithin_cases scanned.tokens.length scanned.tokens
    · rw [Parser.statements, hok] at hread
      exact ⟨trees, Except.ok.inj hread ▸ htrees⟩
    · rw [Parser.statements, herror] at hread
      cases hread
  rw [Statement.parse, Statement.parse, Parser.run, Parser.run, Tokens.scan_append hscan]
  rcases Tokens.scan path second with error | following
  · rfl
  dsimp only [bind, Except.bind]
  rw [htrees.statements_append, Parser.statements_down]
  rcases Parser.statements following.tokens with stuck | ss'
  · exact congrArg Except.error (Parser.Stuck.toError_down ..)
  · rfl

/-- A module with two lines, the last of which ends in a comment. -/
def upperHalf : String :=
  "LET A := \"x\";\nINCLUDE \"m\" WHERE A = 1; # the rest"

/-- What follows is read on line three. -/
theorem upperHalf_goes_on : ∃ a b, Statement.parse "main" upperHalf = .ok a ∧
    Statement.parse "main" "LET B := A;" = .ok b ∧
    Statement.parse "main" (upperHalf ++ "\n" ++ "LET B := A;") =
      .ok (a ++ b.map (Statement.down 2)) ∧
    b.map (Statement.down 2) = [.binding "B" (.name "A") false 3] ∧
    Statement.parse "main" (upperHalf ++ "\n" ++ "LET B A;") =
      .error ⟨"main", ⟨3, 7⟩, .unexpected .assign (some (.ident "A"))⟩ := by
  have hfirst : (Statement.parse "main" upperHalf).toOption.isSome = true := by decide +kernel
  obtain ⟨a, ha⟩ := Option.isSome_iff_exists.1 hfirst
  have hparse := eq_ok_of_toOption ha
  have hsecond : Statement.parse "main" "LET B := A;" = .ok [.binding "B" (.name "A") false 1] :=
    eq_ok_of_toOption (by decide +kernel)
  have hfault : Statement.parse "main" "LET B A;" =
      .error ⟨"main", ⟨1, 7⟩, .unexpected .assign (some (.ident "A"))⟩ := by
    have heval : (match Statement.parse "main" "LET B A;" with
        | .ok _ => none
        | .error error => some error) =
          some ⟨"main", ⟨1, 7⟩, .unexpected .assign (some (.ident "A"))⟩ := by
      decide +kernel
    split at heval
    · cases heval
    · rename_i herror
      rw [herror, Option.some.inj heval]
  have hstop : (Tokens.scan "main" upperHalf).toOption.map (fun t => t.stop.line) = some 2 := by
    decide +kernel
  obtain ⟨scanned, hscan, hline⟩ := exists_ok_of_map hstop
  obtain ⟨scanned', hscan', hgood⟩ := Statement.parse_append hparse "LET B := A;"
  obtain ⟨scanned'', hscan'', hbad⟩ := Statement.parse_append hparse "LET B A;"
  obtain rfl := Except.ok.inj (hscan.symm.trans hscan')
  obtain rfl := Except.ok.inj (hscan.symm.trans hscan'')
  rw [hsecond, hline] at hgood
  rw [hfault, hline] at hbad
  exact ⟨a, _, hparse, hsecond, hgood, rfl, hbad⟩

end GatedRules
