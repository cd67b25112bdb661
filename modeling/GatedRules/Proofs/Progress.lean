import GatedRules.Proofs.Simulation

/-!
# The parser makes progress

Wherever a procedure of the parser is called, it ends, in one way only, and the cursor does not
leave the tokens and their end (`Procedure.Completes`). If it returns, the cursor has moved on; only
the loops over operators and over statements may return where they were called, when there is
nothing further to read.

`parser_ends` says so of every list of tokens that a source is split into, well-formed or not. There
the loop over statements goes round at most as often as there are tokens, and what it comes to is
what `Statement.parse` gives.
-/

namespace GatedRules

namespace Cursor

open Grammar GatedRules.Parser

variable {ts : Tokens} {sub : List Token → Parsed Expr}

/-! ### Progress -/

/-- A procedure may return where it was called: a loop that finds no further operator, or no further
statement. -/
def Procedure.mayStay : Procedure → Bool
  | module _ | more _ _ => true
  | _ => false

theorem sound_layer (hs : Sound (.layer (.join .or)) sub) (l : Layer) :
    Sound (.layer l) (l.read sub) := by
  have hnegation := negation_sound hs
  cases l with
  | join j =>
    cases j with
    | or => exact alternatives_sound hs
    | and => exact level_sound (j := .and) hnegation
    | sum => exact sum_sound hs
    | product => exact level_sound (j := .product) (unary_sound hs)
  | negation => exact hnegation
  | comparison => exact comparison_sound hs
  | unary => exact unary_sound hs
  | primary => exact primary_sound hs

/-- What is read up to a closing parenthesis takes a token at least. -/
theorem length_lt_of_closed {α : Type} {Q : List Terminal → α → Prop} {us rest : List Token} {a : α}
    {x : Parsed α} (h : Answers (Closed Q) us x) (hx : x = .ok (a, rest)) :
    rest.length < us.length := by
  obtain ⟨used, rest', _, hx', rfl, ys, hys, -⟩ | ⟨stuck, hx', -⟩ := h.cases
  · cases hx.symm.trans hx'
    have hlength := congrArg List.length hys
    rw [length_spelled, List.length_append, List.length_singleton] at hlength
    rw [List.length_append]
    omega
  · cases hx.symm.trans hx'

/-- A procedure that has moved on takes a token at least. -/
theorem length_lt_of_read {p : Procedure} (hp : p.mayStay = false) {us rest : List Token}
    {a : p.Result} (h : p.read us = .ok (a, rest)) : rest.length < us.length := by
  have hs := expressionWithin_sound us.length
  cases p with
  | module | more => cases hp
  | whole =>
    obtain ⟨e, he, hrest⟩ := map_eq_ok.1 h
    cases hrest
    cases us with
    | nil => cases he
    | cons t us => exact Nat.succ_pos _
  | statement =>
    cases us with
    | nil => cases h
    | cons t us => exact Nat.lt_succ_of_le (length_of_statement h)
  | expression => exact length_lt_of_sound expression_sound h
  | layer l => exact length_lt_of_sound (sound_layer hs l) h
  | call f => exact length_lt_of_closed (call_answers hs f us) h
  | arguments f args =>
    obtain ⟨_, hx, hrest⟩ := map_eq_ok.1 h
    cases hrest
    exact length_lt_of_closed (arguments_answers hs us.length us) hx
  | groups f args dimensions =>
    obtain ⟨_, hx, hrest⟩ := map_eq_ok.1 h
    cases hrest
    exact length_lt_of_closed (groups_answers hs us.length us) hx

/-- No procedure leaves more tokens than there were. -/
theorem length_le_of_read {p : Procedure} {us rest : List Token} {a : p.Result}
    (h : p.read us = .ok (a, rest)) : rest.length ≤ us.length := by
  cases hp : p.mayStay with
  | false => exact Nat.le_of_lt (length_lt_of_read hp h)
  | true =>
    cases p with
    | module read =>
      obtain ⟨ss, -, hrest⟩ := map_eq_ok.1 h
      cases hrest
      exact Nat.zero_le _
    | more j left =>
      have hs := sound_layer (expressionWithin_sound us.length) j.operand
      obtain ⟨used, rest', _, hx, hus, -⟩ | ⟨stuck, hx, -⟩ :=
        (chain_answers hs us.length left us).cases
      · cases hx.symm.trans h
        rw [hus, List.length_append]
        exact Nat.le_add_left _ _
      · cases hx.symm.trans h
    | _ => cases hp

/-- How the body of a procedure ends when it is called with the cursor at a place, and what is noted
of it. -/
structure Procedure.Completes (ts : Tokens) (p : Procedure) (pos : Nat) (log : List Event)
    (out : Outcome p.Result) : Prop where
  /-- It ends so. -/
  ends : Ends ts p.body pos log out
  /-- It ends in no other way. -/
  unique : ∀ log' out', Ends ts p.body pos log' out' → log' = log ∧ out' = out
  /-- It reads what its reader does. -/
  reads : out = outcome ts (p.read (ts.tokens.drop pos))
  /-- Wherever it looks or calls, there is a token or the end, so the cursor never has to be held
  back. -/
  inRange : ∀ e ∈ log, e.pos < ts.items.length
  /-- It returns at the end at most, and has moved on. -/
  progress : ∀ a pos', out = .returned a pos' →
    pos' ≤ ts.last ∧ pos ≤ pos' ∧ (p.mayStay = false → pos < pos')
  /-- It reads at most as many statements as there are tokens. -/
  statements : log.countP Event.isStatement ≤ ts.last - pos

/-- **Every procedure completes**, wherever it is called. -/
theorem completes (ts : Tokens) (p : Procedure) {pos : Nat} (hpos : pos ≤ ts.last) :
    ∃ log out, p.Completes ts pos log out := by
  let us := ts.tokens.drop pos
  have hus : us <:+ ts.tokens := List.drop_suffix pos ts.tokens
  have hlength : us.length = ts.last - pos := List.length_drop
  obtain ⟨log, hends, hlog, hcount⟩ := endsWithin_read p hus
  rw [Tokens.place_drop hpos] at hends
  refine ⟨log, _, hends, fun log' out' h => hends.unique h, rfl, ?_, ?_, hlength ▸ hcount⟩
  · intro e he
    rw [Tokens.length_items]
    exact Nat.lt_succ_of_le (hlog e he)
  · intro a pos' hout
    have hle : us.length ≤ ts.tokens.length := hus.length_le
    have hplace : ts.place us = pos := Tokens.place_drop hpos
    rcases hread : p.read us with stuck | ⟨b, rest⟩
    · rw [hread] at hout
      cases hout
    · rw [hread] at hout
      cases hout
      have hrest := length_le_of_read hread
      rw [← hplace, Tokens.place, Tokens.place]
      refine ⟨Nat.sub_le _ _, by omega, fun hp => ?_⟩
      have hlt := length_lt_of_read hp hread
      omega

/-! ### Sources -/

/-- What a program makes of a source. -/
def Outcome.answer {α : Type} (path : String) : Outcome α → Except SyntaxError α
  | returned a _ => .ok a
  | failed fault position => .error ⟨path, position, fault⟩

/-- Running a reader on a source that can be split into tokens. -/
theorem run_eq_answer {α : Type} {path source : String} (h : Tokens.scan path source = .ok ts)
    (reader : List Token → Except Stuck α) : Parser.run reader path source =
      (outcome ts ((reader ts.tokens).map fun a => (a, []))).answer path := by
  rw [Parser.run, h]
  simp only [bind, Except.bind]
  rcases reader ts.tokens with stuck | a
  · obtain ⟨rest, fault⟩ := stuck
    cases rest <;> rfl
  · rfl

end Cursor

open Cursor in
/-- **The parser ends.** Let a source be split into tokens, whatever they are. Wherever among them,
or at their end, a procedure of the parser is called, it ends, in one way, and looks only at what is
there. If it returns, then at the end at most, and having moved on, the loops over operators and
over statements apart. So a module is read in at most as many statements as there are tokens, and
what the source is read as is what is found so. -/
theorem parser_ends {path source : String} {ts : Tokens} (h : Tokens.scan path source = .ok ts) :
    (∀ (p : Procedure) (pos : Nat), pos ≤ ts.last → ∃ log out, p.Completes ts pos log out) ∧
    (∃ log out, (Procedure.module []).Completes ts 0 log out ∧
      Statement.parse path source = out.answer path ∧
      log.countP Event.isStatement ≤ ts.tokens.length) ∧
    ∃ log out, Procedure.whole.Completes ts 0 log out ∧
      Expr.parse path source = out.answer path := by
  refine ⟨fun p pos hpos => completes ts p hpos, ?_, ?_⟩
  · obtain ⟨log, out, hmodule⟩ := completes ts (.module []) (Nat.zero_le _)
    refine ⟨log, out, hmodule, ?_, hmodule.statements⟩
    rw [hmodule.reads]
    exact run_eq_answer h Parser.statements
  · obtain ⟨log, out, hwhole⟩ := completes ts .whole (Nat.zero_le _)
    refine ⟨log, out, hwhole, ?_⟩
    rw [hwhole.reads]
    exact run_eq_answer h Parser.wholeExpression

open Cursor in
/-- A source that breaks off among the dimensions of a call is given up at its end. -/
theorem unfinished_call_ends : ∃ ts, Tokens.scan "main" "LET a := f(b BY" = .ok ts ∧ ts.last = 7 ∧
    (∃ log out, (Procedure.groups "f" [.name "b"] []).Completes ts 7 log out) ∧
    ∃ log out, (Procedure.module []).Completes ts 0 log out ∧ log.countP Event.isStatement ≤ 7 ∧
      out.answer "main" = .error ⟨"main", ⟨1, 16⟩, .unexpected .expression none⟩ := by
  have hscan : (Tokens.scan "main" "LET a := f(b BY").toOption.map (·.tokens.length) = some 7 := by
    decide +kernel
  have hparse : (match Statement.parse "main" "LET a := f(b BY" with
      | .error error => some error
      | .ok _ => none) = some ⟨"main", ⟨1, 16⟩, .unexpected .expression none⟩ := by
    decide +kernel
  obtain ⟨ts, hts, hlast⟩ := Option.map_eq_some_iff.1 hscan
  have hts := eq_ok_of_toOption hts
  obtain ⟨hall, ⟨log, out, hmodule, hanswer, hcount⟩, -⟩ := parser_ends hts
  refine ⟨ts, hts, hlast, hall _ 7 (Nat.le_of_eq hlast.symm), log, out, hmodule, hlast ▸ hcount, ?_⟩
  rw [← hanswer]
  split at hparse
  · rename_i herror
    rw [herror, Option.some.inj hparse]
  · cases hparse

end GatedRules
