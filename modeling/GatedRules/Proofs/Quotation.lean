import GatedRules.Proofs.Lines
import GatedRules.Proofs.Rescanning

/-!
# Strings in quotation marks

A string is written with a backslash before every quotation mark and every backslash, and the
scanner takes what follows a backslash as it is. So every string is read back from its text
(`Grammar.stringBody_quoted`), with one exception: a line break is written as it is, where the
scanner has an escape for it and ends every string at the end of its line. A string with a line
break is never read back (`Literal.scan_text_string`).
-/

namespace GatedRules

/-- A string that is written with a line break is not closed on its line. -/
theorem Grammar.stringBody_quoted_broken {cs : List Char} (h : '\n' ∈ cs) (rest : List Char) :
    stringBody (cs.flatMap (fun c => if c = '"' ∨ c = '\\' then ['\\', c] else [c]) ++ rest) =
      none := by
  induction cs with
  | nil => cases h
  | cons c cs ih =>
    rw [List.flatMap_cons, List.append_assoc]
    by_cases hquoted : c = '"' ∨ c = '\\'
    · have hcs : '\n' ∈ cs := (List.mem_cons.1 h).resolve_left <| by
        rintro rfl
        exact absurd hquoted (by decide)
      rw [if_pos hquoted, List.cons_append, List.cons_append, List.nil_append, stringBody, ih hcs]
      rfl
    rw [if_neg hquoted, List.cons_append, List.nil_append]
    by_cases hline : c = '\n'
    · subst hline
      rw [stringBody]
    · rw [not_or] at hquoted
      have hcs : '\n' ∈ cs := (List.mem_cons.1 h).resolve_left fun heq => hline heq.symm
      rw [stringBody, ih hcs]
      · rfl
      · exact hquoted.1
      · exact hline
      · exact hquoted.2

namespace Literal

theorem toList_text_string (s : String) : (string s).text.toList = '"' ::
    (s.toList.flatMap (fun c => if c = '"' ∨ c = '\\' then ['\\', c] else [c]) ++ ['"']) := by
  rw [text, String.toList_ofList, chars, quoted, List.cons_append]

/-- The scanner at the text of a string: one token, unless the string has a line break. -/
theorem scanFrom_text_string (s : String) (position : Position) :
    scanFrom position (string s).text.toList =
      if '\n' ∈ s.toList then .error (position, .unterminatedString)
      else .ok ([⟨.string s, position⟩],
        ⟨position.line, position.column + (string s).text.toList.length⟩) := by
  rw [toList_text_string, scanFrom_cons (by decide) (by decide) (by decide), lexeme,
    if_neg (by decide), if_neg (by decide), if_pos rfl]
  by_cases hline : '\n' ∈ s.toList
  · rw [Grammar.stringBody_quoted_broken hline, if_pos hline]
  · rw [Grammar.stringBody_quoted hline, if_neg hline]
    dsimp only
    rw [scanFrom, String.ofList_toList]
    rfl

/-- **A string is read back from its text exactly if it has no line break.** The text is then one
token, and one expression; it is the canonical text of that expression, however names are spelt in
it, and so the name of its gate slot and what is printed for it. With a line break the text is
neither: it opens a string that is not closed. -/
theorem scan_text_string (path s : String) (spell : String → String) :
    Tokens.scan path (string s).text =
      (if '\n' ∈ s.toList then .error ⟨path, ⟨1, 1⟩, .unterminatedString⟩
      else .ok ⟨[⟨.string s, ⟨1, 1⟩⟩], ⟨1, 1 + (string s).text.length⟩⟩) ∧
    Expr.parse path (string s).text =
      (if '\n' ∈ s.toList then .error ⟨path, ⟨1, 1⟩, .unterminatedString⟩
      else .ok (.literal (.string s))) ∧
    (Expr.literal (.string s)).render spell = (string s).text := by
  have hscan : Tokens.scan path (string s).text =
      (if '\n' ∈ s.toList then .error ⟨path, ⟨1, 1⟩, .unterminatedString⟩
      else .ok ⟨[⟨.string s, ⟨1, 1⟩⟩], ⟨1, 1 + (string s).text.length⟩⟩) := by
    rw [Tokens.scan, scanFrom_text_string]
    by_cases hline : '\n' ∈ s.toList
    · rw [if_pos hline, if_pos hline]
    · rw [if_neg hline, if_neg hline, String.length_toList]
  refine ⟨hscan, ?_, rfl⟩
  rw [Expr.parse, Parser.run, hscan]
  split <;> rfl

/-- The text of a string of two lines is not read. -/
theorem two_lines_unread :
    Tokens.scan "expr" (string "a\nb").text = .error ⟨"expr", ⟨1, 1⟩, .unterminatedString⟩ ∧
    ¬ ∀ s : String, ∃ position stop,
      Tokens.scan "expr" (string s).text = .ok ⟨[⟨.string s, position⟩], stop⟩ := by
  have hscan : Tokens.scan "expr" (string "a\nb").text =
      .error ⟨"expr", ⟨1, 1⟩, .unterminatedString⟩ := by
    rw [Tokens.scan, scanFrom_text_string, if_pos (by decide)]
  refine ⟨hscan, fun h => ?_⟩
  obtain ⟨position, stop, hok⟩ := h "a\nb"
  exact absurd (hscan.symm.trans hok) nofun

end Literal

end GatedRules
