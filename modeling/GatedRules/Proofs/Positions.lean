import GatedRules.Proofs.Lines
import GatedRules.Proofs.Rescanning

/-!
# Places of tokens

Where a token stands in a text can be said without keeping count: its line is one more than there
are line breaks before it, and its column is one more than there are characters between the last of
these and it (`Position.after`). `Cuts` takes a text apart into tokens and what stands between them,
and keeps the text before every token instead of a position; it says nothing about lines and
columns.

The scanner finds just these tokens, and its positions are the places (`scanFrom_cuts`), as long as
no token holds a line break. The scanner counts a line break that is escaped in a string as two
columns, so what comes after it is not where the scanner says (`escaped_break_moves_what_follows`).
The invariant is that the line is right at every step, and the column too, except behind a comment,
where nothing but the end of the line can come (`Position.At`).
-/

namespace GatedRules

/-! ### Places -/

namespace Position

/-- The place right after a text. -/
def after (cs : List Char) : Position :=
  ⟨1 + cs.count '\n', 1 + (cs.reverse.takeWhile (· ≠ '\n')).length⟩

theorem after_line (cs : List Char) : after (cs ++ ['\n']) = ⟨(after cs).line + 1, 1⟩ := by
  simp [after, Nat.add_assoc]

/-- A text without line breaks moves the place to the right. -/
theorem after_append {cs ds : List Char} (h : '\n' ∉ ds) :
    after (cs ++ ds) = ⟨(after cs).line, (after cs).column + ds.length⟩ := by
  have hds : ∀ c ∈ ds.reverse, decide (c ≠ '\n') = true := fun c hc =>
    decide_eq_true fun heq => h (heq ▸ List.mem_reverse.1 hc)
  rw [after, List.count_append, List.count_eq_zero.2 h, List.reverse_append,
    List.takeWhile_append_of_pos hds, List.length_append, List.length_reverse]
  simp only [after, mk.injEq]
  omega

/-- The scanner stands after a text and before another one: on the right line, and in the right
column unless nothing more can come on this line. -/
structure At (position : Position) (before rest : List Char) : Prop where
  line : position.line = (after before).line
  column : (∀ c ∈ rest.head?, c = '\n') ∨ position.column = (after before).column

variable {position : Position} {before rest ds : List Char} {c : Char}

theorem at_start (cs : List Char) : At ⟨1, 1⟩ [] cs :=
  ⟨rfl, .inr rfl⟩

/-- Before anything but a line break, the scanner is at the place. -/
theorem At.eq_after (h : At position before (c :: rest)) (hc : c ≠ '\n') :
    position = after before := by
  have hcolumn := h.column.resolve_left fun hline => hc (hline c rfl)
  cases position
  exact congr_arg₂ Position.mk h.line hcolumn

theorem At.newline (h : At position before ('\n' :: rest)) :
    At ⟨position.line + 1, 1⟩ (before ++ ['\n']) rest := by
  rw [h.line]
  exact ⟨by rw [after_line], .inr (by rw [after_line])⟩

/-- After further characters without line breaks, the scanner is as many columns further. -/
theorem At.further (h : At position before (c :: ds)) (hc : '\n' ∉ c :: ds) (rest : List Char) :
    At ⟨position.line, position.column + (c :: ds).length⟩ (before ++ c :: ds) rest := by
  obtain rfl := h.eq_after fun heq => hc (heq ▸ List.mem_cons_self)
  exact ⟨by rw [after_append hc], .inr (by rw [after_append hc])⟩

/-- A comment goes to the end of the line. -/
theorem At.comment (h : At position before (c :: rest)) (hds : '\n' ∉ ds)
    {rest' : List Char} (hrest : ∀ d ∈ rest'.head?, d = '\n') :
    At position (before ++ ds) rest' :=
  ⟨by rw [h.line, after_append hds], .inl hrest⟩

end Position

/-! ### Tokens as they stand in a text -/

/-- A token as it stands in a text. -/
structure Mark where
  /-- The text before the token. -/
  before : List Char
  /-- The characters of the token. -/
  word : List Char
  /-- What the token is. -/
  kind : Kind

/-- None of the tokens holds a line break. -/
def Calm (marks : List Mark) : Prop :=
  ∀ m ∈ marks, '\n' ∉ m.word

/-- After the text `before`, a text is taken apart into tokens, with blank characters and comments
between them. It ends after them, or before something that is no token. -/
inductive Cuts :
    List Char → List Char → List Mark → Option (List Char × SyntaxFault) → Prop
  /-- The text ends. -/
  | done {before : List Char} : Cuts before [] [] none
  /-- What comes next is no token. -/
  | fault {before cs : List Char} {c : Char} {fault : SyntaxFault} :
    Text.isBlank c = false → c ≠ '#' → lexeme c cs = .error fault →
    Cuts before (c :: cs) [] (some (before, fault))
  /-- A blank character, or a line break. -/
  | blank {before cs : List Char} {c : Char} {marks : List Mark}
    {stop : Option (List Char × SyntaxFault)} :
    Text.isBlank c = true → Cuts (before ++ [c]) cs marks stop → Cuts before (c :: cs) marks stop
  /-- A comment, up to the end of the line. -/
  | comment {before body rest : List Char} {marks : List Mark}
    {stop : Option (List Char × SyntaxFault)} :
    '\n' ∉ body → (∀ c ∈ rest.head?, c = '\n') → Cuts (before ++ '#' :: body) rest marks stop →
    Cuts before ('#' :: (body ++ rest)) marks stop
  /-- A token. -/
  | token {before word rest : List Char} {c : Char} {kind : Kind} {marks : List Mark}
    {stop : Option (List Char × SyntaxFault)} :
    lexeme c (word ++ rest) = .ok (kind, rest) → Cuts (before ++ c :: word) rest marks stop →
    Cuts before (c :: (word ++ rest)) (⟨before, c :: word, kind⟩ :: marks) stop

/-- The tokens are where the marks are, as long as no earlier token holds a line break. -/
def Placed (marks : List Mark) (tokens : List Token) : Prop :=
  ∀ i m t, marks[i]? = some m → tokens[i]? = some t → Calm (marks.take i) →
    t.position = Position.after m.before

theorem Placed.cons {m : Mark} {marks : List Mark} {t : Token} {tokens : List Token}
    (ht : t.position = Position.after m.before) (h : '\n' ∉ m.word → Placed marks tokens) :
    Placed (m :: marks) (t :: tokens) := by
  intro i m' t' hm ht' hcalm
  cases i with
  | zero =>
    cases hm
    cases ht'
    exact ht
  | succ i =>
    rw [List.take_succ_cons] at hcalm
    exact h (hcalm m List.mem_cons_self) i m' t' hm ht' fun m' hm' =>
      hcalm m' (List.mem_cons_of_mem m hm')

/-- What the scanner answers is what the text is taken apart into. If `right` holds at the
beginning, the places are right as well. -/
inductive Lays (right : Prop) (marks : List Mark) :
    Option (List Char × SyntaxFault) →
      Except (Position × SyntaxFault) (List Token × Position) → Prop
  /-- There are tokens to the end. -/
  | tokens {tokens : List Token} {stop : Position} :
    tokens.map Token.kind = marks.map Mark.kind → (right → Placed marks tokens) →
    Lays right marks none (.ok (tokens, stop))
  /-- Something is no token. -/
  | fault {before : List Char} {position : Position} {fault : SyntaxFault} :
    (right → Calm marks → position = Position.after before) →
    Lays right marks (some (before, fault)) (.error (position, fault))

variable {right right' : Prop} {marks : List Mark} {stop : Option (List Char × SyntaxFault)}
  {answer : Except (Position × SyntaxFault) (List Token × Position)}

theorem Lays.imp (h : Lays right marks stop answer) (himp : right' → right) :
    Lays right' marks stop answer := by
  cases h with
  | tokens hkinds hplaced => exact .tokens hkinds fun hright => hplaced (himp hright)
  | fault hposition => exact .fault fun hright => hposition (himp hright)

/-- One more token at the beginning. -/
theorem Lays.token {m : Mark} {position : Position} (hposition : right → position = .after m.before)
    (h : Lays (right ∧ '\n' ∉ m.word) marks stop answer) :
    Lays right (m :: marks) stop
      (answer.map fun (ts, last) => (⟨m.kind, position⟩ :: ts, last)) := by
  cases h with
  | tokens hkinds hplaced =>
    refine .tokens (by rw [List.map_cons, List.map_cons, hkinds]) fun hright => ?_
    exact Placed.cons (hposition hright) fun hword => hplaced ⟨hright, hword⟩
  | fault hposition' =>
    refine .fault fun hright hcalm => hposition' ⟨hright, hcalm m List.mem_cons_self⟩ ?_
    exact fun m' hm' => hcalm m' (List.mem_cons_of_mem m hm')

/-! ### The scanner -/

theorem suffix_of_stringBody {cs text rest : List Char} (h : stringBody cs = some (text, rest)) :
    rest <:+ cs := by
  fun_induction stringBody cs generalizing text with
  | case1 => cases h
  | case2 cs =>
    cases h
    exact List.suffix_cons _ _
  | case3 => cases h
  | case4 => cases h
  | case5 =>
    rename_i ih
    obtain ⟨⟨text', rest'⟩, hbody, he⟩ := Option.map_eq_some_iff.1 h
    cases he
    exact (ih hbody).trans ((List.suffix_cons _ _).trans (List.suffix_cons _ _))
  | case6 c cs _ _ _ ih =>
    obtain ⟨⟨text', rest'⟩, hbody, he⟩ := Option.map_eq_some_iff.1 h
    cases he
    exact (ih hbody).trans (List.suffix_cons _ _)

theorem suffix_of_symbol? {c : Char} {cs rest : List Char} {kind : Kind}
    (h : symbol? c cs = some (kind, rest)) : rest <:+ cs := by
  unfold symbol? at h
  split at h <;> cases h <;> first | exact List.suffix_rfl | exact List.suffix_cons _ _

/-- What is left after a token is the end of the text. -/
theorem suffix_of_lexeme {c : Char} {cs rest : List Char} {kind : Kind}
    (h : lexeme c cs = .ok (kind, rest)) : rest <:+ cs := by
  obtain ⟨-, -, rfl⟩ | ⟨-, -, rfl⟩ | ⟨-, text, hbody, -⟩ | hsymbol := lexeme_cases h
  · exact List.dropWhile_suffix _
  · exact List.dropWhile_suffix _
  · exact suffix_of_stringBody hbody
  · exact suffix_of_symbol? hsymbol

/-- The scanner takes a text apart, and gives every token its place. -/
theorem scanFrom_cuts (position : Position) (before cs : List Char) :
    ∃ marks stop, Cuts before cs marks stop ∧
      Lays (position.At before cs) marks stop (scanFrom position cs) := by
  fun_induction scanFrom position cs generalizing before with
  | case1 position =>
    exact ⟨[], none, .done, .tokens rfl fun _ _ _ _ hm => by cases hm⟩
  | case2 position cs ih =>
    obtain ⟨marks, stop, hcuts, hlays⟩ := ih (before ++ ['\n'])
    exact ⟨marks, stop, .blank (by decide) hcuts, hlays.imp Position.At.newline⟩
  | case3 position c cs hline hblank ih =>
    obtain ⟨marks, stop, hcuts, hlays⟩ := ih (before ++ [c])
    refine ⟨marks, stop, .blank hblank hcuts, hlays.imp fun hat => ?_⟩
    have hat' : position.At before [c] :=
      ⟨hat.line, .inr (congrArg Position.column (hat.eq_after hline))⟩
    exact hat'.further (by simpa using fun heq => hline heq.symm) cs
  | case4 position cs hline hblank ih =>
    have hbody : '\n' ∉ cs.takeWhile (· ≠ '\n') := fun hmem =>
      absurd (List.mem_takeWhile_imp hmem) (by simp)
    have hrest : ∀ c ∈ (cs.dropWhile (· ≠ '\n')).head?, c = '\n' := fun c hc => by
      have hstop := List.head?_dropWhile_not (· ≠ '\n') cs
      rw [hc] at hstop
      simpa using hstop
    obtain ⟨marks, stop, hcuts, hlays⟩ := ih (before ++ '#' :: cs.takeWhile (· ≠ '\n'))
    have hcomment := Cuts.comment hbody hrest hcuts
    rw [List.takeWhile_append_dropWhile] at hcomment
    have hmark : '\n' ∉ '#' :: cs.takeWhile (· ≠ '\n') := by
      rw [List.mem_cons, not_or]
      exact ⟨by decide, hbody⟩
    exact ⟨marks, stop, hcomment, hlays.imp fun hat => hat.comment hmark hrest⟩
  | case5 position c cs hline hblank hhash fault hlexeme =>
    exact ⟨[], _, .fault (Bool.eq_false_iff.2 hblank) hhash hlexeme,
      .fault fun hat _ => hat.eq_after hline⟩
  | case6 position c cs hline hblank hhash kind rest hlexeme width ih =>
    obtain ⟨word, rfl⟩ := suffix_of_lexeme hlexeme
    obtain ⟨marks, stop, hcuts, hlays⟩ := ih (before ++ c :: word)
    refine ⟨_, stop, .token hlexeme hcuts, Lays.token (fun hat => hat.eq_after hline) ?_⟩
    refine hlays.imp ?_
    rintro ⟨hat, hword⟩
    have hat' : position.At before (c :: word) :=
      ⟨hat.line, .inr (congrArg Position.column (hat.eq_after hline))⟩
    have hwidth : width = (c :: word).length := by
      simp only [width, List.length_append, List.length_cons]
      omega
    rw [hwidth]
    exact hat'.further hword rest

end GatedRules
