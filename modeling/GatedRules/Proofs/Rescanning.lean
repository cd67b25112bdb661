import GatedRules.Proofs.Decimals
import GatedRules.Proofs.Words

/-!
# Scanning what is written

The text of a token is read as that token whatever is written after it, provided that what is
written does not go on the token: a letter goes on a word, a digit or a point goes on a number, and
`=` or `>` goes on the sign `<`. `Grammar.Writes follow cs xs` says that the text `cs` spells the
terminals `xs` before every text that begins with a character for which `follow` holds. Such texts
are put one after the other (`Grammar.Writes.append`), so the scanner need not be looked at again
where texts are composed.
-/

namespace GatedRules

/-- A finite number that is read as a token is read back from its text. -/
theorem readsBack_of_lexeme {c : Char} {cs rest : List Char} {x : Float}
    (h : lexeme c cs = .ok (.number x, rest)) (hx : x.isFinite = true) : Decimal.ReadsBack x := by
  obtain ⟨-, hkind, -⟩ | ⟨hc, ⟨y, hread, hkind⟩, -⟩ | ⟨-, text, -, hkind⟩ | hsymbol :=
    lexeme_cases h
  · cases hkind
  · cases hkind
    exact Decimal.readsBack_of_read? hc hread hx
  · cases hkind
  · exact absurd rfl ((plain_of_symbol? hsymbol).2.1 x)

namespace Grammar

/-! ### Beginnings of texts -/

/-- A text begins with a character that has a property. -/
def Starts (p : Char → Prop) (cs : List Char) : Prop :=
  ∃ c ds, cs = c :: ds ∧ p c

/-- Words and numbers end before a character. -/
def Ends (c : Char) : Prop :=
  isWordChar c = false ∧ c ≠ '.'

/-- Signs end before a character. -/
def Stands (c : Char) : Prop :=
  c ≠ '=' ∧ c ≠ '>'

section

variable {p q : Char → Prop} {c : Char} {cs ds : List Char}

theorem starts_cons (h : p c) : Starts p (c :: cs) :=
  ⟨c, cs, rfl, h⟩

theorem Starts.append (h : Starts p cs) (ds : List Char) : Starts p (cs ++ ds) := by
  obtain ⟨c, cs, rfl, hc⟩ := h
  exact starts_cons hc

theorem Starts.imp (h : Starts p cs) (hpq : ∀ c, p c → q c) : Starts q cs := by
  obtain ⟨c, cs, rfl, hc⟩ := h
  exact starts_cons (hpq c hc)

end

theorem stands_of_isWordChar {c : Char} (h : isWordChar c = true) : Stands c := by
  constructor <;> rintro rfl <;> exact absurd h (by decide)

/-! ### Scanning -/

/-- A text has tokens wherever it starts, and they spell some terminals. -/
def Scans (cs : List Char) (xs : List Terminal) : Prop :=
  ∀ position, ∃ ts stop, scanFrom position cs = .ok (ts, stop) ∧ spelled ts = xs

/-- A text spells some terminals before whatever begins with a character that has a property. -/
def Writes (follow : Char → Prop) (cs : List Char) (xs : List Terminal) : Prop :=
  ∀ ⦃rest : List Char⦄ ⦃ys : List Terminal⦄, (∀ c ∈ rest.head?, follow c) → Scans rest ys →
    Scans (cs ++ rest) (xs ++ ys)

theorem scans_nil : Scans [] [] :=
  fun position => ⟨[], position, by rw [scanFrom], rfl⟩

theorem toNat_of_isWordChar {c : Char} (h : isWordChar c = true) :
    32 < c.toNat ∧ c.toNat < 127 := by
  unfold isWordChar Char.isAlphanum Char.isAlpha Char.isUpper Char.isLower Char.isDigit at h
  simp only [Bool.or_eq_true, Bool.and_eq_true, decide_eq_true_eq, UInt32.le_iff_toNat_le,
    ge_iff_le] at h
  change (((65 ≤ c.toNat ∧ c.toNat ≤ 90) ∨ 97 ≤ c.toNat ∧ c.toNat ≤ 122) ∨
    48 ≤ c.toNat ∧ c.toNat ≤ 57) ∨ c = '_' at h
  rcases h with h | rfl
  · omega
  · decide

theorem isWordChar_of_isDigit {c : Char} (h : c.isDigit = true) : isWordChar c = true := by
  rw [isWordChar, Char.isAlphanum, h, Bool.or_true, Bool.true_or]

/-- A token starts with a visible character, and with none that starts a comment. -/
theorem visible_of_lexeme {c : Char} {cs rest : List Char} {kind : Kind}
    (h : lexeme c cs = .ok (kind, rest)) : 32 < c.toNat ∧ c.toNat < 127 ∧ c ≠ '#' := by
  have hword : isWordChar c = true → 32 < c.toNat ∧ c.toNat < 127 ∧ c ≠ '#' := fun hc => by
    refine ⟨(toNat_of_isWordChar hc).1, (toNat_of_isWordChar hc).2, ?_⟩
    rintro rfl
    exact absurd hc (by decide)
  obtain ⟨hc, -⟩ | ⟨hc, -⟩ | ⟨rfl, -⟩ | hsymbol := lexeme_cases h
  · exact hword (isWordChar_of_isWordStart hc)
  · exact hword (isWordChar_of_isDigit hc)
  · decide
  · unfold symbol? at hsymbol
    split at hsymbol <;> first | exact ⟨by decide, by decide, by decide⟩ | cases hsymbol

theorem isBlank_eq_false {c : Char} (h : 32 < c.toNat) (h' : c.toNat < 127) :
    Text.isBlank c = false := by
  simp only [Text.isBlank, Bool.or_eq_false_iff, Bool.and_eq_false_iff, decide_eq_false_iff_not,
    beq_eq_false_iff_ne]
  omega

theorem scans_lexeme {c : Char} {cs rest : List Char} {kind : Kind} {xs : List Terminal}
    (h : lexeme c cs = .ok (kind, rest)) (hrest : Scans rest xs) :
    Scans (c :: cs) (terminal kind :: xs) := by
  obtain ⟨hlow, hhigh, hcomment⟩ := visible_of_lexeme h
  have hline : c ≠ '\n' := by
    rintro rfl
    exact absurd hlow (by decide)
  intro position
  obtain ⟨ts, stop, hscan, rfl⟩ :=
    hrest ⟨position.line, position.column + (cs.length + 1 - rest.length)⟩
  refine ⟨⟨kind, position⟩ :: ts, stop, ?_, rfl⟩
  rw [scanFrom, if_neg hline, isBlank_eq_false hlow hhigh, if_neg Bool.false_ne_true,
    if_neg hcomment]
  split
  · rename_i herror
    cases herror.symm.trans h
  · rename_i hok
    cases hok.symm.trans h
    dsimp only
    rw [hscan]
    rfl

theorem scans_blank {cs : List Char} {xs : List Terminal} (h : Scans cs xs) :
    Scans (' ' :: cs) xs := by
  intro position
  obtain ⟨ts, stop, hscan, hts⟩ := h ⟨position.line, position.column + 1⟩
  refine ⟨ts, stop, ?_, hts⟩
  rw [scanFrom, if_neg (by decide), if_pos (by decide), hscan]

/-! ### Texts one after the other -/

section

variable {p q : Char → Prop} {cs ds : List Char} {xs ys : List Terminal}

theorem Writes.append (h : Writes p cs xs) (h' : Writes q ds ys) (hstarts : Starts p ds) :
    Writes q (cs ++ ds) (xs ++ ys) := by
  intro rest zs hq hrest
  obtain ⟨c, ds, rfl, hc⟩ := hstarts
  rw [List.append_assoc, List.append_assoc]
  refine h (fun d hd => ?_) (h' hq hrest)
  cases hd
  exact hc

/-- A text before whatever comes next, before nothing. -/
theorem Writes.scans (h : Writes p cs xs) : Scans cs xs := by
  have hnothing : ∀ c ∈ ([] : List Char).head?, p c := fun c hc => by cases hc
  have hscans := h hnothing scans_nil
  rwa [List.append_nil, List.append_nil] at hscans

theorem Writes.blank (h : Writes p cs xs) : Writes p (' ' :: cs) xs :=
  fun _ _ hp hrest => scans_blank (h hp hrest)

theorem writes_nil : Writes p [] [] :=
  fun _ _ _ hrest => hrest

/-- A sign of one character that is no beginning of another sign. -/
theorem Writes.sign {c : Char} (kind : Kind) (hc : ∀ rest, lexeme c rest = .ok (kind, rest))
    (h : Writes p cs xs) : Writes p (c :: cs) (terminal kind :: xs) :=
  fun _ _ hp hrest => scans_lexeme (hc _) (h hp hrest)

theorem Writes.parens (h : Writes Ends cs xs) :
    Writes p (Expr.parens cs) (.plain .leftParen :: (xs ++ [.plain .rightParen])) := by
  have hclose : Writes p (cs ++ [')']) (xs ++ [.plain .rightParen]) := by
    intro rest ys _ hrest
    rw [List.append_assoc, List.append_assoc]
    have hlexeme : lexeme ')' rest = .ok (.rightParen, rest) := rfl
    refine h (fun c hc => ?_) (scans_lexeme hlexeme hrest)
    cases hc
    exact ⟨by decide, by decide⟩
  exact hclose.sign (c := '(') .leftParen fun _ => rfl

end

/-! ### Tokens -/

/-- A word is a letter or an underscore with word characters after it. -/
def Name (word : String) : Prop :=
  ∃ c cs, word.toList = c :: cs ∧ isWordStart c = true ∧ ∀ d ∈ cs, isWordChar d = true

theorem Name.starts {word : String} (h : Name word) : Starts Stands word.toList := by
  obtain ⟨c, cs, hword, hc, -⟩ := h
  exact hword ▸ starts_cons (stands_of_isWordChar (isWordChar_of_isWordStart hc))

theorem writes_word {word : String} (h : Name word) :
    Writes Ends word.toList [terminal (.ident word)] := by
  obtain ⟨c, cs, hword, hc, hcs⟩ := h
  intro rest ys hends hrest
  have hstop : ∀ d ∈ rest.head?, isWordChar d = false := fun d hd => (hends d hd).1
  rw [hword, List.cons_append]
  refine scans_lexeme ?_ hrest
  rw [lexeme, if_pos hc, takeWhile_append hcs hstop, dropWhile_append hcs hstop, ← hword,
    String.ofList_toList]

/-- A word with a blank after it. -/
theorem writes_keyword {p : Char → Prop} {word : String} (h : Name word) :
    Writes p (word.toList ++ [' ']) [terminal (.ident word)] := by
  intro rest ys _ hrest
  rw [List.append_assoc]
  exact writes_word h (fun c hc => by cases hc; exact ⟨by decide, by decide⟩) (scans_blank hrest)

theorem isWordStart_of_isDigit {c : Char} (h : c.isDigit = true) : isWordStart c = false := by
  rw [Bool.eq_false_iff]
  intro hc
  have hdigit := Decimal.toNat_of_isDigit h
  unfold isWordStart Char.isAlpha Char.isUpper Char.isLower at hc
  simp only [Bool.or_eq_true, Bool.and_eq_true, decide_eq_true_eq, UInt32.le_iff_toNat_le,
    ge_iff_le] at hc
  change ((65 ≤ c.toNat ∧ c.toNat ≤ 90) ∨ 97 ≤ c.toNat ∧ c.toNat ≤ 122) ∨ c = '_' at hc
  rcases hc with hc | rfl
  · omega
  · exact absurd h (by decide)

theorem isNumberChar_of_isDigit {c : Char} (h : c.isDigit = true) : isNumberChar c = true := by
  rw [isNumberChar, h, Bool.true_or]

theorem Ends.isNumberChar {c : Char} (h : Ends c) : isNumberChar c = false := by
  have hdigit : c.isDigit = false := Bool.eq_false_iff.2 fun hc =>
    absurd (isWordChar_of_isDigit hc) (Bool.eq_false_iff.1 h.1)
  simp [GatedRules.isNumberChar, hdigit, h.2]

/-- The text of a number starts with a digit. -/
theorem exists_digit {x : Float} (h : Decimal.ReadsBack x) : ∃ c cs,
    Decimal.sourceChars x = c :: cs ∧ c.isDigit = true ∧ ∀ d ∈ cs, isNumberChar d = true := by
  obtain ⟨whole, fraction, hne, hdigits, hchars⟩ := h.digits
  obtain ⟨c, whole, rfl⟩ := List.exists_cons_of_ne_nil hne
  rcases hchars with hchars | hchars
  · refine ⟨c, whole, hchars, hdigits c (by simp), fun d hd => ?_⟩
    exact isNumberChar_of_isDigit (hdigits d (by simp [hd]))
  · refine ⟨c, _, hchars, hdigits c (by simp), fun d hd => ?_⟩
    rcases List.mem_append.1 hd with hd | hd
    · exact isNumberChar_of_isDigit (hdigits d (by simp [hd]))
    · rcases List.mem_cons.1 hd with rfl | hd
      · rfl
      · exact isNumberChar_of_isDigit (hdigits d (by simp [hd]))

theorem writes_number {x : Float} (h : Decimal.ReadsBack x) :
    Writes Ends (Decimal.sourceChars x) [.plain (.number x)] := by
  obtain ⟨c, cs, hcs, hc, hnumber⟩ := exists_digit h
  have hread := h.read
  intro rest ys hends hrest
  have hstop : ∀ d ∈ rest.head?, isNumberChar d = false := fun d hd => (hends d hd).isNumberChar
  rw [hcs] at hread ⊢
  have hlexeme : lexeme c (cs ++ rest) = .ok (.number x, rest) := by
    rw [lexeme, isWordStart_of_isDigit hc, if_neg Bool.false_ne_true, if_pos hc,
      takeWhile_append hnumber hstop, dropWhile_append hnumber hstop]
    dsimp only
    rw [hread]
  exact scans_lexeme hlexeme hrest

/-- What is escaped between quotation marks is taken as it is. -/
theorem stringBody_quoted {cs : List Char} (h : '\n' ∉ cs) (rest : List Char) :
    stringBody (cs.flatMap (fun c => if c = '"' ∨ c = '\\' then ['\\', c] else [c]) ++
      '"' :: rest) = some (cs, rest) := by
  induction cs with
  | nil => rfl
  | cons c cs ih =>
    rw [List.mem_cons, not_or] at h
    rw [List.flatMap_cons, List.append_assoc]
    split
    · rename_i hc
      rw [List.cons_append, List.cons_append, List.nil_append, stringBody, ih h.2]
      rcases hc with rfl | rfl <;> rfl
    · rename_i hc
      rw [not_or] at hc
      rw [List.cons_append, List.nil_append, stringBody, ih h.2]
      · rfl
      · exact hc.1
      · exact fun heq => h.1 heq.symm
      · exact hc.2

theorem writes_string {p : Char → Prop} {s : String} (h : '\n' ∉ s.toList) :
    Writes p (Literal.quoted s) [.plain (.string s)] := by
  intro rest ys _ hrest
  rw [Literal.quoted, List.cons_append, List.cons_append, List.append_assoc]
  have hbody := stringBody_quoted h rest
  have hlexeme : ∀ cs, stringBody cs = some (s.toList, rest) →
      lexeme '"' cs = .ok (.string s, rest) := fun cs hcs => by
    rw [lexeme, if_neg (by decide), if_neg (by decide), if_pos rfl, hcs]
    dsimp only
    rw [String.ofList_toList]
  exact scans_lexeme (hlexeme _ hbody) hrest

theorem writes_literal {l : Literal} (hstring : ∀ s, l = .string s → '\n' ∉ s.toList)
    (hnumber : ∀ x, l = .number x → Decimal.ReadsBack x) : Writes Ends l.chars [constant l] := by
  cases l with
  | null => exact writes_word ⟨'n', ['u', 'l', 'l'], rfl, rfl, by simp [isWordChar]⟩
  | bool b =>
    cases b with
    | true => exact writes_word ⟨'t', ['r', 'u', 'e'], rfl, rfl, by simp [isWordChar]⟩
    | false => exact writes_word ⟨'f', ['a', 'l', 's', 'e'], rfl, rfl, by simp [isWordChar]⟩
  | number x => exact writes_number (hnumber x rfl)
  | string s => exact writes_string (hstring s rfl)

/-- A sign that may be the beginning of a longer one is taken by itself. -/
theorem symbol?_of_stands {rest : List Char} (h : ∀ c ∈ rest.head?, Stands c) :
    symbol? '=' rest = some (.eq, rest) ∧ symbol? '<' rest = some (.lt, rest) ∧
      symbol? '>' rest = some (.gt, rest) := by
  cases rest with
  | nil => exact ⟨rfl, rfl, rfl⟩
  | cons c rest =>
    obtain ⟨heq, hgt⟩ := h c rfl
    refine ⟨?_, ?_, ?_⟩ <;> unfold symbol? <;> split <;> simp_all

theorem lexeme_of_symbol? {c : Char} {cs rest : List Char} {kind : Kind}
    (hword : isWordChar c = false) (hquote : c ≠ '"') (h : symbol? c cs = some (kind, rest)) :
    lexeme c cs = .ok (kind, rest) := by
  have hstart : ¬ isWordStart c = true := fun hc =>
    absurd (isWordChar_of_isWordStart hc) (Bool.eq_false_iff.1 hword)
  have hdigit : ¬ c.isDigit = true := fun hc =>
    absurd (isWordChar_of_isDigit hc) (Bool.eq_false_iff.1 hword)
  rw [lexeme, if_neg hstart, if_neg hdigit, if_neg hquote, h]

theorem writes_symbol {c : Char} {kind : Kind} (hword : isWordChar c = false) (hquote : c ≠ '"')
    (h : ∀ rest : List Char, (∀ d ∈ rest.head?, Stands d) →
      symbol? c rest = some (kind, rest)) : Writes Stands [c] [terminal kind] :=
  fun _ _ hstands hrest => scans_lexeme (lexeme_of_symbol? hword hquote (h _ hstands)) hrest

/-- An operator the way it stands between its operands. -/
def operatorChars (op : BinaryOp) : List Char :=
  if op.isLogical then ' ' :: op.symbol.toList ++ [' '] else op.symbol.toList

theorem writes_operator (op : BinaryOp) : Writes Stands (operatorChars op) [operator op] := by
  have hand : Name "AND" := ⟨'A', ['N', 'D'], rfl, rfl, by simp [isWordChar]⟩
  have hor : Name "OR" := ⟨'O', ['R'], rfl, rfl, by simp [isWordChar]⟩
  have hequal : ∀ c kind, (∀ rest, lexeme c ('=' :: rest) = .ok (kind, rest)) →
      Writes Stands [c, '='] [terminal kind] := fun _ _ hc rest _ _ => scans_lexeme (hc rest)
  cases op with
  | and => exact (writes_keyword hand).blank
  | or => exact (writes_keyword hor).blank
  | eq => exact writes_symbol rfl (by decide) fun _ h => (symbol?_of_stands h).1
  | lt => exact writes_symbol rfl (by decide) fun _ h => (symbol?_of_stands h).2.1
  | gt => exact writes_symbol rfl (by decide) fun _ h => (symbol?_of_stands h).2.2
  | notEq => exact hequal '!' .notEq fun _ => rfl
  | ltEq => exact hequal '<' .ltEq fun _ => rfl
  | gtEq => exact hequal '>' .gtEq fun _ => rfl
  | add => exact writes_nil.sign .plus fun _ => rfl
  | sub => exact writes_nil.sign .minus fun _ => rfl
  | mul => exact writes_nil.sign .star fun _ => rfl
  | div => exact writes_nil.sign .slash fun _ => rfl

/-- No word or number goes on with an operator. -/
theorem starts_operator (op : BinaryOp) : Starts Ends (operatorChars op) := by
  cases op <;> exact ⟨_, _, rfl, by decide, by decide⟩

/-- A test for null the way it stands after its operand. -/
def testChars (negated : Bool) : List Char :=
  (if negated then " IS NOT NULL" else " IS NULL").toList

theorem writes_test (negated : Bool) :
    Writes Ends (testChars negated) (testTerminals (some negated)) := by
  have his : Name "IS" := ⟨'I', ['S'], rfl, rfl, by simp [isWordChar]⟩
  have hnot : Name "NOT" := ⟨'N', ['O', 'T'], rfl, rfl, by simp [isWordChar]⟩
  have hnull : Name "NULL" := ⟨'N', ['U', 'L', 'L'], rfl, rfl, by simp [isWordChar]⟩
  cases negated with
  | false =>
    have hchars : testChars false = ' ' :: ("IS".toList ++ [' '] ++ "NULL".toList) := rfl
    rw [hchars]
    exact ((writes_keyword his).append (writes_word hnull) hnull.starts).blank
  | true =>
    have hchars : testChars true =
        ' ' :: ("IS".toList ++ [' '] ++ ("NOT".toList ++ [' '] ++ "NULL".toList)) := rfl
    have hrest := (writes_keyword hnot).append (writes_word hnull) hnull.starts
    rw [hchars]
    exact ((writes_keyword his).append hrest ((hnot.starts.append _).append _)).blank

theorem starts_test (negated : Bool) : Starts Ends (testChars negated) := by
  cases negated <;> exact ⟨' ', _, rfl, by decide, by decide⟩

end Grammar

end GatedRules
