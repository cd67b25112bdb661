import GatedRules.Proofs.Words

/-!
# Balanced texts

A reader of a text in which strings stand between quotation marks is outside of strings, inside of
one, or right behind a backslash in one (`Text.Quoting`). It gives up where a backslash, a `:` or a
`#` stands outside of strings. A text that it gets through from outside to outside is balanced, and
so are all names that are looked up: words, and canonical texts of expressions
(`IsSlotName.balanced`).

Two facts about balanced texts matter where they stand next to other texts. Every `:` and every `#`
has a quotation mark somewhere after it (`Text.quote_mem_of_run`). And a reader that takes the
inside of strings for the outside never comes back: it ends up inside, or gives up
(`Text.run_flip`).
-/

namespace GatedRules

namespace Text

/-- Where a reader is. -/
inductive Quoting
  /-- Outside of strings. -/
  | outside
  /-- Inside of a string. -/
  | inside
  /-- Inside of a string, behind a backslash. -/
  | escaped
deriving DecidableEq

namespace Quoting

/-- Where a reader is after one more character, unless it gives up. -/
def next : Quoting → Char → Option Quoting
  | outside, c =>
    if c = '"' then some inside
    else if c = '\\' ∨ c = ':' ∨ c = '#' then none
    else some outside
  | inside, c => if c = '"' then some outside else if c = '\\' then some escaped else some inside
  | escaped, _ => some inside

/-- Where a reader is after a text, unless it gives up. -/
def run (q : Quoting) : List Char → Option Quoting
  | [] => some q
  | c :: cs => (q.next c).bind fun q => q.run cs

end Quoting

open Quoting

/-- A reader gets through a text from outside of strings to outside of strings. -/
def Balanced (cs : List Char) : Prop :=
  outside.run cs = some outside

variable {q q' : Quoting} {c : Char} {cs ds : List Char}

theorem run_append (q : Quoting) (cs ds : List Char) :
    q.run (cs ++ ds) = (q.run cs).bind fun q => q.run ds := by
  induction cs generalizing q with
  | nil => rfl
  | cons c cs ih =>
    rw [List.cons_append, run, run]
    cases q.next c with
    | none => rfl
    | some q => exact ih q

theorem run_cons (h : q.next c = some q') : q.run (c :: cs) = q'.run cs := by
  rw [run, h, Option.bind_some]

/-! ### Building balanced texts -/

theorem balanced_nil : Balanced [] :=
  rfl

theorem Balanced.append (hc : Balanced cs) (hd : Balanced ds) : Balanced (cs ++ ds) := by
  rw [Balanced, run_append, hc, Option.bind_some]
  exact hd

/-- A character that means nothing to a reader outside of strings. -/
def IsPlain (c : Char) : Prop :=
  c ≠ '"' ∧ c ≠ '\\' ∧ c ≠ ':' ∧ c ≠ '#'

instance (c : Char) : Decidable (IsPlain c) :=
  inferInstanceAs (Decidable (_ ∧ _))

theorem next_of_isPlain (h : IsPlain c) : outside.next c = some outside := by
  rw [next, if_neg h.1, if_neg fun hc => hc.elim h.2.1 fun hc => hc.elim h.2.2.1 h.2.2.2]

theorem balanced_of_isPlain (h : ∀ c ∈ cs, IsPlain c) : Balanced cs := by
  induction cs with
  | nil => exact balanced_nil
  | cons c cs ih =>
    rw [Balanced, run_cons (next_of_isPlain (h c List.mem_cons_self))]
    exact ih fun d hd => h d (List.mem_cons_of_mem c hd)

theorem Balanced.cons (h : Balanced cs) (hc : IsPlain c) : Balanced (c :: cs) := by
  rw [Balanced, run_cons (next_of_isPlain hc)]
  exact h

theorem balanced_joined {separator : List Char} {texts : List (List Char)}
    (hs : Balanced separator) (ht : ∀ cs ∈ texts, Balanced cs) :
    Balanced (joined separator texts) := by
  induction texts with
  | nil => exact balanced_nil
  | cons cs texts ih =>
    cases texts with
    | nil => exact ht cs (by simp)
    | cons ds texts =>
      rw [joined]
      exact ((ht cs (by simp)).append hs).append (ih fun es he => ht es (by simp [he]))

/-- The text of a string stays inside up to its second quotation mark. -/
theorem run_escaped (cs : List Char) :
    inside.run (cs.flatMap fun c => if c = '"' ∨ c = '\\' then ['\\', c] else [c]) =
      some inside := by
  induction cs with
  | nil => rfl
  | cons c cs ih =>
    rw [List.flatMap_cons, run_append]
    split
    · exact ih
    · rename_i hc
      rw [not_or] at hc
      have hnext : inside.next c = some inside := by rw [next, if_neg hc.1, if_neg hc.2]
      rw [run_cons hnext]
      exact ih

theorem balanced_quoted (s : String) : Balanced (Literal.quoted s) := by
  rw [Literal.quoted, List.cons_append, Balanced]
  change inside.run _ = _
  rw [run_append, run_escaped]
  rfl

/-! ### What balanced texts are like -/

/-- Without a quotation mark, a string is not left. -/
theorem run_ne_outside (h : '"' ∉ cs) (hq : q ≠ outside) : q.run cs ≠ some outside := by
  induction cs generalizing q with
  | nil => simpa [run] using hq
  | cons c cs ih =>
    rw [List.mem_cons, not_or] at h
    have hquote : c ≠ '"' := fun heq => h.1 heq.symm
    cases q with
    | outside => exact absurd rfl hq
    | inside =>
      by_cases hc : c = '\\'
      · have hnext : inside.next c = some escaped := by rw [next, if_neg hquote, if_pos hc]
        rw [run_cons hnext]
        exact ih h.2 nofun
      · have hnext : inside.next c = some inside := by rw [next, if_neg hquote, if_neg hc]
        rw [run_cons hnext]
        exact ih h.2 nofun
    | escaped => exact ih h.2 nofun

/-- In a balanced text, a `:` or a `#` stands inside of a string. -/
theorem run_inside (hc : c = ':' ∨ c = '#') (h : Balanced (cs ++ c :: ds)) :
    inside.run ds = some outside := by
  rw [Balanced, run_append] at h
  obtain ⟨q, -, hq⟩ := Option.bind_eq_some_iff.1 h
  obtain rfl | rfl := hc <;> cases q with
  | outside => cases hq
  | inside => exact hq
  | escaped => exact hq

/-- In a balanced text, a quotation mark stands somewhere after a `#`. -/
theorem quote_mem_of_run (h : Balanced (cs ++ '#' :: ds)) : '"' ∈ ds :=
  Decidable.byContradiction fun hquote =>
    run_ne_outside (q := inside) hquote nofun (run_inside (.inr rfl) h)

/-- The other side of a quotation mark. -/
def Quoting.flip : Quoting → Quoting
  | outside => inside
  | _ => outside

/-- A reader on the wrong side of quotation marks stays there with a character, or gives up. -/
theorem next_flip (h : q.next c = some q') (hq : q ≠ escaped) :
    q.flip.next c = none ∨ q' ≠ escaped ∧ q.flip.next c = some q'.flip := by
  cases q with
  | escaped => exact absurd rfl hq
  | outside =>
    change inside.next c = none ∨ q' ≠ escaped ∧ inside.next c = some q'.flip
    rw [next]
    rw [next] at h
    by_cases hquote : c = '"'
    · rw [if_pos hquote] at h ⊢
      cases h
      exact .inr ⟨nofun, rfl⟩
    · rw [if_neg hquote] at h ⊢
      by_cases hmark : c = '\\' ∨ c = ':' ∨ c = '#'
      · rw [if_pos hmark] at h
        cases h
      · rw [if_neg hmark] at h
        cases h
        rw [if_neg fun hc => hmark (.inl hc)]
        exact .inr ⟨nofun, rfl⟩
  | inside =>
    change outside.next c = none ∨ q' ≠ escaped ∧ outside.next c = some q'.flip
    rw [next]
    rw [next] at h
    by_cases hquote : c = '"'
    · rw [if_pos hquote] at h ⊢
      cases h
      exact .inr ⟨nofun, rfl⟩
    · rw [if_neg hquote] at h ⊢
      by_cases hmark : c = '\\' ∨ c = ':' ∨ c = '#'
      · exact .inl (if_pos hmark)
      · rw [if_neg fun hc => hmark (.inl hc)] at h
        cases h
        exact .inr ⟨nofun, if_neg hmark⟩

/-- A reader on the wrong side of quotation marks ends up inside of a string, or gives up. -/
theorem run_flip (h : q.run cs = some outside) (hq : q ≠ escaped) :
    q.flip.run cs = some inside ∨ q.flip.run cs = none := by
  induction cs generalizing q with
  | nil =>
    obtain rfl : q = outside := Option.some.inj h
    exact .inl rfl
  | cons c cs ih =>
    rw [run] at h
    obtain ⟨q', hnext, hrun⟩ := Option.bind_eq_some_iff.1 h
    obtain hstop | ⟨hq', hflip⟩ := next_flip hnext hq
    · exact .inr (by rw [run, hstop, Option.bind_none])
    · rw [run_cons hflip]
      exact ih hrun hq'

end Text

open Text

/-! ### Numbers -/

namespace Decimal

/-- A character that the text of a number may hold. -/
def IsNumeral (c : Char) : Prop :=
  c.isDigit = true ∨ c ∈ ['-', '.', 'N', 'a', 'i', 'n', 'f']

theorem isPlain_of_isNumeral {c : Char} (h : IsNumeral c) : IsPlain c := by
  refine ⟨?_, ?_, ?_, ?_⟩ <;> rintro rfl <;> exact absurd h (by unfold IsNumeral; decide)

theorem isNumeral_of_mem_digitChars {n : Nat} {c : Char} (h : c ∈ digitChars n) : IsNumeral c :=
  .inl (Nat.isDigit_of_mem_toDigits (by decide) (by decide) h)

theorem isNumeral_of_mem_replicate {n : Nat} {c : Char} (h : c ∈ List.replicate n '0') :
    IsNumeral c :=
  .inl (by rw [List.eq_of_mem_replicate h]; rfl)

theorem isNumeral_of_mem_positional {digits : List Char} (h : ∀ c ∈ digits, IsNumeral c)
    (exponent : Int) {c : Char} (hc : c ∈ positional [] digits exponent) : IsNumeral c := by
  unfold positional at hc
  split at hc
  · rw [List.append_nil, List.mem_append] at hc
    exact hc.elim (h c) isNumeral_of_mem_replicate
  dsimp only at hc
  split at hc
  · rw [List.mem_append, List.mem_cons] at hc
    rcases hc with hc | rfl | hc
    · exact h c (List.mem_of_mem_take hc)
    · exact .inr (by decide)
    · exact h c (List.mem_of_mem_drop hc)
  · rw [List.mem_cons, List.mem_cons, List.mem_append] at hc
    rcases hc with rfl | rfl | hc | hc
    · exact .inl rfl
    · exact .inr (by decide)
    · exact isNumeral_of_mem_replicate hc
    · exact h c hc

theorem isNumeral_of_mem_unsigned {significand : Nat} {exponent : Int} {c : Char}
    (hc : c ∈ sourceLayout.unsigned significand exponent) : IsNumeral c := by
  unfold Layout.unsigned at hc
  split at hc
  · obtain rfl : c = '0' := by simpa [sourceLayout] using hc
    exact .inl rfl
  · exact isNumeral_of_mem_positional (fun _ => isNumeral_of_mem_digitChars) _ hc

theorem isNumeral_of_mem_intChars {n : Int} {c : Char} (hc : c ∈ intChars n) : IsNumeral c := by
  unfold intChars at hc
  split at hc
  · rcases List.mem_cons.1 hc with rfl | hc
    · exact .inr (by decide)
    · exact isNumeral_of_mem_digitChars hc
  · exact isNumeral_of_mem_digitChars hc

/-- The text of a number holds digits, the signs of numbers, and the letters of `NaN` and `inf`. -/
theorem isNumeral_of_mem_sourceChars {x : Float} {c : Char} (hc : c ∈ sourceChars x) :
    IsNumeral c := by
  have hsigned : ∀ {negative : Bool} {text : List Char}, (∀ d ∈ text, IsNumeral d) →
      c ∈ (if negative then '-' :: text else text) → IsNumeral c := by
    intro negative text htext hc
    split at hc
    · exact (List.mem_cons.1 hc).elim (fun heq => heq ▸ .inr (by decide)) (htext c)
    · exact htext c hc
  unfold sourceChars at hc
  split at hc
  · exact isNumeral_of_mem_intChars hc
  unfold plainChars at hc
  dsimp only at hc
  split at hc
  · have hname : ∀ d ∈ ['N', 'a', 'N'], IsNumeral d := by simp [IsNumeral]
    exact hname c hc
  · have hname : ∀ d ∈ ['i', 'n', 'f'], IsNumeral d := by simp [IsNumeral]
    exact hsigned hname hc
  · exact hsigned (fun _ => isNumeral_of_mem_unsigned) hc

end Decimal

/-! ### Names -/

theorem isPlain_of_isWordChar {c : Char} (h : isWordChar c = true) : IsPlain c := by
  refine ⟨?_, ?_, ?_, ?_⟩ <;> rintro rfl <;> exact absurd h (by decide)

theorem balanced_of_isWord {word : String} (h : IsWord word) : Balanced word.toList :=
  balanced_of_isPlain fun c hc => isPlain_of_isWordChar (h c hc)

namespace Expr

theorem balanced_literal (l : Literal) : Balanced l.chars := by
  cases l with
  | null => rfl
  | bool b => cases b <;> rfl
  | number x =>
    exact balanced_of_isPlain fun c hc =>
      Decimal.isPlain_of_isNumeral (Decimal.isNumeral_of_mem_sourceChars hc)
  | string s => exact balanced_quoted s

theorem balanced_operand {e : Expr} {cs : List Char} (h : Balanced cs) :
    Balanced (operand e cs) := by
  unfold operand
  split
  · have hclose : Balanced [')'] := rfl
    exact (h.append hclose).cons (by decide)
  · exact h

theorem balanced_operator (op : BinaryOp) : Balanced
    (if op.isLogical then ' ' :: op.symbol.toList ++ [' '] else op.symbol.toList) := by
  cases op <;> rfl

mutual

theorem balanced_renderChars : ∀ {e : Expr}, e.Spelled IsWord →
    Balanced (e.renderChars String.toList)
  | literal l, _ => by
    rw [renderChars]
    exact balanced_literal l
  | name n, h => by
    rw [renderChars]
    exact balanced_of_isWord h
  | unary .not e, h => by
    have hnot : Balanced "NOT ".toList := rfl
    rw [renderChars]
    exact hnot.append (balanced_operand (balanced_renderChars (e := e) h))
  | unary .neg e, h => by
    rw [renderChars]
    exact (balanced_operand (balanced_renderChars (e := e) h)).cons (by decide)
  | binary op l r, h => by
    rw [renderChars]
    exact ((balanced_operand (balanced_renderChars h.1)).append (balanced_operator op)).append
      (balanced_operand (balanced_renderChars h.2))
  | isNull e negated, h => by
    rw [renderChars]
    refine (balanced_operand (balanced_renderChars (e := e) h)).append ?_
    cases negated <;> rfl
  | call function args groups, h => by
    rw [renderChars]
    have hcomma : Balanced [',', ' '] := rfl
    have hclose : Balanced [')'] := rfl
    have hargs := balanced_joined hcomma (balanced_renderAll h.2.1)
    have hgroups := balanced_joined hcomma (balanced_renderAll h.2.2)
    have hby : Balanced (if groups.isEmpty then [] else
        (if args.isEmpty then [] else [' ']) ++ "BY ".toList ++
          Text.joined [',', ' '] (renderAll String.toList groups)) := by
      split
      · exact balanced_nil
      · refine Balanced.append ?_ hgroups
        split <;> rfl
    exact (balanced_of_isWord h.1).append (((hargs.append hby).append hclose).cons (by decide))

theorem balanced_renderAll : ∀ {es : List Expr}, SpelledAll IsWord es →
    ∀ cs ∈ renderAll String.toList es, Balanced cs
  | [], _, cs, h => by simp [renderAll] at h
  | e :: es, h, cs, hc => by
    rw [renderAll] at hc
    rcases List.mem_cons.1 hc with rfl | hc
    · exact balanced_renderChars h.1
    · exact balanced_renderAll h.2 cs hc

end

/-- The canonical text of a parsed expression is balanced. -/
theorem balanced_text {e : Expr} (h : e.Spelled IsWord) : Balanced e.text.toList := by
  rw [text, render, String.toList_ofList]
  exact balanced_renderChars h

end Expr

/-- A name that is looked up in a module: a word, or the canonical text of an expression. -/
def IsSlotName (n : String) : Prop :=
  IsWord n ∨ ∃ e : Expr, e.Spelled IsWord ∧ n = e.text

theorem IsSlotName.balanced {n : String} (h : IsSlotName n) : Balanced n.toList := by
  obtain hword | ⟨e, he, rfl⟩ := h
  · exact balanced_of_isWord hword
  · exact Expr.balanced_text he

end GatedRules
