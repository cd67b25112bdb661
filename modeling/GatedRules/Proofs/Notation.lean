import GatedRules.Proofs.FloatTexts

/-!
# Values have distinct texts

The compact text of a JSON value, with nothing behind it that could go on with a word, determines
both the value and what follows (`Json.tells_compactChars`); so values with the same text are the
same (`Value.compact_inj`). This is an induction on the value. The first character tells its sort; a
word or a number ends where its characters end; the quotation mark that ends a string is the first
one that is not escaped, so that reading the string finds it; and the items of an array or an object
are told apart one after the other, up to the bracket that closes them (`Json.joined_append_inj`).
-/

namespace GatedRules

/-- Numbers in JSON values are finite. -/
inductive Value.Finite : Value → Prop
  /-- Null. -/
  | null : Finite .null
  /-- Truth values. -/
  | bool (b : Bool) : Finite (.bool b)
  /-- Integers. -/
  | int (n : Int) : Finite (.int n)
  /-- Floats that are finite. -/
  | float {x : Float} : x.isFinite = true → Finite (.float x)
  /-- Strings. -/
  | string (s : String) : Finite (.string s)
  /-- Arrays of such values. -/
  | array {items : List Value} : (∀ v ∈ items, v.Finite) → Finite (.array items)
  /-- Objects of such values. -/
  | object {fields : List (String × Value)} : (∀ f ∈ fields, f.2.Finite) → Finite (.object fields)

namespace Text

/-! ### Hexadecimal digits -/

theorem hexValue?_hexDigit : ∀ n < 16, hexValue? (hexDigit n) = some n := by
  decide

/-- A character that is no hexadecimal digit is not that of a number. -/
theorem hexDigit_ne {n : Nat} (h : n < 16) {c : Char} (hc : hexValue? c = none) :
    hexDigit n ≠ c := by
  rintro rfl
  rw [hexValue?_hexDigit n h] at hc
  cases hc

end Text

namespace Json

open Text (joined hexDigit hexValue?_hexDigit hexDigit_ne)

/-! ### Strings -/

/-- A character of a string stands for itself, or is escaped by one character or by its number. -/
theorem escape_cases (c : Char) :
    (escape c = [c] ∧ c ≠ '"' ∧ c ≠ '\\' ∧ ¬ c.toNat < 0x20) ∨
    (∃ e, escape c = ['\\', e] ∧ e ≠ 'u' ∧ shortEscape? e = some c) ∨
    escape c = ['\\', 'u', '0', '0', hexDigit (c.toNat / 16), hexDigit (c.toNat % 16)] ∧
      c.toNat < 0x20 := by
  generalize htext : escape c = text
  unfold escape at htext
  -- the short escapes
  iterate 7
    split at htext
    · subst_vars
      exact .inr (.inl ⟨_, rfl, by decide, rfl⟩)
  split at htext
  · refine .inr (.inr ⟨?_, ‹_›⟩)
    have hhigh : hexDigit (c.toNat / 16) = Char.ofNat (c.toNat / 16 + 48) := if_pos (by omega)
    rw [← htext, apply_ite Char.ofNat, hhigh]
    rfl
  · exact .inl ⟨htext.symm, ‹_›, ‹_›, ‹_›⟩

/-- Reading the text of a character gives the character. -/
theorem unescape?_escape (c : Char) (cs : List Char) :
    unescape? (escape c ++ cs) = (unescape? cs).map (c :: ·) := by
  obtain ⟨he, -, hslash, hcontrol⟩ | ⟨e, he, hu, hc⟩ | ⟨he, hcontrol⟩ := escape_cases c
  · rw [he, List.singleton_append, unescape?.eq_def]
    dsimp only
    rw [if_neg hslash, if_neg hcontrol]
    cases unescape? cs <;> rfl
  · rw [he, List.cons_append, List.singleton_append, unescape?.eq_def]
    dsimp only
    rw [if_pos rfl, if_neg hu, hc]
    cases unescape? cs <;> rfl
  · have hunit : unit? '0' '0' (hexDigit (c.toNat / 16)) (hexDigit (c.toNat % 16)) =
        some c.toNat := by
      rw [unit?, hexValue?_hexDigit _ (by omega), hexValue?_hexDigit _ (by omega)]
      change some (4096 * 0 + 256 * 0 + 16 * (c.toNat / 16) + c.toNat % 16) = _
      congr 1
      omega
    rw [he, List.cons_append, unescape?.eq_def]
    simp only [List.cons_append, List.nil_append, if_true, hunit, Option.bind_eq_bind,
      Option.bind_some]
    rw [if_pos (.inl (by omega)), Char.ofNat_toNat]
    cases unescape? cs <;> rfl

/-- Reading the text of a string gives its characters. -/
theorem unescape?_flatMap (cs : List Char) : unescape? (cs.flatMap escape) = some cs := by
  induction cs with
  | nil => rfl
  | cons c cs ih => rw [List.flatMap_cons, unescape?_escape, ih, Option.map_some]

theorem splitString_escaped (e : Char) (cs : List Char) :
    splitString false ('\\' :: e :: cs) =
      (splitString false cs).map fun (body, rest) => ('\\' :: e :: body, rest) := by
  simp [splitString, Function.comp_def]

theorem splitString_plain {cs : List Char} (h : ∀ c ∈ cs, c ≠ '"' ∧ c ≠ '\\') (ds : List Char) :
    splitString false (cs ++ ds) =
      (splitString false ds).map fun (body, rest) => (cs ++ body, rest) := by
  induction cs with
  | nil => simp
  | cons c cs ih =>
    obtain ⟨hquote, hslash⟩ := h c List.mem_cons_self
    have hrest := ih fun d hd => h d (List.mem_cons_of_mem _ hd)
    simp [splitString, hquote, hslash, hrest, Function.comp_def]

/-- The text of a character does not end a string. -/
theorem splitString_escape (c : Char) (cs : List Char) :
    splitString false (escape c ++ cs) =
      (splitString false cs).map fun (body, rest) => (escape c ++ body, rest) := by
  obtain ⟨he, hquote, hslash, -⟩ | ⟨e, he, -, -⟩ | ⟨he, hcontrol⟩ := escape_cases c
  · rw [he]
    exact splitString_plain (by simpa using ⟨hquote, hslash⟩) cs
  · rw [he]
    exact splitString_escaped e cs
  · have hdigit : ∀ {n : Nat}, n < 16 → hexDigit n ≠ '"' ∧ hexDigit n ≠ '\\' :=
      fun hn => ⟨hexDigit_ne hn rfl, hexDigit_ne hn rfl⟩
    have hplain : ∀ d ∈ ['0', '0', hexDigit (c.toNat / 16), hexDigit (c.toNat % 16)],
        d ≠ '"' ∧ d ≠ '\\' := by
      simpa using ⟨hdigit (show c.toNat / 16 < 16 by omega),
        hdigit (show c.toNat % 16 < 16 by omega)⟩
    have hrest := splitString_plain hplain cs
    rw [he, List.cons_append, List.cons_append, splitString_escaped, hrest, Option.map_map]
    rfl

/-- A string ends where its text does. -/
theorem splitString_flatMap (cs rest : List Char) :
    splitString false (cs.flatMap escape ++ '"' :: rest) = some (cs.flatMap escape, rest) := by
  induction cs with
  | nil => rfl
  | cons c cs ih =>
    rw [List.flatMap_cons, List.append_assoc, splitString_escape, ih, Option.map_some]

/-- The text of a string determines the string and what follows. -/
theorem quoted_append_inj {s t : String} {xs ys : List Char} (h : quoted s ++ xs = quoted t ++ ys) :
    s = t ∧ xs = ys := by
  have hcut : ∀ (s : String) (xs : List Char),
      splitString false ((quoted s ++ xs).drop 1) = some (s.toList.flatMap escape, xs) :=
    fun s xs => by
      rw [quoted, List.append_assoc]
      exact splitString_flatMap s.toList xs
  have hsplit : some (s.toList.flatMap escape, xs) = some (t.toList.flatMap escape, ys) := by
    rw [← hcut, h, hcut]
  obtain ⟨hbody, rfl⟩ := Prod.mk.inj (Option.some.inj hsplit)
  have htoList : s.toList = t.toList := by
    rw [← Option.some_inj, ← unescape?_flatMap, hbody, unescape?_flatMap]
  exact ⟨String.ext htoList, rfl⟩

/-! ### Words -/

/-- A text does not go on with a word. -/
def Ended (rest : List Char) : Prop :=
  ∀ c ∈ rest.head?, isWordChar c = false

/-- Words end where their characters end. -/
theorem word_append_inj {cs ds xs ys : List Char} (hcs : ∀ c ∈ cs, isWordChar c = true)
    (hds : ∀ c ∈ ds, isWordChar c = true) (hxs : Ended xs) (hys : Ended ys)
    (h : cs ++ xs = ds ++ ys) : cs = ds ∧ xs = ys := by
  have hword := congrArg (List.takeWhile isWordChar) h
  have hrest := congrArg (List.dropWhile isWordChar) h
  rw [takeWhile_append hcs hxs, takeWhile_append hds hys] at hword
  rw [dropWhile_append hcs hxs, dropWhile_append hds hys] at hrest
  exact ⟨hword, hrest⟩

/-- What the first character of its text tells about a value. -/
inductive Opening
  | null
  | truth (b : Bool)
  | number
  | string
  | array
  | object

/-- What a character tells about the value whose text it begins. -/
def Opening.ofChar? (c : Char) : Option Opening :=
  if c = '-' ∨ c.isDigit = true then some number
  else if c = 'n' then some null
  else if c = 't' then some (truth true)
  else if c = 'f' then some (truth false)
  else if c = '"' then some string
  else if c = '[' then some array
  else if c = '{' then some object
  else none

/-- What is told about a value by the first character of its text. -/
def Opening.ofValue : Value → Opening
  | .null => null
  | .bool b => truth b
  | .int _ | .float _ => number
  | .string _ => string
  | .array _ => array
  | .object _ => object

/-- The first character of the text of a value tells its sort. -/
theorem head_compactChars {v : Value} (h : v.Finite) :
    ∃ c cs, compactChars v = c :: cs ∧ Opening.ofChar? c = some (Opening.ofValue v) := by
  cases h with
  | null => exact ⟨_, _, rfl, rfl⟩
  | bool b => cases b <;> exact ⟨_, _, rfl, rfl⟩
  | int n =>
    obtain ⟨c, cs, hcs, hc⟩ := head_intChars n
    exact ⟨c, cs, hcs, if_pos hc⟩
  | float hx =>
    obtain ⟨c, cs, hcs, hc⟩ := head_floatChars hx
    exact ⟨c, cs, hcs, if_pos hc⟩
  | string s => exact ⟨_, _, rfl, rfl⟩
  | array _ => exact ⟨_, _, rfl, rfl⟩
  | object _ => exact ⟨_, _, rfl, rfl⟩

/-! ### Values -/

section

variable {α : Type}

/-- The texts of two things, each followed by nothing that goes on with a word, are the same only if
the things are, and what follows. -/
def Tells (text : α → List Char) (a b : α) : Prop :=
  ∀ xs ys, Ended xs → Ended ys → text a ++ xs = text b ++ ys → a = b ∧ xs = ys

/-- The text of a field. -/
def fieldChars (f : String × Value) : List Char :=
  quoted f.1 ++ ':' :: compactChars f.2

theorem compactItems_eq (vs : List Value) : compactItems vs = vs.map compactChars := by
  induction vs with
  | nil => rfl
  | cons v vs ih => rw [compactItems, ih, List.map_cons]

theorem compactFields_eq (fields : List (String × Value)) :
    compactFields fields = fields.map fieldChars := by
  induction fields with
  | nil => rfl
  | cons f fields ih => rw [compactFields, ih, List.map_cons, fieldChars]

/-- A text starts, but not with a bracket that closes. -/
def Starts (cs : List Char) : Prop :=
  ∃ c ds, cs = c :: ds ∧ c ≠ ']' ∧ c ≠ '}'

/-- What follows the first of some joined texts. -/
def others : List (List Char) → List Char → List Char
  | [], rest => rest
  | cs :: texts, rest => ',' :: (joined [','] (cs :: texts) ++ rest)

theorem joined_cons_append (cs : List Char) (texts : List (List Char)) (rest : List Char) :
    joined [','] (cs :: texts) ++ rest = cs ++ others texts rest := by
  cases texts with
  | nil => rfl
  | cons ds texts => simp [joined, others]

theorem ended_others {texts : List (List Char)} {rest : List Char} (h : Ended rest) :
    Ended (others texts rest) := by
  cases texts with
  | nil => exact h
  | cons cs texts =>
    rintro c ⟨⟩
    rfl

section

variable {text : α → List Char} {close : Char} {as bs : List α} {xs ys : List Char}
  (hclose : close = ']' ∨ close = '}') (htells : ∀ a ∈ as, ∀ b ∈ bs, Tells text a b)

include hclose htells

theorem others_inj
    (h : others (as.map text) (close :: xs) = others (bs.map text) (close :: ys)) :
    as = bs ∧ xs = ys := by
  have hended : ∀ xs, Ended (close :: xs) := by
    rintro xs c ⟨⟩
    rcases hclose with rfl | rfl <;> rfl
  have hcomma : close ≠ ',' := by rcases hclose with rfl | rfl <;> decide
  induction as generalizing bs with
  | nil =>
    cases bs with
    | nil => exact ⟨rfl, (List.cons.inj h).2⟩
    | cons b bs => exact absurd (List.cons.inj h).1 hcomma
  | cons a as ih =>
    cases bs with
    | nil => exact absurd (List.cons.inj h).1.symm hcomma
    | cons b bs =>
      have hjoined := (List.cons.inj h).2
      rw [joined_cons_append, joined_cons_append] at hjoined
      obtain ⟨rfl, hothers⟩ := htells a List.mem_cons_self b List.mem_cons_self _ _
        (ended_others (hended xs)) (ended_others (hended ys)) hjoined
      have hrest : ∀ c ∈ as, ∀ d ∈ bs, Tells text c d := fun c hc d hd =>
        htells c (List.mem_cons_of_mem _ hc) d (List.mem_cons_of_mem _ hd)
      obtain ⟨rfl, rfl⟩ := ih hrest hothers
      exact ⟨rfl, rfl⟩

/-- Texts that are told apart, joined by commas up to a closing bracket, are told apart. -/
theorem joined_append_inj (hstarts : ∀ a ∈ as ++ bs, Starts (text a))
    (h : joined [','] (as.map text) ++ close :: xs = joined [','] (bs.map text) ++ close :: ys) :
    as = bs ∧ xs = ys := by
  have hopen : ∀ {a : α} {zs rest : List Char}, Starts (text a) →
      text a ++ zs ≠ close :: rest := by
    rintro a zs rest ⟨c, ds, hcs, hbracket, hbrace⟩ heq
    rw [hcs] at heq
    cases heq
    exact hclose.elim hbracket hbrace
  cases as with
  | nil =>
    cases bs with
    | nil => exact ⟨rfl, (List.cons.inj h).2⟩
    | cons b bs =>
      rw [List.map_cons, joined_cons_append] at h
      exact absurd h.symm (hopen (hstarts b List.mem_cons_self))
  | cons a as =>
    cases bs with
    | nil =>
      rw [List.map_cons, joined_cons_append] at h
      exact absurd h (hopen (hstarts a List.mem_cons_self))
    | cons b bs =>
      -- with a comma before it, either text is what follows some other one
      exact others_inj hclose htells (congrArg (List.cons ',') h)

end

end

/-- The text of a value starts, but not with a closing bracket. -/
theorem starts_compactChars {v : Value} (h : v.Finite) : Starts (compactChars v) := by
  obtain ⟨c, cs, hcs, hc⟩ := head_compactChars h
  refine ⟨c, cs, hcs, ?_, ?_⟩ <;>
  · rintro rfl
    cases hc

theorem starts_fieldChars (f : String × Value) : Starts (fieldChars f) :=
  ⟨'"', _, rfl, by decide, by decide⟩

/-- Only values of the same sort have to be told apart by more than their first characters. -/
theorem tells_of_opening {v w : Value} (hv : v.Finite) (hw : w.Finite)
    (h : Opening.ofValue v = Opening.ofValue w → Tells compactChars v w) :
    Tells compactChars v w := by
  intro xs ys hxs hys heq
  refine h ?_ xs ys hxs hys heq
  obtain ⟨c, cs, hcs, hc⟩ := head_compactChars hv
  obtain ⟨d, ds, hds, hd⟩ := head_compactChars hw
  rw [hcs, hds] at heq
  obtain rfl : c = d := (List.cons.inj heq).1
  exact Option.some.inj (hc.symm.trans hd)

/-- Numbers are told apart. -/
theorem tells_words {v w : Value} (hv : ∀ c ∈ compactChars v, isWordChar c = true)
    (hw : ∀ c ∈ compactChars w, isWordChar c = true) (h : compactChars v = compactChars w → v = w) :
    Tells compactChars v w := fun _ _ hxs hys heq =>
  (word_append_inj hv hw hxs hys heq).imp_left h

theorem tells_arrays {vs ws : List Value} (hv : ∀ v ∈ vs, v.Finite) (hw : ∀ w ∈ ws, w.Finite)
    (h : ∀ v ∈ vs, ∀ w ∈ ws, Tells compactChars v w) :
    Tells compactChars (.array vs) (.array ws) := by
  intro xs ys _ _ heq
  have hstarts : ∀ v ∈ vs ++ ws, Starts (compactChars v) := fun v hmem =>
    starts_compactChars ((List.mem_append.1 hmem).elim (hv v) (hw v))
  simp only [compactChars, compactItems_eq, List.append_assoc, List.cons_append,
    List.nil_append] at heq
  obtain ⟨rfl, rfl⟩ := joined_append_inj (.inl rfl) h hstarts (List.cons.inj heq).2
  exact ⟨rfl, rfl⟩

theorem tells_objects {fs gs : List (String × Value)}
    (h : ∀ f ∈ fs, ∀ g ∈ gs, Tells compactChars f.2 g.2) :
    Tells compactChars (.object fs) (.object gs) := by
  intro xs ys _ _ heq
  have hfields : ∀ f ∈ fs, ∀ g ∈ gs, Tells fieldChars f g := by
    rintro ⟨k, v⟩ hf ⟨l, w⟩ hg xs ys hxs hys heq
    rw [fieldChars, fieldChars, List.append_assoc, List.append_assoc] at heq
    obtain ⟨hkey, hrest⟩ := quoted_append_inj heq
    obtain ⟨hvalue, hend⟩ := h _ hf _ hg xs ys hxs hys (List.cons.inj hrest).2
    exact ⟨Prod.ext hkey hvalue, hend⟩
  simp only [compactChars, compactFields_eq, List.append_assoc, List.cons_append,
    List.nil_append] at heq
  obtain ⟨rfl, rfl⟩ := joined_append_inj (.inr rfl) hfields (fun f _ => starts_fieldChars f)
    (List.cons.inj heq).2
  exact ⟨rfl, rfl⟩

/-- **The text of a value, with nothing behind it that goes on with a word, determines the value and
what follows.** -/
theorem tells_compactChars {v w : Value} (hv : v.Finite) (hw : w.Finite) :
    Tells compactChars v w := by
  induction hv generalizing w with
  | null =>
    refine tells_of_opening .null hw fun hopening => ?_
    cases hw <;> cases hopening
    exact fun _ _ _ _ h => ⟨rfl, List.append_cancel_left h⟩
  | bool b =>
    refine tells_of_opening (.bool b) hw fun hopening => ?_
    cases hw <;> cases hopening
    exact fun _ _ _ _ h => ⟨rfl, List.append_cancel_left h⟩
  | int n =>
    refine tells_of_opening (.int n) hw fun hopening => ?_
    cases hw with
    | int m =>
      exact tells_words isWordChar_of_mem_intChars isWordChar_of_mem_intChars fun h =>
        congrArg _ (Decimal.intChars_inj h)
    | float hy =>
      exact tells_words isWordChar_of_mem_intChars (isWordChar_of_mem_floatChars hy) fun h =>
        absurd h (intChars_ne_floatChars hy)
    | _ => cases hopening
  | float hx =>
    refine tells_of_opening (.float hx) hw fun hopening => ?_
    cases hw with
    | int m =>
      exact tells_words (isWordChar_of_mem_floatChars hx) isWordChar_of_mem_intChars fun h =>
        absurd h.symm (intChars_ne_floatChars hx)
    | float hy =>
      exact tells_words (isWordChar_of_mem_floatChars hx) (isWordChar_of_mem_floatChars hy) fun h =>
        congrArg _ (floatChars_inj hx hy h)
    | _ => cases hopening
  | string s =>
    refine tells_of_opening (.string s) hw fun hopening => ?_
    cases hw <;> cases hopening
    exact fun _ _ _ _ h => (quoted_append_inj h).imp_left (congrArg _)
  | array hitems ih =>
    refine tells_of_opening (.array hitems) hw fun hopening => ?_
    cases hw with
    | array hitems' =>
      exact tells_arrays hitems hitems' fun v hv w hw => ih v hv (hitems' w hw)
    | _ => cases hopening
  | object hfields ih =>
    refine tells_of_opening (.object hfields) hw fun hopening => ?_
    cases hw with
    | object hfields' => exact tells_objects fun f hf g hg => ih f hf (hfields' g hg)
    | _ => cases hopening

end Json

/-- Values with the same text are the same. -/
theorem Value.compact_inj {v w : Value} (hv : v.Finite) (hw : w.Finite)
    (h : v.compact = w.compact) : v = w := by
  have hended : Json.Ended [] := fun c hc => nomatch hc
  have hchars : Json.compactChars v ++ [] = Json.compactChars w ++ [] := by
    rw [List.append_nil, List.append_nil]
    simpa only [compact, String.toList_ofList] using congrArg String.toList h
  exact (Json.tells_compactChars hv hw [] [] hended hended hchars).1

end GatedRules
