import GatedRules.Proofs.NormalForms
import GatedRules.Proofs.Rescanning

/-!
# Interpolation

The text of an include target is cut at its interpolations, from left to right: an interpolation
starts at the first `${` and ends at the first `}` after it, and what is in between has to be a
name, but for blanks at its ends (`Template.Cut.Of`). A text that can be cut in this way is the text
of a template, and no other one is (`Template.parse_eq_ok_iff`).

The template keeps all of the text but the blanks around names. So it is written and rendered as the
cut text is, with something else in the place of the interpolations: a name between braces, or the
text of the name (`Template.Cut.text_template`, `Template.Cut.render_template`). What is written can
be cut again, and gives the same template (`Template.Cut.Of.unblanked`).
-/

namespace GatedRules

namespace Text

/-- A text without its blank characters. -/
def unblank (cs : List Char) : List Char :=
  cs.filter fun c => !isBlank c

theorem isBlank_of_mem_unblank {cs : List Char} {c : Char} (h : c ∈ unblank cs) :
    isBlank c = false := by
  simpa using (List.mem_filter.1 h).2

theorem unblank_dropWhile (cs : List Char) : unblank (cs.dropWhile isBlank) = unblank cs := by
  induction cs with
  | nil => rfl
  | cons c cs ih =>
    by_cases hc : isBlank c = true
    · rw [List.dropWhile_cons_of_pos hc, ih, unblank, unblank,
        List.filter_cons_of_neg (by simpa using hc)]
    · rw [List.dropWhile_cons_of_neg hc]

/-- Trimming removes nothing but blanks. -/
theorem unblank_trim (cs : List Char) : unblank (trim cs) = unblank cs := by
  have hreverse : ∀ ds : List Char, unblank ds.reverse = (unblank ds).reverse := fun _ =>
    List.filter_reverse
  rw [trim, hreverse, unblank_dropWhile, hreverse, List.reverse_reverse, unblank_dropWhile]

theorem unblank_eq_self {cs : List Char} (h : ∀ c ∈ cs, isBlank c = false) : unblank cs = cs :=
  List.filter_eq_self.2 fun c hc => by rw [h c hc]; rfl

theorem unblank_unblank (cs : List Char) : unblank (unblank cs) = unblank cs :=
  unblank_eq_self fun _ => isBlank_of_mem_unblank

theorem trim_unblank (cs : List Char) : trim (unblank cs) = unblank cs :=
  trim_eq_self_iff.2 ⟨fun _ hc => isBlank_of_mem_unblank (List.mem_of_mem_head? hc),
    fun _ hc => isBlank_of_mem_unblank (List.mem_of_mem_getLast? hc)⟩

end Text

/-- Whether a segment is literal text. -/
def Segment.isLiteral : Segment → Bool
  | literal _ => true
  | input _ => false

namespace Template

open Text

/-! ### Texts that are cut at their interpolations -/

/-- A text holds no opening of an interpolation. -/
def Plain (cs : List Char) : Prop :=
  ¬ ['$', '{'] <:+: cs

instance (cs : List Char) : Decidable (Plain cs) :=
  inferInstanceAs (Decidable (¬ _))

/-- A text between braces as an interpolation. -/
def braced (inside : List Char) : List Char :=
  '$' :: '{' :: (inside ++ ['}'])

/-- A text between the braces of an interpolation is a name, but for blanks at its ends. -/
structure IsNamed (inside : List Char) : Prop where
  /-- The interpolation ends at the first closing brace. -/
  closed : '}' ∉ inside
  /-- The name is not empty. -/
  nonempty : trim inside ≠ []
  /-- The name is a word. -/
  word : ∀ c ∈ trim inside, isNameChar c = true

/-- A text that is cut at its interpolations. -/
inductive Cut
  /-- The text after the last interpolation. -/
  | rest (text : List Char)
  /-- The text before the first interpolation, the text between its braces, and what follows. -/
  | opening (before inside : List Char) (cut : Cut)

namespace Cut

/-- The text with something in the place of each interpolation. -/
def write (put : List Char → List Char) : Cut → List Char
  | rest text => text
  | opening before inside cut => before ++ put inside ++ cut.write put

/-- A text is cut from left to right: each interpolation starts at the first opening, and holds a
name. -/
inductive Of : Cut → List Char → Prop
  /-- There is no interpolation. -/
  | rest {text : List Char} : Plain text → Of (.rest text) text
  /-- There is a first interpolation. -/
  | opening {before inside raw : List Char} {cut : Cut} : Plain before → IsNamed inside →
    Of cut raw → Of (.opening before inside cut) (before ++ braced inside ++ raw)

/-- The names of the interpolations. -/
def names : Cut → List String
  | rest _ => []
  | opening _ inside cut => String.ofList (unblank inside) :: cut.names

/-- The segments of a text. -/
def segments : Cut → List Segment
  | rest text => flush text.reverse
  | opening before inside cut =>
    flush before.reverse ++ .input (String.ofList (unblank inside)) :: cut.segments

/-- The template of a text. The empty text is one empty segment. -/
def template (cut : Cut) : Template :=
  if cut.segments = [] then literal "" else ⟨cut.segments⟩

/-- The same without blanks around names. -/
def unblanked : Cut → Cut
  | rest text => .rest text
  | opening before inside cut => .opening before (unblank inside) cut.unblanked

end Cut

/-! ### Names -/

theorem isBlank_of_isNameChar {c : Char} (h : isNameChar c = true) : isBlank c = false := by
  obtain ⟨hlow, hhigh⟩ := Grammar.toNat_of_isWordChar h
  unfold isBlank
  simp
  omega

theorem IsNamed.trim_eq {inside : List Char} (h : IsNamed inside) :
    trim inside = unblank inside := by
  rw [← unblank_trim]
  exact (unblank_eq_self fun c hc => isBlank_of_isNameChar (h.word c hc)).symm

theorem IsNamed.unblank {inside : List Char} (h : IsNamed inside) : IsNamed (unblank inside) := by
  refine ⟨fun hmem => h.closed (List.mem_filter.1 hmem).1, ?_, ?_⟩ <;>
    rw [trim_unblank, ← h.trim_eq]
  · exact h.nonempty
  · exact h.word

theorem nameOf_eq_ok_iff {inside : List Char} {name : String} (hclosed : '}' ∉ inside) :
    nameOf inside.reverse = .ok name ↔
      IsNamed inside ∧ name = String.ofList (unblank inside) := by
  have hword : (!(trim inside).isEmpty && (trim inside).all isNameChar) = true ↔
      IsNamed inside := by
    rw [Bool.and_eq_true, List.all_eq_true, Bool.not_eq_true', List.isEmpty_eq_false_iff]
    exact ⟨fun h => ⟨hclosed, h.1, h.2⟩, fun h => ⟨h.nonempty, h.word⟩⟩
  unfold nameOf
  rw [List.reverse_reverse]
  dsimp only
  by_cases hnamed : IsNamed inside
  · rw [if_pos (hword.2 hnamed), hnamed.trim_eq, Except.ok.injEq, eq_comm]
    exact (and_iff_right hnamed).symm
  · rw [if_neg (mt hword.1 hnamed)]
    simp [hnamed]

/-! ### Scanning -/

theorem plain_or_opening (cs : List Char) :
    Plain cs ∨ ∃ before rest, Plain before ∧ cs = before ++ '$' :: '{' :: rest := by
  induction cs with
  | nil => exact .inl (by simp [Plain])
  | cons c cs ih =>
    by_cases hhere : ['$', '{'] <+: c :: cs
    · obtain ⟨rest, hrest⟩ := hhere
      exact .inr ⟨[], rest, by simp [Plain], hrest.symm⟩
    obtain hplain | ⟨before, rest, hplain, rfl⟩ := ih
    · exact .inl fun hinfix => (List.infix_cons_iff.1 hinfix).elim hhere hplain
    · refine .inr ⟨c :: before, rest, fun hinfix => ?_, rfl⟩
      rcases List.infix_cons_iff.1 hinfix with hpre | hinfix
      · exact hhere (hpre.trans (List.prefix_append (c :: before) _))
      · exact hplain hinfix

/-- A character is read as literal text where no interpolation opens. -/
theorem scanLiteral_cons {text cs : List Char} {c : Char} (h : ¬ ['$', '{'] <+: c :: cs) :
    scanLiteral text (c :: cs) = scanLiteral (c :: text) cs := by
  rw [scanLiteral]
  rintro rest rfl rfl
  exact h ⟨rest, rfl⟩

theorem Plain.tail {c : Char} {cs : List Char} (h : Plain (c :: cs)) : Plain cs :=
  fun hinfix => h (List.infix_cons_iff.2 (.inr hinfix))

theorem scanLiteral_of_plain {text cs : List Char} (h : Plain cs) :
    scanLiteral text cs = .ok (flush (cs.reverse ++ text)) := by
  induction cs generalizing text with
  | nil => rw [scanLiteral]; rfl
  | cons c cs ih =>
    rw [scanLiteral_cons fun hpre => h hpre.isInfix, ih h.tail, List.reverse_cons,
      List.append_assoc]
    rfl

/-- Literal text ends where the first interpolation opens. -/
theorem scanLiteral_of_opening {text before cs : List Char} (h : Plain before) :
    scanLiteral text (before ++ '$' :: '{' :: cs) =
      (scanName [] cs).map (flush (before.reverse ++ text) ++ ·) := by
  induction before generalizing text with
  | nil =>
    rw [List.nil_append, scanLiteral]
    cases scanName [] cs <;> rfl
  | cons c before ih =>
    -- What follows the text before an opening starts with a dollar: nothing opens across its end.
    have hhere : ¬ ['$', '{'] <+: c :: (before ++ '$' :: '{' :: cs) := by
      cases before with
      | nil => simp
      | cons d before =>
        intro hpre
        refine h (List.IsPrefix.isInfix ?_)
        simpa [List.cons_prefix_cons] using hpre
    rw [List.cons_append, scanLiteral_cons hhere, ih h.tail, List.reverse_cons, List.append_assoc]
    rfl

/-- An interpolation ends at the first closing brace. -/
theorem scanName_of_closed {text inside cs : List Char} (h : '}' ∉ inside) :
    scanName text (inside ++ '}' :: cs) = (nameOf (inside.reverse ++ text)).bind fun name =>
      (scanLiteral [] cs).map (.input name :: ·) := by
  induction inside generalizing text with
  | nil =>
    rw [List.nil_append, List.reverse_nil, List.nil_append, scanName]
    cases nameOf text with
    | error fault => rfl
    | ok name => cases scanLiteral [] cs <;> rfl
  | cons c inside ih =>
    rw [List.mem_cons, not_or] at h
    rw [List.cons_append, scanName, ih h.2, List.reverse_cons, List.append_assoc]
    · rfl
    · exact fun he => h.1 he.symm

theorem scanName_of_unclosed {text cs : List Char} (h : '}' ∉ cs) :
    scanName text cs = .error .unterminated := by
  induction cs generalizing text with
  | nil => rw [scanName]
  | cons c cs ih =>
    rw [List.mem_cons, not_or] at h
    rw [scanName, ih h.2]
    exact fun he => h.1 he.symm

/-- A text that can be cut is scanned as it is cut. -/
theorem Cut.Of.scanLiteral {cut : Cut} {raw : List Char} (h : cut.Of raw) :
    scanLiteral [] raw = .ok cut.segments := by
  induction h with
  | rest hplain =>
    rw [scanLiteral_of_plain hplain, List.append_nil]
    rfl
  | @opening before inside raw cut hplain hnamed _ ih =>
    have hname := (nameOf_eq_ok_iff hnamed.closed).2 ⟨hnamed, rfl⟩
    have htext : before ++ braced inside ++ raw =
        before ++ '$' :: '{' :: (inside ++ '}' :: raw) := by simp [braced]
    rw [htext, scanLiteral_of_opening hplain, scanName_of_closed hnamed.closed, List.append_nil,
      List.append_nil, hname, ih]
    rfl

/-- A text that is scanned can be cut. -/
theorem exists_of_scanLiteral {raw : List Char} {segments : List Segment}
    (h : scanLiteral [] raw = .ok segments) : ∃ cut : Cut, cut.Of raw := by
  obtain hplain | ⟨before, rest, hplain, rfl⟩ := plain_or_opening raw
  · exact ⟨.rest raw, .rest hplain⟩
  rw [scanLiteral_of_opening hplain] at h
  obtain ⟨later, hlater, -⟩ := map_eq_ok.1 h
  by_cases hclosing : '}' ∈ rest
  · obtain ⟨inside, after, rfl, hclosed⟩ := List.eq_append_cons_of_mem hclosing
    rw [scanName_of_closed hclosed, List.append_nil] at hlater
    obtain ⟨name, hname, hafter⟩ := bind_eq_ok.1 hlater
    obtain ⟨last, hlast, -⟩ := map_eq_ok.1 hafter
    obtain ⟨cut, hcut⟩ := exists_of_scanLiteral hlast
    have hnamed := ((nameOf_eq_ok_iff hclosed).1 hname).1
    refine ⟨.opening before inside cut, ?_⟩
    have hof := Cut.Of.opening hplain hnamed hcut
    simpa [braced] using hof
  · rw [scanName_of_unclosed hclosing] at hlater
    cases hlater
termination_by raw.length

namespace Cut

variable {cut : Cut} {raw : List Char}

/-! ### Templates of cut texts -/

/-- A text is what it is cut into. -/
theorem Of.write_braced (h : cut.Of raw) : cut.write braced = raw := by
  induction h with
  | rest _ => rfl
  | opening _ _ _ ih => rw [write, ih]

theorem flush_eq_nil_iff {text : List Char} : flush text = [] ↔ text = [] := by
  unfold flush
  split <;> simp_all

theorem flush_reverse {text : List Char} (h : text ≠ []) :
    flush text.reverse = [.literal (String.ofList text)] := by
  rw [flush, if_neg (by simpa using h), List.reverse_reverse]

theorem Of.segments_eq_nil_iff (h : cut.Of raw) : cut.segments = [] ↔ raw = [] := by
  cases h with
  | rest _ => rw [segments, flush_eq_nil_iff, List.reverse_eq_nil_iff]
  | opening _ _ _ => simp [segments, braced]

/-- The template has the segments of the text, and an empty one if there are none. -/
theorem template_induction {p : List Segment → Prop} (cut : Cut) (h : p cut.segments)
    (hempty : p [] → p [.literal ""]) : p cut.template.segments := by
  unfold template
  split
  · rename_i hnil
    exact hempty (hnil ▸ h)
  · exact h

theorem inputs_template (cut : Cut) : cut.template.inputs = cut.names := by
  have hflush : ∀ text, inputs ⟨flush text⟩ = [] := by
    intro text
    unfold flush
    split <;> rfl
  have hsegments : inputs ⟨cut.segments⟩ = cut.names := by
    induction cut with
    | rest text => exact hflush _
    | opening before inside cut ih =>
      have happend : inputs ⟨(opening before inside cut).segments⟩ =
          inputs ⟨flush before.reverse⟩ ++ .ofList (unblank inside) :: inputs ⟨cut.segments⟩ :=
        List.filterMap_append
      rw [happend, hflush, ih]
      rfl
  exact template_induction (p := fun segments => inputs ⟨segments⟩ = cut.names) cut hsegments id

theorem renderSegments_flush (lookup : String → Option String) (text : List Char)
    (segments : List Segment) :
    renderSegments lookup (flush text.reverse ++ segments) =
      (renderSegments lookup segments).map (String.ofList text ++ ·) := by
  by_cases hempty : text = []
  · rw [flush_eq_nil_iff.2 (List.reverse_eq_nil_iff.2 hempty), hempty, List.nil_append]
    cases renderSegments lookup segments with
    | error name => rfl
    | ok rest => exact congrArg Except.ok (String.empty_append).symm
  · rw [flush_reverse hempty]
    rfl

theorem renderSegments_segments (cut : Cut) (lookup : String → Option String) :
    renderSegments lookup cut.segments =
      match cut.names.find? fun name => (lookup name).isNone with
      | some name => .error name
      | none => .ok (String.ofList (cut.write fun inside =>
          ((lookup (String.ofList (unblank inside))).getD "").toList)) := by
  induction cut with
  | rest text =>
    have hrest := renderSegments_flush lookup text []
    rw [List.append_nil] at hrest
    rw [segments, hrest]
    exact congrArg Except.ok String.append_empty
  | opening before inside cut ih =>
    rw [segments, renderSegments_flush, renderSegments, names, List.find?_cons, ih]
    cases hname : lookup (String.ofList (unblank inside)) with
    | none => rfl
    | some text =>
      dsimp only [Option.isNone_some]
      cases cut.names.find? fun name => (lookup name).isNone with
      | some name => rfl
      | none =>
        refine congrArg Except.ok (String.toList_inj.1 ?_)
        simp [write, hname]

/-- The text of a template with texts for its names, or the first name that has none. -/
theorem render_template (cut : Cut) (lookup : String → Option String) :
    cut.template.render lookup =
      match cut.names.find? fun name => (lookup name).isNone with
      | some name => .error name
      | none => .ok (String.ofList (cut.write fun inside =>
          ((lookup (String.ofList (unblank inside))).getD "").toList)) := by
  rw [← renderSegments_segments]
  exact template_induction (p := fun segments =>
    renderSegments lookup segments = renderSegments lookup cut.segments) cut rfl fun hnil => hnil

/-- With a text for every name, all of the target has a text. -/
theorem render_template_of_total (cut : Cut) (texts : String → String) :
    cut.template.render (fun name => some (texts name)) = .ok (String.ofList
      (cut.write fun inside => (texts (String.ofList (unblank inside))).toList)) := by
  have hall : (cut.names.find? fun name => (some (texts name)).isNone) = none :=
    List.find?_eq_none.2 fun _ _ => Bool.false_ne_true
  rw [render_template, hall]
  rfl

end Cut

/-- A template is written with its names between braces in the place of texts. -/
theorem render_braced (t : Template) :
    t.render (fun name => some ("$\x7b" ++ name ++ "\x7d")) = .ok t.text := by
  obtain ⟨segments⟩ := t
  unfold render text
  dsimp only
  induction segments with
  | nil => rfl
  | cons segment rest ih =>
    cases segment <;> rw [renderSegments, ih, List.map_cons, String.join_cons] <;> rfl

namespace Cut

variable {cut : Cut} {raw : List Char}

theorem text_template (cut : Cut) :
    cut.template.text.toList = cut.write fun inside => braced (unblank inside) := by
  have hrender := cut.render_template_of_total fun name => "$\x7b" ++ name ++ "\x7d"
  rw [render_braced, Except.ok.injEq] at hrender
  have hbraced : ∀ inside, ("$\x7b" ++ String.ofList (unblank inside) ++ "\x7d").toList =
      braced (unblank inside) := by
    intro inside
    simp [braced]
  rw [hrender, String.toList_ofList, funext hbraced]

theorem Of.unblanked (h : cut.Of raw) :
    cut.unblanked.Of (cut.write fun inside => braced (unblank inside)) := by
  induction h with
  | rest hplain => exact .rest hplain
  | opening hplain hnamed _ ih => exact .opening hplain hnamed.unblank ih

theorem template_unblanked (cut : Cut) : cut.unblanked.template = cut.template := by
  have hsegments : cut.unblanked.segments = cut.segments := by
    induction cut with
    | rest text => rfl
    | opening before inside cut ih =>
      rw [Cut.unblanked, segments, segments, unblank_unblank, ih]
  rw [template, template, hsegments]

/-- Between two literal texts there is an interpolation. -/
theorem isChain_template (cut : Cut) :
    cut.template.segments.IsChain fun s s' => ¬ (s.isLiteral = true ∧ s'.isLiteral = true) := by
  have hflush : ∀ text : List Char, (flush text).IsChain fun s s' =>
      ¬ (s.isLiteral = true ∧ s'.isLiteral = true) := by
    intro text
    unfold flush
    split
    · exact .nil
    · exact .singleton _
  refine template_induction cut ?_ fun _ => .singleton _
  induction cut with
  | rest text => exact hflush _
  | opening before inside cut ih =>
    refine List.isChain_append.2 ⟨hflush _, List.isChain_cons.2 ⟨?_, ih⟩, ?_⟩
    · exact fun s' _ hboth => Bool.false_ne_true hboth.1
    · rintro s - s' ⟨⟩ hboth
      exact Bool.false_ne_true hboth.2

theorem plain_of_mem_flush {cs : List Char} {text : String} (hplain : Plain cs)
    (h : .literal text ∈ flush cs.reverse) : Plain text.toList ∧ text ≠ "" := by
  by_cases hempty : cs = []
  · rw [flush_eq_nil_iff.2 (List.reverse_eq_nil_iff.2 hempty)] at h
    cases h
  · rw [flush_reverse hempty] at h
    cases List.mem_singleton.1 h
    rw [String.toList_ofList]
    exact ⟨hplain, fun he => hempty (by simpa using congrArg String.toList he)⟩

theorem Of.literal_segments (h : cut.Of raw) {text : String} (hmem : .literal text ∈ cut.segments) :
    Plain text.toList ∧ text ≠ "" := by
  induction h with
  | rest hplain => exact plain_of_mem_flush hplain hmem
  | opening hplain _ _ ih =>
    rcases List.mem_append.1 hmem with hmem | hmem
    · exact plain_of_mem_flush hplain hmem
    · exact ih (by simpa using hmem)

/-- Literal texts hold no openings, and only the empty text has an empty one. -/
theorem Of.literal_template (h : cut.Of raw) {text : String}
    (hmem : .literal text ∈ cut.template.segments) :
    Plain text.toList ∧ (text = "" → raw = []) := by
  unfold template at hmem
  split at hmem
  · rename_i hnil
    cases List.mem_singleton.1 hmem
    exact ⟨by simp [Plain], fun _ => h.segments_eq_nil_iff.1 hnil⟩
  · obtain ⟨hplain, hne⟩ := h.literal_segments hmem
    exact ⟨hplain, fun he => absurd he hne⟩

end Cut

/-! ### Reading -/

variable {raw : String}

/-- A text that can be cut is the text of one template. -/
theorem Cut.Of.parse {cut : Cut} (h : cut.Of raw.toList) : parse raw = .ok cut.template := by
  unfold Template.parse Cut.template
  by_cases hempty : raw.toList = []
  · rw [if_pos (h.segments_eq_nil_iff.2 hempty), if_pos (List.isEmpty_iff.2 hempty),
      String.toList_eq_nil_iff.1 hempty]
  · rw [if_neg (mt h.segments_eq_nil_iff.1 hempty), if_neg (mt List.isEmpty_iff.1 hempty),
      h.scanLiteral]
    rfl

/-- Templates are the texts that can be cut at their interpolations. -/
theorem parse_eq_ok_iff {t : Template} :
    parse raw = .ok t ↔ ∃ cut : Cut, cut.Of raw.toList ∧ t = cut.template := by
  constructor
  · intro h
    have hcut : ∃ cut : Cut, cut.Of raw.toList := by
      unfold parse at h
      split at h
      · rename_i hempty
        rw [List.isEmpty_iff.1 hempty]
        exact ⟨.rest [], .rest (by simp [Plain])⟩
      · obtain ⟨segments, hsegments, -⟩ := map_eq_ok.1 h
        exact exists_of_scanLiteral hsegments
    obtain ⟨cut, hcut⟩ := hcut
    rw [hcut.parse, Except.ok.injEq] at h
    exact ⟨cut, hcut, h.symm⟩
  · rintro ⟨cut, hcut, rfl⟩
    exact hcut.parse

/-- **Templates are faithful.** A text is that of a template just if it can be cut at its
interpolations, from left to right. No two literal segments of the template are adjacent, none
holds the opening of an interpolation, and none is empty unless the text is. The template is written
as the text without the blanks in its interpolations, and what is written gives the same template.
With a text for every name it is rendered as it is written, with these texts in the place of the
interpolations; otherwise the first name without a text is the error. -/
theorem parse_faithful (raw : String) :
    ((∃ t, parse raw = .ok t) ↔ ∃ cut : Cut, cut.Of raw.toList) ∧
    ∀ (t : Template) (cut : Cut), parse raw = .ok t → cut.Of raw.toList →
      cut.write braced = raw.toList ∧
      t.segments.IsChain (fun s s' => ¬ (s.isLiteral = true ∧ s'.isLiteral = true)) ∧
      (∀ text, .literal text ∈ t.segments →
        ¬ ['$', '{'] <:+: text.toList ∧ (text = "" → raw = "")) ∧
      t.inputs = cut.names ∧
      t.text.toList = cut.write (fun inside => braced (unblank inside)) ∧
      parse t.text = .ok t ∧
      (∀ texts : String → String, t.render (fun name => some (texts name)) = .ok (String.ofList
        (cut.write fun inside => (texts (String.ofList (unblank inside))).toList))) ∧
      ∀ lookup : String → Option String, t.render lookup =
        match t.inputs.find? fun name => (lookup name).isNone with
        | some name => .error name
        | none => .ok (String.ofList (cut.write fun inside =>
            ((lookup (String.ofList (unblank inside))).getD "").toList)) := by
  refine ⟨⟨fun ⟨t, h⟩ => ?_, fun ⟨cut, hcut⟩ => ⟨cut.template, hcut.parse⟩⟩, fun t cut h hcut => ?_⟩
  · obtain ⟨cut, hcut, -⟩ := parse_eq_ok_iff.1 h
    exact ⟨cut, hcut⟩
  rw [hcut.parse, Except.ok.injEq] at h
  subst h
  have hagain : parse cut.template.text = .ok cut.template := by
    rw [← cut.template_unblanked]
    refine Cut.Of.parse ?_
    rw [cut.template_unblanked, cut.text_template]
    exact hcut.unblanked
  refine ⟨hcut.write_braced, cut.isChain_template, fun text hmem => ?_, cut.inputs_template,
    cut.text_template, hagain, cut.render_template_of_total, fun lookup => ?_⟩
  · obtain ⟨hplain, hempty⟩ := hcut.literal_template hmem
    exact ⟨hplain, fun he => String.toList_eq_nil_iff.1 (hempty he)⟩
  · rw [cut.inputs_template, cut.render_template]

end Template

/-- A target with two names, one of them between blanks, and with a dollar and a brace that open
nothing. -/
def signpost : String :=
  "a$$\x7b N \x7d/\x7b$\x7bM\x7d"

theorem signpost_template :
    Template.parse signpost =
      .ok ⟨[.literal "a$", .input "N", .literal "/\x7b", .input "M"]⟩ ∧
    Template.parse "a$$\x7bN\x7d/\x7b$\x7bM\x7d" = Template.parse signpost ∧
    ∃ t, Template.parse signpost = .ok t ∧
      t.render (fun name => some (name ++ name)) = .ok "a$NN/\x7bMM" ∧
      t.render (fun name => if name = "N" then some "b" else none) = .error "M" := by
  have hcut : (Template.Cut.opening ['a', '$'] [' ', 'N', ' ']
      (.opening ['/', '{'] ['M'] (.rest []))).Of signpost.toList :=
    .opening (by decide) ⟨by decide, by decide, List.all_eq_true.1 (by decide)⟩
      (.opening (by decide) ⟨by decide, by decide, List.all_eq_true.1 (by decide)⟩
        (.rest (by decide)))
  have hparse : Template.parse signpost =
      .ok ⟨[.literal "a$", .input "N", .literal "/\x7b", .input "M"]⟩ :=
    eq_ok_of_toOption (by decide)
  obtain ⟨-, -, -, -, -, hagain, htotal, hpartial⟩ :=
    (Template.parse_faithful signpost).2 _ _ hparse hcut
  exact ⟨hparse, hagain.trans hparse.symm, _, hparse, (htotal _).trans (by decide),
    (hpartial _).trans (by decide)⟩

end GatedRules
