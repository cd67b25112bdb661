import GatedRules.Module.Path

/-!
# Include templates

The target of an include is a template: literal text in which `${Name}` stands for the text of an
input. `parse` splits a text at its interpolations from left to right; an interpolation ends at
the first closing brace, and its name is a word of ASCII letters, digits and underscores around
which blank characters are allowed. `text` writes a template back, and `render` puts a text for
every name.
-/

namespace GatedRules

/-- One piece of an include target. -/
inductive Segment
  /-- Text that stands for itself. -/
  | literal (text : String)
  /-- A name whose text is put in. -/
  | input (name : String)
deriving DecidableEq, Repr

/-- What is wrong with the text of an include target. -/
inductive TemplateFault
  /-- An interpolation has no closing brace. -/
  | unterminated
  /-- An interpolation holds something other than a name. -/
  | invalidName (name : String)
deriving DecidableEq, Repr

/-- The message for a fault in the include target `raw`. -/
def TemplateFault.message (raw : String) : TemplateFault → String
  | unterminated => "unterminated interpolation in \"" ++ raw ++ "\""
  | invalidName name =>
    "invalid interpolation `$\x7b" ++ name ++ "\x7d` in \"" ++ raw ++ "\""

/-- An include target. -/
structure Template where
  /-- The pieces of the target, in order. -/
  segments : List Segment
deriving DecidableEq, Repr

namespace Template

/-- The template of text that stands for itself. -/
def literal (text : String) : Template :=
  ⟨[.literal text]⟩

/-- Whether a character may stand in the name of an interpolation. -/
def isNameChar (c : Char) : Bool :=
  c.isAlphanum || c = '_'

/-- The segment of a literal text, given backwards. There is none for an empty text. -/
def flush (text : List Char) : List Segment :=
  if text.isEmpty then [] else [.literal (String.ofList text.reverse)]

/-- The name between the braces of an interpolation, given backwards. -/
def nameOf (text : List Char) : Except TemplateFault String :=
  let name := Text.trim text.reverse
  if !name.isEmpty && name.all isNameChar then .ok (String.ofList name)
  else .error (.invalidName (String.ofList name))

mutual

/-- Read on in literal text, of which `text` has been read, last character first. -/
def scanLiteral (text : List Char) : List Char → Except TemplateFault (List Segment)
  | [] => .ok (flush text)
  | '$' :: '{' :: cs => do return flush text ++ (← scanName [] cs)
  | c :: cs => scanLiteral (c :: text) cs

/-- Read on in an interpolation, of which `text` has been read, last character first. -/
def scanName (text : List Char) : List Char → Except TemplateFault (List Segment)
  | [] => .error .unterminated
  | '}' :: cs => do
    let name ← nameOf text
    return .input name :: (← scanLiteral [] cs)
  | c :: cs => scanName (c :: text) cs

end

/-- Read an include target. The empty text is one empty segment. -/
def parse (raw : String) : Except TemplateFault Template :=
  if raw.toList.isEmpty then .ok (literal raw) else (scanLiteral [] raw.toList).map Template.mk

/-- The names of the interpolations, in order. -/
def inputs (t : Template) : List String :=
  t.segments.filterMap fun
    | .literal _ => none
    | .input name => some name

/-- Whether there is an interpolation. -/
def isTemplated (t : Template) : Bool :=
  t.segments.any fun
    | .literal _ => false
    | .input _ => true

/-- The target as it is written, without blanks around names. -/
def text (t : Template) : String :=
  String.join <| t.segments.map fun
    | .literal text => text
    | .input name => "$\x7b" ++ name ++ "\x7d"

/-- The texts that replace the segments, or the first name that has none. -/
def renderSegments (lookup : String → Option String) : List Segment → Except String String
  | [] => .ok ""
  | .literal text :: rest => (renderSegments lookup rest).map (text ++ ·)
  | .input name :: rest =>
    match lookup name with
    | none => .error name
    | some text => (renderSegments lookup rest).map (text ++ ·)

/-- The target with a text for every name, or the first name that has none. -/
def render (lookup : String → Option String) (t : Template) : Except String String :=
  renderSegments lookup t.segments

/-- Where an include leads. -/
inductive Target
  /-- To the module of this path. -/
  | fixed (path : String)
  /-- To a module that is known only when the inputs are. -/
  | pending (template : Template)
deriving DecidableEq, Repr

/-- Where a template leads, given the texts of the names that are known beforehand. -/
def target (known : String → Option String) (t : Template) : Target :=
  match t.render known with
  | .ok path => .fixed (Path.canonical path)
  | .error _ => .pending t

/-! ### Laws -/

variable {lookup known known' : String → Option String} {t : Template} {target : String}

theorem mem_inputs {n : String} : n ∈ t.inputs ↔ .input n ∈ t.segments := by
  rw [inputs, List.mem_filterMap]
  constructor
  · rintro ⟨segment, hm, hs⟩
    cases segment with
    | literal text => cases hs
    | input name =>
      cases hs
      exact hm
  · exact fun hm => ⟨_, hm, rfl⟩

/-- Segments with a name without a text have no text; the error is for such a name. -/
theorem renderSegments_of_unbound {segments : List Segment}
    (h : ∃ n, .input n ∈ segments ∧ lookup n = none) :
    ∃ n, .input n ∈ segments ∧ lookup n = none ∧ renderSegments lookup segments = .error n := by
  obtain ⟨n, hn, hnone⟩ := h
  induction segments with
  | nil => cases hn
  | cons segment rest ih =>
    have hrest : .input n ∈ rest → ∃ m, .input m ∈ segment :: rest ∧ lookup m = none ∧
        renderSegments lookup rest = .error m := fun hn => by
      obtain ⟨m, hm, hmnone, herror⟩ := ih hn
      exact ⟨m, List.mem_cons_of_mem _ hm, hmnone, herror⟩
    cases segment with
    | literal text =>
      obtain ⟨m, hm, hmnone, herror⟩ := hrest (by simpa using hn)
      exact ⟨m, hm, hmnone, by rw [renderSegments, herror]; rfl⟩
    | input name =>
      cases hname : lookup name with
      | none =>
        refine ⟨name, List.mem_cons_self .., hname, ?_⟩
        rw [renderSegments, hname]
      | some text =>
        have hne : n ≠ name := by
          rintro rfl
          cases hnone.symm.trans hname
        obtain ⟨m, hm, hmnone, herror⟩ := hrest (by simpa [hne] using hn)
        refine ⟨m, hm, hmnone, ?_⟩
        rw [renderSegments, hname]
        dsimp only
        rw [herror]
        rfl

/-- A template that takes a name without a text has no text; the error is for such a name. -/
theorem render_of_unbound (h : ∃ n ∈ t.inputs, lookup n = none) :
    ∃ n ∈ t.inputs, lookup n = none ∧ t.render lookup = .error n := by
  obtain ⟨n, hn, hnone⟩ := h
  obtain ⟨m, hm, hmnone, herror⟩ := renderSegments_of_unbound ⟨n, mem_inputs.1 hn, hnone⟩
  exact ⟨m, mem_inputs.2 hm, hmnone, herror⟩

/-- Segments stay the same text where more names have one. -/
theorem renderSegments_of_known {segments : List Segment}
    (hknown : ∀ n, .input n ∈ segments → ∀ text, known n = some text → known' n = some text)
    (h : renderSegments known segments = .ok target) :
    renderSegments known' segments = .ok target := by
  induction segments generalizing target with
  | nil => exact h
  | cons segment rest ih =>
    have hlater := fun n hn => hknown n (List.mem_cons_of_mem segment hn)
    cases segment with
    | literal text =>
      rw [renderSegments] at h ⊢
      cases hrest : renderSegments known rest with
      | error name =>
        rw [hrest] at h
        cases h
      | ok target' =>
        rw [hrest] at h
        rw [ih hlater hrest]
        exact h
    | input name =>
      rw [renderSegments] at h ⊢
      cases hname : known name with
      | none =>
        rw [hname] at h
        cases h
      | some text =>
        rw [hname] at h
        rw [hknown name (List.mem_cons_self ..) text hname]
        cases hrest : renderSegments known rest with
        | error name =>
          rw [hrest] at h
          cases h
        | ok target' =>
          rw [hrest] at h
          rw [ih hlater hrest]
          exact h

/-- A template keeps its text where more of its names have one. -/
theorem render_of_known
    (hknown : ∀ n ∈ t.inputs, ∀ text, known n = some text → known' n = some text)
    (h : t.render known = .ok target) : t.render known' = .ok target :=
  renderSegments_of_known (fun n hn => hknown n (mem_inputs.2 hn)) h

/-- A target that is known is that of a text. -/
theorem exists_render (h : t.target known = .fixed target) :
    ∃ text, t.render known = .ok text ∧ Path.canonical text = target := by
  unfold Template.target at h
  split at h
  · rename_i text htext
    exact ⟨text, htext, Target.fixed.inj h⟩
  · cases h

/-- A target that is known takes names with known texts only. -/
theorem exists_known (h : t.target known = .fixed target) {n : String} (hn : n ∈ t.inputs) :
    ∃ text, known n = some text := by
  obtain ⟨text, htext, -⟩ := exists_render h
  cases hname : known n with
  | some text => exact ⟨text, rfl⟩
  | none =>
    obtain ⟨m, -, -, herror⟩ := render_of_unbound ⟨n, hn, hname⟩
    rw [herror] at htext
    cases htext

end Template

end GatedRules
