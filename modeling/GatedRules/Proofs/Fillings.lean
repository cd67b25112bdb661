import GatedRules.Evaluation.Engine
import GatedRules.Proofs.Words

/-!
# Paths of one template

A template in which one name is left open is a text with holes, and putting a text for the name
fills them all. A path is trimmed, cut at slashes and cleared of components that do not count; where
the text that is put in is a component by itself (`Path.IsComponent`), none of this touches it, so
the holes can be followed from the template to the components of the path
(`Path.components_fill`). Filling a text with holes is injective (`Text.fill_inj`): the longer text
makes the longer whole, and texts of one length are compared at the first hole. So different
components lead to different paths (`Engine.render_inj`).
-/

namespace GatedRules

namespace Text

/-- A text with holes, which are filled with one and the same text. -/
def fill (s : List Char) (ts : List (Option Char)) : List Char :=
  ts.flatMap fun t => t.elim s fun c => [c]

variable {s t : List Char} {ts : List (Option Char)}

@[simp]
theorem fill_nil (s : List Char) : fill s [] = [] :=
  rfl

@[simp]
theorem fill_none (s : List Char) (ts : List (Option Char)) :
    fill s (none :: ts) = s ++ fill s ts :=
  rfl

@[simp]
theorem fill_some (s : List Char) (c : Char) (ts : List (Option Char)) :
    fill s (some c :: ts) = c :: fill s ts :=
  rfl

theorem fill_append (s : List Char) (ts us : List (Option Char)) :
    fill s (ts ++ us) = fill s ts ++ fill s us :=
  List.flatMap_append

theorem fill_map_some (s cs : List Char) : fill s (cs.map some) = cs := by
  induction cs with
  | nil => rfl
  | cons c cs ih => rw [List.map_cons, fill_some, ih]

theorem ofList_fill_none (s : List Char) (ts : List (Option Char)) :
    String.ofList (fill s (none :: ts)) = String.ofList s ++ String.ofList (fill s ts) := by
  rw [fill_none, String.ofList_append]

theorem ofList_fill_map_some (s cs : List Char) (ts : List (Option Char)) :
    String.ofList (fill s (cs.map some ++ ts)) = String.ofList cs ++ String.ofList (fill s ts) := by
  rw [fill_append, fill_map_some, String.ofList_append]

theorem reverse_fill (s : List Char) (ts : List (Option Char)) :
    (fill s ts).reverse = fill s.reverse ts.reverse := by
  induction ts with
  | nil => rfl
  | cons t ts ih =>
    rw [List.reverse_cons, fill_append, ← ih]
    cases t with
    | none => simp
    | some c => simp

/-- A longer text makes a longer whole. -/
theorem length_fill_mono (h : s.length ≤ t.length) (ts : List (Option Char)) :
    (fill s ts).length ≤ (fill t ts).length := by
  induction ts with
  | nil => exact Nat.le_refl _
  | cons u ts ih =>
    cases u with
    | none =>
      rw [fill_none, fill_none, List.length_append, List.length_append]
      omega
    | some c =>
      rw [fill_some, fill_some, List.length_cons, List.length_cons]
      omega

/-- What fills a text with holes is known from the whole. -/
theorem fill_inj (hhole : none ∈ ts) (h : fill s ts = fill t ts) : s = t := by
  induction ts with
  | nil => cases hhole
  | cons u ts ih =>
    cases u with
    | none =>
      rw [fill_none, fill_none] at h
      refine List.append_inj_left h ?_
      have hlength := congrArg List.length h
      rw [List.length_append, List.length_append] at hlength
      obtain hle | hle := Nat.le_total s.length t.length
      · have := length_fill_mono hle ts
        omega
      · have := length_fill_mono hle ts
        omega
    | some c =>
      rw [fill_some, fill_some] at h
      exact ih (by simpa using hhole) (List.cons.inj h).2

/-! ### Trimming and cutting -/

section

variable {p : Char → Bool}

/-- Characters that are dropped are dropped before the first hole. -/
theorem dropWhile_fill (hs : ∀ c ∈ s, p c = false) (hne : s ≠ []) (ts : List (Option Char)) :
    (fill s ts).dropWhile p = fill s (ts.dropWhile fun t => t.any p) := by
  induction ts with
  | nil => rfl
  | cons t ts ih =>
    cases t with
    | none =>
      obtain ⟨c, cs, rfl⟩ := List.exists_cons_of_ne_nil hne
      have hc : p c = false := hs c List.mem_cons_self
      simp [hc]
    | some c =>
      rw [fill_some, List.dropWhile_cons, List.dropWhile_cons, Option.any_some]
      split
      · exact ih
      · rfl

/-- No hole is dropped with the characters in front of it. -/
theorem none_mem_dropWhile (p : Char → Bool) (h : none ∈ ts) :
    none ∈ ts.dropWhile fun t => t.any p := by
  induction ts with
  | nil => cases h
  | cons t ts ih =>
    cases t with
    | none => exact List.mem_cons_self
    | some c =>
      rw [List.dropWhile_cons]
      split
      · exact ih (by simpa using h)
      · exact h

theorem trim_fill (hs : ∀ c ∈ s, isBlank c = false) (hne : s ≠ []) (ts : List (Option Char)) :
    trim (fill s ts) = fill s
      ((ts.dropWhile fun t => t.any isBlank).reverse.dropWhile fun t => t.any isBlank).reverse := by
  have hs' : ∀ c ∈ s.reverse, isBlank c = false := fun c hc => hs c (List.mem_reverse.1 hc)
  rw [trim, dropWhile_fill hs hne, reverse_fill, dropWhile_fill hs' (by simpa using hne),
    reverse_fill, List.reverse_reverse]

/-- A text without separators does not cut what it is put in front of. -/
theorem split_prepend {rest first : List Char} {pieces : List (List Char)}
    (hs : ∀ c ∈ s, p c = false) (h : split p rest = first :: pieces) :
    split p (s ++ rest) = (s ++ first) :: pieces := by
  induction s with
  | nil => exact h
  | cons c cs ih =>
    have hc : ¬ p c = true := by simp [hs c List.mem_cons_self]
    rw [List.cons_append, split, if_neg hc, ih fun d hd => hs d (List.mem_cons_of_mem _ hd)]
    rfl

/-- A text with holes is cut in the same way, whatever fills them. -/
theorem exists_split_fill (p : Char → Bool) (ts : List (Option Char)) :
    ∃ first pieces, (none ∈ ts → ∃ piece ∈ first :: pieces, none ∈ piece) ∧
      ∀ s : List Char, (∀ c ∈ s, p c = false) →
        split p (fill s ts) = (first :: pieces).map (fill s) := by
  induction ts with
  | nil => exact ⟨[], [], fun hhole => absurd hhole List.not_mem_nil, fun _ _ => rfl⟩
  | cons t ts ih =>
    obtain ⟨first, pieces, hhole, hsplit⟩ := ih
    cases t with
    | none =>
      refine ⟨none :: first, pieces, fun _ => ⟨_, List.mem_cons_self, List.mem_cons_self⟩, ?_⟩
      intro s hs
      rw [fill_none, split_prepend hs (hsplit s hs)]
      rfl
    | some c =>
      by_cases hc : p c = true
      · refine ⟨[], first :: pieces, fun hmem => ?_, fun s hs => ?_⟩
        · obtain ⟨piece, hpiece, hnone⟩ := hhole (by simpa using hmem)
          exact ⟨piece, List.mem_cons_of_mem _ hpiece, hnone⟩
        · rw [fill_some, split, if_pos hc, hsplit s hs]
          rfl
      · refine ⟨some c :: first, pieces, fun hmem => ?_, fun s hs => ?_⟩
        · obtain ⟨piece, hpiece, hnone⟩ := hhole (by simpa using hmem)
          obtain rfl | hpiece := List.mem_cons.1 hpiece
          · exact ⟨_, List.mem_cons_self, List.mem_cons_of_mem _ hnone⟩
          · exact ⟨piece, List.mem_cons_of_mem _ hpiece, hnone⟩
        · rw [fill_some, split, if_neg hc, hsplit s hs]
          rfl

end

end Text

namespace Path

open Text

/-- A text is a component of a path by itself. -/
structure IsComponent (s : List Char) : Prop where
  /-- It is not empty. -/
  ne_nil : s ≠ []
  /-- It is not the component that does not count. -/
  ne_dot : s ≠ ['.']
  /-- It holds no slash. -/
  slash : ∀ c ∈ s, isSlash c = false
  /-- It holds no blank character. -/
  blank : ∀ c ∈ s, isBlank c = false

/-- Whether a component with holes counts. -/
def counts (piece : List (Option Char)) : Bool :=
  piece ≠ [] && piece ≠ [some '.']

theorem IsComponent.counts_fill {s : List Char} (hs : IsComponent s)
    (piece : List (Option Char)) :
    (fill s piece ≠ [] && fill s piece ≠ ['.']) = counts piece := by
  have hnil : ∀ {ts}, fill s ts = [] ↔ ts = [] := fun {ts} => by
    cases ts with
    | nil => simp
    | cons t ts => cases t <;> simp [hs.ne_nil]
  have hdot : fill s piece = ['.'] ↔ piece = [some '.'] := by
    cases piece with
    | nil => simp
    | cons t ts =>
      cases t with
      | some c => simp [hnil]
      | none =>
        obtain ⟨c, cs, hcs⟩ := List.exists_cons_of_ne_nil hs.ne_nil
        have hne := hs.ne_dot
        rw [hcs] at hne
        rw [fill_none, hcs]
        simp only [List.cons_append, List.cons.injEq, List.append_eq_nil_iff, reduceCtorEq,
          false_and, iff_false]
        rintro ⟨rfl, rfl, -⟩
        exact hne rfl
  rw [counts, decide_eq_decide.2 (not_congr hnil), decide_eq_decide.2 (not_congr hdot)]

/-- The components of a path with holes. -/
theorem components_fill (ts : List (Option Char)) :
    ∃ pieces : List (List (Option Char)), (none ∈ ts → ∃ piece ∈ pieces, none ∈ piece) ∧
      ∀ s, IsComponent s → components (fill s ts) = pieces.map (fill s) := by
  obtain ⟨first, pieces, hhole, hsplit⟩ := exists_split_fill isSlash
    ((ts.dropWhile fun t => t.any isBlank).reverse.dropWhile fun t => t.any isBlank).reverse
  refine ⟨(first :: pieces).filter counts, fun h => ?_, fun s hs => ?_⟩
  · have hfront := List.mem_reverse.2 (none_mem_dropWhile isBlank h)
    have hends := List.mem_reverse.2 (none_mem_dropWhile isBlank hfront)
    obtain ⟨piece, hpiece, hnone⟩ := hhole hends
    refine ⟨piece, List.mem_filter.2 ⟨hpiece, ?_⟩, hnone⟩
    rw [counts, Bool.and_eq_true, decide_eq_true_iff, decide_eq_true_iff]
    constructor <;> rintro rfl <;> simp at hnone
  · rw [components, trim_fill hs.blank hs.ne_nil, hsplit s hs.slash, List.filter_map]
    congr 1
    exact List.filter_congr fun piece _ => hs.counts_fill piece

/-- **Different components in the same holes make different paths.** -/
theorem canonicalChars_fill_inj {s t : List Char} {ts : List (Option Char)} (hs : IsComponent s)
    (ht : IsComponent t) (hhole : none ∈ ts)
    (h : canonicalChars (fill s ts) = canonicalChars (fill t ts)) : s = t := by
  obtain ⟨pieces, hpieces, hfill⟩ := components_fill ts
  obtain ⟨piece, hpiece, hnone⟩ := hpieces hhole
  have hslash : ∀ cs, ∀ component ∈ components cs, '/' ∉ component := fun cs component hc =>
    not_mem_of_mem_split (List.mem_filter.1 hc).1 (by decide)
  have hne : ∀ {s}, pieces.map (fill s) ≠ [] := fun {s} hnil => by
    rw [List.map_eq_nil_iff.1 hnil] at hpiece
    cases hpiece
  have hsame : pieces.map (fill s) = pieces.map (fill t) := by
    have hs' := hslash (fill s ts)
    have ht' := hslash (fill t ts)
    rw [canonicalChars, canonicalChars, hfill s hs, hfill t ht] at h
    rw [hfill s hs] at hs'
    rw [hfill t ht] at ht'
    exact joined_inj hne hne hs' ht' h
  exact fill_inj hnone (List.map_inj_left.1 hsame piece hpiece)

end Path

namespace Template

open Text

/-- Segments in which one name is left open are a text with holes. -/
theorem renderSegments_fill {n : String} {lookup : String → Option String}
    {segments : List Segment} {text : String} (h : renderSegments lookup segments = .ok text) :
    ∃ ts, (.input n ∈ segments → none ∈ ts) ∧ ∀ lookup' s, lookup' n = some s →
      (∀ m ≠ n, lookup' m = lookup m) →
        renderSegments lookup' segments = .ok (String.ofList (fill s.toList ts)) := by
  induction segments generalizing text with
  | nil => exact ⟨[], fun hn => absurd hn List.not_mem_nil, fun _ _ _ _ => rfl⟩
  | cons segment rest ih =>
    cases segment with
    | literal literal =>
      rw [renderSegments] at h
      obtain ⟨text, hrest, -⟩ := map_eq_ok.1 h
      obtain ⟨ts, hhole, hts⟩ := ih hrest
      refine ⟨literal.toList.map some ++ ts, fun hn => ?_, fun lookup' s hs hsame => ?_⟩
      · exact List.mem_append_right _ (hhole (by simpa using hn))
      · rw [renderSegments, hts lookup' s hs hsame, ofList_fill_map_some, String.ofList_toList]
        rfl
    | input name =>
      rw [renderSegments] at h
      cases hname : lookup name with
      | none =>
        rw [hname] at h
        cases h
      | some known =>
        rw [hname] at h
        obtain ⟨text, hrest, -⟩ := map_eq_ok.1 h
        obtain ⟨ts, hhole, hts⟩ := ih hrest
        by_cases hopen : name = n
        · refine ⟨none :: ts, fun _ => List.mem_cons_self, fun lookup' s hs hsame => ?_⟩
          rw [renderSegments, hopen, hs]
          dsimp only
          rw [hts lookup' s hs hsame, ofList_fill_none, String.ofList_toList]
          rfl
        · refine ⟨known.toList.map some ++ ts, fun hn => ?_, fun lookup' s hs hsame => ?_⟩
          · exact List.mem_append_right _ (hhole (by simpa [Ne.symm hopen] using hn))
          · rw [renderSegments, hsame name hopen, hname]
            dsimp only
            rw [hts lookup' s hs hsame, ofList_fill_map_some, String.ofList_toList]
            rfl

end Template

namespace Engine

/-- **Where a template takes a name, different components as texts of this name lead to different
paths.** -/
theorem render_inj {site : Site} {bound bound' : String → Option Value} {n : String} {v v' : Value}
    {s s' path : String} (hn : n ∈ site.template.inputs) (hv : bound n = some v)
    (hv' : bound' n = some v') (hsame : ∀ m ≠ n, bound' m = bound m)
    (hs : v.pathText? = some s) (hs' : v'.pathText? = some s') (hc : Path.IsComponent s.toList)
    (hc' : Path.IsComponent s'.toList) (hpath : render site bound = .ok path)
    (hpath' : render site bound' = .ok path) : s = s' := by
  unfold render at hpath hpath'
  cases htext : site.template.render fun m => (bound m).bind Value.pathText? with
  | error m =>
    rw [htext] at hpath
    cases hpath
  | ok text =>
    obtain ⟨ts, hhole, hts⟩ := Template.renderSegments_fill (n := n) htext
    have hfill : ∀ {bound'' : String → Option Value} {v s}, bound'' n = some v →
        v.pathText? = some s → (∀ m ≠ n, bound'' m = bound m) →
          site.template.render (fun m => (bound'' m).bind Value.pathText?) =
            .ok (String.ofList (Text.fill s.toList ts)) := fun {bound'' v s} hv hs hsame => by
      refine hts _ s ?_ fun m hm => ?_
      · rw [hv]
        exact hs
      · rw [hsame m hm]
    rw [hfill hv hs fun _ _ => rfl] at hpath
    rw [hfill hv' hs' hsame] at hpath'
    have hpaths := (Except.ok.inj hpath).trans (Except.ok.inj hpath').symm
    rw [Path.canonical, Path.canonical, String.ofList_inj, String.toList_ofList,
      String.toList_ofList] at hpaths
    have hmem := hhole (Template.mem_inputs.1 hn)
    exact String.toList_inj.1 (Path.canonicalChars_fill_inj hc hc' hmem hpaths)

end Engine

end GatedRules
