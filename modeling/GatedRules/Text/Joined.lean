/-!
# Joined and split texts

Texts put one after the other with a separator between any two of them, and a text cut into the
pieces between its separators.
-/

namespace GatedRules

namespace Text

/-- Texts with a separator between any two. -/
def joined (separator : List Char) : List (List Char) → List Char
  | [] => []
  | [cs] => cs
  | cs :: ds :: css => cs ++ separator ++ joined separator (ds :: css)

/-- Texts with a separator between any two. -/
def joinedText (separator : String) (texts : List String) : String :=
  String.ofList (joined separator.toList (texts.map String.toList))

/-- The pieces of a text between separators; a text without a separator is one piece. -/
def split (isSeparator : Char → Bool) : List Char → List (List Char)
  | [] => [[]]
  | c :: cs =>
    if isSeparator c then [] :: split isSeparator cs
    else
      match split isSeparator cs with
      | [] => [[c]]
      | piece :: rest => (c :: piece) :: rest

/-! ### Laws -/

theorem joined_concat {separator ds : List Char} {texts : List (List Char)} (h : texts ≠ []) :
    joined separator (texts ++ [ds]) = joined separator texts ++ separator ++ ds := by
  induction texts with
  | nil => exact absurd rfl h
  | cons cs texts ih =>
    cases texts with
    | nil => rfl
    | cons es texts =>
      have hrest := ih (List.cons_ne_nil _ _)
      rw [List.cons_append, List.cons_append, joined, joined, ← List.cons_append, hrest]
      simp only [List.append_assoc]

section

variable {isSeparator : Char → Bool}

/-- Pieces hold no separators. -/
theorem not_mem_of_mem_split {cs piece : List Char} (h : piece ∈ split isSeparator cs) {c : Char}
    (hc : isSeparator c = true) : c ∉ piece := by
  induction cs generalizing piece with
  | nil =>
    obtain rfl := List.mem_singleton.1 h
    exact List.not_mem_nil
  | cons d cs ih =>
    rw [split] at h
    split at h
    · rcases List.mem_cons.1 h with rfl | h
      · exact List.not_mem_nil
      · exact ih h
    · rename_i hd
      have hne : c ≠ d := by
        rintro rfl
        exact hd hc
      split at h
      · obtain rfl := List.mem_singleton.1 h
        simpa using hne
      · rename_i first rest hs
        rw [hs] at ih
        rcases List.mem_cons.1 h with rfl | h
        · simpa [hne] using ih List.mem_cons_self
        · exact ih (List.mem_cons_of_mem _ h)

/-- A text is cut at its first separator. -/
theorem split_append {cs : List Char} (h : ∀ c ∈ cs, isSeparator c = false) {separator : Char}
    (hs : isSeparator separator = true) (ds : List Char) :
    split isSeparator (cs ++ separator :: ds) = cs :: split isSeparator ds := by
  induction cs with
  | nil => rw [List.nil_append, split, if_pos hs]
  | cons c cs ih =>
    have hc : ¬ isSeparator c = true := by simp [h c List.mem_cons_self]
    rw [List.cons_append, split, if_neg hc, ih fun d hd => h d (List.mem_cons_of_mem _ hd)]

theorem split_of_forall {cs : List Char} (h : ∀ c ∈ cs, isSeparator c = false) :
    split isSeparator cs = [cs] := by
  induction cs with
  | nil => rfl
  | cons c cs ih =>
    have hc : ¬ isSeparator c = true := by simp [h c List.mem_cons_self]
    rw [split, if_neg hc, ih fun d hd => h d (List.mem_cons_of_mem _ hd)]

theorem mem_joined {separator c : Char} {texts : List (List Char)}
    (h : c ∈ joined [separator] texts) : c = separator ∨ ∃ cs ∈ texts, c ∈ cs := by
  induction texts with
  | nil => cases h
  | cons cs texts ih =>
    cases texts with
    | nil => exact .inr ⟨cs, by simp, h⟩
    | cons ds texts =>
      rw [joined, List.mem_append, List.mem_append, List.mem_singleton] at h
      rcases h with (h | h) | h
      · exact .inr ⟨cs, by simp, h⟩
      · exact .inl h
      · exact (ih h).imp_right fun ⟨es, he, hc⟩ => ⟨es, by simp [he], hc⟩

/-- Joined texts without separators are the pieces of the whole. -/
theorem split_joined {separator : Char} (hs : isSeparator separator = true)
    {texts : List (List Char)} (hne : texts ≠ [])
    (h : ∀ cs ∈ texts, ∀ c ∈ cs, isSeparator c = false) :
    split isSeparator (joined [separator] texts) = texts := by
  induction texts with
  | nil => exact absurd rfl hne
  | cons cs texts ih =>
    have hcs := h cs List.mem_cons_self
    cases texts with
    | nil => exact split_of_forall hcs
    | cons ds texts =>
      have hrest := ih (List.cons_ne_nil _ _) fun es he => h es (List.mem_cons_of_mem _ he)
      rw [joined, List.append_assoc, List.singleton_append, split_append hcs hs, hrest]

end

/-- Joined texts without separators are known from the whole. -/
theorem joined_inj {separator : Char} {texts texts' : List (List Char)} (hne : texts ≠ [])
    (hne' : texts' ≠ []) (h : ∀ cs ∈ texts, separator ∉ cs) (h' : ∀ cs ∈ texts', separator ∉ cs)
    (heq : joined [separator] texts = joined [separator] texts') : texts = texts' := by
  have hsplit : ∀ {texts : List (List Char)}, texts ≠ [] → (∀ cs ∈ texts, separator ∉ cs) →
      split (fun c => c = separator) (joined [separator] texts) = texts := by
    intro texts hne h
    refine split_joined (by simp) hne fun cs hcs c hc => ?_
    rw [decide_eq_false_iff_not]
    rintro rfl
    exact h cs hcs hc
  rw [← hsplit hne h, heq, hsplit hne' h']

end Text

end GatedRules
