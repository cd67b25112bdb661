import GatedRules.Evaluation.Scope
import GatedRules.Proofs.Balance

/-!
# Texts of frames

The text of a definition's frame ends in `#primary` or `#default`. No name that a compiled module
looks up does: words hold no `#` at all, and in the canonical text of a condition, which is
balanced, every `#` stands inside a string and so before a quotation mark (`Balanced.sheltered`). So
the text of a frame tells whether it is that of a name or of a definition
(`Scope.frame_ne_definitionFrame`).
-/

namespace GatedRules

namespace Text

/-- Every `#` of a text has a quotation mark somewhere after it. -/
def Sheltered (cs : List Char) : Prop :=
  ∀ before after, cs = before ++ '#' :: after → '"' ∈ after

theorem sheltered_of_not_mem {cs : List Char} (h : '#' ∉ cs) : Sheltered cs := by
  rintro before after rfl
  exact absurd (List.mem_append_right _ List.mem_cons_self) h

/-- In a balanced text, a `#` stands inside of a string. -/
theorem Balanced.sheltered {cs : List Char} (h : Balanced cs) : Sheltered cs := by
  rintro before after rfl
  exact quote_mem_of_run h

end Text

open Text

theorem mark_not_mem_of_isWord {word : String} (h : IsWord word) : '#' ∉ word.toList :=
  fun hm => absurd (h '#' hm) (by decide)

/-! ### Frames -/

namespace Scope

@[simp]
theorem paths_child (s : Scope) (g : Graph) : (s.child g).paths = s.paths ++ [g.root] := by
  simp [paths, child]

theorem text_entry (g : Graph) : (entry g).text = g.root :=
  String.ofList_toList

/-- The text of a scope at a site begins with that of the scope around. -/
theorem text_child (s : Scope) (g : Graph) : (s.child g).text = s.text ++ "|" ++ g.root := by
  have hne : s.paths.map String.toList ≠ [] := by simp [paths]
  rw [text, text, Text.joinedText, Text.joinedText, paths_child, List.map_append,
    List.map_singleton, Text.joined_concat hne]
  simp only [String.ofList_append, String.ofList_toList]

theorem frame_inj {s : Scope} {n n' : String} (h : s.frame n = s.frame n') : n = n' := by
  have h := congrArg String.toList h
  simp only [frame, String.toList_append] at h
  exact String.toList_inj.1 (List.append_cancel_left h)

/-- A sheltered name has no frame in common with a definition, be it in another scope. -/
theorem frame_ne_definitionFrame {s t : Scope} {n m : String} {rank : Rank}
    (h : Sheltered n.toList) : s.frame n ≠ t.definitionFrame m rank := by
  intro heq
  have heq : (s.text.toList ++ [':', ':']) ++ n.toList =
      (t.frame m).toList ++ '#' :: rank.text.toList := by
    have heq := congrArg String.toList heq
    rw [frame, definitionFrame, String.toList_append, String.toList_append, String.toList_append,
      String.toList_append, List.append_assoc (t.frame m).toList] at heq
    exact heq
  have hquote : '"' ∉ rank.text.toList := by
    cases rank <;> decide
  have hcolon : ':' ∉ '#' :: rank.text.toList := by
    cases rank <;> decide
  obtain ⟨rest, -, hn⟩ | ⟨rest, hbefore, hn⟩ := List.append_eq_append_iff.1 heq
  · exact hquote (h rest rank.text.toList hn)
  · obtain rfl | ⟨rest, c, rfl⟩ := List.eq_nil_or_concat rest
    · exact hquote (h [] rank.text.toList hn.symm)
    · rw [List.concat_eq_append] at hbefore hn
      -- The mark would begin with the end of the separator before the name.
      have hlast : s.text.toList ++ [':'] ++ [':'] = (t.frame m).toList ++ rest ++ [c] := by
        rw [List.append_assoc, List.append_assoc]
        exact hbefore
      obtain rfl : ':' = c := List.singleton_inj.1 (List.append_inj' hlast rfl).2
      exact hcolon (by simp [hn])

theorem definitionFrame_inj {s : Scope} {n n' : String} {rank rank' : Rank}
    (h : s.definitionFrame n rank = s.definitionFrame n' rank') : n = n' ∧ rank = rank' := by
  have h := congrArg String.toList h
  simp only [frame, definitionFrame, String.toList_append, List.append_assoc] at h
  have h := List.append_cancel_left (List.append_cancel_left h)
  -- The texts of the two ranks have the same length.
  have hlen : ("#".toList ++ rank.text.toList).length =
      ("#".toList ++ rank'.text.toList).length := by
    cases rank <;> cases rank' <;> simp [Rank.text]
  obtain ⟨hn, hr⟩ := List.append_inj' h hlen
  refine ⟨String.toList_inj.1 hn, ?_⟩
  cases rank <;> cases rank' <;> first | rfl | exact absurd hr (by decide)

end Scope

end GatedRules
