import GatedRules.Proofs.Meaning
import GatedRules.Proofs.Mirrors

/-!
# Expressions in other scopes

The value of an expression depends on the scope only through the values of names: with the same
answers for names it is the same in two scopes (`Setting.alike_eval`). So what names mean in a graph
does not depend on its sites (`Graph.meaning_withoutSites`), although the scope of an entry module
holds the whole graph.
-/

namespace GatedRules

/-- The likeness of two scopes in which nothing but names is asked for. -/
def Likeness.ofScopes (scope scope' : Scope) : Likeness where
  scopes s s' := s = scope ∧ s' = scope'
  mayAsk goal := ∃ n, goal = .frame (.name scope n)
  mayAct _ := True

namespace Setting

variable {σ : Setting} {answer answer' : (goal : Goal) → Except Halt goal.Answer} {α : Type}

/-- Two plans have the same result, each one with its own answers. -/
def Alike (σ : Setting) (answer answer' : (goal : Goal) → Except Halt goal.Answer)
    (x x' : Plan α) : Prop :=
  x.run σ.plain answer = x'.run σ.plain answer'

/-- Equal steps of plain evaluations go on equally. -/
theorem related_plain : σ.plain.Related (fun _ => Eq) (fun _ => True) σ.plain where
  pure _ := rfl
  bind hx hf := by
    rw [hx]
    exact bind_congr hf
  fail _ := rfl
  exhaust := rfl
  perform _ := rfl
  visit _ hx := hx

/-- An expression has the same value in two scopes if names have. -/
theorem alike_eval {scope scope' : Scope} {slot : String}
    (h : ∀ n, answer (.frame (.name scope n)) = answer' (.frame (.name scope' n))) (e : Expr) :
    σ.Alike answer answer' (e.eval scope slot) (e.eval scope' slot) := by
  have hscopes : (Likeness.ofScopes scope scope').scopes scope scope' := ⟨rfl, rfl⟩
  have hmirrors : (e.eval scope slot).Mirrors (.ofScopes scope scope') (e.eval scope' slot) :=
    Expr.eval_mirrors hscopes trivial (fun _ => trivial) e fun n _ => ⟨n, rfl⟩
  have hanswers : (Likeness.ofScopes scope scope').Answers (fun _ => Eq) answer answer' := by
    refine ⟨fun hs _ => ?_, fun _ hask => ?_, fun _ hask => ?_⟩
    · obtain ⟨rfl, rfl⟩ := hs
      exact h _
    · obtain ⟨n, hn⟩ := hask
      cases hn
    · obtain ⟨n, hn⟩ := hask
      cases hn
  exact hmirrors.run related_plain hanswers

end Setting

/-- What names mean does not depend on sites. -/
theorem Graph.meaning_withoutSites (g : Graph) (σ : Setting) (den : String → Except Halt Value) :
    g.withoutSites.meaning σ den = g.meaning σ den := by
  have hgives : ∀ name d?, g.withoutSites.gives σ den name d? = g.gives σ den name d? := by
    intro name d?
    cases d? with
    | none => rfl
    | some d =>
      have hnames : ∀ n, answers den (.frame (.name (.entry g.withoutSites) n)) =
          answers den (.frame (.name (.entry g) n)) := fun _ => rfl
      have hvalue : σ.Alike (answers den) (answers den) (d.expr.eval (.entry g.withoutSites) name)
          (d.expr.eval (.entry g) name) := Setting.alike_eval hnames d.expr
      rw [gives, gives, hvalue]
  funext name
  rw [meaning, meaning, hgives, hgives]
  rfl

end GatedRules
