import GatedRules.Evaluation.Lookup
import Mathlib.Data.List.Forall2

/-!
# Plans that mirror each other

Two plans mirror each other if they do the same and ask for the same, each one in its own scope:
they differ in nothing but the scopes in which names are looked up (`Plan.Mirrors`). A `Likeness`
says which scopes correspond, and what such plans may ask for and do. Expressions mirror each other
in all scopes that correspond (`Expr.eval_mirrors`), since they mention nothing but names.

Running plans that mirror each other makes no difference to what holds of answers and actions. This
is stated for any relation between what two handlers do that every step preserves
(`Handler.Related`): it then holds between the answers to goals that correspond
(`Likeness.Closed.answer`). So it serves to compare evaluations in two scopes, with two handlers, or
in two monads, and also to show that an evaluation preserves something, where a goal is compared
with itself (`Handler.Related.answer`).
-/

namespace GatedRules

/-- What is compared: scopes that correspond, with what may be asked for and done there. -/
structure Likeness where
  /-- Scopes correspond. -/
  scopes : Scope → Scope → Prop
  /-- What may be asked for. -/
  mayAsk : Goal → Prop
  /-- What may be done. -/
  mayAct : Action → Prop

/-- Every scope corresponds to itself, and everything may be asked for and done. -/
def Likeness.same : Likeness :=
  ⟨Eq, fun _ => True, fun _ => True⟩

namespace Plan

variable {ℓ : Likeness} {α β : Type}

/-- Two plans do the same and ask for the same, in scopes that correspond. -/
inductive Mirrors (ℓ : Likeness) {α : Type} : Plan α → Plan α → Prop
  /-- The result is there. -/
  | done (a : α) : Mirrors ℓ (done a) (done a)
  /-- Both fail. -/
  | fail (error : EvalError) : Mirrors ℓ (fail error) (fail error)
  /-- Both act. -/
  | perform {action : Action} {next next' : action.Result → Plan α} :
    ℓ.mayAct action → (∀ r, Mirrors ℓ (next r) (next' r)) →
    Mirrors ℓ (perform action next) (perform action next')
  /-- Both ask for a name. -/
  | name {s s' : Scope} {n : String} {next next' : Value → Plan α} :
    ℓ.scopes s s' → ℓ.mayAsk (.frame (.name s n)) → (∀ v, Mirrors ℓ (next v) (next' v)) →
    Mirrors ℓ (ask (.frame (.name s n)) next) (ask (.frame (.name s' n)) next')
  /-- Both ask for a definition. -/
  | definition {s s' : Scope} {n : String} {rank : Rank} {d : Definition}
    {next next' : Value → Plan α} :
    ℓ.scopes s s' → ℓ.mayAsk (.frame (.definition s n rank d)) →
    (∀ v, Mirrors ℓ (next v) (next' v)) →
    Mirrors ℓ (ask (.frame (.definition s n rank d)) next)
      (ask (.frame (.definition s' n rank d)) next')
  /-- Both ask for the value of a name from its proper definition or from a module. -/
  | primary {s s' : Scope} {n : String} {next next' : Option Value → Plan α} :
    ℓ.scopes s s' → ℓ.mayAsk (.primary s n) → (∀ v, Mirrors ℓ (next v) (next' v)) →
    Mirrors ℓ (ask (.primary s n) next) (ask (.primary s' n) next')

theorem mirrors_pure (a : α) : Mirrors ℓ (pure a) (pure a) :=
  .done a

theorem Mirrors.bind {x x' : Plan α} {f f' : α → Plan β} (hx : Mirrors ℓ x x')
    (hf : ∀ a, Mirrors ℓ (f a) (f' a)) : Mirrors ℓ (x >>= f) (x' >>= f') := by
  induction hx with
  | done a => exact hf a
  | fail error => exact .fail error
  | perform hact _ ih => exact .perform hact ih
  | name hs hask _ ih => exact .name hs hask ih
  | definition hs hask _ ih => exact .definition hs hask ih
  | primary hs hask _ ih => exact .primary hs hask ih

/-- Every plan mirrors itself. -/
theorem mirrors_self (x : Plan α) : Mirrors .same x x := by
  induction x with
  | done a => exact .done a
  | fail error => exact .fail error
  | perform action next ih => exact .perform trivial ih
  | ask goal next ih =>
    rcases goal with ⟨_ | _⟩ | _
    · exact .name rfl trivial ih
    · exact .definition rfl trivial ih
    · exact .primary rfl trivial ih

theorem mirrors_value {s s' : Scope} {n : String} (hs : ℓ.scopes s s')
    (h : ℓ.mayAsk (.frame (.name s n))) :
    Mirrors ℓ (value (.name s n)) (value (.name s' n)) :=
  .name hs h .done

theorem mirrors_ofValue (result : Except TypeFault Value) :
    Mirrors ℓ (ofValue result) (ofValue result) := by
  cases result with
  | ok v => exact mirrors_pure v
  | error fault => exact .fail _

theorem mirrors_all {xs xs' : List (Plan α)} (h : List.Forall₂ (Mirrors ℓ) xs xs') :
    Mirrors ℓ (all xs) (all xs') := by
  induction h with
  | nil => exact mirrors_pure []
  | cons hx _ ih => exact hx.bind fun a => ih.bind fun as => mirrors_pure (a :: as)

theorem mirrors_grouped {slot : String} {groups groups' : List (Plan Value)}
    (hcall : ∀ c, ℓ.mayAct (.call slot c)) (hg : List.Forall₂ (Mirrors ℓ) groups groups')
    (stateful : List Value → StatefulCall) :
    Mirrors ℓ (grouped slot groups stateful) (grouped slot groups' stateful) := by
  refine (mirrors_all hg).bind fun gs => ?_
  split
  · exact mirrors_pure _
  · exact .perform (hcall _) .done

end Plan

/-! ### Expressions -/

namespace Function

open Plan

variable {ℓ : Likeness} {slot : String} {args args' groups groups' : List (Plan Value)}

theorem apply_mirrors (f : Function) (hinput : ℓ.mayAct (.input slot))
    (hcall : ∀ c, ℓ.mayAct (.call slot c)) (hg : List.Forall₂ (Mirrors ℓ) groups groups')
    (ha : List.Forall₂ (Mirrors ℓ) args args') :
    Mirrors ℓ (f.apply slot groups args) (f.apply slot groups' args') := by
  have hgrouped : ∀ stateful, Mirrors ℓ (grouped slot groups stateful)
      (grouped slot groups' stateful) := mirrors_grouped hcall hg
  cases f with
  | input => exact .perform hinput .done
  | concat => exact (mirrors_all ha).bind fun _ => mirrors_ofValue _
  | count => exact hgrouped _
  | choose =>
    cases ha with
    | nil => exact mirrors_pure _
    | cons hcondition ha =>
      cases ha with
      | nil => exact mirrors_pure _
      | cons hyes hrest =>
        refine hcondition.bind fun c => ?_
        split
        · exact hyes
        · cases hrest with
          | nil => exact mirrors_pure _
          | cons hno _ => exact hno
  | bool =>
    cases ha with
    | nil => exact mirrors_pure _
    | cons harg _ => exact harg.bind fun v => mirrors_pure _
  | countUnique =>
    cases ha with
    | nil => exact mirrors_pure _
    | cons harg _ =>
      refine harg.bind fun v => ?_
      split
      · exact mirrors_pure _
      · exact hgrouped _
  | rateLimit =>
    cases ha with
    | nil => exact mirrors_pure _
    | cons harg _ =>
      refine harg.bind fun v => ?_
      split
      · exact .fail _
      · exact mirrors_pure _
      · exact hgrouped _

theorem call_mirrors (function : String) (hinput : ℓ.mayAct (.input slot))
    (hcall : ∀ c, ℓ.mayAct (.call slot c)) (hg : List.Forall₂ (Mirrors ℓ) groups groups')
    (ha : List.Forall₂ (Mirrors ℓ) args args') :
    Mirrors ℓ (call slot function args groups) (call slot function args' groups') := by
  unfold call
  rw [ha.length_eq]
  split
  · exact .fail _
  · split
    · exact .fail _
    · exact apply_mirrors _ hinput hcall hg ha

end Function

namespace Expr

open Plan

variable {ℓ : Likeness} {s s' : Scope} {slot : String}

mutual

/-- An expression asks for the same names in scopes that correspond. -/
theorem eval_mirrors (hs : ℓ.scopes s s') (hinput : ℓ.mayAct (.input slot))
    (hcall : ∀ c, ℓ.mayAct (.call slot c)) :
    ∀ e : Expr, (∀ n ∈ e.mentions, ℓ.mayAsk (.frame (.name s n))) →
      Mirrors ℓ (e.eval s slot) (e.eval s' slot)
  | literal l, _ => by
    rw [eval, eval]
    exact mirrors_pure _
  | name n, h => by
    rw [eval, eval]
    exact mirrors_value hs (h n (by simp [mentions]))
  | unary op e, h => by
    rw [eval, eval]
    refine (eval_mirrors hs hinput hcall e fun n hn => h n (by simpa [mentions])).bind fun v => ?_
    cases op <;> exact mirrors_ofValue _
  | binary op l r, h => by
    rw [eval, eval]
    refine (eval_mirrors hs hinput hcall l fun n hn => h n (by simp [mentions, hn])).bind
      fun a => ?_
    split
    · exact mirrors_pure _
    · exact (eval_mirrors hs hinput hcall r fun n hn => h n (by simp [mentions, hn])).bind
        fun b => mirrors_ofValue _
  | isNull e negated, h => by
    rw [eval, eval]
    exact (eval_mirrors hs hinput hcall e fun n hn => h n (by simpa [mentions])).bind
      fun v => mirrors_pure _
  | call function args groups, h => by
    rw [eval, eval]
    exact Function.call_mirrors function hinput hcall
      (evalEach_mirrors hs hinput hcall groups fun n hn => h n (by simp [mentions, hn]))
      (evalEach_mirrors hs hinput hcall args fun n hn => h n (by simp [mentions, hn]))

theorem evalEach_mirrors (hs : ℓ.scopes s s') (hinput : ℓ.mayAct (.input slot))
    (hcall : ∀ c, ℓ.mayAct (.call slot c)) :
    ∀ es : List Expr, (∀ n ∈ mentionsAll es, ℓ.mayAsk (.frame (.name s n))) →
      List.Forall₂ (Mirrors ℓ) (evalEach s slot es) (evalEach s' slot es)
  | [], _ => by
    rw [evalEach, evalEach]
    exact .nil
  | e :: es, h => by
    rw [evalEach, evalEach]
    exact .cons (eval_mirrors hs hinput hcall e fun n hn => h n (by simp [mentionsAll, hn]))
      (evalEach_mirrors hs hinput hcall es fun n hn => h n (by simp [mentionsAll, hn]))

end

end Expr

/-! ### Names -/

namespace Scope

open Plan

variable {ℓ : Likeness} {s s' : Scope} {name : String}

theorem conditionsHold_mirrors (hs : ℓ.scopes s s') {cs : List Condition}
    (h : ∀ c ∈ cs, ℓ.mayAsk (.frame (.name s c.name))) :
    (s.conditionsHold cs).Mirrors ℓ (s'.conditionsHold cs) := by
  induction cs with
  | nil =>
    rw [conditionsHold, conditionsHold]
    exact mirrors_pure true
  | cons c cs ih =>
    rw [conditionsHold, conditionsHold]
    refine (mirrors_value hs (h c (by simp))).bind fun v => ?_
    split
    · exact ih fun d hd => h d (by simp [hd])
    · exact mirrors_pure false

theorem fromRank_mirrors {rank : Rank} (hs : ℓ.scopes s s')
    (hd : s'.definition? name rank = s.definition? name rank)
    (hcondition : ∀ d, s.definition? name rank = some d → ∀ c ∈ d.gate.conditions,
      ℓ.mayAsk (.frame (.name s c.name)))
    (hdefinition : ∀ d, s.definition? name rank = some d →
      ℓ.mayAsk (.frame (.definition s name rank d)))
    (hskip : ℓ.mayAct .skip) : (s.fromRank name rank).Mirrors ℓ (s'.fromRank name rank) := by
  unfold fromRank
  rw [hd]
  split
  · exact mirrors_pure none
  · rename_i d hsome
    refine (conditionsHold_mirrors hs (hcondition d hsome)).bind fun b => ?_
    split
    · exact .definition hs (hdefinition d hsome) fun v => mirrors_pure (some v)
    · dsimp only
      split
      · exact .perform hskip fun _ => mirrors_pure none
      · exact mirrors_pure none

end Scope

/-! ### Runs -/

/-- A relation between what two handlers do is preserved by every step. -/
structure Handler.Related {m m' : Type → Type} [Monad m] [Monad m']
    (R : (α : Type) → m α → m' α → Prop) (mayAct : Action → Prop) (h : Handler m)
    (h' : Handler m') : Prop where
  /-- Results that are there are related. -/
  pure : ∀ {α : Type} (a : α), R α (pure a) (pure a)
  /-- Steps are related if their parts are. -/
  bind : ∀ {α β : Type} {x : m α} {x' : m' α} {f : α → m β} {f' : α → m' β},
    R α x x' → (∀ a, R β (f a) (f' a)) → R β (x >>= f) (x' >>= f')
  /-- Failures are related. -/
  fail : ∀ {α : Type} (error : EvalError), R α (h.fail error) (h'.fail error)
  /-- So is running out of budget. -/
  exhaust : ∀ {α : Type}, R α h.exhaust h'.exhaust
  /-- Actions that may be done are related. -/
  perform : ∀ {action : Action}, mayAct action →
    R action.Result (h.perform action) (h'.perform action)
  /-- Visits are related if what is done inside is. -/
  visit : ∀ {f f' : Frame} {x : m Value} {x' : m' Value}, f'.text = f.text → R Value x x' →
    R Value (h.visit f x) (h'.visit f' x')

section

variable {m m' : Type → Type} {R : (α : Type) → m α → m' α → Prop} {ℓ : Likeness}

/-- Answers to goals that correspond are related. -/
structure Likeness.Answers (ℓ : Likeness) (R : (α : Type) → m α → m' α → Prop)
    (answer : (goal : Goal) → m goal.Answer) (answer' : (goal : Goal) → m' goal.Answer) : Prop where
  /-- The values of names. -/
  name : ∀ {s s' n}, ℓ.scopes s s' → ℓ.mayAsk (.frame (.name s n)) →
    R Value (answer (.frame (.name s n))) (answer' (.frame (.name s' n)))
  /-- The values of definitions. -/
  definition : ∀ {s s' n rank d}, ℓ.scopes s s' → ℓ.mayAsk (.frame (.definition s n rank d)) →
    R Value (answer (.frame (.definition s n rank d)))
      (answer' (.frame (.definition s' n rank d)))
  /-- The values of names from their proper definitions or from modules. -/
  primary : ∀ {s s' n}, ℓ.scopes s s' → ℓ.mayAsk (.primary s n) →
    R (Option Value) (answer (.primary s n)) (answer' (.primary s' n))

/-- Goals that correspond have plans that mirror each other, and texts of frames are the same. -/
structure Likeness.Closed (ℓ : Likeness) : Prop where
  /-- Scopes that correspond have the same text. -/
  text : ∀ {s s'}, ℓ.scopes s s' → s'.text = s.text
  /-- Names are settled in the same way. -/
  name : ∀ {s s' n}, ℓ.scopes s s' → ℓ.mayAsk (.frame (.name s n)) →
    (s.settle n).Mirrors ℓ (s'.settle n)
  /-- The expressions of definitions are evaluated in the same way. -/
  definition : ∀ {s s' n rank d}, ℓ.scopes s s' → ℓ.mayAsk (.frame (.definition s n rank d)) →
    (d.expr.eval s n).Mirrors ℓ (d.expr.eval s' n)
  /-- Names get their values in the same way from proper definitions or from modules. -/
  primary : ∀ {s s' n}, ℓ.scopes s s' → ℓ.mayAsk (.primary s n) →
    (s.fromPrimary n).Mirrors ℓ (s'.fromPrimary n)

theorem Likeness.closed_same : Likeness.same.Closed where
  text hs := by rw [hs]
  name hs _ := hs ▸ Plan.mirrors_self _
  definition hs _ := hs ▸ Plan.mirrors_self _
  primary hs _ := hs ▸ Plan.mirrors_self _

variable [Monad m] [Monad m'] {h : Handler m} {h' : Handler m'}

/-- Runs of plans that mirror each other are related, if answers are. -/
theorem Plan.Mirrors.run (hr : h.Related R ℓ.mayAct h') {α : Type} {x x' : Plan α}
    (hx : x.Mirrors ℓ x') {answer : (goal : Goal) → m goal.Answer}
    {answer' : (goal : Goal) → m' goal.Answer} (ha : ℓ.Answers R answer answer') :
    R α (x.run h answer) (x'.run h' answer') := by
  induction hx with
  | done a => exact hr.pure a
  | fail error => exact hr.fail error
  | perform hact _ ih => exact hr.bind (hr.perform hact) ih
  | name hs hask _ ih => exact hr.bind (ha.name hs hask) ih
  | definition hs hask _ ih => exact hr.bind (ha.definition hs hask) ih
  | primary hs hask _ ih => exact hr.bind (ha.primary hs hask) ih

/-- **Answers to goals that correspond are related**, whatever the relation is that every step
preserves. -/
theorem Likeness.Closed.answer (hclosed : ℓ.Closed) (hr : h.Related R ℓ.mayAct h') (k : Nat) :
    ℓ.Answers R (h.answer k) (h'.answer k) := by
  induction k with
  | zero => exact ⟨fun _ _ => hr.exhaust, fun _ _ => hr.exhaust, fun _ _ => hr.exhaust⟩
  | succ k ih =>
    refine ⟨fun {s s' n} hs hask => ?_, fun {s s' n rank d} hs hask => ?_, fun hs hask => ?_⟩
    · have htext : (Frame.name s' n).text = (Frame.name s n).text := by
        simp only [Frame.text, Scope.frame, hclosed.text hs]
      exact hr.visit htext ((hclosed.name hs hask).run hr ih)
    · have htext : (Frame.definition s' n rank d).text = (Frame.definition s n rank d).text := by
        simp only [Frame.text, Scope.definitionFrame, Scope.frame, hclosed.text hs]
      exact hr.visit htext ((hclosed.definition hs hask).run hr ih)
    · exact (hclosed.primary hs hask).run hr ih

/-- Runs of one plan are related, if answers are. -/
theorem Handler.Related.run (hr : h.Related R (fun _ => True) h')
    (answer : (goal : Goal) → m goal.Answer) (answer' : (goal : Goal) → m' goal.Answer)
    (ha : ∀ goal, R goal.Answer (answer goal) (answer' goal)) {α : Type} (x : Plan α) :
    R α (x.run h answer) (x.run h' answer') := by
  have hanswers : Likeness.same.Answers R answer answer' :=
    ⟨fun {s _ n} hs _ => hs ▸ ha (.frame (.name s n)),
      fun {s _ n rank d} hs _ => hs ▸ ha (.frame (.definition s n rank d)),
      fun {s _ n} hs _ => hs ▸ ha (.primary s n)⟩
  exact (Plan.mirrors_self x).run hr hanswers

/-- The answers to a goal are related, whatever the relation is that every step preserves. -/
theorem Handler.Related.answer (hr : h.Related R (fun _ => True) h') (k : Nat) (goal : Goal) :
    R goal.Answer (h.answer k goal) (h'.answer k goal) := by
  have hanswers := Likeness.closed_same.answer hr k
  rcases goal with ⟨_ | _⟩ | _
  · exact hanswers.name rfl trivial
  · exact hanswers.definition rfl trivial
  · exact hanswers.primary rfl trivial

end

end GatedRules
