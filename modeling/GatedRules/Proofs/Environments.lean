import GatedRules.Proofs.Descent
import GatedRules.Proofs.Mirrors
import GatedRules.Proofs.Once

/-!
# Expressions see the names that they reference

An expression is evaluated in an `Environment`, which says where it is evaluated, what the inputs
are, and what happens when something is asked for. Looking up a name may do anything: it may fail,
change the store, and fill cells.

Of all this an expression sees the names that it references and the input of its own slot
(`Expr.eval_sees_references`). It asks for nothing else, whatever the answers are. So environments
in which these names behave alike cannot be told apart by its value, nor by the stateful calls that
are seen, nor by what is left in the store. And an expression that is not stateful makes no calls of
its own: all that are seen belong to the names that it looks up.
-/

namespace GatedRules

/-! ### What plans demand -/

/-- Something that a plan may demand. -/
inductive Demand
  /-- The answer to a goal. -/
  | answer (goal : Goal)
  /-- The result of an action. -/
  | result (action : Action)

/-- A demand is among what may be asked for and done. -/
def Demand.Among (mayAsk : Goal → Prop) (mayAct : Action → Prop) : Demand → Prop
  | answer goal => mayAsk goal
  | result action => mayAct action

/-- A plan demands something if there are answers and results with which it comes to demand it. -/
inductive Plan.Demands {α : Type} : Plan α → Demand → Prop
  /-- It asks now. -/
  | ask (goal : Goal) (next : goal.Answer → Plan α) : Demands (.ask goal next) (.answer goal)
  /-- It acts now. -/
  | perform (action : Action) (next : action.Result → Plan α) :
    Demands (.perform action next) (.result action)
  /-- It demands that after an answer. -/
  | answered {goal : Goal} {next : goal.Answer → Plan α} {d : Demand} (r : goal.Answer) :
    Demands (next r) d → Demands (.ask goal next) d
  /-- It demands that after a result. -/
  | acted {action : Action} {next : action.Result → Plan α} {d : Demand} (r : action.Result) :
    Demands (next r) d → Demands (.perform action next) d

/-- A plan that keeps to what it may do demands nothing else. -/
theorem Plan.Demands.among {α : Type} {mayAsk : Goal → Prop} {mayAct : Action → Prop}
    {Q : Unit → α → Prop} {x : Plan α} {d : Demand} (hd : x.Demands d)
    (hx : x.Follows (.only mayAsk mayAct) Q ()) : d.Among mayAsk mayAct := by
  induction hd with
  | ask goal next => exact hx.1
  | perform action next => exact hx.1
  | answered r _ ih => exact ih (hx.2 () r trivial trivial)
  | acted r _ ih => exact ih (hx.2 () r trivial trivial)

/-! ### Environments -/

/-- Where an expression is evaluated. -/
structure Environment where
  /-- The scope. -/
  scope : Scope
  /-- What the evaluation depends on and does not change, such as the inputs. -/
  setting : Setting
  /-- The frames that have been entered. -/
  stack : List Frame
  /-- What happens when something is asked for. -/
  answer : (goal : Goal) → Observed goal.Answer

/-- The stateful call that is seen. -/
def Sight.call? : Sight → Option (String × StatefulCall)
  | acts _ (.call slot c) => some (slot, c)
  | _ => none

/-- The stateful calls that are seen, in their order. -/
def Sight.calls (log : List Sight) : List (String × StatefulCall) :=
  log.filterMap call?

theorem Sight.calls_append (log log' : List Sight) :
    calls (log ++ log') = calls log ++ calls log' :=
  List.filterMap_append ..

namespace Environment

/-- The environment in which an execution evaluates the definitions of a scope. -/
def ofExecution (σ : Setting) (budget : Nat) (scope : Scope) (stack : List Frame) : Environment :=
  ⟨scope, σ, stack, (observer σ).answer budget⟩

/-- Look up a name. -/
def lookup (E : Environment) (name : String) (w : World) : List Sight × Except Halt Value × World :=
  E.answer (.frame (.name E.scope name)) E.stack w

/-- Evaluate an expression that belongs to a definition of `slot`. -/
def eval (E : Environment) (slot : String) (e : Expr) (w : World) :
    List Sight × Except Halt Value × World :=
  (e.eval E.scope slot).run (observer E.setting) E.answer E.stack w

/-- The same environment, where nothing is seen of what happens when something is asked for. -/
def unseen (E : Environment) : Environment :=
  { E with answer := fun goal stack w => ([], (E.answer goal stack w).2) }

end Environment

/-- What is seen of two evaluations cannot be told apart: the same calls are made, the results are
the same, and the worlds that are left behind correspond. -/
structure Indistinct {α : Type} (R : World → World → Prop)
    (seen seen' : List Sight × Except Halt α × World) : Prop where
  /-- The same stateful calls are made in the same order. -/
  calls : Sight.calls seen.1 = Sight.calls seen'.1
  /-- The results are the same. -/
  result : seen.2.1 = seen'.2.1
  /-- The worlds correspond. -/
  worlds : R seen.2.2 seen'.2.2

/-- The world with another store. -/
def World.withStore (w : World) (store : Store) : World :=
  { w with engine := { w.engine with store } }

/-- In two environments some names behave alike, and so does the input of a slot. Between the worlds
there may be any correspondence `R` that respects the store. -/
structure Environment.Alike (E E' : Environment) (names : List String) (slot : String)
    (R : World → World → Prop) : Prop where
  /-- The slot has the same input. -/
  input : E.setting.input slot = E'.setting.input slot
  /-- Worlds that correspond have the same store. -/
  store : ∀ {w w'}, R w w' → w.engine.store = w'.engine.store
  /-- They still correspond when the store is replaced in both. -/
  withStore : ∀ {w w'} (store : Store), R w w' → R (w.withStore store) (w'.withStore store)
  /-- Looking up one of the names cannot be told apart. -/
  lookup : ∀ n ∈ names, ∀ {w w'}, R w w' → Indistinct R (E.lookup n w) (E'.lookup n w')

/-! ### Runs that cannot be told apart -/

/-- What an evaluation results in does not depend on what was seen before. -/
theorem Observed.bind_congr_snd {α β : Type} {x x' : Observed α} {f f' : α → Observed β}
    {stack : List Frame} {w : World} (hx : (x stack w).2 = (x' stack w).2)
    (hf : ∀ a u, (f a stack u).2 = (f' a stack u).2) :
    ((x >>= f) stack w).2 = ((x' >>= f') stack w).2 := by
  change (Observed.bind x f stack w).2 = (Observed.bind x' f' stack w).2
  unfold Observed.bind
  rcases hr : x stack w with ⟨log, halt | a, u⟩ <;> rcases hr' : x' stack w with ⟨log', out⟩ <;>
    rw [hr, hr'] at hx <;> obtain rfl := hx
  · rfl
  · exact hf a u

/-- A call reads and changes nothing but the store. -/
theorem EvalM.exec_call {w w' : World} (hstore : w.engine.store = w'.engine.store) (slot : String)
    (c : StatefulCall) (stack stack' : List String) :
    ∃ result store, (call slot c).exec stack w = (result, w.withStore store) ∧
      (call slot c).exec stack' w' = (result, w'.withStore store) := by
  cases c with
  | count groups =>
    rw [call, exec_bind, exec_bind, exec_withStore, exec_withStore, hstore]
    rcases w'.engine.store.increment _ with ⟨_ | _, _⟩ <;> exact ⟨_, _, rfl, rfl⟩
  | countUnique v groups =>
    change ∃ result store, exec (EvalM.withStore _ >>= fun _ => EvalM.withStore _) stack w = _ ∧
      exec (EvalM.withStore _ >>= fun _ => EvalM.withStore _) stack' w' = _
    rw [exec_bind, exec_bind, exec_withStore, exec_withStore, hstore]
    rcases w'.engine.store.addMembers _ _ with ⟨_ | _, _⟩ <;> exact ⟨_, _, rfl, rfl⟩
  | takeQuota quota groups =>
    rw [call, exec_bind, exec_bind, exec_withStore, exec_withStore, hstore]
    rcases w'.engine.store.takeQuota _ _ _ with ⟨_ | _, _⟩ <;> exact ⟨_, _, rfl, rfl⟩

namespace Indistinct

variable {α β : Type} {R : World → World → Prop} {stack stack' : List Frame} {w w' : World}

/-- One evaluation after another one. -/
theorem bind {x x' : Observed α} {f f' : α → Observed β}
    (hx : Indistinct R (x stack w) (x' stack' w'))
    (hf : ∀ a {u u'}, R u u' → Indistinct R (f a stack u) (f' a stack' u')) :
    Indistinct R ((x >>= f) stack w) ((x' >>= f') stack' w') := by
  change Indistinct R (Observed.bind x f stack w) (Observed.bind x' f' stack' w')
  unfold Observed.bind
  obtain ⟨hcalls, hresult, hworlds⟩ := hx
  rcases hr : x stack w with ⟨log, halt | a, u⟩ <;>
    rcases hr' : x' stack' w' with ⟨log', result', u'⟩ <;>
    rw [hr, hr'] at hcalls hresult hworlds <;> obtain rfl := hresult
  · exact ⟨hcalls, rfl, hworlds⟩
  · obtain ⟨hcalls', hresult', hworlds'⟩ := hf a hworlds
    have happend : Sight.calls (log ++ (f a stack u).1) =
        Sight.calls (log' ++ (f' a stack' u').1) := by
      rw [Sight.calls_append, Sight.calls_append, hcalls']
      exact congrArg (· ++ _) hcalls
    exact ⟨happend, hresult', hworlds'⟩

end Indistinct

namespace Environment

variable {E E' : Environment} {names : List String} {slot : String} {R : World → World → Prop}

/-- Evaluations that ask for these names, read the input of the slot, and make calls for it. -/
def likeness (E E' : Environment) (names : List String) (slot : String) : Likeness where
  scopes s s' := s = E.scope ∧ s' = E'.scope
  mayAsk goal := ∃ n ∈ names, goal = .frame (.name E.scope n)
  mayAct action := action = .input slot ∨ ∃ c, action = .call slot c

/-- What these evaluations do themselves cannot be told apart. -/
theorem Alike.perform (h : E.Alike E' names slot R) {action : Action}
    (haction : action = .input slot ∨ ∃ c, action = .call slot c) {w w' : World} (hw : R w w') :
    Indistinct R ((observer E.setting).perform action E.stack w)
      ((observer E'.setting).perform action E'.stack w') := by
  obtain rfl | ⟨c, rfl⟩ := haction
  · exact ⟨rfl, congrArg Except.ok h.input, hw⟩
  · obtain ⟨result, store, hexec, hexec'⟩ := EvalM.exec_call (h.store hw) slot c
      (E.stack.map Frame.text) (E'.stack.map Frame.text)
    have hseen : (observer E.setting).perform (.call slot c) E.stack w =
        ([.acts E.stack (.call slot c)], result, w.withStore store) :=
      congrArg (Prod.mk _) hexec
    have hseen' : (observer E'.setting).perform (.call slot c) E'.stack w' =
        ([.acts E'.stack (.call slot c)], result, w'.withStore store) :=
      congrArg (Prod.mk _) hexec'
    rw [hseen, hseen']
    exact ⟨rfl, rfl, h.withStore store hw⟩

/-- Plans that mirror each other cannot be told apart where the names for which they ask behave
alike. -/
theorem Alike.run (h : E.Alike E' names slot R) {α : Type} {x x' : Plan α}
    (hx : x.Mirrors (likeness E E' names slot) x') {w w' : World} (hw : R w w') :
    Indistinct R (x.run (observer E.setting) E.answer E.stack w)
      (x'.run (observer E'.setting) E'.answer E'.stack w') := by
  induction hx generalizing w w' with
  | done a => exact ⟨rfl, rfl, hw⟩
  | fail error => exact ⟨rfl, rfl, hw⟩
  | perform haction _ ih => exact (h.perform haction hw).bind fun r _ _ hu => ih r hu
  | @name s s' n next next' hscopes hask _ ih =>
    obtain ⟨rfl, rfl⟩ := hscopes
    obtain ⟨_, hn, hgoal⟩ := hask
    cases hgoal
    exact (h.lookup n hn hw).bind fun v _ _ hu => ih v hu
  | definition _ hask =>
    obtain ⟨n, -, hgoal⟩ := hask
    cases hgoal
  | primary _ hask =>
    obtain ⟨n, -, hgoal⟩ := hask
    cases hgoal

/-! ### What is seen of an expression itself -/

/-- Not looking at the answers changes nothing. -/
theorem run_unseen (E : Environment) {α : Type} (x : Plan α) (w : World) :
    (x.run (observer E.setting) E.unseen.answer E.stack w).2 =
      (x.run (observer E.setting) E.answer E.stack w).2 := by
  induction x generalizing w with
  | done a => rfl
  | fail error => rfl
  | perform action next ih => exact Observed.bind_congr_snd rfl fun r u => ih r u
  | ask goal next ih => exact Observed.bind_congr_snd rfl fun r u => ih r u

/-- A plan that makes no calls makes none that are seen. -/
theorem calls_run_unseen {α : Type} {x : Plan α}
    (hx : ∀ action, x.Demands (.result action) → action = .input slot) (w : World) :
    Sight.calls (x.run (observer E.setting) E.unseen.answer E.stack w).1 = [] := by
  induction x generalizing w with
  | done a => rfl
  | fail error => rfl
  | perform action next ih =>
    obtain rfl := hx action (.perform action next)
    exact ih _ (fun action' h => hx action' (.acted _ h)) w
  | ask goal next ih =>
    change Sight.calls (Observed.bind (E.unseen.answer goal)
      (fun r => (next r).run (observer E.setting) E.unseen.answer) E.stack w).1 = []
    unfold Observed.bind
    rcases hr : E.unseen.answer goal E.stack w with ⟨log, halt | r, u⟩ <;>
      obtain rfl : [] = log := congrArg Prod.fst hr
    · rfl
    · exact ih r (fun action h => hx action (.answered r h)) u

end Environment

/-! ### Expressions -/

namespace Expr

theorem mem_references {e : Expr} {n : String} : n ∈ e.references ↔ n ∈ e.mentions := by
  rw [references, List.mem_eraseDups]

/-- In two environments an expression asks for the names that it references, each time in the scope
there. -/
theorem mirrors_likeness (E E' : Environment) (e : Expr) (slot : String) :
    (e.eval E.scope slot).Mirrors (E.likeness E' e.references slot) (e.eval E'.scope slot) := by
  have hscopes : (E.likeness E' e.references slot).scopes E.scope E'.scope := ⟨rfl, rfl⟩
  exact eval_mirrors hscopes (.inl rfl) (fun c => .inr ⟨c, rfl⟩) e
    fun n hn => ⟨n, mem_references.2 hn, rfl⟩

/-- What an expression demands: names that it references, the input of its slot and, if it is
stateful, calls for its slot. -/
theorem demands_eval {e : Expr} {scope : Scope} {slot : String} {d : Demand}
    (h : (e.eval scope slot).Demands d) :
    d.Among (fun goal => ∃ n ∈ e.references, goal = .frame (.name scope n)) fun action =>
      action = .input slot ∨ e.isStateful = true ∧ ∃ c, action = .call slot c :=
  h.among (eval_follows e
    { mayAsk := fun n hn => ⟨n, mem_references.2 hn, rfl⟩
      mayRead := .inl rfl
      mayCall := fun hs c => .inr ⟨hs, c, rfl⟩ })

/-- **An expression sees the names that it references, and the input of its slot.** Where these
behave alike, evaluating it has the same result, and the same calls are seen. Whatever the answers
are, it asks for no other name, and does nothing but read the input of its slot and, if it is
stateful, make calls for its slot. So if it is not stateful, no calls are seen of itself. -/
theorem eval_sees_references (e : Expr) (slot : String) :
    (∀ (E E' : Environment) (R : World → World → Prop), E.Alike E' e.references slot R →
      ∀ w w', R w w' → Indistinct R (E.eval slot e w) (E'.eval slot e w')) ∧
    (∀ scope goal, (e.eval scope slot).Demands (.answer goal) →
      ∃ n ∈ e.references, goal = .frame (.name scope n)) ∧
    (∀ scope action, (e.eval scope slot).Demands (.result action) →
      action = .input slot ∨ e.isStateful = true ∧ ∃ c, action = .call slot c) ∧
    ∀ (E : Environment) w, (E.unseen.eval slot e w).2 = (E.eval slot e w).2 ∧
      (e.isStateful = false → Sight.calls (E.unseen.eval slot e w).1 = []) := by
  refine ⟨fun E E' R h w w' hw => h.run (mirrors_likeness E E' e slot) hw,
    fun scope goal h => demands_eval h, fun scope action h => demands_eval h,
    fun E w => ⟨E.run_unseen (e.eval E.scope slot) w, fun hs => ?_⟩⟩
  have hinput : ∀ action, (e.eval E.scope slot).Demands (.result action) →
      action = .input slot := by
    intro action h
    obtain hinput | ⟨hs', -⟩ := demands_eval h
    · exact hinput
    · rw [hs] at hs'
      cases hs'
  exact Environment.calls_run_unseen hinput w

end Expr

/-! ### Executions whose inputs agree -/

/-- Two worlds have the same store and the same cells; the engines may differ otherwise. -/
def World.SameState (w w' : World) : Prop :=
  w.engine.store = w'.engine.store ∧ w.cells = w'.cells

namespace Environment

variable {σ σ' : Setting} {root : String}

/-- In a graph without slots, looking up a name reads its input. -/
theorem answer_empty (σ : Setting) (root n : String) :
    (observer σ).answer 2 (.frame (.name (.entry (.empty root)) n)) =
      (observer σ).visit (.name (.entry (.empty root)) n)
        fun stack w => ([.acts stack (.input n)], .ok (σ.input n), w) := by
  have hrank : (Scope.entry (.empty root)).fromRank n .primary = pure none :=
    Scope.fromRank_of_none rfl
  have hplan : (Scope.entry (.empty root)).fromPrimary n = pure none := by
    unfold Scope.fromPrimary
    rw [hrank]
    change (if _ then _ else _ : Plan (Option Value)) = _
    split <;> rfl
  have hprimary : (observer σ).answer 1 (.primary (.entry (.empty root)) n) = pure none := by
    change ((Scope.entry (.empty root)).fromPrimary n).run _ _ = _
    rw [hplan]
    rfl
  change (observer σ).visit _ ((observer σ).answer 1 (.primary (.entry (.empty root)) n) >>=
    fun _ => Plan.run _ _ _) = _
  rw [hprimary]
  rfl

/-- Two executions of a graph without slots behave alike as far as their inputs agree, whatever
other inputs, modules, numbers and metrics there are. -/
theorem alike_empty {names : List String} {slot : String}
    (h : ∀ n ∈ slot :: names, σ.input n = σ'.input n) :
    (ofExecution σ 2 (.entry (.empty root)) []).Alike (ofExecution σ' 2 (.entry (.empty root)) [])
      names slot World.SameState where
  input := h slot (by simp)
  store hw := hw.1
  withStore _ hw := ⟨rfl, hw.2⟩
  lookup n hn w w' hw := by
    change Indistinct _ ((observer σ).answer 2 (.frame (.name (.entry (.empty root)) n)) [] w)
      ((observer σ').answer 2 (.frame (.name (.entry (.empty root)) n)) [] w')
    rw [answer_empty, answer_empty, ← h n (List.mem_cons_of_mem _ hn)]
    dsimp only [observer]
    rw [← hw.2]
    split
    · exact ⟨rfl, rfl, hw⟩
    split
    · exact ⟨rfl, rfl, hw⟩
    · exact ⟨rfl, rfl, hw.1, rfl⟩

end Environment

/-- A label that counts, in two executions that differ in other inputs, and a choice that does not
count. -/
theorem label_sees_references :
    let label : Expr := .call "concat" [.name "Name", .call "count" [] [.name "Tier"]] []
    let choice : Expr := .call "if" [.name "Known", .name "Name", .call "input" [] []] []
    let scope : Scope := .entry (.empty "main")
    let σ : Setting := ⟨Bundle.empty.loader, 0,
      Table.ofList [("Name", .string "ada"), ("Tier", .int 1)]⟩
    let σ' : Setting := ⟨(Bundle.ofList [("main", "LET Other := 1;")]).loader, 5,
      Table.ofList [("Tier", .int 1), ("Other", .null), ("Name", .string "ada")]⟩
    let E := Environment.ofExecution σ 2 scope []
    let E' := Environment.ofExecution σ' 2 scope []
    let w : World := ⟨.start, .empty⟩
    let w' : World := ⟨(Execution.start .start (.empty "main") .empty).2, .empty⟩
    (E.Alike E' label.references "Label" World.SameState ∧ w.SameState w' ∧
      Indistinct World.SameState (E.eval "Label" label w) (E'.eval "Label" label w')) ∧
    ((choice.eval scope "Choice").Demands (.answer (.frame (.name scope "Name"))) ∧
      ∃ n ∈ choice.references, Goal.frame (.name scope "Name") = .frame (.name scope n)) ∧
    ((choice.eval scope "Choice").Demands (.result (.input "Choice")) ∧
      (Action.input "Choice" = .input "Choice" ∨
        choice.isStateful = true ∧ ∃ c, Action.input "Choice" = .call "Choice" c)) ∧
    choice.isStateful = false ∧ Sight.calls (E.unseen.eval "Choice" choice w).1 = [] := by
  intro label choice scope σ σ' E E' w w'
  have hinputs : ∀ n ∈ ["Label", "Name", "Tier"], σ.input n = σ'.input n := by
    simp [σ, σ', Setting.input, Table.ofList, Table.get?_insert, Table.get?_empty]
  have halike : E.Alike E' label.references "Label" World.SameState :=
    Environment.alike_empty hinputs
  have hagree : w.SameState w' := ⟨rfl, rfl⟩
  obtain ⟨hindistinct, -⟩ := label.eval_sees_references "Label"
  obtain ⟨-, hanswers, hresults, hown⟩ := choice.eval_sees_references "Choice"
  have hname : (choice.eval scope "Choice").Demands (.answer (.frame (.name scope "Name"))) :=
    .answered (.bool true) (.ask _ _)
  have hinput : (choice.eval scope "Choice").Demands (.result (.input "Choice")) :=
    .answered .null (.perform _ _)
  exact ⟨⟨halike, hagree, hindistinct E E' World.SameState halike w w' hagree⟩,
    ⟨hname, hanswers scope _ hname⟩, ⟨hinput, hresults scope _ hinput⟩, rfl, (hown E w).2 rfl⟩

end GatedRules
