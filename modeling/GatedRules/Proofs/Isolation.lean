import GatedRules.Proofs.Hosts
import GatedRules.Source.Bundle

/-!
# Executions do not leak into each other

An execution whose modules keep no state answers as it would alone, whatever a host serves for other
executions meanwhile (`Host.answers_apart`). All that its answers depend on is its view: its graph
and inputs, its cells, and what is noted for it. The store and the counters are shared, but the one
is used by stateful calls only, and nothing reads the others.

So two evaluations are compared, of two executions with the same view, on engines that may differ in
all other ways: they ask for the same and result in the same, and leave the same cells and notes
behind (`EvalM.agree_answer`). What an execution does for itself is therefore the same in both
(`Host.serve_of_view_eq`), and what is done for others does not change its view
(`Host.Orderly.view_serve_of_ne`).
-/

namespace GatedRules

open EvalM Relation

/-! ### Notes of two executions -/

namespace Engine

variable {e e' : Engine} {i j : ExecutionId}

theorem memo_congr (h : e'.memos.get? j = e.memos.get? i) : e'.memo j = e.memo i := by
  rw [memo, memo, h]

theorem get?_note (e : Engine) (id : ExecutionId) (path : String) (known : Option Outcome) :
    (e.note id path known).memos.get? id = some ((e.memo id).insert path known) :=
  (Shards.get?_insert ..).trans (if_pos rfl)

theorem get?_note_congr (h : e'.memos.get? j = e.memos.get? i) (path : String)
    (known : Option Outcome) :
    (e'.note j path known).memos.get? j = (e.note i path known).memos.get? i := by
  rw [get?_note, get?_note, memo_congr h]

theorem get?_resolveAnew_congr (h : e'.memos.get? j = e.memos.get? i) (loader : Loader)
    (path : String) :
    (e'.resolveAnew loader j path).2.memos.get? j =
      (e.resolveAnew loader i path).2.memos.get? i := by
  unfold resolveAnew compile
  cases loader.compile path with
  | ok compiled =>
    refine get?_note_congr ?_ _ _
    exact h
  | error error =>
    dsimp only
    split
    · refine get?_note_congr ?_ _ _
      exact h
    · exact h

/-- Where the same is noted, the same becomes of a module path, and the same is noted then. -/
theorem resolvePath_congr (h : e'.memos.get? j = e.memos.get? i) (loader : Loader)
    (path : String) :
    (e'.resolvePath loader j path).1 = (e.resolvePath loader i path).1 ∧
      (e'.resolvePath loader j path).2.memos.get? j =
        (e.resolvePath loader i path).2.memos.get? i := by
  refine ⟨by rw [resolvePath_fst, resolvePath_fst, memo_congr h], ?_⟩
  unfold resolvePath
  dsimp only
  rw [memo_congr h]
  split
  · exact h
  · refine get?_resolveAnew_congr ?_ loader _
    exact h
  · refine get?_resolveAnew_congr (get?_note_congr ?_ _ _) loader _
    exact h

end Engine

/-! ### Evaluations of two executions -/

/-- Two worlds hold the same for two executions. -/
structure World.Alike (i j : ExecutionId) (w v : World) : Prop where
  /-- The cells are the same. -/
  cells : v.cells = w.cells
  /-- The same is noted. -/
  memos : v.engine.memos.get? j = w.engine.memos.get? i

namespace EvalM

/-- Two outcomes are the same, for two executions. -/
structure Agree {α : Type} (i j : ExecutionId) (out out' : Except Halt α × World) : Prop where
  /-- The results are the same. -/
  result : out'.1 = out.1
  /-- The worlds that are left behind hold the same. -/
  alike : out.2.Alike i j out'.2

variable {σ : Setting} {i j : ExecutionId} {w v : World} {stack : List String} {k : Nat} {α : Type}

/-- Steps whose outcomes are the same lead to the same, if what comes after them does. -/
theorem Agree.bind {β : Type} {x y : EvalM α} {f g : α → EvalM β}
    (h : Agree i j (x.exec stack w) (y.exec stack v))
    (hf : ∀ a w' v', x.exec stack w = (.ok a, w') → w'.Alike i j v' →
      Agree i j ((f a).exec stack w') ((g a).exec stack v')) :
    Agree i j ((x >>= f).exec stack w) ((y >>= g).exec stack v) := by
  obtain ⟨hresult, halike⟩ := h
  rw [exec_bind, exec_bind]
  rcases hr : x.exec stack w with ⟨halt | a, w'⟩ <;>
    rcases hr' : y.exec stack v with ⟨halt' | a', v'⟩ <;>
    rw [hr, hr'] at hresult halike <;> cases hresult
  · exact ⟨rfl, halike⟩
  · exact hf a w' v' hr halike

/-- An action other than a stateful call does the same for two executions. -/
theorem agree_act (h : w.Alike σ.id j v) {action : Action} (ha : ∀ slot c, action ≠ .call slot c)
    (stack : List String) :
    Agree σ.id j ((act σ action).exec stack w) ((act { σ with id := j } action).exec stack v) := by
  cases action with
  | input name => exact ⟨rfl, h⟩
  | call slot c => exact absurd rfl (ha slot c)
  | skip => exact ⟨rfl, h.cells, h.memos⟩
  | resolve path =>
    obtain ⟨hresult, hmemos⟩ := Engine.resolvePath_congr h.memos σ.loader path
    have hleft := exec_resolve σ path stack w
    have hright := exec_resolve { σ with id := j } path stack v
    change Agree σ.id j ((resolve σ path).exec stack w)
      ((resolve { σ with id := j } path).exec stack v)
    rw [hleft, hright]
    exact ⟨congrArg (Except.mapError _) hresult, h.cells, hmemos⟩

/-- The plan of a goal in a module without state does the same for two executions, if this is so for
the goals that it asks for. -/
theorem agree_run {top : Goal} {Q : Unit → α → Prop} {x : Plan α}
    (hx : x.Follows (top.protocol σ.loader) Q ()) (hstateless : top.scope.graph.Stateless)
    (hw : w.engine.Consistent σ.loader σ.id) (h : w.Alike σ.id j v)
    (hanswer : ∀ goal w' v', x.Asks σ k stack w goal w' → w'.Alike σ.id j v' →
      Agree σ.id j (((handler σ).answer k goal).exec stack w')
        (((handler { σ with id := j }).answer k goal).exec stack v')) :
    Agree σ.id j ((x.run (handler σ) ((handler σ).answer k)).exec stack w)
      ((x.run (handler { σ with id := j })
        ((handler { σ with id := j }).answer k)).exec stack v) := by
  induction x generalizing w v with
  | done a => exact ⟨rfl, h⟩
  | fail error => exact ⟨rfl, h⟩
  | perform action next ih =>
    have hmay : ∀ slot c, action ≠ .call slot c := by
      rintro slot c rfl
      exact hx.1 hstateless
    refine (agree_act h hmay stack).bind fun r w' v' hr halike => ?_
    have hacted := consistent_act σ action stack w hw
    rw [hr] at hacted
    exact ih r (hx.2 () r trivial (hw.acted hr)) hacted halike
      fun goal w'' v'' ha => hanswer goal w'' v'' (.acted hr ha)
  | ask goal next ih =>
    refine (hanswer goal w v .here h).bind fun r w' v' hr halike => ?_
    have hanswered := consistent_answer σ k goal stack w hw
    rw [hr] at hanswered
    exact ih r (hx.2 () r trivial trivial) hanswered halike
      fun goal' w'' v'' ha => hanswer goal' w'' v'' (.answered hr ha)

/-- A visit does the same for two executions, if this is so for computing the frame. -/
theorem agree_visit {f : Frame} {x y : EvalM Value} (h : w.Alike σ.id j v)
    (hx : ¬ stack.contains f.text = true → w.cells.get? f.text = none →
      Agree σ.id j (x.exec (stack ++ [f.text]) w) (y.exec (stack ++ [f.text]) v)) :
    Agree σ.id j (((handler σ).visit f x).exec stack w)
      (((handler { σ with id := j }).visit f y).exec stack v) := by
  rw [exec_visit, exec_visit, h.cells]
  split
  · exact ⟨rfl, h⟩
  rename_i hs
  cases hc : w.cells.get? f.text with
  | some u => exact ⟨rfl, h⟩
  | none =>
    obtain ⟨hresult, halike⟩ := hx hs hc
    dsimp only
    rcases hr : x.exec (stack ++ [f.text]) w with ⟨halt | u, w'⟩ <;>
      rcases hr' : y.exec (stack ++ [f.text]) v with ⟨halt' | u', v'⟩ <;>
      rw [hr, hr'] at hresult halike <;> cases hresult
    · exact ⟨rfl, halike⟩
    · exact ⟨rfl, congrArg (Table.insert · f.text u) halike.cells, halike.memos⟩

/-- **Evaluations in modules without state** do the same for two executions for which the worlds
hold the same. -/
theorem agree_answer {m : Moment} (hm : m.Valid σ)
    (hstateless : ∀ m', ReflTransGen (Moment.Next σ) m m' → m'.goal.scope.graph.Stateless)
    (h : m.world.Alike σ.id j v) :
    Agree σ.id j (m.exec σ)
      (((handler { σ with id := j }).answer m.budget m.goal).exec m.stack v) := by
  obtain ⟨k, goal, stack, w⟩ := m
  induction k generalizing goal stack w v with
  | zero => exact ⟨rfl, h⟩
  | succ k ih =>
    have hplan : goal.plan.Follows (goal.protocol σ.loader) (fun _ _ => True) () :=
      Goal.plan_leads hm.proper
    have hnext : ∀ {goal' stack' w' v'},
        Moment.Next σ ⟨k + 1, goal, stack, w⟩ ⟨k, goal', stack', w'⟩ → w'.Alike σ.id j v' →
        Agree σ.id j (((handler σ).answer k goal').exec stack' w')
          (((handler { σ with id := j }).answer k goal').exec stack' v') := by
      intro goal' stack' w' v' hnext halike
      exact ih goal' stack' w' (hnext.leads hm).2
        (fun m' hm' => hstateless m' (.head hnext hm')) halike
    cases goal with
    | primary s n =>
      exact agree_run hplan (hstateless _ .refl) hm.consistent h
        fun goal' w' v' ha halike => hnext (.primary ha) halike
    | frame f =>
      refine agree_visit h fun hs hc => ?_
      exact agree_run hplan (hstateless _ .refl) hm.consistent h
        fun goal' w' v' ha halike => hnext (.frame hs hc ha) halike

end EvalM

/-! ### Executions with the same view -/

/-- No execution of a graph against inputs comes to a module that keeps state. -/
def Loader.Stateless (loader : Loader) (graph : Graph) (inputs : Table String Value) : Prop :=
  ∀ scope, loader.Visits graph inputs scope → scope.graph.Stateless

/-- Whether a statement has a stateful expression. -/
def Statement.keepsState : Statement → Bool
  | binding _ expr _ _ => expr.isStateful
  | inclusion directive => directive.condition.any Expr.isStateful

/-- Statements without stateful expressions. -/
def Ingredients.stateless : Ingredients where
  binding _ e := e.isStateful = false
  condition e := e.isStateful = false
  target _ := True
  gate _ := True
  always := trivial
  and _ _ := trivial
  gateOf _ _ := trivial

/-- If no statement that a loader can give is stateful, then its modules keep no state. -/
theorem stateless_of_compile {loader : Loader}
    (hs : ∀ s ∈ loader.statements, s.keepsState = false) {path : String} {c : Compiled}
    (h : loader.compile path = .ok c) : c.graph.Stateless := by
  have hloader : loader.IsMadeOf .stateless := by
    refine Loader.isMadeOf_of_statements fun s hmem => ?_
    have hstate := hs s hmem
    cases s with
    | binding name expr isDefault line => exact hstate
    | inclusion directive =>
      refine ⟨trivial, fun e he => ?_⟩
      obtain ⟨target, condition, line⟩ := directive
      obtain rfl : condition = some e := he
      exact hstate
  intro slot hslot d hd
  obtain ⟨⟨n, slot⟩, he, rfl⟩ := List.mem_map.1 hslot
  exact ((isMadeOf_of_compile h hloader).definition (Table.get?_eq_some_iff.2 he) hd).elim
    And.left And.left

/-- If no statement that a loader can give is stateful, and the entry module keeps no state, then
none does to which its executions come. -/
theorem Loader.stateless_of_statements {loader : Loader} {graph : Graph}
    (hgraph : graph.Stateless) (hs : ∀ s ∈ loader.statements, s.keepsState = false)
    (inputs : Table String Value) : loader.Stateless graph inputs := by
  intro scope hvisits
  cases hvisits.nested with
  | entry => exact hgraph
  | child _ hinclude =>
    obtain ⟨site, -, bound, path, -, ho⟩ := hinclude
    obtain ⟨c, hc, rfl⟩ := Engine.compile_of_outcome ho
    exact stateless_of_compile hs hc

namespace Execution

variable {loader : Loader} {x x' : Execution} {e e' : Engine}

/-- A request results in the same for executions with the same view, and they have the same view
then. -/
theorem fetchWithin_of_view_eq (hx : x.Arises loader e)
    (hstateless : loader.Stateless x.graph x.inputs)
    (hview : Host.Entry.view ⟨x', true⟩ e' = Host.Entry.view ⟨x, true⟩ e) (budget : Nat)
    (name : String) :
    let out := x.fetchWithin budget e loader name
    let out' := x'.fetchWithin budget e' loader name
    out'.1 = out.1 ∧
      Host.Entry.view ⟨out'.2.1, true⟩ out'.2.2 = Host.Entry.view ⟨out.2.1, true⟩ out.2.2 := by
  obtain ⟨i, graph, inputs, cells⟩ := x
  obtain ⟨j, graph', inputs', cells'⟩ := x'
  obtain ⟨rfl, rfl, rfl, -, hmemos⟩ := Host.View.mk.inj hview
  have hagree := agree_answer (j := j) (v := ⟨e', cells'⟩) (hx.valid budget name)
    (fun m' hm' => hstateless _ (hx.visits hm')) ⟨rfl, hmemos⟩
  exact ⟨hagree.result, congrArg₂ (Host.View.mk graph' inputs' · true ·) hagree.alike.cells
    hagree.alike.memos⟩

/-- Requests result in the same for executions with the same view. -/
theorem fetchAllWithin_of_view_eq (hx : x.Arises loader e)
    (hstateless : loader.Stateless x.graph x.inputs)
    (hview : Host.Entry.view ⟨x', true⟩ e' = Host.Entry.view ⟨x, true⟩ e) (budget : Nat)
    (names : List String) :
    let out := x.fetchAllWithin budget e loader names
    let out' := x'.fetchAllWithin budget e' loader names
    out'.1 = out.1 ∧
      Host.Entry.view ⟨out'.2.1, true⟩ out'.2.2 = Host.Entry.view ⟨out.2.1, true⟩ out.2.2 := by
  induction names generalizing x e x' e' with
  | nil => exact ⟨rfl, hview⟩
  | cons name names ih =>
    obtain ⟨hresult, hview'⟩ := fetchWithin_of_view_eq hx hstateless hview budget name
    have harises := hx.fetchWithin budget name
    have hminds := minds_of_fetchWithin budget x e loader name
    dsimp only at hresult hview' harises hminds ⊢
    rw [fetchAllWithin, fetchAllWithin]
    rcases hr : x.fetchWithin budget e loader name with ⟨halt | v, x₁, e₁⟩ <;>
      rcases hr' : x'.fetchWithin budget e' loader name with ⟨halt' | v', x₁', e₁'⟩ <;>
      rw [hr, hr'] at hresult hview' <;> cases hresult
    · exact ⟨rfl, hview'⟩
    · rw [hr] at harises hminds
      rw [← hminds.graph, ← hminds.inputs] at hstateless
      obtain ⟨hresults, hview''⟩ := ih harises hstateless hview'
      dsimp only at hresults hview'' ⊢
      rcases hrs : x₁.fetchAllWithin budget e₁ loader names with ⟨halt | vs, x₂, e₂⟩ <;>
        rcases hrs' : x₁'.fetchAllWithin budget e₁' loader names with ⟨halt' | vs', x₂', e₂'⟩ <;>
        rw [hrs, hrs'] at hresults hview'' <;> cases hresults
      · exact ⟨rfl, hview''⟩
      · exact ⟨rfl, hview''⟩

end Execution

/-! ### Hosts with the same view -/

namespace Host

variable {loader : Loader} {h h' : Host} {label other : String}

theorem view_insert (e : Engine) (entries : Table String Entry) (label : String) (s : Entry) :
    view ⟨e, entries.insert label s⟩ label = some (s.view e) :=
  congrArg (Option.map _) (Table.get?_insert_self entries label s)

/-- Hosts with the same view of a label have entries with the same view, or none. -/
theorem get?_of_view_eq (hview : h'.view label = h.view label) :
    (h.entries.get? label = none ∧ h'.entries.get? label = none) ∨
      ∃ x x' running, h.entries.get? label = some ⟨x, running⟩ ∧
        h'.entries.get? label = some ⟨x', running⟩ ∧
        Entry.view ⟨x', running⟩ h'.engine = Entry.view ⟨x, running⟩ h.engine := by
  unfold view at hview
  rcases hs : h.entries.get? label with _ | ⟨x, running⟩ <;>
    rcases hs' : h'.entries.get? label with _ | ⟨x', running'⟩ <;>
    rw [hs, hs'] at hview
  · exact .inl ⟨rfl, rfl⟩
  · cases hview
  · cases hview
  · have hentries := Option.some.inj hview
    obtain rfl : running' = running := congrArg View.running hentries
    exact .inr ⟨x, x', running', rfl, rfl, hentries⟩

/-- What is done with a running execution is the same where the view is the same, if it is so for
any two executions with the same view. -/
theorem withRunning_of_view_eq (hview : h'.view label = h.view label)
    {f f' : Execution → Reply × Host}
    (hf : ∀ x x', h.entries.get? label = some ⟨x, true⟩ →
      h'.entries.get? label = some ⟨x', true⟩ →
      Entry.view ⟨x', true⟩ h'.engine = Entry.view ⟨x, true⟩ h.engine →
      (f' x').1 = (f x).1 ∧ (f' x').2.view label = (f x).2.view label) :
    (h'.withRunning label f').1 = (h.withRunning label f).1 ∧
      (h'.withRunning label f').2.view label = (h.withRunning label f).2.view label := by
  obtain ⟨hs, hs'⟩ | ⟨x, x', running, hs, hs', hentries⟩ := get?_of_view_eq hview <;>
    rw [withRunning, withRunning, hs, hs']
  · exact ⟨rfl, hview⟩
  · cases running with
    | false => exact ⟨rfl, hview⟩
    | true => exact hf x x' hs hs' hentries

/-- Where nothing is noted any more, the view is the same if it was before. -/
theorem Entry.view_finish_congr {s s' : Entry} {e e' : Engine} (hview : s'.view e' = s.view e)
    (running : Bool) :
    Entry.view ⟨s'.execution, running⟩ (e'.finish s'.execution.id).2 =
      Entry.view ⟨s.execution, running⟩ (e.finish s.execution.id).2 := by
  obtain ⟨hgraph, hinputs, hcells, -, -⟩ := View.mk.inj hview
  rw [Entry.view, Entry.view, Engine.get?_finish, Engine.get?_finish]
  dsimp only
  rw [hgraph, hinputs, hcells]

theorem drop_of_view_eq (hview : h'.view label = h.view label) :
    (h'.drop label).1 = (h.drop label).1 ∧
      (h'.drop label).2.view label = (h.drop label).2.view label := by
  refine withRunning_of_view_eq hview fun x x' _ _ hentries => ⟨rfl, ?_⟩
  rw [view_insert, view_insert]
  exact congrArg some (Entry.view_finish_congr hentries false)

/-- An execution that starts has the view of a fresh one. -/
theorem Orderly.view_start (ho : h.Orderly loader) (label : String) (graph : Graph)
    (inputs : Table String Value) :
    (h.start label graph inputs).view label = some ⟨graph, inputs, .empty, true, none⟩ := by
  rw [Host.start, view_insert]
  exact congrArg (fun memo => some (View.mk graph inputs .empty true memo))
    (ho.numbered h.engine.nextId (Nat.le_refl _))

/-- **What is done for a label** depends on its view only, if its modules keep no state. -/
theorem serve_of_view_eq (hr : h.Reachable loader) (hr' : h'.Reachable loader)
    (hview : h'.view label = h.view label)
    (hstateless : ∀ u ∈ h.view label, loader.Stateless u.graph u.inputs) (command : Command) :
    (h'.serve loader label command).1 = (h.serve loader label command).1 ∧
      (h'.serve loader label command).2.view label =
        (h.serve loader label command).2.view label := by
  have hkeeps : ∀ {x}, h.entries.get? label = some ⟨x, true⟩ →
      loader.Stateless x.graph x.inputs := fun {x} hx =>
    hstateless (Entry.view ⟨x, true⟩ h.engine) (Option.map_eq_some_iff.2 ⟨_, hx, rfl⟩)
  cases command with
  | start graph inputs =>
    refine ⟨rfl, ?_⟩
    rw [serve, serve, (hr.orderly.arises (acts_drop loader h label)).view_start,
      (hr'.orderly.arises (acts_drop loader h' label)).view_start]
  | fetch budget name =>
    refine withRunning_of_view_eq hview fun x x' hx hx' hentries => ?_
    obtain ⟨hresult, hentries'⟩ := Execution.fetchWithin_of_view_eq ⟨h, label, hr, rfl, hx⟩
      (hkeeps hx) hentries budget name
    refine ⟨congrArg Reply.value hresult, ?_⟩
    rw [view_insert, view_insert]
    exact congrArg some hentries'
  | fetchAll budget names =>
    refine withRunning_of_view_eq hview fun x x' hx hx' hentries => ?_
    obtain ⟨hresult, hentries'⟩ := Execution.fetchAllWithin_of_view_eq ⟨h, label, hr, rfl, hx⟩
      (hkeeps hx) hentries budget names
    refine ⟨congrArg Reply.values hresult, ?_⟩
    rw [view_insert, view_insert]
    exact congrArg some hentries'
  | drop => exact drop_of_view_eq hview
  | finish =>
    obtain ⟨hs, hs'⟩ | ⟨x, x', running, hs, hs', hentries⟩ := get?_of_view_eq hview
    · rw [serve, serve, hs, hs']
      exact ⟨rfl, hview⟩
    · have hmemos : h'.engine.memos.get? x'.id = h.engine.memos.get? x.id :=
        congrArg View.memo hentries
      rw [serve, serve, hs, hs']
      refine ⟨?_, ?_⟩
      · dsimp only [Engine.finish]
        rw [hmemos]
      · rw [view, view]
        dsimp only
        rw [hs, hs']
        exact congrArg some (Entry.view_finish_congr hentries running)

/-- What is done with a running execution leaves one of the same graph and inputs. -/
theorem view_withRunning {P : Graph → Table String Value → Prop} {f : Execution → Reply × Host}
    (hf : ∀ x, ∃ x' running e, (f x).2 = ⟨e, h.entries.insert label ⟨x', running⟩⟩ ∧
      x'.graph = x.graph ∧ x'.inputs = x.inputs)
    (hnow : ∀ u ∈ h.view label, P u.graph u.inputs) :
    ∀ u ∈ (h.withRunning label f).2.view label, P u.graph u.inputs := by
  rw [withRunning]
  split
  · rename_i x hx
    obtain ⟨x', running, e, hhost, hgraph, hinputs⟩ := hf x
    have hold := hnow (Entry.view ⟨x, true⟩ h.engine) (Option.map_eq_some_iff.2 ⟨_, hx, rfl⟩)
    rw [hhost, view_insert]
    intro u hu
    cases hu
    change P x'.graph x'.inputs
    rw [hgraph, hinputs]
    exact hold
  · exact hnow

/-- What is running under a label has been started there. -/
theorem view_serve {P : Graph → Table String Value → Prop} {command : Command}
    (hnow : ∀ u ∈ h.view label, P u.graph u.inputs)
    (hstart : ∀ graph inputs, command = .start graph inputs → P graph inputs) :
    ∀ u ∈ (h.serve loader label command).2.view label, P u.graph u.inputs := by
  cases command with
  | start graph inputs =>
    intro u hu
    rw [serve, Host.start, view_insert] at hu
    cases hu
    exact hstart graph inputs rfl
  | fetch budget name =>
    refine view_withRunning (fun x => ?_) hnow
    have hminds := x.minds_of_fetchWithin budget h.engine loader name
    exact ⟨_, _, _, rfl, hminds.graph, hminds.inputs⟩
  | fetchAll budget names =>
    refine view_withRunning (fun x => ?_) hnow
    have hminds := x.minds_of_fetchAllWithin budget h.engine loader names
    exact ⟨_, _, _, rfl, hminds.graph, hminds.inputs⟩
  | drop => exact view_withRunning (fun x => ⟨_, _, _, rfl, rfl, rfl⟩) hnow
  | finish =>
    rw [serve]
    split
    · exact hnow
    · rename_i s hs
      intro u hu
      obtain ⟨t, ht, rfl⟩ := Option.map_eq_some_iff.1 hu
      obtain rfl := Option.some.inj (hs.symm.trans ht)
      exact hnow (s.view h.engine) (Option.map_eq_some_iff.2 ⟨s, hs, rfl⟩)

/-- A host answers for a label as one that serves the commands for this label only, if they have the
same view of it, and the modules that executions under it come to keep no state. -/
theorem answers_of_view_eq (hr : h.Reachable loader) (hr' : h'.Reachable loader)
    (hview : h'.view label = h.view label)
    (hnow : ∀ u ∈ h.view label, loader.Stateless u.graph u.inputs)
    {steps : List (String × Command)}
    (hstart : ∀ graph inputs, (label, .start graph inputs) ∈ steps →
      loader.Stateless graph inputs) :
    h'.answers loader label (steps.filter fun step => step.1 = label) =
      h.answers loader label steps := by
  induction steps generalizing h h' with
  | nil => rfl
  | cons step steps ih =>
    obtain ⟨other, command⟩ := step
    have hrest : ∀ graph inputs, (label, .start graph inputs) ∈ steps →
        loader.Stateless graph inputs :=
      fun graph inputs hmem => hstart graph inputs (List.mem_cons_of_mem _ hmem)
    by_cases hlabel : other = label
    · subst hlabel
      have hcommand : ∀ graph inputs, command = .start graph inputs →
          loader.Stateless graph inputs := by
        rintro graph inputs rfl
        exact hstart graph inputs List.mem_cons_self
      obtain ⟨hreply, hview'⟩ := serve_of_view_eq hr hr' hview hnow command
      rw [List.filter_cons_of_pos (by simp), answers_cons_self, answers_cons_self, hreply]
      exact congrArg _ (ih (hr.serve _ _) (hr'.serve _ _) hview' (view_serve hnow hcommand) hrest)
    · -- What is served for another label does not change the view.
      have hsame := hr.orderly.view_serve_of_ne (Ne.symm hlabel) command
      rw [List.filter_cons_of_neg (by simpa using hlabel), answers_cons_of_ne _ _ hlabel]
      exact ih (hr.serve _ _) hr' (hview.trans hsame.symm) (hsame ▸ hnow) hrest

/-! ### Executions that have been dropped -/

/-- A number has been given to an execution that is not running any more, and nothing is noted for
it. -/
structure Gone (id : ExecutionId) (h : Host) : Prop where
  /-- The number has been given. -/
  given : id < h.engine.nextId
  /-- Nothing is noted. -/
  memo : h.engine.memos.get? id = none
  /-- No execution of the number is running. -/
  dropped : ∀ {label s}, h.entries.get? label = some s → s.execution.id = id → s.running = false

theorem Gone.acts {id : ExecutionId} (hg : Gone id h) (ha : Acts loader label h h') :
    Gone id h' := by
  cases ha with
  | @use s s' e hs hid hrunning hminds _ hdropped =>
    -- If the execution of the number is used, it stays dropped.
    have hstays : s.execution.id = id → s'.running = false := by
      intro hsame
      rw [← Bool.not_eq_true]
      intro htrue
      have hfalse := hg.dropped hs hsame
      rw [hrunning htrue] at hfalse
      cases hfalse
    refine ⟨hminds.nextId ▸ hg.given, ?_, fun ht hsame => ?_⟩
    · by_cases hsame : s.execution.id = id
      · exact hsame ▸ hdropped (hstays hsame)
      · exact (hminds.memos id (Ne.symm hsame)).trans hg.memo
    · rcases of_get?_insert ht with ⟨-, rfl⟩ | ⟨-, ht⟩
      · exact hstays (hid ▸ hsame)
      · exact hg.dropped ht hsame
  | start graph inputs =>
    refine ⟨Nat.lt_succ_of_lt hg.given, hg.memo, fun ht hsame => ?_⟩
    rcases of_get?_insert ht with ⟨-, rfl⟩ | ⟨-, ht⟩
    · exact absurd hsame (Nat.ne_of_gt hg.given)
    · exact hg.dropped ht hsame

theorem Gone.arises {id : ExecutionId} (hg : Gone id h)
    (ha : ReflTransGen (Acts loader label) h h') : Gone id h' := by
  induction ha with
  | refl => exact hg
  | tail _ hact ih => exact ih.acts hact

theorem Gone.run {id : ExecutionId} (hg : Gone id h) (loader : Loader)
    (steps : List (String × Command)) : Gone id (h.run loader steps).2 := by
  induction steps generalizing h with
  | nil => exact hg
  | cons step steps ih => exact ih (hg.arises (serve_acts loader h step.1 step.2))

/-- A command ends an execution that is running under its label. -/
def Command.Ends : Command → Prop
  | start _ _ => True
  | drop => True
  | _ => False

/-- An execution that is dropped is gone. -/
theorem Orderly.gone_drop (ho : h.Orderly loader) {x : Execution}
    (hx : h.entries.get? label = some ⟨x, true⟩) : Gone x.id (h.drop label).2 := by
  rw [drop, withRunning_of_get? hx]
  refine ⟨ho.given hx, Engine.get?_finish _ _, fun ht hsame => ?_⟩
  rcases of_get?_insert ht with ⟨-, rfl⟩ | ⟨hl, ht⟩
  · rfl
  · exact absurd (ho.distinct ht hx hsame) hl

theorem Orderly.gone_serve (ho : h.Orderly loader) {x : Execution}
    (hx : h.entries.get? label = some ⟨x, true⟩) {command : Command} (hends : command.Ends) :
    Gone x.id (h.serve loader label command).2 := by
  have hdrop := ho.gone_drop hx
  cases command with
  | start graph inputs =>
    have hacts : Acts loader label (h.drop label).2 ((h.drop label).2.start label graph inputs) :=
      .start graph inputs
    exact hdrop.acts hacts
  | drop => exact hdrop
  | _ => exact hends.elim

/-- **Executions do not leak into each other.** Let a host serve commands for any labels in any
order, with a loader, and let the modules to which executions under one label come keep no state.
Then all answers for this label, be they values or errors, are those of a host that serves the
commands for this label only. No command for another label changes one of them, whatever becomes of
it. And once an execution has been dropped, nothing is ever noted for it again. -/
theorem answers_apart {loader : Loader} {e e' : Engine} (he : e.Numbered) (he' : e'.Numbered)
    {label : String} {steps : List (String × Command)}
    (hstateless : ∀ graph inputs, (label, .start graph inputs) ∈ steps →
      loader.Stateless graph inputs) :
    (idle e).answers loader label steps =
        (idle e').answers loader label (steps.filter fun step => step.1 = label) ∧
      (∀ before after other command, other ≠ label →
        steps = before ++ (other, command) :: after →
        (idle e).answers loader label steps =
          (idle e).answers loader label (before ++ after)) ∧
      ∀ before after other command x, command.Ends →
        steps = before ++ (other, command) :: after →
        ((idle e).run loader before).2.entries.get? other = some ⟨x, true⟩ →
        ((idle e).run loader steps).2.engine.memoSize x.id = 0 := by
  have halone : ∀ {e' steps'}, e'.Numbered →
      (∀ graph inputs, (label, .start graph inputs) ∈ steps' → loader.Stateless graph inputs) →
      (idle e).answers loader label steps' =
        (idle e').answers loader label (steps'.filter fun step => step.1 = label) :=
    fun he' hstart => (answers_of_view_eq (.idle he) (.idle he') rfl nofun hstart).symm
  refine ⟨halone he' hstateless, ?_, ?_⟩
  · rintro before after other command hne rfl
    have hstart : ∀ graph inputs, (label, .start graph inputs) ∈ before ++ after →
        loader.Stateless graph inputs := fun graph inputs hmem =>
      hstateless graph inputs (List.mem_append.2 <|
        (List.mem_append.1 hmem).imp_right (List.mem_cons_of_mem _))
    rw [halone he hstateless, halone he hstart, List.filter_append, List.filter_append,
      List.filter_cons_of_neg (by simpa using hne)]
  · rintro before after other command x hends rfl hx
    have hr : ((idle e).run loader before).2.Reachable loader := (Reachable.idle he).run before
    have hgone := (hr.orderly.gone_serve hx hends).run loader after
    rw [run_append]
    exact congrArg (fun memo => (memo.getD Table.empty).size) hgone.memo

/-- Modules for actions, one of which does not compile. -/
def actions : Loader :=
  (Bundle.ofList [
    ("main", "LET Action := input(); LET Thing := \"none\" DEFAULT; INCLUDE \"actions/${Action}\";"),
    ("actions/broken", "LET Thing := ;"),
    ("actions/fine", "LET Thing := \"fine\";")]).loader

/-- Two visitors in turns; the module for the action of one of them does not compile. -/
def visitors (graph : Graph) : List (String × Command) :=
  let inputs (action : String) : Table String Value := .ofList [("Action", .string action)]
  [("first", .start graph (inputs "broken")), ("second", .start graph (inputs "fine")),
    ("first", .fetch 9 "Thing"), ("second", .fetch 9 "Thing"), ("first", .drop),
    ("second", .finish), ("second", .fetchAll 9 ["Action", "Thing"])]

/-- Whether a reply says that a module does not compile. -/
def Reply.saysBroken : Reply → Bool
  | value (.error (.failed (.compile _ _))) => true
  | _ => false

theorem visitors_apart : ∃ c, actions.compile "main" = .ok c ∧
    ((idle .start).answers actions "first" (visitors c.graph)).map Reply.saysBroken =
      [false, true, false] ∧
    (idle .start).answers actions "second" (visitors c.graph) =
      (idle .start).answers actions "second"
        ((visitors c.graph).filter fun step => step.1 = "second") := by
  have hstatements : ∀ s ∈ actions.statements, s.keepsState = false := by decide +kernel
  have heval : ((actions.compile "main").toOption.map fun c =>
      ((idle .start).answers actions "first" (visitors c.graph)).map Reply.saysBroken) =
      some [false, true, false] := by
    decide +kernel
  obtain ⟨c, hc, hbroken⟩ := Option.map_eq_some_iff.1 heval
  have hgraph := stateless_of_compile hstatements (eq_ok_of_toOption hc)
  have hstateless : ∀ graph inputs, ("second", .start graph inputs) ∈ visitors c.graph →
      actions.Stateless graph inputs := by
    intro graph inputs hmem
    obtain ⟨rfl, -⟩ : graph = c.graph ∧ inputs = .ofList [("Action", .string "fine")] := by
      simpa [visitors] using hmem
    exact Loader.stateless_of_statements hgraph hstatements inputs
  exact ⟨c, eq_ok_of_toOption hc, hbroken,
    (answers_apart Engine.numbered_start Engine.numbered_start hstateless).1⟩

end Host

end GatedRules
