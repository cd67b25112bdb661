import GatedRules.Proofs.Gating
import GatedRules.Proofs.Identity
import GatedRules.Proofs.Tallies

/-!
# Gates come first

What a definition computes stands behind gates: its own, and those of the sites through which its
module was included. This module says of an observed session that they open first: the conditions
of the gates have come out `true` in what is seen before, each in its own scope
(`Sight.GatesFirst`). It says so of scopes, not of the cells in which values are kept, and gates are
decided by cells.

* A plan follows the protocol `gating`, so when something is seen, the cells of that time show that
  it may be computed. `Account` is this of a stretch of a session, together with how cells are
  filled meanwhile: only by what is seen to come out.
* So a cell tells of a frame with its text. Where the scopes that are seen have different texts
  (`Sight.Apart`), this frame is the name in the scope that was meant (`Account.ends_of_cell`), and
  what the cells show is what was seen (`Account.permits`).
* Scopes with different paths may share a text only if a path holds a `|`. There a gate can open by
  what has come out in another scope (`barred_path_opens_gate`).

From what has been seen before it follows what cannot be seen at all: names come out once, so
behind a gate with a condition that comes out otherwise nothing is seen, earlier or later
(`Account.gatesFirst`).
-/

namespace GatedRules

open World

/-! ### What is seen of gates -/

/-- A scope is another one, or one of those around it. -/
def Scope.Encloses (s t : Scope) : Prop :=
  s.graph :: s.around <:+ t.graph :: t.around

namespace Sight

/-- All conditions of a gate have come out `true` in a scope. -/
def Opened (log : List Sight) (scope : Scope) (gate : Gate) : Prop :=
  ∀ c ∈ gate.conditions, .ends (.name scope c.name) (.bool true) ∈ log

/-- A condition of a gate has come out in a scope, but not `true`. -/
def Shut (log : List Sight) (scope : Scope) (gate : Gate) : Prop :=
  ∃ c ∈ gate.conditions, ∃ v, .ends (.name scope c.name) v ∈ log ∧ v ≠ .bool true

/-- The names in the template of a site have come out as the parts of a path, and what one of some
loaders has there is the module. -/
def Leads (sources : List Loader) (log : List Sight) (scope : Scope) (site : Site)
    (graph : Graph) : Prop :=
  ∃ values path,
    List.Forall₂ (fun n v => .ends (.name scope n) v ∈ log) site.template.inputs values ∧
    Engine.render site (Table.ofList (site.template.inputs.zip values)).get? = .ok path ∧
    ∃ loader ∈ sources, Engine.outcome loader (Path.canonical path) = .ok (.resolved graph)

/-- The scopes to which a chain of sites leads from the entry module whose gates have opened, each
in its own scope. -/
inductive Entered (sources : List Loader) (entry : Graph) (log : List Sight) : Scope → Prop
  /-- The scope of the entry module. -/
  | entry : Entered sources entry log (.entry entry)
  /-- The scope of a module at a site. -/
  | child {scope : Scope} {site : Site} {graph : Graph} : Entered sources entry log scope →
    site ∈ scope.graph.sites → Opened log scope site.gate → Leads sources log scope site graph →
    Entered sources entry log (scope.child graph)

/-- A frame may be computed after what has been seen: its scope has been entered and, if it is a
definition, the gate of the definition has opened there. -/
def Permits (sources : List Loader) (entry : Graph) (log : List Sight) : Frame → Prop
  | .name scope _ => Entered sources entry log scope
  | .definition scope n rank d => Entered sources entry log scope ∧
    scope.definition? n rank = some d ∧ Opened log scope d.gate

/-- Something is seen in a scope, or further inside. -/
def Visits (log : List Sight) (scope : Scope) : Prop :=
  ∃ s ∈ log, ∃ f ∈ s.frames, scope.Encloses f.scope

/-- The scopes in which something is seen are told apart by their texts. -/
def Apart (log : List Sight) : Prop :=
  ∀ s t, Visits log s → Visits log t → s.text = t.text → s = t

/-- Gates come first in what is seen. -/
structure GatesFirst (sources : List Loader) (entry : Graph) (log : List Sight) : Prop where
  /-- Whatever begins, is done or comes to an end inside of a frame is permitted by what has been
  seen before. -/
  permits : ∀ {before s after}, log = before ++ s :: after →
    ∀ f ∈ s.frames, Permits sources entry before f
  /-- Nothing is seen of a definition whose gate is shut, before or after. -/
  definition : ∀ {scope n rank d}, Shut log scope d.gate →
    AllAbout (· ≠ .definition scope n rank d) log
  /-- Nothing is seen inside of a module if the gates of all sites that lead to it are shut. -/
  module : ∀ {scope graph}, (∀ site ∈ scope.graph.sites, Leads sources log scope site graph →
    Shut log scope site.gate) → AllAbout (fun f => ¬ (scope.child graph).Encloses f.scope) log

/-- A stateful call is made by the definition of its slot that is computed. -/
def Owned : Sight → Prop
  | acts frames (.call slot _) =>
    ∃ outer scope rank d, frames = outer ++ [.definition scope slot rank d]
  | _ => True

end Sight

/-! ### Scopes around scopes -/

namespace Scope

variable {s t u : Scope}

theorem Encloses.refl (s : Scope) : s.Encloses s :=
  List.suffix_rfl

theorem Encloses.trans (h : s.Encloses t) (h' : t.Encloses u) : s.Encloses u :=
  List.IsSuffix.trans h h'

theorem encloses_child (s : Scope) (g : Graph) : s.Encloses (s.child g) :=
  List.suffix_cons g (s.graph :: s.around)

theorem encloses_iff : s.Encloses t ↔ s = t ∨ s.graph :: s.around <:+ t.around := by
  obtain ⟨g, gs⟩ := s
  obtain ⟨g', gs'⟩ := t
  rw [Encloses, List.suffix_cons_iff, List.cons.injEq, Scope.mk.injEq]

/-- What carries over to the scope around carries over to all scopes that enclose. -/
theorem Encloses.induction {P : Scope → Prop}
    (haround : ∀ {g g' gs}, P ⟨g, g' :: gs⟩ → P ⟨g', gs⟩) (h : s.Encloses t) (ht : P t) : P s := by
  obtain ⟨g, gs⟩ := t
  induction gs generalizing g with
  | nil =>
    -- Nothing is around the entry module.
    obtain rfl | hnil := encloses_iff.1 h
    · exact ht
    · exact absurd (List.suffix_nil.1 hnil) (List.cons_ne_nil _ _)
  | cons g' gs ih =>
    obtain rfl | hrest := encloses_iff.1 h
    · exact ht
    · exact ih g' hrest (haround ht)

/-- The scope around an unbarred scope is unbarred. -/
theorem Unbarred.around {g g' : Graph} {gs : List Graph} (h : Unbarred ⟨g, g' :: gs⟩) :
    Unbarred ⟨g', gs⟩ := by
  intro path hpath
  obtain ⟨root, inner, hroot⟩ := List.exists_cons_of_ne_nil (Scope.paths_ne_nil ⟨g', gs⟩)
  have hpaths : Scope.paths ⟨g, g' :: gs⟩ = root :: (inner ++ [g.root]) := by
    rw [← List.cons_append, ← hroot]
    exact paths_child ⟨g', gs⟩ g
  rw [hroot, List.tail_cons] at hpath
  rw [Unbarred, hpaths, List.tail_cons] at h
  exact h path (List.mem_append_left _ hpath)

end Scope

/-! ### Cells and what is seen -/

/-- From one world to another, cells are filled by what is seen. -/
def Filled (w : World) (log : List Sight) (w' : World) : Prop :=
  ∀ text v, w'.cells.get? text = some v →
    w.cells.get? text = some v ∨ ∃ f, f.text = text ∧ .ends f v ∈ log

theorem Filled.append {w w' w'' : World} {log log' : List Sight} (h : Filled w log w')
    (h' : Filled w' log' w'') : Filled w (log ++ log') w'' := by
  intro text v hv
  obtain hv | ⟨f, hf, hs⟩ := h' text v hv
  · exact (h text v hv).imp_right fun ⟨f, hf, hs⟩ => ⟨f, hf, List.mem_append_left _ hs⟩
  · exact .inr ⟨f, hf, List.mem_append_right _ hs⟩

/-- What is seen while one world becomes another fills its cells, and whenever something is seen,
the world of that time shows that its frames may be computed. -/
structure Account (id : ExecutionId) (entry : Graph) (w : World) (log : List Sight)
    (w' : World) : Prop where
  /-- Cells are filled by what is seen. -/
  fills : Filled w log w'
  /-- What has been computed or resolved stays so. -/
  grows : Extends id w w'
  /-- At the time, what is seen is shown to be permitted. -/
  shown : ∀ {before s after}, log = before ++ s :: after → ∃ u, Filled w before u ∧
    Extends id u w' ∧ ∀ f ∈ s.frames, u.ShowsPermitted id entry f
  /-- Calls are made by definitions of their slots. -/
  owned : ∀ s ∈ log, s.Owned

namespace Account

variable {id : ExecutionId} {entry : Graph} {w w' w'' : World} {log log' : List Sight} {s : Sight}

theorem refl (id : ExecutionId) (entry : Graph) (w : World) : Account id entry w [] w where
  fills _ _ hv := .inl hv
  grows := .refl w
  shown h := absurd h (by simp)
  owned := by simp

/-- A single thing is seen. -/
theorem single (hfills : Filled w [s] w') (hgrows : Extends id w w')
    (hshown : ∀ f ∈ s.frames, w.ShowsPermitted id entry f) (howned : s.Owned) :
    Account id entry w [s] w' where
  fills := hfills
  grows := hgrows
  shown {before s' after} h := by
    obtain ⟨rfl, rfl, rfl⟩ : before = [] ∧ s' = s ∧ after = [] := by
      cases before <;> simp_all
    exact ⟨w, fun _ _ hv => .inl hv, hgrows, hshown⟩
  owned := List.forall_mem_singleton.2 howned

theorem append (h : Account id entry w log w') (h' : Account id entry w' log' w'') :
    Account id entry w (log ++ log') w'' where
  fills := h.fills.append h'.fills
  grows := h.grows.trans h'.grows
  shown {before s after} heq := by
    have hlater : ∀ {rest}, log' = rest ++ s :: after → ∃ u, Filled w (log ++ rest) u ∧
        Extends id u w'' ∧ ∀ f ∈ s.frames, u.ShowsPermitted id entry f := by
      intro rest hrest
      obtain ⟨u, hu, hgrows, hshown⟩ := h'.shown hrest
      exact ⟨u, h.fills.append hu, hgrows, hshown⟩
    -- What is seen stands in the second stretch, or in the first one.
    obtain ⟨rest, rfl, hrest⟩ | ⟨rest, hlog, hrest⟩ := List.append_eq_append_iff.1 heq
    · exact hlater hrest
    · cases rest with
      | nil =>
        obtain rfl : log = before := by simpa using hlog
        have hfirst : log' = [] ++ s :: after := hrest.symm
        simpa using hlater hfirst
      | cons sight rest =>
        obtain ⟨rfl, -⟩ := List.cons.inj hrest
        obtain ⟨u, hu, hgrows, hshown⟩ := h.shown hlog
        exact ⟨u, hu, hgrows.trans h'.grows, hshown⟩
  owned := List.forall_mem_append.2 ⟨h.owned, h'.owned⟩

end Account

/-- What a goal may call: the definition that it is about may call for its slot. -/
def Goal.Calls (goal : Goal) (slot : String) : Prop :=
  ∃ scope rank d, goal = .frame (.definition scope slot rank d)

/-- Calls may be made for certain slots only. -/
def Protocol.calling (p : String → Prop) : Protocol Unit where
  later _ _ := True
  mayAsk _ _ := True
  mayAct _ action :=
    match action with
    | .call slot _ => p slot
    | _ => True
  answered _ _ _ := True
  acted _ _ _ := True
  refl _ := trivial
  trans _ _ := trivial
  mayAsk_mono _ h := h
  mayAct_mono _ h := h
  answered_mono _ h := h
  acted_mono _ h := h

/-- Goals make calls for their own slots only. -/
theorem Goal.plan_follows_calling (goal : Goal) :
    goal.plan.Follows (.calling goal.Calls) (fun _ _ => True) () := by
  have hserves : ∀ scope name, (Protocol.calling goal.Calls).Serves scope name () := fun _ _ =>
    ⟨fun _ _ _ => trivial, fun _ _ _ => trivial, fun _ _ _ _ _ => trivial,
      fun _ _ _ _ _ _ _ => trivial, fun _ => trivial, trivial⟩
  cases goal with
  | primary scope name => exact Scope.fromPrimary_follows (hserves scope name)
  | frame f =>
    cases f with
    | name scope n =>
      exact Scope.settle_follows (hserves scope n) trivial (fun _ _ _ => trivial) trivial
    | definition scope n rank d =>
      exact Expr.eval_follows d.expr
        ⟨fun _ _ => trivial, trivial, fun _ _ => ⟨scope, rank, d, rfl⟩⟩

namespace Observed

variable {α β : Type} {σ : Setting} {entry : Graph} {stack : List Frame} {w : World} {k : Nat}

/-- The account of an evaluation. -/
def Accountable (id : ExecutionId) (entry : Graph) (x : Observed α) (stack : List Frame)
    (w : World) : Prop :=
  Account id entry w (x stack w).1 (x stack w).2.2

theorem accountable_bind {id : ExecutionId} {x : Observed α} {f : α → Observed β}
    (hx : x.Accountable id entry stack w)
    (hf : ∀ a w', (x stack w).2 = (.ok a, w') → (f a).Accountable id entry stack w') :
    (x >>= f).Accountable id entry stack w := by
  change Account id entry w (Observed.bind x f stack w).1 (Observed.bind x f stack w).2.2
  unfold Accountable at hx
  unfold Observed.bind
  rcases hr : x stack w with ⟨log, halt | a, w'⟩ <;> rw [hr] at hx hf
  · exact hx
  · exact hx.append (hf a w' rfl)

/-- Something is done inside of frames that may be computed. -/
theorem accountable_perform {action : Action} (hstack : ∀ f ∈ stack, w.ShowsPermitted σ.id entry f)
    (howned : (Sight.acts stack action).Owned) :
    ((observer σ).perform action).Accountable σ.id entry stack w := by
  refine .single (fun text v hv => .inl ?_) ?_ hstack howned
  · have hcells := EvalM.cells_act (σ := σ) action (stack.map Frame.text) w
    change ((EvalM.act σ action).exec (stack.map Frame.text) w).2.cells.get? text = some v at hv
    rwa [hcells] at hv
  · exact (EvalM.grows_act action (stack.map Frame.text) w).toExtends

/-- Running a plan that asks for nothing but what is permitted. -/
theorem accountable_run {Q : World → α → Prop} {R : Unit → α → Prop} {p : String → Prop}
    {x : Plan α} (hx : x.Follows (gating σ.id entry) Q w) (hcalls : x.Follows (.calling p) R ())
    (hp : ∀ slot, p slot → ∃ outer scope rank d, stack = outer ++ [.definition scope slot rank d])
    (hstack : ∀ f ∈ stack, w.ShowsPermitted σ.id entry f)
    (hanswer : ∀ goal w, (gating σ.id entry).mayAsk w goal →
      (∀ f ∈ stack, w.ShowsPermitted σ.id entry f) →
      ((observer σ).answer k goal).Accountable σ.id entry stack w) :
    (x.run (observer σ) ((observer σ).answer k)).Accountable σ.id entry stack w := by
  induction x generalizing w with
  | done a => exact .refl σ.id entry w
  | fail error => exact .refl σ.id entry w
  | perform action next ih =>
    have howned : (Sight.acts stack action).Owned := by
      cases action with
      | call slot c => exact hp slot hcalls.1
      | _ => trivial
    refine accountable_bind (accountable_perform hstack howned) fun r w' hr => ?_
    have hr : (EvalM.act σ action).exec (stack.map Frame.text) w = (.ok r, w') := hr
    have hgrows := (EvalM.grows_act (σ := σ) action (stack.map Frame.text) w).toExtends
    rw [hr] at hgrows
    exact ih r (hx.2 w' r hgrows (EvalM.acted_of_act hr)) (hcalls.2 () r trivial trivial)
      fun f hf => (hstack f hf).mono hgrows
  | ask goal next ih =>
    refine accountable_bind (hanswer goal w hx.1 hstack) fun r w' hr => ?_
    rw [shows_answer k goal stack w] at hr
    have hgrows := (EvalM.grows_answer (σ := σ) k goal (stack.map Frame.text) w).toExtends
    rw [hr] at hgrows
    exact ih r (hx.2 w' r hgrows (EvalM.answered_of_answer hr)) (hcalls.2 () r trivial trivial)
      fun f hf => (hstack f hf).mono hgrows

/-- Computing a frame in a world that shows that it may be computed. -/
theorem accountable_visit {f : Frame} {x : Observed Value} {y : EvalM Value} (hxy : Shows x y)
    (hy : y.Grows σ.id) (hf : w.ShowsPermitted σ.id entry f)
    (hx : x.Accountable σ.id entry (stack ++ [f]) w) :
    ((observer σ).visit f x).Accountable σ.id entry stack w := by
  have hbegins : Account σ.id entry w [.begins f] w :=
    .single (fun _ _ hv => .inl hv) (.refl w) (List.forall_mem_singleton.2 hf) trivial
  have hgrows := hy ((stack ++ [f]).map Frame.text) w
  unfold Accountable at hx ⊢
  dsimp only [observer]
  split
  · exact .refl σ.id entry w
  cases hcell : w.cells.get? f.text with
  | some v => exact .refl σ.id entry w
  | none =>
    rw [← hxy] at hgrows
    rcases hr : x (stack ++ [f]) w with ⟨log, halt | v, w'⟩ <;> rw [hr] at hx hgrows
    · exact hbegins.append hx
    · -- The frame is on the stack meanwhile, so its cell is still empty.
      have hempty : w'.cells.get? f.text = none := by
        rw [hgrows.frozen f.text (by simp), hcell]
      refine hbegins.append (hx.append (.single (fun text u hu => ?_) ?_ ?_ trivial))
      · dsimp only at hu
        rw [Table.get?_insert] at hu
        split at hu
        · rename_i htext
          cases hu
          exact .inr ⟨f, htext.symm, List.mem_singleton_self _⟩
        · exact .inl hu
      · exact extends_insert hempty
      · exact List.forall_mem_singleton.2 (hf.mono hx.grows)

/-- **Evaluations account for what is seen of them**, as long as the goal and the frames that have
been entered may be computed. -/
theorem accountable_answer (k : Nat) {goal : Goal} (hgoal : (gating σ.id entry).mayAsk w goal)
    (hstack : ∀ f ∈ stack, w.ShowsPermitted σ.id entry f) :
    ((observer σ).answer k goal).Accountable σ.id entry stack w := by
  induction k generalizing goal w stack with
  | zero => exact .refl σ.id entry w
  | succ k ih =>
    have hplan := plan_follows_gating hgoal
    have hcalls := goal.plan_follows_calling
    cases goal with
    | primary scope name =>
      refine accountable_run hplan hcalls ?_ hstack fun _ _ hg hs => ih hg hs
      rintro slot ⟨_, _, _, hgoal⟩
      cases hgoal
    | frame f =>
      have hgrows : (f.plan.run (EvalM.handler σ) ((EvalM.handler σ).answer k)).Grows σ.id :=
        EvalM.grows_run (EvalM.grows_answer k) f.plan
      have hshows : Shows (f.plan.run (observer σ) ((observer σ).answer k))
          (f.plan.run (EvalM.handler σ) ((EvalM.handler σ).answer k)) :=
        related_shows.run _ _ (fun goal => shows_answer k goal) f.plan
      refine accountable_visit hshows hgrows hgoal ?_
      refine accountable_run hplan hcalls ?_ (fun f' hf' => ?_) fun _ _ hg hs => ih hg hs
      · rintro slot ⟨scope, rank, d, hgoal⟩
        cases hgoal
        exact ⟨stack, scope, rank, d, rfl⟩
      · exact (List.mem_append.1 hf').elim (hstack f') fun hf' => List.mem_singleton.1 hf' ▸ hgoal

end Observed

/-- A session accounts for what is seen of it. -/
theorem Execution.account_observe (x : Execution) (e : Engine) (requests : List Request) :
    let out := x.observe e (requests.map .request)
    Account x.id x.graph (x.world e) out.1 (out.2.2.1.world out.2.2.2) := by
  induction requests generalizing x e with
  | nil => exact .refl x.id x.graph _
  | cons r rs ih =>
    -- Requests are for names in the entry module, where any name may be asked for.
    have hgoal : (gating x.id x.graph).mayAsk (x.world e)
        (.frame (.name (.entry x.graph) r.name)) :=
      ⟨.entry, .inl rfl⟩
    have hfirst : Account x.id x.graph (x.world e) (x.observed (x.world e) r).1
        (x.observed (x.world e) r).2.2 :=
      Observed.accountable_answer (σ := x.setting r.loader) r.budget hgoal (List.forall_mem_nil _)
    exact hfirst.append (ih (x.resume (x.observed (x.world e) r).2.2) _)

/-- What is seen of a session accounts for what it does to the store. -/
theorem Execution.store_observe (x : Execution) (e : Engine) (requests : List Request) :
    let out := x.observe e (requests.map .request)
    out.2.2.2.store = e.store.replay out.1 := by
  induction requests generalizing x e with
  | nil => rfl
  | cons r rs ih =>
    have hfirst := (Observed.accounts_answer (σ := x.setting r.loader) r.budget
      (.frame (.name (.entry x.graph) r.name)) [] (x.world e)).store
    have hrest := ih (x.resume (x.observed (x.world e) r).2.2) (x.observed (x.world e) r).2.2.engine
    dsimp only at hrest ⊢
    rw [List.map_cons, observe_request]
    dsimp only
    rw [hrest, Store.replay_append]
    exact congrArg (Store.replay · _) hfirst

/-! ### Where modules come from -/

namespace Engine

/-- What is noted of module paths for an execution is what one of some loaders has there. -/
def Sourced (e : Engine) (sources : List Loader) (id : ExecutionId) : Prop :=
  ∀ path o, (e.memo id).get? path = some (some o) →
    ∃ loader ∈ sources, outcome loader path = .ok o

theorem Sourced.resolvePath {e : Engine} {sources : List Loader} {id : ExecutionId}
    (h : e.Sourced sources id) {loader : Loader} (hloader : loader ∈ sources) (path : String) :
    (e.resolvePath loader id path).2.Sourced sources id := by
  intro p o hm
  rw [memo_resolvePath] at hm
  split at hm
  · -- The path that is asked for has the outcome that was noted, or that the loader has for it now.
    rename_i hp
    subst hp
    rw [resolvePath_fst] at hm
    split at hm
    · rename_i known hknown
      cases hm
      exact h _ _ hknown
    · cases ho : outcome loader (Path.canonical path) with
      | error error =>
        rw [ho] at hm
        cases hm
      | ok o' =>
        rw [ho] at hm
        cases hm
        exact ⟨loader, hloader, ho⟩
  · exact h p o hm

end Engine

/-- Evaluations note what their loader has. -/
theorem EvalM.sourced_answer {σ : Setting} {sources : List Loader} (hσ : σ.loader ∈ sources)
    (k : Nat) (goal : Goal) :
    ((handler σ).answer k goal).Preserves fun w => w.engine.Sourced sources σ.id := by
  refine preserves_answer (fun action => ?_) (fun _ _ _ hw => hw) k goal
  refine preserves_act (fun _ _ hw => hw) (fun _ _ hw => hw) fun path _ stack w hw => ?_
  rw [exec_resolve]
  exact hw.resolvePath hσ path

/-- An execution that starts has nothing noted. -/
theorem Execution.sourced_start {e : Engine} (h : e.Numbered) (g : Graph)
    (inputs : Table String Value) (sources : List Loader) :
    (start e g inputs).2.Sourced sources (start e g inputs).1.id := by
  intro path o ho
  rw [memo_start h] at ho
  cases ho

/-- In a session, what is noted of module paths comes from the loaders of the requests. -/
theorem Execution.sourced_observe {x : Execution} {e : Engine} {sources : List Loader}
    {requests : List Request} (h : e.Sourced sources x.id)
    (hrequests : ∀ r ∈ requests, r.loader ∈ sources) :
    let out := x.observe e (requests.map .request)
    (out.2.2.1.world out.2.2.2).engine.Sourced sources x.id := by
  induction requests generalizing x e with
  | nil => exact h
  | cons r rs ih =>
    obtain ⟨hr, hrs⟩ := List.forall_mem_cons.1 hrequests
    have hstep : (x.step EvalM.handler (x.world e) r).2.engine.Sourced sources x.id :=
      EvalM.sourced_answer (σ := x.setting r.loader) hr r.budget _ [] (x.world e) h
    rw [← snd_observed] at hstep
    exact ih (x := x.resume (x.observed (x.world e) r).2.2) hstep hrs

/-! ### Gates that stay shut -/

namespace Sight

variable {sources : List Loader} {entry : Graph} {log before : List Sight} {scope : Scope}

theorem Opened.mono {gate : Gate} (h : Opened before scope gate) (hlog : before ⊆ log) :
    Opened log scope gate :=
  fun c hc => hlog (h c hc)

theorem Leads.mono {site : Site} {graph : Graph} (h : Leads sources before scope site graph)
    (hlog : before ⊆ log) : Leads sources log scope site graph := by
  obtain ⟨values, path, hvalues, hrest⟩ := h
  exact ⟨values, path, hvalues.imp fun _ _ hv => hlog hv, hrest⟩

theorem Entered.mono (h : Entered sources entry before scope) (hlog : before ⊆ log) :
    Entered sources entry log scope := by
  induction h with
  | entry => exact .entry
  | child _ hsite hopened hleads ih => exact .child ih hsite (hopened.mono hlog) (hleads.mono hlog)

theorem Permits.mono {f : Frame} (h : Permits sources entry before f) (hlog : before ⊆ log) :
    Permits sources entry log f := by
  cases f with
  | name s n => exact Entered.mono h hlog
  | definition s n rank d =>
    obtain ⟨hentered, hd, hopened⟩ := h
    exact ⟨hentered.mono hlog, hd, hopened.mono hlog⟩

/-- The scope around a scope that has been entered has been entered. -/
theorem Entered.around {g g' : Graph} {gs : List Graph}
    (h : Entered sources entry log ⟨g, g' :: gs⟩) : Entered sources entry log ⟨g', gs⟩ := by
  cases h with
  | child h _ _ _ => exact h

/-- A module at a site has been entered through a site whose gate has opened. -/
theorem Entered.site {graph : Graph} (h : Entered sources entry log (scope.child graph)) :
    ∃ site ∈ scope.graph.sites, Opened log scope site.gate ∧
      Leads sources log scope site graph := by
  obtain ⟨g, gs⟩ := scope
  cases h with
  | @child _ site _ _ hsite hopened hleads => exact ⟨site, hsite, hopened, hleads⟩

theorem Permits.entered {f : Frame} (h : Permits sources entry log f) :
    Entered sources entry log f.scope := by
  cases f with
  | name s n => exact h
  | definition s n rank d => exact h.1

/-- In an order, a frame comes out with one value only, so a gate does not both open and stay shut.
-/
theorem Opened.not_shut {w w' : World} {gate : Gate} (h : Opened log scope gate)
    (horder : Orderly w log w') : ¬ Shut log scope gate := by
  rintro ⟨c, hc, v, hv, hne⟩
  have hcell := horder.settles (h c hc)
  rw [horder.settles hv] at hcell
  exact hne (Option.some.inj hcell)

end Sight

/-! ### Cells of scopes that are told apart -/

section

variable {id : ExecutionId} {entry : Graph} {sources : List Loader} {w w' : World}
  {log before : List Sight}

/-- Scopes that are shown to be reached are those of modules that the loaders have, at sites. -/
theorem World.ShowsReached.nested {s : Scope} (h : w'.ShowsReached id entry s)
    (hw' : w'.engine.Sourced sources id) :
    s.Nested (fun _ g => ∃ loader ∈ sources, ∃ path,
      Engine.outcome loader path = .ok (.resolved g)) entry := by
  induction h with
  | entry => exact .entry
  | child _ _ he ih =>
    obtain ⟨_, _, -, -, hmodule⟩ := he.module
    obtain ⟨loader, hloader, ho⟩ := hw' _ _ hmodule
    exact .child ih ⟨loader, hloader, _, ho⟩

theorem World.ShowsReached.inside {s : Scope} (h : w'.ShowsReached id entry s)
    (hw' : w'.engine.Sourced sources id) : s.Inside entry := by
  refine (h.nested hw').imp ?_
  rintro _ g ⟨loader, -, path, ho⟩
  obtain ⟨c, hc, hgraph⟩ := Engine.compile_of_outcome ho
  exact ⟨loader, path, c, hc, hgraph⟩

/-- What has the text of a name that a module looks up is that name, in a scope of the same text. -/
theorem World.ShowsPermitted.eq_name {f : Frame} {s : Scope} {n : String}
    (hf : w'.ShowsPermitted id entry f) (hentry : entry.IsCompiled)
    (hw' : w'.engine.Sourced sources id) (hs : w'.ShowsReached id entry s) (hn : IsSlotName n)
    (htext : f.text = s.frame n) : ∃ t, f = .name t n ∧ t.text = s.text := by
  cases f with
  | definition t m rank d =>
    exact absurd htext.symm (Scope.frame_ne_definitionFrame hn.balanced.sheltered)
  | name t m =>
    obtain ⟨-, rfl | ⟨t', ht', hm⟩⟩ := hf
    · -- Any name may be asked for in the entry module, but there its text says which one it is.
      have hscope : s = .entry entry :=
        Frame.scope_eq_of_text (f := .name s n) (hs.inside hw') rfl htext.symm
      subst hscope
      obtain rfl := Scope.frame_inj htext
      exact ⟨_, rfl, rfl⟩
    · have hm : IsSlotName m := (ht'.inside hw').isSlotName hentry hm
      have hcells : t.cell m none = s.cell n none := htext
      obtain ⟨hscope, rfl, -⟩ := Scope.cell_inj hm hn hcells
      exact ⟨t, rfl, hscope⟩

namespace Account

variable (hentry : entry.IsCompiled) (hw' : w'.engine.Sourced sources id)
  (hlog : Account id entry w log w') (hempty : ∀ text, w.cells.get? text = none)
  (hapart : Sight.Apart log)

/-- At the end, all that has been seen is shown to be permitted. -/
theorem permitted (hlog : Account id entry w log w') {s : Sight} (hs : s ∈ log) {f : Frame}
    (hf : f ∈ s.frames) : w'.ShowsPermitted id entry f := by
  obtain ⟨before, after, hsplit⟩ := List.append_of_mem hs
  obtain ⟨u, -, hgrows, hshown⟩ := hlog.shown hsplit
  exact (hshown f hf).mono hgrows

/-- With one loader, scopes are told apart unless a module inside of the entry module has a path
with a `|`. -/
theorem apart {loader : Loader} (hlog : Account id entry w log w')
    (hw' : w'.engine.Sourced sources id) (hsources : ∀ l ∈ sources, l = loader)
    (hclear : Sight.AllAbout (fun f => f.scope.Unbarred) log) : Sight.Apart log := by
  have hvisited : ∀ {s}, Sight.Visits log s → w'.ShowsReached id entry s ∧ s.Unbarred := by
    rintro s ⟨sight, hsight, f, hf, hencloses⟩
    exact ⟨hencloses.induction (fun h => h.around rfl) (hlog.permitted hsight hf).reached,
      hencloses.induction Scope.Unbarred.around (hclear sight hsight f hf)⟩
  intro s t hs ht htext
  obtain ⟨hs, hsclear⟩ := hvisited hs
  obtain ⟨ht, htclear⟩ := hvisited ht
  have hpaths := (hs.inside hw').paths_eq_of_text (ht.inside hw') hsclear htclear htext
  -- Modules with the same path are the same module, as there is only one loader to ask.
  have hone : ∀ {g : Graph}, (∃ l ∈ sources, ∃ path, Engine.outcome l path = .ok (.resolved g)) →
      ∃ path, Engine.outcome loader path = .ok (.resolved g) := by
    rintro g ⟨l, hl, hpath⟩
    exact hsources l hl ▸ hpath
  exact ((hs.nested hw').imp fun h => hone h).eq_of_paths ((ht.nested hw').imp fun h => hone h)
    hpaths

include hentry hw' hlog hempty hapart

/-- Where scopes are told apart, the cell for a name is filled by what is seen of that name in its
own scope. -/
theorem ends_of_cell {u : World} (hbefore : before ⊆ log) (hu : Filled w before u)
    {scope : Scope} (hscope : w'.ShowsReached id entry scope) (hvisits : Sight.Visits log scope)
    {n : String} (hn : n ∈ scope.graph.lookups) {v : Value}
    (hv : u.cells.get? (scope.frame n) = some v) : .ends (.name scope n) v ∈ before := by
  obtain hv | ⟨f, htext, hends⟩ := hu _ _ hv
  · cases (hempty _).symm.trans hv
  have hpermitted := hlog.permitted (hbefore hends) (List.mem_singleton_self f)
  have hname := (hscope.inside hw').isSlotName hentry hn
  obtain ⟨t, rfl, hsame⟩ := hpermitted.eq_name hentry hw' hscope hname htext
  have hvisited : Sight.Visits log t := ⟨_, hbefore hends, _, List.mem_singleton_self _, .refl t⟩
  obtain rfl := hapart t scope hvisited hvisits hsame
  exact hends

/-- Where scopes are told apart, a gate that is shown to be open has opened in its own scope. -/
theorem opened {u : World} (hbefore : before ⊆ log) (hu : Filled w before u) {scope : Scope}
    (hscope : w'.ShowsReached id entry scope) (hvisits : Sight.Visits log scope) {gate : Gate}
    (hnames : ∀ c ∈ gate.conditions, c.name ∈ scope.graph.lookups)
    (hopen : u.ShowsOpen scope gate) : Sight.Opened before scope gate :=
  fun c hc => hlog.ends_of_cell hentry hw' hempty hapart hbefore hu hscope hvisits (hnames c hc)
    (hopen c hc)

/-- Where scopes are told apart, a scope that is shown to be reached has been entered. -/
theorem entered {u : World} (hbefore : before ⊆ log) (hu : Filled w before u)
    (hgrows : Extends id u w') {scope : Scope} (hscope : u.ShowsReached id entry scope)
    (hvisits : Sight.Visits log scope) : Sight.Entered sources entry before scope := by
  induction hscope with
  | entry => exact .entry
  | @child scope site graph hscope hsite he ih =>
    -- What is seen inside of the module at the site is seen inside of the scope of the site too.
    have hvisits : Sight.Visits log scope := by
      obtain ⟨s, hs, f, hf, hencloses⟩ := hvisits
      exact ⟨s, hs, f, hf, (scope.encloses_child graph).trans hencloses⟩
    have hreached := hscope.mono hgrows
    obtain ⟨values, path, hvalues, hrender, hmodule⟩ := he.module
    have hlookups : ∀ n ∈ site.dependencies, n ∈ scope.graph.lookups := fun n hn =>
      Graph.mem_lookups_of_site hsite hn
    refine .child (ih hvisits) hsite ?_ ⟨values, path, ?_, hrender, ?_⟩
    · exact hlog.opened hentry hw' hempty hapart hbefore hu hreached hvisits
        (fun c hc => hlookups _ (Site.mem_dependencies.2 (.inr ⟨c, hc, rfl⟩))) he.gate
    · have hnames : ∀ n ∈ site.template.inputs, n ∈ scope.graph.lookups := fun n hn =>
        hlookups n (Site.mem_dependencies.2 (.inl hn))
      refine ((List.forall₂_and_left _ _).2 ⟨hnames, hvalues⟩).imp fun n v hnv => ?_
      exact hlog.ends_of_cell hentry hw' hempty hapart hbefore hu hreached hvisits hnv.1 hnv.2
    · exact hw' _ _ (hgrows.modules hmodule)

/-- **Where scopes are told apart, whatever is computed is permitted** by what has been seen
before. -/
theorem permits {s : Sight} {after : List Sight} (hsplit : log = before ++ s :: after) {f : Frame}
    (hf : f ∈ s.frames) : Sight.Permits sources entry before f := by
  have hbefore : before ⊆ log := by
    rw [hsplit]
    exact List.subset_append_left ..
  have hs : s ∈ log := by simp [hsplit]
  have hvisits : Sight.Visits log f.scope := ⟨s, hs, f, hf, .refl _⟩
  obtain ⟨u, hu, hgrows, hshown⟩ := hlog.shown hsplit
  have hpermitted := hshown f hf
  have hentered := hlog.entered hentry hw' hempty hapart hbefore hu hgrows hpermitted.reached
    hvisits
  cases f with
  | name scope n => exact hentered
  | definition scope n rank d =>
    obtain ⟨hscope, hd, hopen⟩ := hpermitted
    refine ⟨hentered, hd, hlog.opened hentry hw' hempty hapart hbefore hu (hscope.mono hgrows)
      hvisits (fun c hc => ?_) hopen⟩
    exact (Scope.defines_of_definition? hd).lookups (Definition.mem_dependencies_of_gate hc)

/-- Where scopes are told apart, gates come first. -/
theorem gatesFirst {v v' : World} (horder : Orderly v log v') :
    Sight.GatesFirst sources entry log := by
  -- What is seen before is part of the whole log, where a gate cannot have opened and be shut.
  have hall : ∀ s ∈ log, ∀ f ∈ s.frames, Sight.Permits sources entry log f := by
    intro s hs f hf
    obtain ⟨before, after, hsplit⟩ := List.append_of_mem hs
    have hpermits := hlog.permits hentry hw' hempty hapart hsplit hf
    refine hpermits.mono ?_
    rw [hsplit]
    exact List.subset_append_left ..
  refine ⟨fun hsplit _ hf => hlog.permits hentry hw' hempty hapart hsplit hf, ?_, ?_⟩
  · rintro scope n rank d hshut s hs f hf rfl
    obtain ⟨-, -, hopened⟩ := hall s hs _ hf
    exact hopened.not_shut horder hshut
  · intro scope graph hshut s hs f hf hencloses
    have hentered := hencloses.induction Sight.Entered.around (hall s hs f hf).entered
    obtain ⟨site, hsite, hopened, hleads⟩ := hentered.site
    exact hopened.not_shut horder (hshut site hsite hleads)

end Account

end

/-! ### Sessions -/

namespace Execution

variable {x : Execution} {e : Engine} {sources : List Loader} {requests : List Request}

/-- In a session with one loader, scopes are told apart unless a module inside of the graph has a
path with a `|`. -/
theorem apart_observe {loader : Loader} (h : e.Sourced sources x.id)
    (hrequests : ∀ r ∈ requests, r.loader ∈ sources) (hsources : ∀ l ∈ sources, l = loader)
    (hclear : Sight.AllAbout (fun f => f.scope.Unbarred) (x.observe e (requests.map .request)).1) :
    Sight.Apart (x.observe e (requests.map .request)).1 :=
  (x.account_observe e requests).apart (sourced_observe h hrequests) hsources hclear

/-- In a session from empty cells, gates come first where scopes are told apart. -/
theorem gatesFirst_observe (hg : x.graph.IsCompiled) (h : e.Sourced sources x.id)
    (hrequests : ∀ r ∈ requests, r.loader ∈ sources) (hempty : ∀ text, x.cells.get? text = none)
    (hapart : Sight.Apart (x.observe e (requests.map .request)).1) :
    Sight.GatesFirst sources x.graph (x.observe e (requests.map .request)).1 :=
  (x.account_observe e requests).gatesFirst hg (sourced_observe h hrequests) hempty hapart
    (x.orderly_observe e (requests.map .request))

end Execution

open Execution

/-- **Gates come first.** A session of an execution of a compiled graph is observed, whatever it
asks for and however the sources change between requests.

* As long as the sources stay the same and nothing is seen inside of a module with a `|` in its
  path, but for the entry module, the scopes in which something is seen are told apart.
* Where this is so, whatever begins, is done or comes to an end inside of a frame is permitted by
  what has been seen before. So the computation of a definition begins only after all conditions of
  its gate have come out `true` in its scope, and after the gates of a chain of sites that leads to
  that scope have, each in its own scope. And if a condition of its gate comes out otherwise, before
  or after, nothing is seen of a definition in the whole session; nor is anything seen inside of a
  module if this holds for each of the sites that lead to it.
* Stateful calls are made by the definitions of their slots, and nothing but the calls that are seen
  changes the store and its log. -/
theorem definitions_wait_for_gates {g : Graph} (hg : g.IsCompiled) {e : Engine} (he : e.Numbered)
    (inputs : Table String Value) (requests : List Request) :
    let x := (start e g inputs).1
    let e := (start e g inputs).2
    let log := (x.observe e (requests.map .request)).1
    let sources := requests.map Request.loader
    (∀ loader, (∀ r ∈ requests, r.loader = loader) →
      Sight.AllAbout (fun f => f.scope.Unbarred) log → Sight.Apart log) ∧
    (Sight.Apart log → Sight.GatesFirst sources g log) ∧
    (∀ frames slot c, .acts frames (.call slot c) ∈ log →
      ∃ outer scope rank d, frames = outer ++ [.definition scope slot rank d]) ∧
    (x.take e (requests.map .request)).2.2.store = e.store.replay log := by
  intro x e log sources
  have hstart : e.Sourced sources x.id := sourced_start he g inputs sources
  have hsources : ∀ r ∈ requests, r.loader ∈ sources := fun r hr => List.mem_map_of_mem hr
  refine ⟨fun loader hloader hclear => ?_, fun hapart => ?_, fun frames slot c hcall => ?_, ?_⟩
  · exact apart_observe hstart hsources (List.forall_mem_map.2 hloader) hclear
  · exact gatesFirst_observe (x := x) hg hstart hsources (fun _ => rfl) hapart
  · exact (x.account_observe e requests).owned _ hcall
  · rw [← snd_observe]
    exact x.store_observe e requests

/-- A ward whose desk is shut. Behind the desk there are rooms. -/
def wards : Bundle :=
  .ofList [
    ("main", "INCLUDE \"${Ward}\";"),
    ("ward", "LET Open := false; LET Arrivals := count(); INCLUDE \"desk\" WHERE Open;"),
    ("desk", "INCLUDE \"${Room}\";"),
    ("room", "LET Visits := count();")]

/-- Where an arrival goes. -/
def wardInputs : Table String Value :=
  .ofList [("Ward", .string "ward"), ("Room", .string "room")]

/-- The arrival is counted, and so would be its visit to a room. -/
def wardRequests : List Request :=
  [⟨wards.loader, 20, "Arrivals"⟩, ⟨wards.loader, 20, "Visits"⟩]

/-- A condition of the gates of all sites of a module comes out otherwise than `true`. -/
def Sight.shutsSites (paths : List String) : Sight → Bool
  | ends (.name scope n) v => decide (scope.paths = paths) && decide (v ≠ .bool true) &&
      scope.graph.sites.all fun site => site.gate.conditions.any fun c => c.name == n
  | _ => false

/-- What shuts all sites of a module shuts the gate of each. -/
theorem Sight.shut_of_shutsSites {log : List Sight} {paths : List String}
    (h : log.any (shutsSites paths) = true) :
    ∃ scope : Scope, scope.paths = paths ∧
      ∀ site ∈ scope.graph.sites, Shut log scope site.gate := by
  obtain ⟨s, hs, hshuts⟩ := List.any_eq_true.1 h
  match s, hshuts with
  | ends (.name scope n) v, hshuts =>
    simp only [shutsSites, Bool.and_eq_true, decide_eq_true_eq] at hshuts
    obtain ⟨⟨hpaths, hv⟩, hsites⟩ := hshuts
    refine ⟨scope, hpaths, fun site hsite => ?_⟩
    obtain ⟨c, hc, hn⟩ := List.any_eq_true.1 (List.all_eq_true.1 hsites site hsite)
    exact ⟨c, hc, v, by rwa [beq_iff_eq.1 hn], hv⟩

theorem shut_desk_counts_no_visits : ∃ c, wards.loader.compile "main" = .ok c ∧
    let x := (start .start c.graph wardInputs).1
    let e := (start .start c.graph wardInputs).2
    let turns := wardRequests.map .request
    let log := (x.observe e turns).1
    (x.take e turns).1.map Except.toOption = [some (.int 1), some .null] ∧
    (x.take e turns).2.2.store =
      (e.store.perform (.increment (.ofCall Function.count.name "Arrivals" []))).2 ∧
    ∃ ward : Scope, ward.paths = ["main", "ward"] ∧
      (∀ site ∈ ward.graph.sites, Sight.Shut log ward site.gate) ∧
      ∀ room, Sight.AllAbout (fun f => ¬ (ward.child room).Encloses f.scope) log := by
  have heval : (wards.loader.compile "main").toOption.map (fun c =>
      let x := (start .start c.graph wardInputs).1
      let e := (start .start c.graph wardInputs).2
      let turns := wardRequests.map .request
      let log := (x.observe e turns).1
      ((x.take e turns).1.map Except.toOption, log.filterMap Sight.request?,
        log.any (Sight.shutsSites ["main", "ward"]),
        log.all fun s => s.frames.all fun f => f.scope.Unbarred)) =
      some ([some (.int 1), some .null],
        [.increment (.ofCall Function.count.name "Arrivals" [])], true, true) := by
    decide +kernel
  obtain ⟨c, hc, heval⟩ := exists_ok_of_map heval
  simp only [Prod.mk.injEq] at heval
  obtain ⟨hanswers, hcalls, hshuts, hclear⟩ := heval
  refine ⟨c, hc, hanswers, ?_⟩
  obtain ⟨hapart, hfirst, -, hstore⟩ :=
    definitions_wait_for_gates ⟨_, _, c, hc, rfl⟩ Engine.numbered_start wardInputs wardRequests
  obtain ⟨ward, hpaths, hshut⟩ := Sight.shut_of_shutsSites hshuts
  have hclear : Sight.AllAbout (fun f => f.scope.Unbarred) _ := fun s hs f hf =>
    of_decide_eq_true (List.all_eq_true.1 (List.all_eq_true.1 hclear s hs) f hf)
  have hgates := hfirst (hapart wards.loader (by simp [wardRequests]) hclear)
  refine ⟨?_, ward, hpaths, hshut, fun room => hgates.module fun site hsite _ => hshut site hsite⟩
  rw [hstore, Store.replay, hcalls]
  rfl

/-- Modules at `a|b`, and at `b` within `a`, both with a name that opens a gate, or shuts it. -/
def mislaid : Bundle :=
  .ofList [
    ("main", "INCLUDE \"${P}\"; INCLUDE \"${Q}\";"),
    ("a|b", "LET Z := G; LET G := true;"),
    ("a", "INCLUDE \"${R}\";"),
    ("b", "LET G := false; INCLUDE \"c\" WHERE G;"),
    ("c", "LET Count := count();")]

/-- The name of the other module comes out before something is counted behind the gate. -/
def mislaidRequests : List Request :=
  [⟨mislaid.loader, 20, "Z"⟩, ⟨mislaid.loader, 20, "Count"⟩]

namespace Sight

/-- The name that is seen to come out as `true`, with the paths of the modules around it. -/
def granted? : Sight → Option (List String × String)
  | ends (.name scope n) (.bool true) => some (scope.paths, n)
  | _ => none

/-- The computation of a definition begins, but a condition of its gate does not come out as `true`
in modules with these paths, before or after. -/
def premature (log : List Sight) : Sight → Bool
  | begins (.definition scope _ _ d) =>
    d.gate.conditions.any fun c => decide ((scope.paths, c.name) ∉ log.filterMap granted?)
  | _ => false

/-- If gates come first, then no definition begins whose gate does not open at all. -/
theorem GatesFirst.not_premature {sources : List Loader} {entry : Graph} {log : List Sight}
    (h : GatesFirst sources entry log) : log.any (premature log) = false := by
  refine List.any_eq_false.2 fun s hs hearly => ?_
  match s, hearly with
  | begins (.definition scope n rank d), hearly =>
    obtain ⟨c, hc, hnever⟩ := List.any_eq_true.1 hearly
    obtain ⟨before, after, hsplit⟩ := List.append_of_mem hs
    obtain ⟨-, -, hopened⟩ := h.permits hsplit _ (List.mem_singleton_self _)
    have hends : ends (.name scope c.name) (.bool true) ∈ log := by
      rw [hsplit]
      exact List.mem_append_left _ (hopened c hc)
    exact of_decide_eq_true hnever (List.mem_filterMap.2 ⟨_, hends, rfl⟩)

end Sight

/-- Where scopes share a text, a gate opens by what has come out elsewhere: alone, the call behind
it is not made, but after another request it is, though the condition of the gate has not come out
as `true` in any modules with the paths of those around the call. -/
theorem barred_path_opens_gate : ∃ c, mislaid.loader.compile "main" = .ok c ∧
    let x := (barring c.graph).1
    let e := (barring c.graph).2
    let alone := x.observe e ((mislaidRequests.drop 1).map .request)
    let after := x.observe e (mislaidRequests.map .request)
    alone.2.1.map Except.toOption = [some .null] ∧ alone.1.filterMap Sight.request? = [] ∧
    after.2.1.map Except.toOption = [some (.bool true), some (.int 1)] ∧
    after.1.filterMap Sight.request? =
      [.increment (.ofCall Function.count.name "Count" [])] ∧
    ¬ Sight.GatesFirst (mislaidRequests.map Request.loader) c.graph after.1 := by
  have heval : (mislaid.loader.compile "main").toOption.map (fun c =>
      let x := (barring c.graph).1
      let e := (barring c.graph).2
      let alone := x.observe e ((mislaidRequests.drop 1).map .request)
      let after := x.observe e (mislaidRequests.map .request)
      (alone.2.1.map Except.toOption, alone.1.filterMap Sight.request?,
        after.2.1.map Except.toOption, after.1.filterMap Sight.request?,
        after.1.any (Sight.premature after.1))) =
      some ([some .null], [], [some (.bool true), some (.int 1)],
        [.increment (.ofCall Function.count.name "Count" [])], true) := by
    decide +kernel
  obtain ⟨c, hc, heval⟩ := exists_ok_of_map heval
  simp only [Prod.mk.injEq] at heval
  obtain ⟨halone, hnone, hanswers, hcalls, hearly⟩ := heval
  refine ⟨c, hc, halone, hnone, hanswers, hcalls, fun hfirst => ?_⟩
  rw [hfirst.not_premature] at hearly
  cases hearly

end GatedRules
