import GatedRules.Proofs.Moments

/-!
# Hosts

A host runs any number of executions over one engine and one loader, and keeps them under labels. It
serves commands in any order: an execution starts, is asked for names, and is dropped, and what is
noted for an execution may be forgotten meanwhile. What happens to the execution of one label may so
fall between any two steps of the others (`Host.run`).

Commands do only two things to a host: they use what is kept under their label, or they start an
execution there (`Host.serve_acts`). So executions have numbers of their own, whatever has been
served, what is noted for each of them is what becomes of module paths, and nothing is noted for
those that have been dropped (`Host.Reachable.orderly`). Serving a command for one label leaves
alone all that there is for the others: their executions, and what is noted for these
(`Host.Orderly.view_serve_of_ne`).
-/

namespace GatedRules

open Relation

/-- What a host keeps under a label. -/
structure Host.Entry where
  /-- The execution that has been started last. -/
  execution : Execution
  /-- Whether it has not been dropped. -/
  running : Bool

/-- The executions over an engine, under labels. -/
structure Host where
  /-- What outlives the executions. -/
  engine : Engine
  /-- The executions that have been started. -/
  entries : Table String Host.Entry

namespace Host

/-- What is asked of a host for a label. -/
inductive Command
  /-- Start an execution. One that is running under the label is dropped. -/
  | start (graph : Graph) (inputs : Table String Value)
  /-- What is the value of a name, with a given budget? -/
  | fetch (budget : Nat) (name : String)
  /-- What are the values of names? -/
  | fetchAll (budget : Nat) (names : List String)
  /-- Drop the execution. -/
  | drop
  /-- Forget what is noted for the execution, be it running or dropped. -/
  | finish

/-- What a host answers. -/
inductive Reply
  /-- An execution has been started. -/
  | started
  /-- The value of a name, or why there is none. -/
  | value (result : Except Halt Value)
  /-- The values of names, or why there are none. -/
  | values (result : Except Halt (List Value))
  /-- The execution has been dropped. -/
  | dropped
  /-- Whether anything was noted for the execution. -/
  | finished (existed : Bool)
  /-- There is no such execution under the label. -/
  | unknown

/-- The host without executions. -/
def idle (e : Engine) : Host :=
  ⟨e, .empty⟩

/-- Do something with the execution that is running under a label, if there is one. -/
def withRunning (h : Host) (label : String) (f : Execution → Reply × Host) : Reply × Host :=
  match h.entries.get? label with
  | some ⟨x, true⟩ => f x
  | _ => (.unknown, h)

/-- Drop the execution that is running under a label. -/
def drop (h : Host) (label : String) : Reply × Host :=
  h.withRunning label fun x => (.dropped, ⟨x.drop h.engine, h.entries.insert label ⟨x, false⟩⟩)

/-- Start an execution under a label. -/
def start (h : Host) (label : String) (graph : Graph) (inputs : Table String Value) : Host :=
  let (x, e) := Execution.start h.engine graph inputs
  ⟨e, h.entries.insert label ⟨x, true⟩⟩

/-- Serve a command for a label. -/
def serve (loader : Loader) (h : Host) (label : String) : Command → Reply × Host
  | .start graph inputs => (.started, (h.drop label).2.start label graph inputs)
  | .fetch budget name => h.withRunning label fun x =>
    let (result, x, e) := x.fetchWithin budget h.engine loader name
    (.value result, ⟨e, h.entries.insert label ⟨x, true⟩⟩)
  | .fetchAll budget names => h.withRunning label fun x =>
    let (result, x, e) := x.fetchAllWithin budget h.engine loader names
    (.values result, ⟨e, h.entries.insert label ⟨x, true⟩⟩)
  | .drop => h.drop label
  | .finish =>
    match h.entries.get? label with
    | none => (.unknown, h)
    | some entry =>
      let (existed, e) := h.engine.finish entry.execution.id
      (.finished existed, { h with engine := e })

/-- Serve commands one after the other. -/
def run (loader : Loader) (h : Host) : List (String × Command) → List (String × Reply) × Host
  | [] => ([], h)
  | (label, command) :: rest =>
    let (reply, h) := h.serve loader label command
    let (replies, h) := h.run loader rest
    ((label, reply) :: replies, h)

/-- What a host answers for a label. -/
def answers (loader : Loader) (h : Host) (label : String) (steps : List (String × Command)) :
    List Reply :=
  (h.run loader steps).1.filterMap fun r => if r.1 = label then some r.2 else none

/-- A host to which commands lead that it serves with a loader. -/
inductive Reachable (loader : Loader) : Host → Prop
  /-- A host begins without executions, on an engine that may have been used before. -/
  | idle {e : Engine} : e.Numbered → Reachable loader (idle e)
  /-- A command is served. -/
  | serve {h : Host} (label : String) (command : Command) : Reachable loader h →
    Reachable loader (h.serve loader label command).2

/-- What is done to a host for a label. -/
inductive Acts (loader : Loader) (label : String) (h : Host) : Host → Prop
  /-- What is kept under the label is used. Nothing is noted for an execution that has been dropped
  before or is dropped by it. -/
  | use {s s' : Entry} {e : Engine} : h.entries.get? label = some s →
    s'.execution.id = s.execution.id → (s'.running = true → s.running = true) →
    Engine.Minds s.execution.id h.engine e →
    (h.engine.Consistent loader s.execution.id → e.Consistent loader s.execution.id) →
    (s'.running = false → e.memos.get? s.execution.id = none) →
    Acts loader label h ⟨e, h.entries.insert label s'⟩
  /-- An execution is started. -/
  | start (graph : Graph) (inputs : Table String Value) :
    Acts loader label h (h.start label graph inputs)

end Host

/-! ### What requests leave alone -/

namespace Engine

variable {e e' : Engine} {loader : Loader} {id other : ExecutionId}

theorem minds_finish (e : Engine) (id : ExecutionId) : Minds id e (e.finish id).2 :=
  ⟨rfl, fun _ ho => (Shards.get?_erase ..).trans (if_neg ho)⟩

theorem get?_finish (e : Engine) (id : ExecutionId) : (e.finish id).2.memos.get? id = none :=
  (Shards.get?_erase ..).trans (if_pos rfl)

/-- What is noted for other executions stays consistent. -/
theorem Minds.consistent (h : Minds id e e') (ho : other ≠ id) (he : e.Consistent loader other) :
    e'.Consistent loader other := by
  intro path o hm
  rw [memo, h.memos other ho] at hm
  exact he path o hm

/-- If nothing is noted, then nothing wrong. -/
theorem consistent_of_none (h : e.memos.get? id = none) : e.Consistent loader id := by
  intro path o hm
  rw [memo, h] at hm
  cases hm

end Engine

namespace Execution

variable {loader : Loader} {x : Execution} {e : Engine}

/-- A request changes what is noted for one execution only, whose number stays the same. -/
structure Minds (loader : Loader) (x : Execution) (e : Engine) (x' : Execution) (e' : Engine) :
    Prop where
  /-- The number is the same. -/
  id : x'.id = x.id
  /-- The graph is the same. -/
  graph : x'.graph = x.graph
  /-- The inputs are the same. -/
  inputs : x'.inputs = x.inputs
  /-- Other executions are left alone. -/
  engine : Engine.Minds x.id e e'
  /-- What is noted stays consistent. -/
  consistent : e.Consistent loader x.id → e'.Consistent loader x.id

theorem Minds.refl (x : Execution) (e : Engine) : x.Minds loader e x e :=
  ⟨rfl, rfl, rfl, .refl e, fun hc => hc⟩

theorem Minds.trans {x' x'' : Execution} {e' e'' : Engine} (h : x.Minds loader e x' e')
    (h' : x'.Minds loader e' x'' e'') : x.Minds loader e x'' e'' := by
  obtain ⟨hid, hgraph, hinputs, hengine, hconsistent⟩ := h
  rw [← hid] at hengine hconsistent
  refine ⟨h'.id.trans hid, h'.graph.trans hgraph, h'.inputs.trans hinputs, ?_, ?_⟩ <;> rw [← hid]
  · exact hengine.trans h'.engine
  · exact fun hc => h'.consistent (hconsistent hc)

theorem minds_of_fetchWithin (budget : Nat) (x : Execution) (e : Engine) (loader : Loader)
    (name : String) : let out := x.fetchWithin budget e loader name
    x.Minds loader e out.2.1 out.2.2 :=
  ⟨rfl, rfl, rfl, minds_fetchWithin budget x e loader name,
    EvalM.consistent_answer (x.setting loader) budget _ [] (x.world e)⟩

theorem minds_of_fetchAllWithin (budget : Nat) (x : Execution) (e : Engine) (loader : Loader)
    (names : List String) : let out := x.fetchAllWithin budget e loader names
    x.Minds loader e out.2.1 out.2.2 := by
  induction names generalizing x e with
  | nil => exact .refl x e
  | cons name names ih =>
    have hfirst := minds_of_fetchWithin budget x e loader name
    dsimp only at hfirst ⊢
    rw [fetchAllWithin]
    rcases hr : x.fetchWithin budget e loader name with ⟨halt | v, x', e'⟩
    · rw [hr] at hfirst
      exact hfirst
    · rw [hr] at hfirst
      have hrest := hfirst.trans (ih x' e')
      dsimp only at hrest ⊢
      rcases hr' : x'.fetchAllWithin budget e' loader names with ⟨halt | vs, x'', e''⟩
      · rw [hr'] at hrest
        exact hrest
      · rw [hr'] at hrest
        exact hrest

end Execution

namespace Host

variable {loader : Loader} {h h' : Host} {label other : String} {x x' : Execution} {e : Engine}

theorem withRunning_of_get? (hx : h.entries.get? label = some ⟨x, true⟩)
    (f : Execution → Reply × Host) : h.withRunning label f = f x := by
  rw [withRunning, hx]

/-- What is done with a running execution is done to the host. -/
theorem acts_withRunning {f : Execution → Reply × Host}
    (hf : ∀ x, h.entries.get? label = some ⟨x, true⟩ → Acts loader label h (f x).2) :
    ReflTransGen (Acts loader label) h (h.withRunning label f).2 := by
  rw [withRunning]
  split
  · exact .single (hf _ ‹_›)
  · exact .refl

/-- A request is an act. -/
theorem acts_of_minds (hx : h.entries.get? label = some ⟨x, true⟩)
    (hm : x.Minds loader h.engine x' e) :
    Acts loader label h ⟨e, h.entries.insert label ⟨x', true⟩⟩ :=
  .use hx hm.id id hm.engine hm.consistent nofun

theorem acts_drop (loader : Loader) (h : Host) (label : String) :
    ReflTransGen (Acts loader label) h (h.drop label).2 := by
  refine acts_withRunning fun x hx => ?_
  have hnone := h.engine.get?_finish x.id
  exact .use hx rfl nofun (Engine.minds_finish _ _) (fun _ => Engine.consistent_of_none hnone)
    fun _ => hnone

/-- **What commands do.** They use what is kept under their label, or start an execution there. -/
theorem serve_acts (loader : Loader) (h : Host) (label : String) (command : Command) :
    ReflTransGen (Acts loader label) h (h.serve loader label command).2 := by
  cases command with
  | start graph inputs => exact (acts_drop loader h label).tail (.start graph inputs)
  | fetch budget name =>
    exact acts_withRunning fun x hx =>
      acts_of_minds hx (x.minds_of_fetchWithin budget h.engine loader name)
  | fetchAll budget names =>
    exact acts_withRunning fun x hx =>
      acts_of_minds hx (x.minds_of_fetchAllWithin budget h.engine loader names)
  | drop => exact acts_drop loader h label
  | finish =>
    rw [serve]
    split
    · exact .refl
    · rename_i s hs
      have hnone := h.engine.get?_finish s.execution.id
      have hact : Acts loader label h
          ⟨(h.engine.finish s.execution.id).2, h.entries.insert label s⟩ :=
        .use hs rfl id (Engine.minds_finish _ _) (fun _ => Engine.consistent_of_none hnone)
          fun _ => hnone
      rw [Table.insert_eq_self hs] at hact
      exact .single hact

/-! ### What holds whatever has been served -/

/-- Executions have numbers of their own, and what is noted for them is in order. -/
structure Orderly (loader : Loader) (h : Host) : Prop where
  /-- Nothing is noted under numbers that are yet to be given. -/
  numbered : h.engine.Numbered
  /-- Executions have been given their numbers. -/
  given : ∀ {label s}, h.entries.get? label = some s → s.execution.id < h.engine.nextId
  /-- A number is given once. -/
  distinct : ∀ {label label' s s'}, h.entries.get? label = some s →
    h.entries.get? label' = some s' → s.execution.id = s'.execution.id → label = label'
  /-- What is noted of module paths is what becomes of them. -/
  consistent : ∀ {label s}, h.entries.get? label = some s →
    h.engine.Consistent loader s.execution.id
  /-- Nothing is noted for an execution that has been dropped. -/
  dropped : ∀ {label s}, h.entries.get? label = some s → s.running = false →
    h.engine.memos.get? s.execution.id = none

theorem orderly_idle (he : e.Numbered) : (idle e).Orderly loader :=
  ⟨he, nofun, nofun, nofun, nofun⟩

theorem get?_insert_of_ne {entries : Table String Entry} {s : Entry} (hne : other ≠ label) :
    (entries.insert label s).get? other = entries.get? other :=
  Table.get?_insert_of_ne _ _ hne

/-- An entry after something has been put under a label is that, or one under another label. -/
theorem of_get?_insert {entries : Table String Entry} {s t : Entry}
    (ht : (entries.insert label s).get? other = some t) :
    (other = label ∧ t = s) ∨ (other ≠ label ∧ entries.get? other = some t) := by
  rw [Table.get?_insert] at ht
  split at ht
  · exact .inl ⟨‹_›, (Option.some.inj ht).symm⟩
  · exact .inr ⟨‹_›, ht⟩

/-- Numbers stay distinct if an entry gets one that no other entry has. -/
theorem Orderly.distinct_insert (ho : h.Orderly loader) {s : Entry}
    (hs : ∀ {l t}, l ≠ label → h.entries.get? l = some t → t.execution.id ≠ s.execution.id)
    {l l' : String} {t t' : Entry} (ht : (h.entries.insert label s).get? l = some t)
    (ht' : (h.entries.insert label s).get? l' = some t')
    (heq : t.execution.id = t'.execution.id) : l = l' := by
  rcases of_get?_insert ht with ⟨rfl, rfl⟩ | ⟨hl, hm⟩ <;>
    rcases of_get?_insert ht' with ⟨rfl, rfl⟩ | ⟨hl', hm'⟩
  · rfl
  · exact absurd heq.symm (hs hl' hm')
  · exact absurd heq (hs hl hm)
  · exact ho.distinct hm hm' heq

theorem Orderly.acts (ho : h.Orderly loader) (ha : Acts loader label h h') :
    h'.Orderly loader := by
  cases ha with
  | @use s s' e hs hid hrunning hminds hconsistent hdropped =>
    -- The number is the same as before, so the other entries have other numbers.
    have hother : ∀ {l t}, l ≠ label → h.entries.get? l = some t →
        t.execution.id ≠ s.execution.id := fun hl ht heq => hl (ho.distinct ht hs heq)
    refine ⟨ho.numbered.of_minds hminds (ho.given hs), fun ht => ?_,
      ho.distinct_insert (hid ▸ hother), fun ht => ?_, fun ht hr => ?_⟩
    · dsimp only
      rw [hminds.nextId]
      rcases of_get?_insert ht with ⟨-, rfl⟩ | ⟨-, ht⟩
      · exact hid ▸ ho.given hs
      · exact ho.given ht
    · rcases of_get?_insert ht with ⟨-, rfl⟩ | ⟨hl, ht⟩
      · exact hid ▸ hconsistent (ho.consistent hs)
      · exact hminds.consistent (hother hl ht) (ho.consistent ht)
    · rcases of_get?_insert ht with ⟨-, rfl⟩ | ⟨hl, ht⟩
      · exact hid ▸ hdropped hr
      · exact (hminds.memos _ (hother hl ht)).trans (ho.dropped ht hr)
  | start graph inputs =>
    have hnew : ∀ {l t}, h.entries.get? l = some t → t.execution.id ≠ h.engine.nextId :=
      fun ht => Nat.ne_of_lt (ho.given ht)
    refine ⟨Execution.numbered_start ho.numbered graph inputs, fun ht => ?_,
      ho.distinct_insert fun _ => hnew, fun ht => ?_, fun ht hr => ?_⟩
    · rcases of_get?_insert ht with ⟨-, rfl⟩ | ⟨-, ht⟩
      · exact Nat.lt_succ_self _
      · exact Nat.lt_succ_of_lt (ho.given ht)
    · rcases of_get?_insert ht with ⟨-, rfl⟩ | ⟨-, ht⟩
      · exact Engine.consistent_of_none (ho.numbered _ (Nat.le_refl _))
      · exact ho.consistent ht
    · rcases of_get?_insert ht with ⟨-, rfl⟩ | ⟨-, ht⟩
      · cases hr
      · exact ho.dropped ht hr

theorem Orderly.arises (ho : h.Orderly loader) (ha : ReflTransGen (Acts loader label) h h') :
    h'.Orderly loader := by
  induction ha with
  | refl => exact ho
  | tail _ hact ih => exact ih.acts hact

/-- **Whatever has been served**, a host is orderly. -/
theorem Reachable.orderly (hr : h.Reachable loader) : h.Orderly loader := by
  induction hr with
  | idle he => exact orderly_idle he
  | serve label command _ ih => exact ih.arises (serve_acts loader _ label command)

theorem run_append (loader : Loader) (h : Host) (steps steps' : List (String × Command)) :
    (h.run loader (steps ++ steps')).2 = ((h.run loader steps).2.run loader steps').2 := by
  induction steps generalizing h with
  | nil => rfl
  | cons step steps ih => exact ih (h.serve loader step.1 step.2).2

theorem answers_cons_self (loader : Loader) (h : Host) (label : String) (command : Command)
    (steps : List (String × Command)) :
    h.answers loader label ((label, command) :: steps) =
      (h.serve loader label command).1 ::
        (h.serve loader label command).2.answers loader label steps :=
  List.filterMap_cons_some (if_pos rfl)

theorem answers_cons_of_ne (loader : Loader) (h : Host) (hne : other ≠ label)
    (command : Command) (steps : List (String × Command)) :
    h.answers loader label ((other, command) :: steps) =
      (h.serve loader other command).2.answers loader label steps :=
  List.filterMap_cons_none (if_neg hne)

theorem Reachable.run (hr : h.Reachable loader) (steps : List (String × Command)) :
    (h.run loader steps).2.Reachable loader := by
  induction steps generalizing h with
  | nil => exact hr
  | cons step steps ih => exact ih (hr.serve step.1 step.2)

/-! ### What there is for a label -/

/-- All that there is for a label, but for the number. -/
structure View where
  /-- The graph of the execution. -/
  graph : Graph
  /-- The inputs. -/
  inputs : Table String Value
  /-- The values that it has computed. -/
  cells : Table String Value
  /-- Whether it has not been dropped. -/
  running : Bool
  /-- What is noted for it. -/
  memo : Option (Table String (Option Outcome))

/-- What there is for an entry, where an engine holds the notes. -/
def Entry.view (s : Entry) (e : Engine) : View :=
  ⟨s.execution.graph, s.execution.inputs, s.execution.cells, s.running,
    e.memos.get? s.execution.id⟩

/-- What there is for a label. -/
def view (h : Host) (label : String) : Option View :=
  (h.entries.get? label).map fun s => s.view h.engine

theorem Orderly.view_of_acts (ho : h.Orderly loader) (ha : Acts loader label h h')
    (hne : other ≠ label) : h'.view other = h.view other := by
  cases ha with
  | @use s s' e hs hid hrunning hminds hconsistent hdropped =>
    rw [view, view, get?_insert_of_ne hne]
    refine Option.map_congr fun t ht => ?_
    rw [Entry.view, Entry.view, hminds.memos _ fun heq => hne (ho.distinct ht hs heq)]
  | start graph inputs =>
    rw [view, view]
    exact congrArg (Option.map _) (get?_insert_of_ne hne)

/-- **Serving a command for one label** changes nothing for the others. -/
theorem Orderly.view_serve_of_ne (ho : h.Orderly loader) (hne : other ≠ label)
    (command : Command) : (h.serve loader label command).2.view other = h.view other := by
  have hacts := serve_acts loader h label command
  generalize (h.serve loader label command).2 = h' at hacts
  induction hacts with
  | refl => rfl
  | tail hacts hact ih => exact ((ho.arises hacts).view_of_acts hact hne).trans ih

end Host

/-! ### What executions come to -/

/-- An execution is running on an engine, after whatever a host has served. -/
def Execution.Arises (loader : Loader) (x : Execution) (e : Engine) : Prop :=
  ∃ h label, Host.Reachable loader h ∧ h.engine = e ∧ h.entries.get? label = some ⟨x, true⟩

/-- Some execution of a graph against inputs comes to a scope. -/
def Loader.Visits (loader : Loader) (graph : Graph) (inputs : Table String Value) (scope : Scope) :
    Prop :=
  ∃ x e, Execution.Arises loader x e ∧ x.graph = graph ∧ x.inputs = inputs ∧
    x.ComesTo e loader scope

namespace Execution

variable {loader : Loader} {x : Execution} {e : Engine} {budget : Nat} {name : String} {m : Moment}

/-- An execution that starts is running. -/
theorem arises_start (he : e.Numbered) (loader : Loader) (graph : Graph)
    (inputs : Table String Value) :
    (start e graph inputs).1.Arises loader (start e graph inputs).2 :=
  ⟨_, "", (Host.Reachable.idle he).serve "" (.start graph inputs), rfl,
    Table.get?_insert_self _ _ _⟩

/-- Requests begin at valid moments. -/
theorem Arises.valid (hx : x.Arises loader e) (budget : Nat) (name : String) :
    (x.moment e budget name).Valid (x.setting loader) := by
  obtain ⟨h, label, hr, rfl, hget⟩ := hx
  exact ⟨trivial, hr.orderly.consistent hget⟩

/-- After a request, an execution is one that is running. -/
theorem Arises.fetchWithin (hx : x.Arises loader e) (budget : Nat) (name : String) :
    let out := x.fetchWithin budget e loader name
    out.2.1.Arises loader out.2.2 := by
  obtain ⟨h, label, hr, rfl, hget⟩ := hx
  refine ⟨_, label, hr.serve label (.fetch budget name), ?_, ?_⟩
  · rw [Host.serve, Host.withRunning_of_get? hget]
  · rw [Host.serve, Host.withRunning_of_get? hget]
    exact Table.get?_insert_self _ _ _

theorem Arises.visits (hx : x.Arises loader e)
    (hm : ReflTransGen (Moment.Next (x.setting loader)) (x.moment e budget name) m) :
    loader.Visits x.graph x.inputs m.goal.scope :=
  ⟨x, e, hx, rfl, rfl, budget, name, m, hm, rfl⟩

/-- **The scopes to which executions come** are nested as sites lead from module to module. What is
known of visited modules besides holds of them, too. -/
theorem Arises.nested {r : Graph → Graph → Prop} (hx : x.Arises loader e)
    (hr : ∀ g p gs, loader.Visits x.graph x.inputs ⟨g, p :: gs⟩ → loader.MayInclude p g → r p g)
    (hm : ReflTransGen (Moment.Next (x.setting loader)) (x.moment e budget name) m) :
    m.goal.scope.Nested r x.graph := by
  induction hm with
  | refl => exact .entry
  | @tail m' m'' hm' hnext ih =>
    have hleads := (hnext.leads ((hx.valid budget name).arises hm')).1
    have hvisits := hx.visits (hm'.tail hnext)
    generalize m''.goal = goal' at hleads hvisits
    generalize m'.goal = goal at hleads ih
    cases hleads with
    | lookup => exact ih
    | definition => exact ih
    | primary => exact ih
    | around => exact ih.around
    | child hinclude => exact .child ih (hr _ _ _ hvisits hinclude)

end Execution

theorem Loader.Visits.nested {loader : Loader} {graph : Graph} {inputs : Table String Value}
    {scope : Scope} (h : loader.Visits graph inputs scope) :
    scope.Nested loader.MayInclude graph := by
  obtain ⟨x, e, hx, rfl, rfl, budget, name, m, hm, rfl⟩ := h
  exact hx.nested (fun _ _ _ _ hinclude => hinclude) hm

end GatedRules
