import GatedRules.Evaluation.Operator
import GatedRules.Inclusion.Walk
import GatedRules.Metrics
import GatedRules.Shards

/-!
# The engine

What outlives an execution: the store, the counters, and for every running execution what became of
the module paths that it asked for. The module at a path is compiled at most once for an execution,
however often the loader changes meanwhile; only a compilation that failed is tried again.
Executions share nothing here but the store and the counters. What is kept for them is spread over
shards, which nothing depends on.
-/

namespace GatedRules

/-- What became of a module path. -/
inductive Outcome
  /-- Its module compiled. -/
  | resolved (graph : Graph)
  /-- There is no module at the path. -/
  | absent (path : String)

/-- The number of an execution. -/
abbrev ExecutionId : Type :=
  Nat

/-- What outlives an execution. -/
structure Engine where
  /-- For every execution the paths asked for, with what became of them; nothing is known of a
  path whose module did not compile. -/
  memos : Shards ExecutionId (Table String (Option Outcome))
  /-- The state of stateful calls. -/
  store : Store
  /-- The counters. -/
  metrics : Metrics
  /-- The number of the next execution. -/
  nextId : ExecutionId
  /-- How many microseconds compilations take, from the first one on. This is for the counters
  only. -/
  durations : Nat → Nat := fun _ => 0

namespace Engine

/-- The engine before anything has happened, where executions are assigned to shards in a given
way. -/
def startWith (assign : ExecutionId → Fin 16) : Engine :=
  { memos := .empty assign, store := .empty, metrics := {}, nextId := 0 }

/-- The engine before anything has happened. -/
def start : Engine :=
  startWith (Fin.ofNat 16)

/-- Compile a module, and count it. -/
def compile (e : Engine) (loader : Loader) (path : String) :
    Except CompileError Compiled × Engine :=
  let result := loader.compile path
  let slots := result.toOption.map fun c => c.graph.size
  let duration := e.durations e.metrics.compilations
  (result, { e with metrics := (e.metrics.countCompilation slots).countLatency duration })

/-- The paths that an execution asked for, with what became of them. -/
def memo (e : Engine) (id : ExecutionId) : Table String (Option Outcome) :=
  (e.memos.get? id).getD .empty

/-- Note what is known of a path. -/
def note (e : Engine) (id : ExecutionId) (path : String) (known : Option Outcome) : Engine :=
  { e with memos := e.memos.insert id ((e.memo id).insert path known) }

/-- What compiling the module at a path means for an execution. -/
def outcome (loader : Loader) (path : String) : Except EvalError Outcome :=
  match loader.compile path with
  | .ok compiled => .ok (.resolved compiled.graph)
  | .error error =>
    if error.isMissingRoot path then .ok (.absent path) else .error (.compile path error)

/-- Compile the module at a canonical path for an execution, and note what became of it. -/
def resolveAnew (e : Engine) (loader : Loader) (id : ExecutionId) (path : String) :
    Except EvalError Outcome × Engine :=
  match e.compile loader path with
  | (.ok compiled, e) =>
    (.ok (.resolved compiled.graph), e.note id path (some (.resolved compiled.graph)))
  | (.error error, e) =>
    if error.isMissingRoot path then
      (.ok (.absent path),
        { e with metrics := e.metrics.countAbsent }.note id path (some (.absent path)))
    else (.error (.compile path error), { e with metrics := e.metrics.countResolutionError })

/-- What becomes of a module path in an execution. -/
def resolvePath (e : Engine) (loader : Loader) (id : ExecutionId) (path : String) :
    Except EvalError Outcome × Engine :=
  let path := Path.canonical path
  let known := (e.memo id).get? path
  let counted := { e with metrics := e.metrics.countLookup known.isSome }
  match known with
  | some (some outcome) => (.ok outcome, counted)
  | some none => counted.resolveAnew loader id path
  | none => (counted.note id path none).resolveAnew loader id path

/-- The path of a site's module, given the values of names. -/
def render (site : Site) (bound : String → Option Value) : Except EvalError String :=
  match site.template.render fun name => (bound name).bind Value.pathText? with
  | .ok path => .ok (Path.canonical path)
  | .error name => .error (.unresolvedInput site.template.text name)

/-- What becomes of a site in an execution, given the values of names. -/
def resolve (e : Engine) (loader : Loader) (id : ExecutionId) (site : Site)
    (bound : String → Option Value) : Except EvalError Outcome × Engine :=
  match render site bound with
  | .error error => (.error error, e)
  | .ok path => e.resolvePath loader id path

/-- Forget the paths that an execution asked for; the answer is whether there were any. -/
def finish (e : Engine) (id : ExecutionId) : Bool × Engine :=
  ((e.memos.get? id).isSome, { e with memos := e.memos.erase id })

/-- The number of executions that asked for a path. -/
def active (e : Engine) : Nat :=
  e.memos.size

/-- The number of paths that an execution asked for. -/
def memoSize (e : Engine) (id : ExecutionId) : Nat :=
  (e.memo id).size

/-! ### Laws -/

@[simp]
theorem memo_note (e : Engine) (id : ExecutionId) (path : String) (known : Option Outcome) :
    (e.note id path known).memo id = (e.memo id).insert path known := by
  simp [note, memo, Shards.get?_insert]

theorem resolveAnew_fst (e : Engine) (loader : Loader) (id : ExecutionId) (path : String) :
    (e.resolveAnew loader id path).1 = outcome loader path := by
  unfold resolveAnew outcome compile
  cases loader.compile path with
  | ok compiled => rfl
  | error error =>
    dsimp only
    split <;> rfl

theorem store_resolveAnew (e : Engine) (loader : Loader) (id : ExecutionId) (path : String) :
    (e.resolveAnew loader id path).2.store = e.store := by
  unfold resolveAnew compile
  cases loader.compile path with
  | ok compiled => rfl
  | error error =>
    dsimp only
    split <;> rfl

/-- Compiling a module anew changes what is known of its path to what becomes of it. -/
theorem memo_resolveAnew {e : Engine} {loader : Loader} {id : ExecutionId} {path : String}
    (h : (e.memo id).get? path = some none) (p : String) :
    ((e.resolveAnew loader id path).2.memo id).get? p =
      if p = path then some (outcome loader path).toOption else (e.memo id).get? p := by
  unfold resolveAnew outcome compile
  cases loader.compile path with
  | ok compiled =>
    dsimp only
    rw [memo_note, Table.get?_insert]
    rfl
  | error error =>
    dsimp only
    split
    · rw [memo_note, Table.get?_insert]
      rfl
    · change (e.memo id).get? p = _
      split
      · rename_i hp
        rw [hp, h]
        rfl
      · rfl

/-- What became of a path is answered again, and only counted. -/
theorem resolvePath_of_known {e : Engine} {loader : Loader} {id : ExecutionId}
    {path : String} {o : Outcome} (h : (e.memo id).get? (Path.canonical path) = some (some o)) :
    e.resolvePath loader id path = (.ok o, { e with metrics := e.metrics.countLookup true }) := by
  simp only [resolvePath, h]
  rfl

/-- A path of which nothing better is known is compiled in an engine that has noted it. -/
private theorem resolvePath_of_unknown {e : Engine} (loader : Loader) {id : ExecutionId}
    {path : String} (h : ∀ o, (e.memo id).get? (Path.canonical path) ≠ some (some o)) :
    ∃ e' : Engine, e.resolvePath loader id path = e'.resolveAnew loader id (Path.canonical path) ∧
      e'.store = e.store ∧
      ∀ p, (e'.memo id).get? p =
        if p = Path.canonical path then some none else (e.memo id).get? p := by
  rcases hk : (e.memo id).get? (Path.canonical path) with _ | _ | o
  · refine ⟨{ e with metrics := e.metrics.countLookup false }.note id (Path.canonical path) none,
      ?_, rfl, fun p => ?_⟩
    · simp only [resolvePath, hk, Option.isSome_none]
    · rw [memo_note, Table.get?_insert]
      rfl
  · refine ⟨{ e with metrics := e.metrics.countLookup true }, ?_, rfl, fun p => ?_⟩
    · simp only [resolvePath, hk, Option.isSome_some]
    change (e.memo id).get? p = _
    split
    · rename_i hp
      rw [hp, hk]
    · rfl
  · exact absurd hk (h o)

/-- An execution that asks again for a path whose module compiled, or is absent, gets the same
answer; else the module is compiled. -/
theorem resolvePath_fst (e : Engine) (loader : Loader) (id : ExecutionId) (path : String) :
    (e.resolvePath loader id path).1 =
      match (e.memo id).get? (Path.canonical path) with
      | some (some outcome) => .ok outcome
      | _ => outcome loader (Path.canonical path) := by
  split
  · rename_i o h
    rw [resolvePath_of_known h]
  · rename_i h
    obtain ⟨e', he, -⟩ := resolvePath_of_unknown loader h
    rw [he, resolveAnew_fst]

theorem store_resolvePath (e : Engine) (loader : Loader) (id : ExecutionId) (path : String) :
    (e.resolvePath loader id path).2.store = e.store := by
  by_cases h : ∃ o, (e.memo id).get? (Path.canonical path) = some (some o)
  · obtain ⟨o, h⟩ := h
    rw [resolvePath_of_known h]
  · obtain ⟨e', he, hs, -⟩ := resolvePath_of_unknown loader (not_exists.1 h)
    rw [he, store_resolveAnew, hs]

/-- Asking for a path leaves behind what becomes of it, and nothing else. -/
theorem memo_resolvePath (e : Engine) (loader : Loader) (id : ExecutionId) (path p : String) :
    ((e.resolvePath loader id path).2.memo id).get? p =
      if p = Path.canonical path then some (e.resolvePath loader id path).1.toOption
      else (e.memo id).get? p := by
  by_cases h : ∃ o, (e.memo id).get? (Path.canonical path) = some (some o)
  · obtain ⟨o, h⟩ := h
    rw [resolvePath_of_known h]
    change (e.memo id).get? p = _
    split
    · rename_i hp
      rw [hp, h]
      rfl
    · rfl
  · obtain ⟨e', he, -, hm⟩ := resolvePath_of_unknown loader (not_exists.1 h)
    rw [he, memo_resolveAnew (by rw [hm, if_pos rfl]), resolveAnew_fst]
    split
    · rfl
    · rename_i hp
      rw [hm, if_neg hp]

end Engine

end GatedRules
