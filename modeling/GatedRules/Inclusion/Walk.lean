import GatedRules.Inclusion.Error
import GatedRules.Module.Parser

/-!
# The walk over includes

A module compiles by a depth-first walk over its statements and those of the modules it includes.
A binding is registered under the gate of the include chain that leads to it. An include whose
target is known beforehand leads on, under the chain's gate and its own condition; any other is
kept as a site, and must have no condition. Every module is fetched and parsed once, at its first
visit, however often it is included.

The paths on the current chain are distinct, since a path that comes back is an error. All but the
first come from includes in the sources, which are fewer than the characters of the sources; so
that number bounds the depth of the walk, and `resolve` never meets the bound.
-/

namespace GatedRules

/-- What a walk has found so far. -/
structure Walk where
  /-- The slots and sites. -/
  draft : Draft
  /-- The statements of the modules visited, in the order of the first visit. -/
  modules : Table String (List Statement)
  /-- The paths and sources fetched, in order. -/
  fetched : List (String × String)
  /-- The paths asked for, in order. -/
  asked : List String

/-- A step of a walk: it changes what has been found, and may end the walk with an error. -/
abbrev WalkM : Type → Type :=
  ExceptT CompileError (StateM Walk)

namespace Walk

/-- A walk that has not begun. -/
def start : Walk :=
  ⟨.empty, .empty, [], []⟩

/-- The statements of a module, which is fetched and parsed at its first visit. -/
def load (loader : Loader) (path : String) (includedFrom : Option String) :
    WalkM (List Statement) := do
  match (← get).modules.get? path with
  | some statements => return statements
  | none =>
    modify fun w => { w with asked := w.asked ++ [path] }
    match loader.fetch path with
    | .error (.notFound _) => throw (.notFound path includedFrom)
    | .error error => throw (.load path error)
    | .ok source =>
      modify fun w => { w with fetched := w.fetched ++ [(path, source)] }
      match Statement.parse path source with
      | .error error => throw (.malformed error)
      | .ok statements =>
        modify fun w => { w with modules := w.modules.insert path statements }
        return statements

/-- Register a binding of the module `origin`. -/
def define (origin : String) (gate : Gate) (name : String) (expr : Expr) (isDefault : Bool) :
    WalkM Unit := do
  match (← get).draft.define name ⟨expr, gate, origin⟩ isDefault with
  | .error duplicate => throw (.duplicate duplicate)
  | .ok draft => modify fun w => { w with draft }

/-- The gate of an include's condition. -/
def conditionGate (origin : String) : Option Expr → WalkM Gate
  | none => return .always
  | some expr => do
    let (draft, condition) := (← get).draft.defineGate expr origin
    modify fun w => { w with draft }
    return .ofCondition condition

/-- An include whose module is not known beforehand must have no condition. -/
def checkSite (directive : Include) (origin : String) : Except CompileError Unit :=
  match directive.condition with
  | none => .ok ()
  | some _ => .error (.invalidGate directive.target.text origin directive.line)

/-- Take one statement of the module `origin`; `enter` takes the module of an include. -/
def take (origin : String) (gate : Gate) (enter : String → Gate → WalkM Unit) :
    Statement → WalkM Unit
  | .binding name expr isDefault _ => define origin gate name expr isDefault
  | .inclusion directive => do
    match directive.target.target (← get).draft.literal? with
    | .fixed path =>
      let inner ← conditionGate origin directive.condition
      enter path (gate.and inner)
    | .pending template =>
      match checkSite directive origin with
      | .error error => throw error
      | .ok () =>
        modify fun w =>
          { w with draft := w.draft.addSite ⟨template, gate, origin, directive.line⟩ }

/-- Walk over the module at a path, which is reached under a gate along a chain of modules. -/
def resolve (loader : Loader) :
    Nat → String → Gate → List String → Option String → WalkM Unit
  | 0, path, _, chain, _ => throw (.cycle (chain ++ [path]))
  | n + 1, path, gate, chain, includedFrom => do
    match chain.idxOf? path with
    | some i => throw (.cycle (chain.drop i ++ [path]))
    | none =>
      let statements ← load loader path includedFrom
      statements.forM (take path gate fun target inner =>
        resolve loader n target inner (chain ++ [path]) (some path))

end Walk

/-- A compiled module. -/
structure Compiled where
  /-- The canonical path of the entry module. -/
  path : String
  /-- The graph. -/
  graph : Graph
  /-- The paths of the modules that it is made of, in the order of the first visit. -/
  modules : List String

namespace Loader

/-- A bound on the depth of a walk: more than there are characters to read. -/
def depth (loader : Loader) : Nat :=
  (loader.sources.map String.length).foldr (· + ·) 1

/-- Walk over a module from its canonical path. -/
def walk (loader : Loader) (root : String) : Except CompileError Unit × Walk :=
  (Walk.resolve loader loader.depth root .always [] none).run Walk.start

/-- Compile the module at a path. -/
def compile (loader : Loader) (path : String) : Except CompileError Compiled :=
  let root := Path.canonical path
  match loader.walk root with
  | (.error error, _) => .error error
  | (.ok (), walk) =>
    match walk.draft.build root (.sources walk.fetched) with
    | .error chain => .error (.dependencyCycle chain)
    | .ok graph => .ok ⟨root, graph, walk.modules.keys⟩

/-- The paths for which compiling the module at a path asks, in order. -/
def asked (loader : Loader) (path : String) : List String :=
  (loader.walk (Path.canonical path)).2.asked

end Loader

end GatedRules
