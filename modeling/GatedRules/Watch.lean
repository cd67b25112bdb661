import GatedRules.Evaluation.Engine

/-!
# Watching a module

A watch holds the graph of a module and compiles it again from time to time. A graph is published
when its fingerprint differs from that of the last successful compilation; a failure leaves the
published graph as it is. Before anything has compiled the published graph is the empty one.
-/

namespace GatedRules

/-- A module that is watched. -/
structure Watch where
  /-- The path of the module. -/
  main : String
  /-- The published graph. -/
  graph : Graph
  /-- The fingerprint of the last successful compilation. -/
  last : Option Fingerprint

namespace Watch

/-- Compile a module for the first time. -/
def start (e : Engine) (loader : Loader) (main : String) : Watch × Engine :=
  match e.compile loader main with
  | (.ok compiled, e) => (⟨main, compiled.graph, some compiled.graph.fingerprint⟩, e)
  | (.error _, e) => (⟨main, .empty main, none⟩, e)

/-- Count an attempt to publish a changed graph. -/
def countReload (e : Engine) (success : Bool) : Engine :=
  { e with metrics := e.metrics.countReload success }

/-- Compile the module again. The answer is whether a graph is published. -/
def tick (w : Watch) (e : Engine) (loader : Loader) : Bool × Watch × Engine :=
  match e.compile loader w.main with
  | (.error _, e) => (false, w, countReload e false)
  | (.ok compiled, e) =>
    let graph := compiled.graph
    if w.last = some graph.fingerprint then (false, w, e)
    else (true, { w with graph, last := some graph.fingerprint }, countReload e true)

end Watch

end GatedRules
