/-!
# Counters

What has happened since the start, in numbers. Nothing depends on the counters; they are for
inspection, and `prometheus` writes them in the text format of that monitoring system.
-/

namespace GatedRules

/-- Compilations, told apart by how long they took. -/
structure Latency where
  /-- Less than a millisecond. -/
  belowOne : Nat := 0
  /-- From one millisecond to five. -/
  belowFive : Nat := 0
  /-- From five milliseconds to ten. -/
  belowTen : Nat := 0
  /-- From ten milliseconds to fifty. -/
  belowFifty : Nat := 0
  /-- From fifty milliseconds to a hundred. -/
  belowHundred : Nat := 0
  /-- A hundred milliseconds or more. -/
  longer : Nat := 0
deriving DecidableEq, Repr

namespace Latency

/-- Count a compilation that took some microseconds. -/
def count (l : Latency) (micros : Nat) : Latency :=
  if micros < 1000 then { l with belowOne := l.belowOne + 1 }
  else if micros < 5000 then { l with belowFive := l.belowFive + 1 }
  else if micros < 10000 then { l with belowTen := l.belowTen + 1 }
  else if micros < 50000 then { l with belowFifty := l.belowFifty + 1 }
  else if micros < 100000 then { l with belowHundred := l.belowHundred + 1 }
  else { l with longer := l.longer + 1 }

/-- All compilations that were counted. -/
def total (l : Latency) : Nat :=
  l.belowOne + l.belowFive + l.belowTen + l.belowFifty + l.belowHundred + l.longer

/-- Every compilation is counted once, however long it took. -/
@[simp]
theorem total_count (l : Latency) (micros : Nat) : (l.count micros).total = l.total + 1 := by
  unfold count
  split
  · simp only [total]; omega
  split
  · simp only [total]; omega
  split
  · simp only [total]; omega
  split
  · simp only [total]; omega
  split
  · simp only [total]; omega
  · simp only [total]; omega

end Latency

/-- The counters. -/
structure Metrics where
  /-- Compilations, successful or not. -/
  compilations : Nat := 0
  /-- Compilations that failed. -/
  compileErrors : Nat := 0
  /-- Slots of all graphs that were compiled. -/
  slots : Nat := 0
  /-- How long compilations took. -/
  latency : Latency := {}
  /-- Paths asked for by an execution for the first time. -/
  resolutions : Nat := 0
  /-- Paths asked for by an execution again. -/
  memoHits : Nat := 0
  /-- Sites whose module does not exist. -/
  absent : Nat := 0
  /-- Sites whose module does not compile. -/
  resolutionErrors : Nat := 0
  /-- Executions started. -/
  executions : Nat := 0
  /-- Stateful definitions that were not evaluated because of their gate. -/
  gatedSkips : Nat := 0
  /-- Attempts to publish a changed graph. -/
  reloads : Nat := 0
  /-- Attempts that failed. -/
  reloadErrors : Nat := 0
deriving DecidableEq, Repr

namespace Metrics

/-- Count a compilation with the number of its slots, or one that failed. -/
def countCompilation (m : Metrics) : Option Nat → Metrics
  | some slots => { m with compilations := m.compilations + 1, slots := m.slots + slots }
  | none => { m with compilations := m.compilations + 1, compileErrors := m.compileErrors + 1 }

/-- Count a compilation that took some microseconds. -/
def countLatency (m : Metrics) (micros : Nat := 0) : Metrics :=
  { m with latency := m.latency.count micros }

/-- Compilations whose duration was measured. -/
def latencySamples (m : Metrics) : Nat :=
  m.latency.total

/-- Count a path asked for by an execution, for the first time or again. -/
def countLookup (m : Metrics) (again : Bool) : Metrics :=
  if again then { m with memoHits := m.memoHits + 1 }
  else { m with resolutions := m.resolutions + 1 }

/-- Count a site whose module does not exist. -/
def countAbsent (m : Metrics) : Metrics :=
  { m with absent := m.absent + 1 }

/-- Count a site whose module does not compile. -/
def countResolutionError (m : Metrics) : Metrics :=
  { m with resolutionErrors := m.resolutionErrors + 1 }

/-- Count an execution. -/
def countExecution (m : Metrics) : Metrics :=
  { m with executions := m.executions + 1 }

/-- Count a stateful definition whose gate does not hold. -/
def countGatedSkip (m : Metrics) : Metrics :=
  { m with gatedSkips := m.gatedSkips + 1 }

/-- Count an attempt to publish a changed graph. -/
def countReload (m : Metrics) (success : Bool) : Metrics :=
  if success then { m with reloads := m.reloads + 1 }
  else { m with reloads := m.reloads + 1, reloadErrors := m.reloadErrors + 1 }

/-- The heading of a family of counters. -/
def heading (name help : String) : String :=
  "# HELP " ++ name ++ " " ++ help ++ "\n# TYPE " ++ name ++ " counter\n"

/-- A family of one counter. -/
def family (name help : String) (value : Nat) : String :=
  heading name help ++ name ++ " " ++ toString value ++ "\n"

/-- A counter of a family, told apart by its outcome. -/
def outcome (name label : String) (value : Nat) : String :=
  name ++ "\x7boutcome=\"" ++ label ++ "\"\x7d " ++ toString value ++ "\n"

/-- The counters in text form. Of the durations only the heading is written. -/
def prometheus (m : Metrics) : String :=
  let resolutions := "rulegraph_dynamic_resolutions"
  "\n".intercalate [
    family "rulegraph_compilations_total" "Total number of compilations" m.compilations,
    family "rulegraph_compile_errors_total" "Compilations that failed" m.compileErrors,
    family "rulegraph_slots_registered_total" "Slots registered by successful compilations" m.slots,
    heading "rulegraph_compile_latency_bucket" "Compile latency histogram",
    heading resolutions "Dynamic include resolutions by outcome" ++
      outcome resolutions "resolved" m.resolutions ++
      outcome resolutions "memo_hit" m.memoHits ++
      outcome resolutions "absent" m.absent ++
      outcome resolutions "error" m.resolutionErrors,
    family "rulegraph_executions_total" "Total executions started" m.executions,
    family "rulegraph_gated_stateful_skips_total" "Stateful calls skipped by a false gate"
      m.gatedSkips,
    family "rulegraph_graph_reloads_total" "Graph reload operations" m.reloads,
    family "rulegraph_graph_reload_errors_total" "Graph reload errors" m.reloadErrors]

end Metrics

end GatedRules
