import GatedRules.Source.Loader
import GatedRules.Table

/-!
# Recorded answers

A loader made of answers that were obtained beforehand, one path at a time. A path of which nothing
is recorded counts as missing. Asking such a loader touches nothing outside, so a computation can be
repeated until every path that it asks for is recorded.
-/

namespace GatedRules

/-- What loading has answered for some paths. -/
structure Recorded where
  /-- The answers under the paths. -/
  answers : Table String (Except LoadError String)

namespace Recorded

/-- Nothing is recorded. -/
def empty : Recorded :=
  ⟨.empty⟩

/-- Record the answer for a path. -/
def record (r : Recorded) (path : String) (answer : Except LoadError String) : Recorded :=
  ⟨r.answers.insert path answer⟩

/-- The first of some paths of which nothing is recorded. -/
def firstUnknown? (r : Recorded) (paths : List String) : Option String :=
  paths.find? fun path => !r.answers.contains path

/-- The source of the module at a path. -/
def fetch (r : Recorded) (path : String) : Except LoadError String :=
  (r.answers.get? path).getD (.error (.notFound path))

/-- The sources that are recorded. -/
def sources (r : Recorded) : List String :=
  r.answers.values.filterMap Except.toOption

theorem mem_sources_of_fetch {r : Recorded} {path source : String} (h : r.fetch path = .ok source) :
    source ∈ r.sources := by
  unfold fetch at h
  cases ha : r.answers.get? path with
  | none => rw [ha] at h; cases h
  | some answer =>
    rw [ha, Option.getD_some] at h
    have hm : answer ∈ r.answers.values :=
      List.mem_map.2 ⟨_, Table.get?_eq_some_iff.1 ha, rfl⟩
    exact List.mem_filterMap.2 ⟨answer, hm, by rw [h]; rfl⟩

theorem mem_keys_of_fetch {r : Recorded} {path source : String} (h : r.fetch path = .ok source) :
    path ∈ r.answers.keys := by
  unfold fetch at h
  rw [← Table.isSome_get?_iff]
  cases ha : r.answers.get? path with
  | none => rw [ha] at h; cases h
  | some answer => rfl

/-- The recorded answers as a loader. -/
def loader (r : Recorded) : Loader :=
  ⟨r.fetch, r.sources, mem_sources_of_fetch, r.answers.keys.map Path.canonical,
    fun h => List.mem_map_of_mem (mem_keys_of_fetch h)⟩

end Recorded

end GatedRules
