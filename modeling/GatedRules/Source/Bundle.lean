import GatedRules.Source.Loader
import GatedRules.Table

/-!
# Bundles

A bundle holds modules in memory under their canonical paths. A path is made canonical when a module
is put in and when it is asked for, so any spelling of a path finds the module.
-/

namespace GatedRules

/-- Modules in memory. -/
structure Bundle where
  /-- The sources under their canonical paths. -/
  modules : Table String String

namespace Bundle

/-- The bundle without modules. -/
def empty : Bundle :=
  ⟨.empty⟩

/-- Put a module in. A module at the same path is replaced. -/
def insert (b : Bundle) (path source : String) : Bundle :=
  ⟨b.modules.insert (Path.canonical path) source⟩

/-- Take a module out. -/
def erase (b : Bundle) (path : String) : Bundle :=
  ⟨b.modules.erase (Path.canonical path)⟩

/-- Whether there is a module at a path. -/
def contains (b : Bundle) (path : String) : Bool :=
  b.modules.contains (Path.canonical path)

/-- The number of modules. -/
def size (b : Bundle) : Nat :=
  b.modules.size

/-- Whether there is no module. -/
def isEmpty (b : Bundle) : Bool :=
  b.modules.isEmpty

/-- The bundle of a list of paths and sources, put in one after the other. -/
def ofList (modules : List (String × String)) : Bundle :=
  modules.foldl (fun b m => b.insert m.1 m.2) empty

/-- The source of the module at a path. -/
def fetch (b : Bundle) (path : String) : Except LoadError String :=
  match b.modules.get? (Path.canonical path) with
  | some source => .ok source
  | none => .error (.notFound path)

theorem mem_values_of_fetch {b : Bundle} {path source : String} (h : b.fetch path = .ok source) :
    source ∈ b.modules.values := by
  unfold fetch at h
  split at h
  · rename_i hs
    cases h
    exact List.mem_map.2 ⟨_, Table.get?_eq_some_iff.1 hs, rfl⟩
  · cases h

theorem mem_keys_of_fetch {b : Bundle} {path source : String} (h : b.fetch path = .ok source) :
    Path.canonical path ∈ b.modules.keys := by
  unfold fetch at h
  split at h
  · rename_i hs
    rw [← Table.isSome_get?_iff, hs]
    rfl
  · cases h

/-- The bundle as a loader. -/
def loader (b : Bundle) : Loader :=
  ⟨b.fetch, b.modules.values, mem_values_of_fetch, b.modules.keys, mem_keys_of_fetch⟩

end Bundle

end GatedRules
