import GatedRules.Module.Path

/-!
# Loaders

A loader gives the source of a module for its path. It holds finitely many sources, which are
listed; so a walk over includes can be bounded by how much text there is to read. There are modules
at finitely many paths, up to spelling: the paths that are canonical spellings are listed as well.
-/

namespace GatedRules

/-- Why a file cannot be read as text. -/
inductive FileFault
  /-- The path leads to a directory. -/
  | isDirectory
  /-- The path leads through a file. -/
  | notDirectory
  /-- The path leads nowhere. -/
  | missing
  /-- The path, or a name in it, is longer than the system takes. -/
  | nameTooLong
  /-- The path holds a character that no name may hold. -/
  | nulCharacter
  /-- Anything else, in the words of the system. -/
  | other (message : String)
deriving DecidableEq, Repr

/-- The message for a fault. -/
def FileFault.message : FileFault → String
  | isDirectory => "Is a directory (os error 21)"
  | notDirectory => "Not a directory (os error 20)"
  | missing => "No such file or directory (os error 2)"
  | nameTooLong => "File name too long (os error 36)"
  | nulCharacter => "file name contained an unexpected NUL byte"
  | other message => message

/-- Why a loader gives no source. -/
inductive LoadError
  /-- There is no module at the path. -/
  | notFound (path : String)
  /-- What is at the path cannot be read. -/
  | io (path : String) (fault : FileFault)
deriving DecidableEq, Repr

/-- The message for an error. -/
def LoadError.message : LoadError → String
  | notFound path => "no module at `" ++ path ++ "`"
  | io path fault => "IO error reading `" ++ path ++ "`: " ++ fault.message

/-- What reading the file of the module at a path means for the module. -/
def LoadError.ofFile (path : String) : Except FileFault String → Except LoadError String
  | .ok source => .ok source
  | .error .missing => .error (.notFound path)
  | .error fault => .error (.io path fault)

theorem LoadError.eq_ok_of_ofFile {path source : String} {answer : Except FileFault String}
    (h : ofFile path answer = .ok source) : answer = .ok source := by
  unfold ofFile at h
  split at h <;> cases h
  rfl

/-- A source of modules. -/
structure Loader where
  /-- The source of the module at a path. -/
  fetch : String → Except LoadError String
  /-- The sources that the loader can give. -/
  sources : List String
  /-- Every source that the loader gives is listed. -/
  mem_sources : ∀ {path source : String}, fetch path = .ok source → source ∈ sources
  /-- The canonical paths at which there are modules. -/
  paths : List String
  /-- Every path at which there is a module is listed in its canonical spelling. -/
  mem_paths : ∀ {path source : String}, fetch path = .ok source → Path.canonical path ∈ paths

end GatedRules
