import GatedRules.CommandLine.OneShot
import GatedRules.Source.Recorded
import GatedRules.Watch

/-!
# The command line program

Files are read as a run asks for them: a run is repeated with what has been read so far until it
asks for nothing else. With an interval to watch, the entry module is compiled again after every
interval, and a new graph is evaluated like the first one.
-/

namespace GatedRules

namespace CommandLine

/-- The fault that the system reports. -/
def faultOf : IO.Error → FileFault
  | .noFileOrDirectory .. => .missing
  | .inappropriateType _ 21 _ => .isDirectory
  | .inappropriateType .. => .notDirectory
  | .invalidArgument _ 36 _ => .nameTooLong
  | error => .other (toString error)

/-- Read a file as text. -/
def readFile (path : String) : IO (Except FileFault String) := do
  if path.contains '\x00' then return .error .nulCharacter
  try
    return .ok (← IO.FS.readFile path)
  catch error =>
    return .error (faultOf error)

/-- Read the module at a path below a root. -/
def readModule (root path : String) : IO (Except LoadError String) := do
  if (Directory.modulePieces path).contains ".." then return .error (.notFound path)
  else return LoadError.ofFile path (← readFile (root ++ "/" ++ Path.canonical path))

/-- Where the modules are. -/
inductive Modules
  /-- In a bundle. -/
  | bundle (bundle : Bundle)
  /-- Below a directory. -/
  | files (root : String)

/-- Where the options say that the modules are. -/
def modulesOf (o : Options) : IO (Except Failure Modules) := do
  match o.bundle with
  | none => return .ok (.files o.root)
  | some path =>
    match ← readFile path with
    | .ok text => return (OneShot.bundle text).map .bundle
    | .error fault => return .error ⟨fault.message, []⟩

/-- Compute with a loader that knows every module below a root that the computation asks for. -/
partial def settle {α : Type} (root : String) (known : Recorded) (step : Loader → α)
    (asked : α → Loader → List String) : IO α := do
  let result := step known.loader
  match known.firstUnknown? (asked result known.loader) with
  | none => return result
  | some path => settle root (known.record path (← readModule root path)) step asked

/-- Compute with the loader of the modules; `asked` tells for which paths a result asked. -/
def Modules.compute {α : Type} (modules : Modules) (step : Loader → α)
    (asked : α → Loader → List String) : IO α := do
  match modules with
  | bundle b => return step b.loader
  | files root => settle root .empty step asked

/-- Print an answer; the result is its exit code. -/
def report (answer : Answer) : IO UInt32 := do
  IO.print answer.output
  (← IO.getStdout).flush
  IO.eprint answer.report
  return answer.code.toUInt32

/-- Wait, compile again, and evaluate a graph that is new. No execution runs between two
evaluations, so nothing but the store and the counters is kept. -/
partial def watching (o : Options) (inputs : Table String Value) (modules : Modules) (w : Watch)
    (e : Engine) : IO UInt32 := do
  IO.sleep (min (1000 * o.watchSecs) 0xffffffff).toUInt32
  let step (loader : Loader) : Watch × OneShot.Run :=
    let (changed, w, e) := w.tick { e with memos := .empty e.memos.assign } loader
    (w, if changed then OneShot.evaluate o e loader w.graph inputs else ⟨"", none, e⟩)
  let (w, r) ← modules.compute step fun result => result.2.asked o
  let _ ← report r.answer
  watching o inputs modules w r.engine

/-- Compile and evaluate for the first time, then watch. -/
def watch (o : Options) (inputs : Table String Value) (modules : Modules) : IO UInt32 := do
  let step (loader : Loader) : Watch × OneShot.Run :=
    let (w, e) := Watch.start .start loader o.main
    (w, OneShot.evaluate o e loader w.graph inputs)
  let (w, r) ← modules.compute step fun result => result.2.asked o
  let _ ← report r.answer
  watching o inputs modules w r.engine

/-- Do what the options ask for. -/
def perform (o : Options) : IO UInt32 := do
  match ← modulesOf o with
  | .error failure => report ⟨1, "", failure.report⟩
  | .ok modules =>
    if o.watchSecs = 0 then
      let r ← modules.compute (OneShot.run o) (OneShot.Run.asked o)
      report r.answer
    else
      match o.parsedInputs with
      | .error fault => report ⟨1, "", (Failure.mk fault.message []).report⟩
      | .ok inputs => watch o inputs modules

end CommandLine

end GatedRules

open GatedRules in
/-- Run the program with its arguments. -/
def main (arguments : List String) : IO UInt32 := do
  match Options.parse arguments with
  | .ok o => CommandLine.perform o
  | .error .help => CommandLine.report ⟨0, Options.usage, ""⟩
  | .error error => CommandLine.report ⟨2, "", "error: " ++ error.message ++ "\n"⟩
