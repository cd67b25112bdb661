import GatedRules.CommandLine.Options
import GatedRules.CommandLine.Report
import GatedRules.Evaluation.Execution
import GatedRules.Slot.Printer
import GatedRules.Source.Directory
import GatedRules.Source.Yaml

/-!
# One run of the command line

A run compiles the entry module, prints what is asked for, and evaluates the names that are asked
for in one execution. What was printed before an error stays printed.
-/

namespace GatedRules

/-- What a run leaves behind. -/
structure Answer where
  /-- The exit code. -/
  code : Nat
  /-- What is printed. -/
  output : String
  /-- The report of the error that ended the run. Refused arguments have none here. -/
  report : String
deriving DecidableEq, Repr

namespace OneShot

/-- The printed sources of slots. A name that is no slot is passed over. -/
def printed (g : Graph) (names : List String) : String :=
  String.join <| names.map fun name =>
    match g.source? name with
    | some source => name ++ " := " ++ source ++ "\n"
    | none => ""

/-- Values under their names, as text. -/
def valuesText (names : List String) (values : List Value) : String :=
  (Value.ofFields (names.zip values)).pretty ++ "\n"

/-- What a run has printed, how it ended, and the engine afterwards. -/
structure Run where
  /-- What is printed. -/
  output : String
  /-- The error that ended the run. -/
  failure : Option Failure
  /-- The engine at the end. -/
  engine : Engine

/-- Print and evaluate what the options ask of a graph. -/
def evaluate (o : Options) (e : Engine) (loader : Loader) (graph : Graph)
    (inputs : Table String Value) : Run :=
  let output := (if o.printGraph then graph.printed else "") ++ printed graph o.print
  if o.fetch.isEmpty then ⟨output, none, e⟩
  else
    let (x, e) := Execution.start e graph inputs
    match x.fetchAll e loader o.fetch with
    | (.ok values, _, e) => ⟨output ++ valuesText o.fetch values, none, e⟩
    | (.error halt, _, e) => ⟨output, some (.ofHalt halt), e⟩

/-- Run with a loader. -/
def run (o : Options) (loader : Loader) : Run :=
  match o.parsedInputs with
  | .error fault => ⟨"", some ⟨fault.message, []⟩, .start⟩
  | .ok inputs =>
    match Engine.start.compile loader o.main with
    | (.error error, e) => ⟨"", some (.ofCompile error), e⟩
    | (.ok compiled, e) => evaluate o e loader compiled.graph inputs

/-- The paths for which a run asks, in order: those of the entry module, then those of every module
that the execution came to. -/
def Run.asked (o : Options) (r : Run) (loader : Loader) : List String :=
  loader.asked o.main ++
    r.engine.memos.values.flatMap fun memo => memo.keys.flatMap loader.asked

/-- The bundle in a text, or why there is none. -/
def bundle (text : String) : Except Failure Bundle :=
  match Bundle.ofYaml? text with
  | some bundle => .ok bundle
  | none => .error ⟨"YAML bundle error", []⟩

/-- Run with the modules of a bundle in a text. -/
def runBundle (o : Options) (text : String) : Run :=
  match bundle text with
  | .ok bundle => run o bundle.loader
  | .error failure => ⟨"", some failure, .start⟩

/-- Run in a directory. -/
def runIn (d : Directory) (o : Options) : Run :=
  match o.bundle with
  | none => run o (d.loader (Directory.pieces o.root))
  | some path =>
    match d.openFile (Directory.pieces path) with
    | .ok text => runBundle o text
    | .error fault => ⟨"", some ⟨fault.message, []⟩, .start⟩

/-- The answer of a run. -/
def Run.answer (r : Run) : Answer :=
  match r.failure with
  | none => ⟨0, r.output, ""⟩
  | some failure => ⟨1, r.output, failure.report⟩

end OneShot

/-- The answer to arguments in a directory. Asking for help is no error. -/
def Answer.ofArguments (d : Directory) (arguments : List String) : Answer :=
  match Options.parse arguments with
  | .ok o => (OneShot.runIn d o).answer
  | .error .help => ⟨0, Options.usage, ""⟩
  | .error _ => ⟨2, "", ""⟩

end GatedRules
