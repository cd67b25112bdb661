import GatedRules.Decimal.Read
import GatedRules.Json.Reader
import GatedRules.Table
import GatedRules.Text.Blank

/-!
# Options

The options of the command line. An option that takes a value takes it from behind an equals sign or
from the next argument; the next argument is no value if it starts with a minus sign, unless it is
nothing else. The value of an option is looked at when the next known option comes or the arguments
end, so an argument that is not known at all is noticed first.
-/

namespace GatedRules

/-- Why arguments are refused. -/
inductive UsageError
  /-- Help is asked for. -/
  | help
  /-- An argument is no option. -/
  | unknown
  /-- An option comes twice. -/
  | repeated
  /-- A value is missing, or empty where it must not be. -/
  | missingValue
  /-- A value is not of the kind that the option takes. -/
  | malformedValue
  /-- An option that takes no value has one. -/
  | unwantedValue
deriving DecidableEq, Repr

/-- The message for refused arguments. -/
def UsageError.message : UsageError → String
  | help => "help is asked for"
  | unknown => "there is an argument that is no option"
  | repeated => "an option is given twice"
  | missingValue => "an option has no value"
  | malformedValue => "an option has a value that it does not take"
  | unwantedValue => "an option has a value but takes none"

/-- The options of the command line. -/
structure Options where
  /-- The directory of the modules. -/
  root : String := "."
  /-- The file of a bundle, which takes the place of the directory. -/
  bundle : Option String := none
  /-- The path of the entry module. -/
  main : String := "main.sqrl"
  /-- The inputs, each a name and a value. -/
  inputs : List String := []
  /-- The names to evaluate. -/
  fetch : List String := []
  /-- The slots to print. -/
  print : List String := []
  /-- Whether to print the graph. -/
  printGraph : Bool := false
  /-- The seconds between two compilations; none if zero. -/
  watchSecs : Nat := 0
  /-- How much to log. -/
  logLevel : String := "info"
deriving DecidableEq, Repr

namespace Options

/-- An option that takes a value. -/
inductive Field
  | root
  | bundle
  | main
  | input
  | fetch
  | print
  | watchSecs
  | logLevel
deriving DecidableEq, Repr

namespace Field

/-- The name of an option on the command line. -/
def name : Field → String
  | root => "root"
  | bundle => "bundle"
  | main => "main"
  | input => "input"
  | fetch => "fetch"
  | print => "print"
  | watchSecs => "watch-secs"
  | logLevel => "log-level"

/-- Every option that takes a value. -/
def all : List Field :=
  [root, bundle, main, input, fetch, print, watchSecs, logLevel]

/-- The option of a name. -/
def ofName? (name : String) : Option Field :=
  all.find? fun f => f.name = name

/-- Whether an option may come more than once. -/
def isRepeatable : Field → Bool
  | input | fetch | print => true
  | _ => false

end Field

/-- The bound of the numbers that an option takes. -/
def numberBound : Nat :=
  0x10000000000000000

/-- The number that a value writes: digits, perhaps after a plus sign. -/
def number? (value : String) : Option Nat :=
  let digits :=
    match value.toList with
    | '+' :: cs => cs
    | cs => cs
  if digits.isEmpty || !digits.all Char.isDigit then none
  else some (Decimal.digitsValue digits) |>.filter (· < numberBound)

/-- A path must not be empty. -/
def path (value : String) : Except UsageError String :=
  if value.isEmpty then .error .missingValue else .ok value

/-- Give an option a value. -/
def assign (o : Options) (field : Field) (value : String) : Except UsageError Options :=
  match field with
  | .root => (path value).map fun root => { o with root }
  | .bundle => (path value).map fun bundle => { o with bundle := some bundle }
  | .main => .ok { o with main := value }
  | .input => .ok { o with inputs := o.inputs ++ [value] }
  | .fetch => .ok { o with fetch := o.fetch ++ [value] }
  | .print => .ok { o with print := o.print ++ [value] }
  | .watchSecs =>
    match number? value with
    | some watchSecs => .ok { o with watchSecs }
    | none => .error .malformedValue
  | .logLevel => .ok { o with logLevel := value }

/-! ### Arguments -/

/-- What has been read of the arguments. -/
structure Reading where
  /-- The options whose values have been looked at. -/
  options : Options := {}
  /-- The fields that have a value. -/
  given : List Field := []
  /-- The last option that takes a value, with the value if it has come. -/
  pending : Option (Field × Option String) := none
  /-- Whether the end of the options has come. -/
  ended : Bool := false

namespace Reading

/-- Look at the value of an option. -/
def settle (r : Reading) (field : Field) (value : Option String) : Except UsageError Reading :=
  match value with
  | none => .error .missingValue
  | some value =>
    if r.given.contains field && !field.isRepeatable then .error .repeated
    else
      (r.options.assign field value).map fun options =>
        { r with options, given := field :: r.given, pending := none }

/-- Look at the value of the last option. -/
def resolve (r : Reading) : Except UsageError Reading :=
  match r.pending with
  | none => .ok r
  | some (field, value) => r.settle field value

/-- Split an option at its first equals sign. -/
def splitEquals (cs : List Char) : String × Option String :=
  let value := cs.dropWhile (· ≠ '=')
  (String.ofList (cs.takeWhile (· ≠ '=')),
    if value.isEmpty then none else some (String.ofList (value.drop 1)))

/-- Take an option, written without its two minus signs. -/
def takeLong (r : Reading) (cs : List Char) : Except UsageError Reading :=
  match splitEquals cs with
  | (name, value) =>
    match Field.ofName? name, value with
    | some field, some value => do (← r.resolve).settle field (some value)
    | some field, none => do return { ← r.resolve with pending := some (field, none) }
    | none, value =>
      if name = "print-graph" then
        if value.isSome then .error .unwantedValue
        else do
          let r ← r.resolve
          if r.options.printGraph then .error .repeated
          else return { r with options := { r.options with printGraph := true } }
      else if name = "help" then
        if value.isSome then .error .unwantedValue
        else do
          let _ ← r.resolve
          .error .help
      else .error .unknown

/-- Take an argument that is no option: it is the value that the last option waits for. -/
def takeValue (r : Reading) (value : String) : Except UsageError Reading :=
  match r.pending with
  | some (field, none) => .ok { r with pending := some (field, some value) }
  | _ => .error .unknown

/-- Take an argument. -/
def take (r : Reading) (argument : String) : Except UsageError Reading :=
  if r.ended then .error .unknown
  else
    match argument.toList with
    | ['-', '-'] => .ok { r with ended := true }
    | '-' :: '-' :: cs => r.takeLong cs
    | '-' :: c :: _ =>
      if c = 'h' then do
        let _ ← r.resolve
        .error .help
      else .error .unknown
    | _ => r.takeValue argument

end Reading

/-- Read arguments. -/
def parse (arguments : List String) : Except UsageError Options := do
  let r ← arguments.foldlM Reading.take {}
  let r ← r.resolve
  return r.options

/-- What the options mean. -/
def usage : String :=
  "\n".intercalate [
    "Compile rule modules into a gated slot graph and evaluate it",
    "",
    "  --root DIRECTORY     directory of the modules",
    "  --bundle FILE        YAML bundle of modules, in place of the directory",
    "  --main PATH          path of the entry module",
    "  --input NAME=JSON    input of the execution; may be repeated",
    "  --fetch NAME         name to evaluate; may be repeated",
    "  --print NAME         slot to print; may be repeated",
    "  --print-graph        print the graph",
    "  --watch-secs NUMBER  seconds between two compilations; only one if zero",
    "  --log-level LEVEL    how much to log",
    "  -h, --help           print this text",
    ""]

/-! ### Inputs -/

/-- What is wrong with an input. -/
inductive InputFault
  /-- There is no equals sign. -/
  | noEquals (raw : String)
  /-- There is no name before the equals sign. -/
  | noName (raw : String)
deriving DecidableEq, Repr

/-- The message for a fault. -/
def InputFault.message : InputFault → String
  | noEquals raw => "expected NAME=JSON, got `" ++ raw ++ "`"
  | noName raw => "empty input name in `" ++ raw ++ "`"

/-- The name and the value of an input. A value that is no JSON text is a text itself. -/
def readInput (raw : String) : Except InputFault (String × Value) :=
  match Reading.splitEquals raw.toList with
  | (_, none) => .error (.noEquals raw)
  | (name, some value) =>
    let name := Text.trimmed name
    if name.isEmpty then .error (.noName raw)
    else .ok (name, (Value.read? value).getD (.string value))

/-- The inputs that the options give; of inputs of one name the last counts. -/
def parsedInputs (o : Options) : Except InputFault (Table String Value) :=
  (o.inputs.mapM readInput).map Table.ofList

end Options

end GatedRules
