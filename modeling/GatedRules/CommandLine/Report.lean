import GatedRules.Evaluation.World

/-!
# Error reports

A report shows an error and below it its causes, each the cause of the one before. A single cause is
indented; several are numbered.
-/

namespace GatedRules

/-- The causes of an error. -/
def LoadError.causes : LoadError → List String
  | notFound _ => []
  | io _ fault => [fault.message]

/-- The causes of an error. -/
def CompileError.causes : CompileError → List String
  | load _ error => error.message :: error.causes
  | _ => []

/-- The causes of an error. -/
def EvalError.causes : EvalError → List String
  | compile _ error => error.message :: error.causes
  | store fault => [fault.message]
  | _ => []

/-- An error with its causes. -/
structure Failure where
  /-- The message for the error. -/
  message : String
  /-- The messages for the causes. -/
  causes : List String := []
deriving DecidableEq, Repr

namespace Failure

/-- An error of a compilation. -/
def ofCompile (error : CompileError) : Failure :=
  ⟨error.message, error.causes⟩

/-- An end of an evaluation without a value. -/
def ofHalt : Halt → Failure
  | .failed error => ⟨error.message, error.causes⟩
  | .exhausted => ⟨"evaluation is nested too deeply", []⟩

/-- A text after `first`, whose further lines start with `next`. -/
def indented (first next : String) (text : String) : String :=
  first ++ String.ofList
    (text.toList.flatMap fun c => if c = '\n' then '\n' :: next.toList else [c])

/-- The start of the cause of a number. -/
def label (n : Nat) : String :=
  let digits := toString n
  String.ofList (List.replicate (5 - digits.length) ' ') ++ digits ++ ": "

/-- The report of an error. -/
def report (f : Failure) : String :=
  let causes :=
    match f.causes with
    | [] => ""
    | [cause] => "\n\nCaused by:\n" ++ indented "    " "    " cause
    | causes =>
      "\n\nCaused by:" ++
        String.join (causes.mapIdx fun i cause => "\n" ++ indented (label i) "       " cause)
  "Error: " ++ f.message ++ causes ++ "\n"

end Failure

end GatedRules
