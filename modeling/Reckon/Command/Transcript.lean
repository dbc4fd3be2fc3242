import Reckon.Session
import Reckon.Expr.Printer
import Reckon.Text.Lines
import Reckon.Command.Arguments
set_option autoImplicit false

namespace Reckon

structure Transcript where
  printed : List String
  succeeded : Bool
  table : FunctionTable

namespace Reading

/-- The statements before the first one that is too deep to be printed. -/
def printable [Stack] (r : Reading) : Reading :=
  let shown := r.statements.takeWhile fun e => e.fits Stack.printing
  if shown.length = r.statements.length then r else ⟨shown, some .excessiveRecursion⟩

end Reading

namespace Run

def shown (showTree : Bool) (e : Expr) : List String :=
  if showTree then [String.ofList e.render] else []

def printed (showTree : Bool) (r : Run) : List String :=
  (r.completed.flatMap fun step =>
    shown showTree step.1 ++
      (step.2.value?.toList.map fun x => String.ofList x.display)) ++
    match r.interruption with
    | none => []
    | some i => i.statement.toList.flatMap (shown showTree) ++ [i.error.message]

end Run

namespace Transcript

/-- Runs a further line. A statement that is to be shown is shown before it runs. -/
def extend [Stack] (showTree : Bool) (t : Transcript) (source : String) : Transcript :=
  let reading := Reading.ofLine source
  let run := Run.reading t.table (if showTree then reading.printable else reading)
  ⟨t.printed ++ run.printed showTree, t.succeeded && run.interruption.isNone, run.table⟩

def ofLines [Stack] (showTree : Bool) (table : FunctionTable) (sources : List String) :
    Transcript :=
  sources.foldl (extend showTree) ⟨[], true, table⟩

end Transcript

structure Ending where
  exitCode : Nat
  output : String
deriving DecidableEq

inductive FileLookup where
  /-- No file, or none that can be read. -/
  | missing
  | found (content : ByteArray)
  /-- The system does not say whether there is a file, as when the name is too long for it. -/
  | refused

inductive InputFailure where
  | notText
  | lookupRefused
deriving DecidableEq

structure Breakdown where
  failure : InputFailure
  output : String
deriving DecidableEq

namespace Invocation

def operatorHelp : List String :=
  let entry := fun name => (Operator.helpLine? name).toList.map fun line => "  " ++ line
  "Operators:" :: Operator.signNames.flatMap entry ++
    "Functions:" :: Operator.callNames.flatMap entry

def listed (entry : String × Formula) : String :=
  entry.2.signature entry.1 ++ " = " ++ String.ofList entry.2.body.render

/-- The lines that the command is to run. A single expression is the name of a file if there is a
readable one of that name, and without expressions the input is run. -/
def lines (i : Invocation) (lookup : String → FileLookup) (input : String) :
    Except InputFailure (List String) :=
  match i.expressions with
  | [] => .ok (Text.inputLines input)
  | [name] =>
    match lookup name with
    | .missing => .ok [name]
    | .found content =>
      match String.fromUTF8? content with
      | some text => .ok (Text.fileLines text)
      | none => .error .notText
    -- Nothing falls back on the expression here, unlike for a file that cannot be read.
    | .refused => .error .lookupRefused
  | expressions => .ok expressions

def concatLines (printed : List String) : String :=
  String.join (printed.map fun line => line ++ "\n")

/-- Carries the invocation out. A function whose body is too deep to be printed ends the listing
and fails the command. -/
def perform [Stack] (i : Invocation) (lookup : String → FileLookup) (input : String) :
    Except Breakdown Ending :=
  let help := if i.listOperators then operatorHelp else []
  if i.listOperators && i.expressions.isEmpty then .ok ⟨0, concatLines help⟩
  else
    match i.lines lookup input with
    | .error failure => .error ⟨failure, concatLines help⟩
    | .ok sources =>
      let t := Transcript.ofLines i.showTree .empty sources
      let entries := if i.listFunctions then t.table.entries else []
      let listable := entries.takeWhile fun entry => entry.2.body.fits Stack.printing
      .ok ⟨if t.succeeded && listable.length == entries.length then 0 else 1,
        concatLines (help ++ t.printed ++ listable.map listed)⟩

end Invocation

def command [Stack] (arguments : List String) (lookup : String → FileLookup) (input : String) :
    Except Breakdown Ending :=
  match Invocation.ofArguments? arguments with
  | none => .ok ⟨2, ""⟩
  | some i => i.perform lookup input

end Reckon
