import Monotype.CommandLine.Arguments
import Monotype.Parser.Grammar
import Monotype.Program.Surface
import Monotype.Token.Record

/-!
# `Monotype.CommandLine.Response` — what the program answers

The program reads records, parses them and checks what they say. It writes the signatures, or the
errors; with `--print-ast` it writes the program first. The exit code is 0 for a program that types, 1
for anything else and 2 for a command line that makes no sense. The answer is the same at every
verbosity.

## Contents
- **`InputError`**, **`Failure`**: what stops the program, with its words and their cause.
- **`Response`**, **`respond`**: output, error output and exit code.
- **`usageText`**, **`helpText`**.
-/

namespace Monotype.CommandLine

/-- Why there are no records. -/
inductive InputError where
  | standardInput (reason : String)
  | file (path reason : String)
  | scannerNotRun (program reason : String)
  | scannerFailed (program status errors : String)
  | scannerOutput (reason : String)
deriving DecidableEq, Repr

/-- What stops the program. -/
inductive Failure where
  | input (error : InputError)
  | records (error : RecordError)
  | parse (error : ParseError)
  | checking (errors : Nat)
  | endless
deriving DecidableEq, Repr

namespace Failure

/-- The failure in words. -/
def message : Failure → String
  | input (.standardInput _) => "failed to read token records from stdin"
  | input (.file path _) => "failed to read " ++ path
  | input (.scannerNotRun program _) => "failed to run scanner " ++ program
  | input (.scannerFailed program status errors) =>
    "scanner " ++ program ++ " exited with " ++ status ++ ": " ++
      String.ofList (Text.trim errors.toList)
  | input (.scannerOutput _) => "scanner output is not valid UTF-8"
  | records _ => "failed to decode token records"
  | parse error => error.kind ++ ": " ++ error.message
  | checking errors => "type checking failed with " ++ toString errors ++ " error(s)"
  | endless => "type checking does not end"

/-- What the failure goes back to. -/
def cause? : Failure → Option String
  | input (.standardInput reason) => some reason
  | input (.file _ reason) => some reason
  | input (.scannerNotRun _ reason) => some reason
  | input (.scannerOutput reason) => some reason
  | records error => some error.message
  | _ => none

/-- The failure and its cause, as they are written to the error output. -/
def text (failure : Failure) : String :=
  "Error: " ++ failure.message ++
    (match failure.cause? with
      | some cause => "\n\nCaused by:\n    " ++ cause
      | none => "") ++ "\n"

end Failure

/-- What the program answers. -/
structure Response where
  exitCode : Nat
  output : String := ""
  errors : String := ""
deriving DecidableEq, Repr

namespace Response

/-- Each text on a line of its own. -/
def linesOf (texts : List String) : String := String.join (texts.map (· ++ "\n"))

/-- The answer to a failure, after what was written before it. -/
def ofFailure (failure : Failure) (output errors : String) : Response :=
  ⟨1, output, errors ++ failure.text⟩

/-- The answer to checking a program, after what was written before. -/
def ofProgram (options : Options) (program : Program) (output : String) : Response :=
  match Checker.check options program .initial with
  | .ok report state =>
    if report.accepted then
      ⟨0, output ++ linesOf ((state.signatures report.declared).map Signature.text), ""⟩
    else
      ofFailure (.checking report.errors.length) output
        (linesOf (report.errors.map fun error => error.error.kind ++ ": " ++ error.message))
  | .error impossible _ => nomatch impossible
  | .endless => ofFailure .endless output ""

/-- The answer to the records that were read. -/
def ofRecords (arguments : Arguments) (records : String) : Response :=
  match Record.tokens records with
  | .error error => ofFailure (.records error) "" ""
  | .ok tokens =>
    match Program.ofTokens tokens with
    | .error error _ => ofFailure (.parse error) "" ""
    | .endless => ofFailure .endless "" ""
    | .ok program _ =>
      ofProgram arguments.options program
        (if arguments.printProgram then linesOf [program.surface, ""] else "")

end Response

/-- The answer to what was asked for, given the records or the reason why there are none. -/
def respond (arguments : Arguments) (records : Except InputError String) : Response :=
  match records with
  | .ok records => .ofRecords arguments records
  | .error error => .ofFailure (.input error) "" ""

/-- The form of the command line. -/
def usageText : String :=
  "Usage: monotype [--scanner PATH] [--occurs-check] [--keep-going] [--print-ast] [-v] INPUT\n"

/-- The help text. -/
def helpText : String :=
  "Parse and type check programs\n\n" ++ usageText ++
    Response.linesOf
      ["",
        "  INPUT            the token records to read; - for standard input",
        "  --scanner PATH   run this program on the input to get the records",
        "  --occurs-check   refuse infinite types",
        "  --keep-going     report every definition that does not type",
        "  --print-ast      write the program before its signatures",
        "  -v, --verbose    say more",
        "  -h, --help       this text"]

/-- The answer where there is nothing to check. -/
def Refusal.response : Refusal → Response
  | help => ⟨0, helpText, ""⟩
  | usage => ⟨2, "", usageText⟩

end Monotype.CommandLine
