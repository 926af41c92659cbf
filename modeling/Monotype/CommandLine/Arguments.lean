import Monotype.Typing.Check

/-!
# `Monotype.CommandLine.Arguments` — what the command line asks for

The command line names one input and may set options, in any order, read from left to right:

```text
INPUT             the records to read; "-" for standard input
--scanner PATH    a program that is run on the input and writes the records; also --scanner=PATH
--occurs-check    refuse infinite types
--keep-going      check on after a definition that does not type
--print-ast       write the program before its signatures
-v, --verbose     say more; may be repeated, and -vv is short for -v -v
-h, --help        help, in place of all else
--                what follows is no option
```

Every option but `-v` may be given once, and only `--scanner` takes a value. The first word that does
not fit decides. An empty input or scanner is none.

## Contents
- **`Word`**: the shapes of a word. **`Arguments`**: what was asked for.
- **`Arguments.parse`**: reading all words. **`Arguments.source`**: where the records come from.
-/

namespace Monotype.CommandLine

/-- The shapes of a word of the command line. -/
inductive Word where
  | plain (text : String)
  | short (letters : List Char)
  | long (name : String) (value : Option String)
  | endOfOptions
deriving DecidableEq, Repr

/-- The shape of a word. A single hyphen is a plain word. -/
def Word.ofString (text : String) : Word :=
  match text.toList with
  | ['-', '-'] => endOfOptions
  | '-' :: '-' :: body =>
    let name := String.ofList (body.takeWhile (· ≠ '='))
    match body.dropWhile (· ≠ '=') with
    | [] => long name none
    | _ :: value => long name (some (String.ofList value))
  | '-' :: letter :: letters => short (letter :: letters)
  | _ => plain text

/-- Where records come from. -/
inductive Source where
  | standardInput
  | file (path : String)
  | scanner (program input : String)
deriving DecidableEq, Repr

/-- What the command line asks for. -/
structure Arguments where
  input : String
  scanner : Option String := none
  options : Options := {}
  printProgram : Bool := false
  verbosity : Nat := 0
deriving DecidableEq, Repr

/-- Why there is nothing to check: help was asked for, or the words make no sense. -/
inductive Refusal where
  | help
  | usage
deriving DecidableEq, Repr

/-- What was read so far; the input may be missing. -/
structure Partial where
  input : Option String := none
  scanner : Option String := none
  options : Options := {}
  printProgram : Bool := false
  verbosity : Nat := 0
deriving DecidableEq, Repr

namespace Partial

/-- Take a word as the input. -/
def setInput (found : Partial) (text : String) : Except Refusal Partial :=
  if found.input.isSome || text.isEmpty then .error .usage
  else .ok { found with input := some text }

/-- Take a word as the scanner. -/
def setScanner (found : Partial) (text : String) : Except Refusal Partial :=
  if found.scanner.isSome || text.isEmpty then .error .usage
  else .ok { found with scanner := some text }

/-- An option that is one letter. -/
def setShort (found : Partial) : Char → Except Refusal Partial
  | 'v' => .ok { found with verbosity := found.verbosity + 1 }
  | 'h' => .error .help
  | _ => .error .usage

/-- An option without a value. -/
def setLong (found : Partial) : String → Except Refusal Partial
  | "occurs-check" =>
    if found.options.occursCheck then .error .usage
    else .ok { found with options := { found.options with occursCheck := true } }
  | "keep-going" =>
    if found.options.keepGoing then .error .usage
    else .ok { found with options := { found.options with keepGoing := true } }
  | "print-ast" =>
    if found.printProgram then .error .usage else .ok { found with printProgram := true }
  | "verbose" => .ok { found with verbosity := found.verbosity + 1 }
  | "help" => .error .help
  | _ => .error .usage

/-- Read the words that are left. -/
def readAll (found : Partial) : List String → Except Refusal Partial
  | [] => .ok found
  | word :: others =>
    match Word.ofString word with
    | .plain text => do (← found.setInput text).readAll others
    | .short letters => do (← letters.foldlM setShort found).readAll others
    | .endOfOptions => others.foldlM setInput found
    | .long "scanner" (some value) => do (← found.setScanner value).readAll others
    | .long "scanner" none =>
      match others with
      | [] => .error .usage
      | value :: others =>
        match Word.ofString value with
        | .plain text => do (← found.setScanner text).readAll others
        | _ => .error .usage
    | .long name none => do (← found.setLong name).readAll others
    | .long _ (some _) => .error .usage

end Partial

namespace Arguments

/-- What the words of the command line ask for. -/
def parse (words : List String) : Except Refusal Arguments := do
  let found ← ({} : Partial).readAll words
  match found.input with
  | some input =>
    return { input, scanner := found.scanner, options := found.options,
             printProgram := found.printProgram, verbosity := found.verbosity }
  | none => .error .usage

/-- Where the records come from. A scanner is given the input as it stands, be it a hyphen. -/
def source (arguments : Arguments) : Source :=
  match arguments.scanner with
  | some program => .scanner program arguments.input
  | none => if arguments.input = "-" then .standardInput else .file arguments.input

end Arguments

end Monotype.CommandLine
