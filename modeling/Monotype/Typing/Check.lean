import Monotype.Program.Definition
import Monotype.Typing.Infer

/-!
# `Monotype.Typing.Check` — checking programs

A program is checked in two passes. The first declares every definition in the root scope: a function
gets a fresh variable for its result and one for each parameter, a constructor one for each field. The
second checks the body of each function against what was declared for it. So definitions may refer to
each other in any order.

The second pass stops at the first definition that does not type, or goes on past it (`keepGoing`).
What a failed definition has bound stays bound.

## Contents
- **`Declaration`**, **`Declared`**: what the first pass records. **`TypingState.declareAll`**.
- **`Infer.checkDefinition`**, **`Infer.checkAll`**: the second pass, without recovery.
- **`Options`**, **`Report`**, **`Checker.check`**: both passes, with recovery.
- **`Signature`**, **`TypingState.signatures`**, **`TypingState.typeOf?`**.
-/

namespace Monotype

/-! ## Declaring -/

/-- What the first pass records: the types of a function, or of the constructors of a type. -/
inductive Declaration where
  | function (result : Ty) (params : List Ty)
  | type (constructors : List Ty)
deriving DecidableEq, Repr

/-- A definition, with what was recorded for it if it was declared. -/
structure Declared where
  definition : Definition
  declaration : Option Declaration := none

namespace TypingState

/-- Hand out a number of variables. -/
def freshMany (state : TypingState) (count : Nat) : List Ty × TypingState :=
  ((List.range' state.allocated count).map .var,
    { state with allocated := state.allocated + count })

/-- Bind a name in the root scope. -/
def bindRoot (state : TypingState) (name : String) (ty : Ty) : TypingState :=
  { state with environment := state.environment.bind Environment.root name ty }

/-- Declare a constructor of a type. -/
def declareConstructor (state : TypingState) (type : String) (constructor : Constructor) :
    Ty × TypingState :=
  let (fields, state) := state.freshMany constructor.fields.length
  let signature := Ty.curried fields (.base type)
  (signature, state.bindRoot constructor.name signature)

/-- Declare the constructors of a type, in order. -/
def declareConstructors (type : String) :
    List Constructor → TypingState → List Ty × TypingState
  | [], state => ([], state)
  | constructor :: others, state =>
    let (signature, state) := state.declareConstructor type constructor
    let (signatures, state) := declareConstructors type others state
    (signature :: signatures, state)

/-- Declare a definition. The variable of a function's result comes before those of its parameters. -/
def declare (state : TypingState) : Definition → Declaration × TypingState
  | .function definition =>
    let result := Ty.var state.allocated
    let state := { state with allocated := state.allocated + 1 }
    let (params, state) := state.freshMany definition.params.length
    (.function result params, state.bindRoot definition.name (.curried params result))
  | .type definition =>
    let (signatures, state) := declareConstructors definition.name definition.constructors state
    (.type signatures, state)

/-- Declare all definitions of a program, in order. -/
def declareAll : Program → TypingState → List Declared × TypingState
  | [], state => ([], state)
  | definition :: others, state =>
    let (declaration, state) := state.declare definition
    let (declared, state) := declareAll others state
    (⟨definition, some declaration⟩ :: declared, state)

end TypingState

/-! ## Checking bodies -/

namespace Infer

/-- Bind names in a scope, one after the other. -/
def bindNames (scope : Nat) (names : List (String × Ty)) : Infer Unit :=
  modify fun state => { state with environment := state.environment.bindAll scope names }

/-- Check the body of a function against the types declared for it. -/
def checkBody (strict : Bool) (definition : FunctionDefinition) (result : Ty) (params : List Ty) :
    Infer Unit := do
  let scope ← openScope Environment.root
  bindNames scope (definition.params.zip params)
  let body ← infer strict scope definition.body
  unify strict body result

/-- Check a definition. A function must have been declared, with a type for each parameter. -/
def checkDefinition (strict : Bool) (declared : Declared) : Infer Unit :=
  match declared.definition, declared.declaration with
  | .type _, _ => return ()
  | .function definition, some (.function result params) =>
    if params.length = definition.params.length then checkBody strict definition result params
    else Run.fail (.notDeclared definition.name)
  | .function definition, _ => Run.fail (.notDeclared definition.name)

/-- Check definitions in order; the first that does not type stops the checking. -/
def checkAll (strict : Bool) : List Declared → Infer Unit
  | [] => return ()
  | declared :: others => do
    checkDefinition strict declared
    checkAll strict others

end Infer

/-- Declare all definitions of a program and check them up to the first that does not type. The first
component is what was declared. -/
def TypingState.checkProgram (state : TypingState) (strict : Bool) (program : Program) :
    List Declared × Outcome TypeError TypingState Unit :=
  let (declared, state) := TypingState.declareAll program state
  (declared, Infer.checkAll strict declared state)

/-! ## Checking with recovery -/

/-- How to check. -/
structure Options where
  occursCheck : Bool := false
  keepGoing : Bool := false
deriving DecidableEq, Repr

/-- What checking a definition came to. -/
abbrev Verdict : Type := Except TypeError Unit

/-- What checking a program came to: what was declared, and a verdict on each definition as far as
checking went. -/
structure Report where
  declared : List Declared
  verdicts : List Verdict

/-- The definition error of a verdict, if it is one. -/
def Declared.error? (declared : Declared) : Verdict → Option DefinitionError
  | .ok _ => none
  | .error error => some ⟨declared.definition.name, error⟩

namespace Report

/-- The errors of a report, in order. -/
def errors (report : Report) : List DefinitionError :=
  (report.declared.zip report.verdicts).filterMap fun entry => entry.1.error? entry.2

/-- No definition that was checked failed. -/
def accepted (report : Report) : Bool := report.errors.isEmpty

end Report

/-- A computation that cannot fail. -/
abbrev Checker (α : Type) : Type := Run Empty TypingState α

namespace Checker

/-- Verdicts on definitions in order, up to the first failure unless checking is to go on. -/
def verdicts (options : Options) : List Declared → Checker (List Verdict)
  | [] => return []
  | declared :: others => do
    let verdict ← (Infer.checkDefinition options.occursCheck declared).attempt
    match verdict, options.keepGoing with
    | .error _, false => return [verdict]
    | _, _ => return verdict :: (← verdicts options others)

/-- Declare all definitions of a program and check them. -/
def check (options : Options) (program : Program) : Checker Report := do
  let declared ← modifyGet (TypingState.declareAll program)
  return ⟨declared, ← verdicts options declared⟩

end Checker

/-! ## Signatures -/

/-- A name with its type. -/
structure Signature where
  name : String
  ty : Ty
deriving DecidableEq, Repr

/-- The text of a signature. -/
def Signature.text (signature : Signature) : String :=
  signature.name ++ " : " ++ signature.ty.pretty

/-- The signatures that were recorded for a definition. -/
def Declared.signatures (declared : Declared) : List Signature :=
  match declared.definition, declared.declaration with
  | .function definition, some (.function result params) =>
    [⟨definition.name, .curried params result⟩]
  | .type definition, some (.type signatures) =>
    (definition.constructors.zip signatures).map fun entry => ⟨entry.1.name, entry.2⟩
  | _, _ => []

namespace TypingState

/-- The signatures of declared definitions, as far as their types are known. -/
def signatures (state : TypingState) (declared : List Declared) : List Signature :=
  (declared.flatMap Declared.signatures).map fun signature =>
    { signature with ty := state.bindings.zonk signature.ty }

/-- The type of a name of the root scope, as far as it is known. -/
def typeOf? (state : TypingState) (name : String) : Option Ty :=
  (state.environment.lookup? Environment.root name).map state.bindings.zonk

end TypingState

end Monotype
