import Monotype.Ty.Unify

/-!
# `Monotype.Typing.Error` — why a definition does not type

Types in errors are zonked at the moment the error arises, so that messages show what was known then.

## Contents
- **`BindingError`**: types that do not fit. **`TypeError`**: those, and names without a type.
- **`TypeError.ofUnify`**: an error of unification, with its types zonked.
- **`DefinitionError`**: an error with the definition that has it.
-/

namespace Monotype

/-- Types that do not fit. -/
inductive BindingError where
  | mismatch (left right : Ty)
  | infinite (var : Nat) (ty : Ty)
  | unboundOperator (operator : String)
  | notNominal (constructor : String) (ty : Ty)
  | tooManyFields (constructor : String) (ty : Ty)
deriving DecidableEq, Repr

/-- The error in words. -/
def BindingError.message : BindingError → String
  | mismatch left right => (UnifyError.mismatch left right).message
  | infinite var ty => (UnifyError.infinite var ty).message
  | unboundOperator operator => "no type bound for operator " ++ operator
  | notNominal constructor ty =>
    "constructor " ++ constructor ++ " does not produce a nominal type (got " ++ ty.pretty ++ ")"
  | tooManyFields constructor ty =>
    "too many fields in pattern for constructor " ++ constructor ++ " : " ++ ty.pretty

/-- Why a definition does not type. -/
inductive TypeError where
  | undefinedVariable (name : String)
  | undefinedConstructor (name : String)
  | binding (error : BindingError)
  | notDeclared (name : String)
deriving DecidableEq, Repr

namespace TypeError

/-- The name of the kind of error. -/
def kind : TypeError → String
  | undefinedVariable _ => "VariableUndefinedError"
  | undefinedConstructor _ => "UndefinedTypeError"
  | binding _ => "TypeBindingError"
  | notDeclared _ => "NotDeclaredError"

/-- The error in words. -/
def message : TypeError → String
  | undefinedVariable name => "undefined variable: " ++ name
  | undefinedConstructor name => "undefined constructor: " ++ name
  | binding error => "type binding failed: " ++ error.message
  | notDeclared name => "function " ++ name ++ " was not declared before its body was checked"

/-- An error of unification, with its types zonked. -/
def ofUnify (error : UnifyError) (b : Bindings) : TypeError :=
  match error with
  | .mismatch left right => binding (.mismatch (b.zonk left) (b.zonk right))
  | .infinite var ty => binding (.infinite var (b.zonk ty))

end TypeError

/-- An error, and the name of the definition that has it. -/
structure DefinitionError where
  definition : String
  error : TypeError
deriving DecidableEq, Repr

/-- The error in words. -/
def DefinitionError.message (error : DefinitionError) : String :=
  "in definition " ++ error.definition ++ ": " ++ error.error.message

end Monotype
