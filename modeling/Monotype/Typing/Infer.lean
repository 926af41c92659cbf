import Monotype.Program.Expr
import Monotype.Typing.Environment
import Monotype.Typing.Error

/-!
# `Monotype.Typing.Infer` — the types of expressions

```text
12                   : Int
"abc"                : String
x, Foo               : as bound in scope
l + r                : 'res, where l -> r -> 'res is the type of the operator
!x                   : 'res, where x -> 'res is the type of the operator
f a                  : 'res, where a -> 'res is the type of f
case s | p => { b }  : 'res, which is the type of every b
```

Types are monomorphic: every use of a name has the one type that the name has.

A constructor pattern walks the type that its constructor was declared with, and not what has become
known of it: a name declared with a bare variable is no constructor, however far checking has got.

## Contents
- **`TypingState`**: what inference has found out so far.
- **`Infer`** and its steps: `fresh`, `unify`, `lookup`, `bindName`, `openScope`.
- **`matchPattern`**, **`infer`**.
-/

namespace Monotype

/-- What inference has found out: the variables handed out, their bindings, and the scopes. -/
structure TypingState where
  allocated : Nat := 0
  bindings : Bindings := .empty
  environment : Environment
deriving DecidableEq, Repr

/-- A new state: nothing is known but the types of the operators. -/
def TypingState.initial : TypingState := { environment := .builtins }

/-- The variables handed out that are bound, in order, with what they are bound to. -/
def TypingState.solved (state : TypingState) : List (Nat × Ty) :=
  (List.range state.allocated).filterMap fun v => (state.bindings.find? v).map fun t => (v, t)

/-- A step of inference. -/
abbrev Infer (α : Type) : Type := Run TypeError TypingState α

namespace Infer

/-- A variable that was not handed out before. -/
def fresh : Infer Ty := fun state =>
  .ok (.var state.allocated) { state with allocated := state.allocated + 1 }

/-- Make two types equal. -/
def unify (strict : Bool) (left right : Ty) : Infer Unit := fun state =>
  ((Unifier.unify strict left right state.bindings).mapError TypeError.ofUnify).mapState
    fun bindings => { state with bindings }

/-- The type of a name as seen from a scope, or an error. -/
def lookup (scope : Nat) (name : String) (missing : TypeError) : Infer Ty := do
  match (← get).environment.lookup? scope name with
  | some ty => return ty
  | none => Run.fail missing

/-- Bind a name in a scope. -/
def bindName (scope : Nat) (name : String) (ty : Ty) : Infer Unit :=
  modify fun state => { state with environment := state.environment.bind scope name ty }

/-- Open a scope in another one. -/
def openScope (parent : Nat) : Infer Nat := fun state =>
  .ok state.environment.nextScope
    { state with environment := state.environment.openScope parent }

/-- Fail with an error that shows a type. -/
def failWith {α : Type} (error : Ty → BindingError) (ty : Ty) : Infer α := do
  Run.fail (.binding (error ((← get).bindings.zonk ty)))

/-- The type of an operator. -/
def operator (scope : Nat) (name : String) : Infer Ty :=
  lookup scope name (.binding (.unboundOperator name))

/-! ## Patterns -/

/-- Bind the parameters of a pattern to the domains of the constructor's type; what remains is the
type that the constructor makes. -/
def bindFields (scope : Nat) (constructor : String) (whole : Ty) : Ty → List String → Infer Ty
  | ty, [] => return ty
  | .arrow domain codomain, param :: others => do
    bindName scope param domain
    bindFields scope constructor whole codomain others
  | _, _ :: _ => failWith (.tooManyFields constructor) whole

/-- Bind the names of a pattern in a scope, for a scrutinee of some type. -/
def matchPattern (strict : Bool) (scope : Nat) (pattern : Pattern) (scrutinee : Ty) : Infer Unit :=
  match pattern with
  | .var name => bindName scope name scrutinee
  | .constructor name params => do
    let whole ← lookup scope name (.undefinedConstructor name)
    let made ← bindFields scope name whole whole params
    match made with
    | .base _ => unify strict made scrutinee
    | _ => failWith (.notNominal name) made

/-! ## Expressions -/

mutual

/-- The type of an expression in a scope. -/
def infer (strict : Bool) (scope : Nat) : Expr → Infer Ty
  | .int _ => return .int
  | .str _ => return .string
  | .lower name => lookup scope name (.undefinedVariable name)
  | .upper name => lookup scope name (.undefinedVariable name)
  | .binary op left right => do
    let left ← infer strict scope left
    let right ← infer strict scope right
    let operator ← operator scope op.name
    let result ← fresh
    unify strict (.arrow left (.arrow right result)) operator
    return result
  | .unary op operand => do
    let operand ← infer strict scope operand
    let operator ← operator scope op.name
    let result ← fresh
    unify strict (.arrow operand result) operator
    return result
  | .apply function argument => do
    let function ← infer strict scope function
    let argument ← infer strict scope argument
    let result ← fresh
    unify strict (.arrow argument result) function
    return result
  | .case scrutinee branches => do
    let scrutinee ← infer strict scope scrutinee
    let result ← fresh
    inferBranches strict scope scrutinee result branches
    return result

/-- Give every branch of a case the result type, each in a scope of its own. -/
def inferBranches (strict : Bool) (scope : Nat) (scrutinee result : Ty) : List Branch → Infer Unit
  | [] => return ()
  | ⟨pattern, body⟩ :: others => do
    let inner ← openScope scope
    matchPattern strict inner pattern scrutinee
    let body ← infer strict inner body
    unify strict result body
    inferBranches strict scope scrutinee result others

end

end Infer

end Monotype
