import Monotype.Program.Operator
import Monotype.Ty.Basic

/-!
# `Monotype.Typing.Environment` — lexical scopes

Every scope has a frame of names of its own and, but for the root, a scope around it. Scopes are
numbered in the order in which they were opened, so a scope's parent has a smaller number. Frames are
kept newest first: the number of a frame is the number of frames after it in the list, and a parent is
found further down the list.

A name is looked up in its scope and then in the scopes around it. It is always bound in one given
frame, so a scope never changes what the scopes around it say.

## Contents
- **`Frame`**, **`Environment`**: `empty`, `builtins`, `root`.
- **`Environment.lookup?`**, **`Environment.bind`**, **`Environment.openScope`**.
-/

namespace Monotype

/-- The names of one scope, the latest first, and the scope around it. -/
structure Frame where
  parent : Option Nat := none
  names : List (String × Ty) := []
deriving DecidableEq, Repr

/-- The frames of all scopes, the newest first. -/
structure Environment where
  frames : List Frame
deriving DecidableEq, Repr

namespace Environment

/-- The outermost scope. -/
def root : Nat := 0

/-- Only the root, without names. -/
def empty : Environment := ⟨[{}]⟩

/-- The type of a name in the scope of that number and those around it. -/
def lookupIn : List Frame → Nat → String → Option Ty
  | [], _, _ => none
  | frame :: older, scope, name =>
    if scope = older.length then
      match frame.names.lookup name with
      | some ty => some ty
      | none =>
        match frame.parent with
        | some parent => lookupIn older parent name
        | none => none
    else
      lookupIn older scope name

/-- The type of a name, as seen from a scope. -/
def lookup? (env : Environment) (scope : Nat) (name : String) : Option Ty :=
  lookupIn env.frames scope name

/-- Frames with a name bound in the one of that number. -/
def bindIn : List Frame → Nat → String → Ty → List Frame
  | [], _, _, _ => []
  | frame :: older, scope, name, ty =>
    if scope = older.length then { frame with names := (name, ty) :: frame.names } :: older
    else frame :: bindIn older scope name ty

/-- Bind a name in a scope; what the scope said of it before is hidden. -/
def bind (env : Environment) (scope : Nat) (name : String) (ty : Ty) : Environment :=
  ⟨bindIn env.frames scope name ty⟩

/-- Bind names in a scope, one after the other. -/
def bindAll (env : Environment) (scope : Nat) (names : List (String × Ty)) : Environment :=
  names.foldl (fun env entry => env.bind scope entry.1 entry.2) env

/-- The number of the scope that is opened next. -/
def nextScope (env : Environment) : Nat := env.frames.length

/-- Open a scope in another one; its number is `nextScope`. -/
def openScope (env : Environment) (parent : Nat) : Environment :=
  ⟨{ parent := some parent } :: env.frames⟩

/-- The names of all operators: binary ones map two integers to one, unary ones one to one. -/
def operatorTypes : List (String × Ty) :=
  BinaryOperator.all.map (fun op => (op.name, .curried [.int, .int] .int)) ++
    UnaryOperator.all.map (fun op => (op.name, .arrow .int .int))

/-- The root binds the names of all operators. -/
def builtins : Environment := empty.bindAll root operatorTypes

end Environment

end Monotype
