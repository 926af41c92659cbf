import Monotype.Program.Expr

/-!
# `Monotype.Program.Definition` — definitions and programs

## Contents
- **`FunctionDefinition`**, **`TypeDefinition`**, **`Constructor`**, **`Definition`**.
- **`Program`**: definitions in order.
-/

namespace Monotype

/-- A function: its name, its parameters and its body. -/
structure FunctionDefinition where
  name : String
  params : List String
  body : Expr

/-- A constructor of a type: its name, and a name for each field. -/
structure Constructor where
  name : String
  fields : List String
deriving DecidableEq, Repr

/-- A type: its name and its constructors. -/
structure TypeDefinition where
  name : String
  constructors : List Constructor
deriving DecidableEq, Repr

/-- What a program defines. -/
inductive Definition where
  | function (definition : FunctionDefinition)
  | type (definition : TypeDefinition)

/-- The name of a definition. -/
def Definition.name : Definition → String
  | function definition => definition.name
  | type definition => definition.name

/-- A program is its definitions, in order. They may refer to each other in any order. -/
abbrev Program := List Definition

end Monotype
