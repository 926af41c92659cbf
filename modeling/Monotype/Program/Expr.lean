import Monotype.Program.Operator

/-!
# `Monotype.Program.Expr` — expressions and patterns

## Contents
- **`Pattern`**: what a branch of a case matches, and the names it binds.
- **`Expr`** and **`Branch`**: expressions, with the branches of a case.
-/

namespace Monotype

/-- What a branch matches: anything, under a name, or one constructor with a name for each field. -/
inductive Pattern where
  | var (name : String)
  | constructor (name : String) (params : List String)
deriving DecidableEq, Repr

mutual

/-- Expressions. Names that start lower and upper are told apart, as their tokens are. -/
inductive Expr where
  | int (value : Int)
  | str (text : String)
  | lower (name : String)
  | upper (name : String)
  | binary (op : BinaryOperator) (left right : Expr)
  | unary (op : UnaryOperator) (operand : Expr)
  | apply (function argument : Expr)
  | case (scrutinee : Expr) (branches : List Branch)

/-- A pattern and the expression that stands for it. -/
structure Branch where
  pattern : Pattern
  body : Expr

end

namespace Expr

/-- A function applied to one argument after the other. -/
def applyAll (function : Expr) (arguments : List Expr) : Expr := arguments.foldl apply function

@[simp] theorem applyAll_nil (function : Expr) : function.applyAll [] = function := rfl

@[simp] theorem applyAll_cons (function argument : Expr) (others : List Expr) :
    function.applyAll (argument :: others) = (apply function argument).applyAll others := rfl

/-- The expression is a case. -/
def isCase : Expr → Bool
  | case _ _ => true
  | _ => false

end Expr

end Monotype
