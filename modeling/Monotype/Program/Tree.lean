import Monotype.Program.Expr

/-!
# `Monotype.Program.Tree` — tree notation

Tree notation writes an expression on one line with every node in brackets, so that its shape shows:
`PLUS(1, APPLY(f, x))`.

## Contents
- **`Pattern.tree`**, **`Expr.tree`**, **`Branch.tree`**.
-/

namespace Monotype

/-- The name of a constructor and its parameters, one blank before each. -/
def Pattern.tree : Pattern → String
  | var name => name
  | constructor name params => params.foldl (fun text param => text ++ " " ++ param) name

mutual

/-- Tree notation of an expression. -/
def Expr.tree : Expr → String
  | .int value => toString value
  | .str text => text
  | .lower name => name
  | .upper name => name
  | .binary op left right => op.name ++ "(" ++ left.tree ++ ", " ++ right.tree ++ ")"
  | .unary op operand => op.name ++ "(" ++ operand.tree ++ ")"
  | .apply function argument => "APPLY(" ++ function.tree ++ ", " ++ argument.tree ++ ")"
  | .case scrutinee branches =>
    "CASE(" ++ scrutinee.tree ++ ", [" ++ ", ".intercalate (Branch.trees branches) ++ "])"

/-- Tree notation of each branch. -/
def Branch.trees : List Branch → List String
  | [] => []
  | ⟨pattern, body⟩ :: others => (pattern.tree ++ " => " ++ body.tree) :: Branch.trees others

end

/-- Tree notation of a branch. -/
def Branch.tree (branch : Branch) : String := branch.pattern.tree ++ " => " ++ branch.body.tree

/-- The notations of branches are those of each of them, in their order. -/
theorem Branch.trees_eq_map (branches : List Branch) : trees branches = branches.map tree := by
  induction branches with
  | nil => rfl
  | cons branch others ih =>
    obtain ⟨pattern, body⟩ := branch
    simp [trees, tree, ih]

end Monotype
