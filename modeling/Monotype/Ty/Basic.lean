/-!
# `Monotype.Ty.Basic` — types

## Contents
- **`Ty`**: variables, base types and arrows; `int`, `string`, `curried`.
- **`Ty.pretty`**: the text of a type. Arrows group to the right.
- **`Ty.subst`**, **`Ty.vars`**, **`Ty.size`**, **`Ty.totalSize`**: substitution, the variables that occur,
  the node counts.
-/

namespace Monotype

/-- Types: a variable to be found out, a named type, or the type of functions. -/
inductive Ty where
  | var (id : Nat)
  | base (name : String)
  | arrow (domain codomain : Ty)
deriving DecidableEq, Repr

namespace Ty

/-- The type of integers. -/
def int : Ty := base "Int"

/-- The type of strings. -/
def string : Ty := base "String"

/-- A function of some parameters, taken one after the other. -/
def curried (params : List Ty) (result : Ty) : Ty := params.foldr arrow result

/-- The type is a variable. -/
def isVar : Ty → Bool
  | var _ => true
  | _ => false

/-- The type is an arrow. -/
def isArrow : Ty → Bool
  | arrow _ _ => true
  | _ => false

/-- The text of a variable. -/
def prettyVar (id : Nat) : String := "'t" ++ toString id

/-- The text of a type. Only an arrow to the left of an arrow needs parentheses. -/
def pretty : Ty → String
  | var id => prettyVar id
  | base name => name
  | arrow domain codomain =>
    (if domain.isArrow then "(" ++ domain.pretty ++ ")" else domain.pretty) ++ " -> " ++
      codomain.pretty

/-- A type with a type in place of each variable. -/
def subst (θ : Nat → Ty) : Ty → Ty
  | var id => θ id
  | base name => base name
  | arrow domain codomain => arrow (domain.subst θ) (codomain.subst θ)

/-- The variables that occur in a type, from left to right. -/
def vars : Ty → List Nat
  | var id => [id]
  | base _ => []
  | arrow domain codomain => domain.vars ++ codomain.vars

/-- The number of nodes of a type. -/
def size : Ty → Nat
  | var _ => 1
  | base _ => 1
  | arrow domain codomain => domain.size + codomain.size + 1

/-- The number of nodes of several types together. -/
def totalSize : List Ty → Nat
  | [] => 0
  | t :: others => t.size + totalSize others

@[simp] theorem curried_nil (result : Ty) : curried [] result = result := rfl

@[simp] theorem curried_cons (param : Ty) (others : List Ty) (result : Ty) :
    curried (param :: others) result = arrow param (curried others result) := rfl

/-- Substitution depends on the variables that occur, and on no other. -/
theorem subst_congr {θ η : Nat → Ty} :
    ∀ {t : Ty}, (∀ v ∈ t.vars, θ v = η v) → t.subst θ = t.subst η
  | var _, h => h _ (by simp [vars])
  | base _, _ => rfl
  | arrow _ _, h => by
    simp only [vars, List.mem_append] at h
    simp only [subst]
    rw [subst_congr fun v hv => h v (.inl hv), subst_congr fun v hv => h v (.inr hv)]

@[simp] theorem subst_var (t : Ty) : t.subst var = t := by
  induction t <;> simp_all [subst]

/-- Two substitutions, one after the other, are one. -/
theorem subst_subst (θ η : Nat → Ty) (t : Ty) :
    (t.subst θ).subst η = t.subst fun v => (θ v).subst η := by
  induction t <;> simp_all [subst]

theorem totalSize_append (types others : List Ty) :
    totalSize (types ++ others) = totalSize types + totalSize others := by
  induction types with
  | nil => simp [totalSize]
  | cons t types ih => simp [totalSize, ih, Nat.add_assoc]

theorem size_pos (t : Ty) : 0 < t.size := by cases t <;> simp [size]

end Ty

end Monotype
