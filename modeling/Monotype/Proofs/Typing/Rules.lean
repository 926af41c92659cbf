import Monotype.Program.Expr
import Monotype.Ty.Basic

/-!
# `Monotype.Proofs.Typing.Rules` — the declarative typing rules

What it means for an expression to have a type, without variables to be found out, without bindings
and without an order in which anything is done. A context says which type every name in scope has.

```text
Γ ⊢ 12 : Int            Γ ⊢ "abc" : String            Γ ⊢ x : Γ(x)

Γ ⊢ l : a    Γ ⊢ r : b    Γ(op) = a -> b -> t         Γ ⊢ x : a    Γ(op) = a -> t
---------------------------------------------         ---------------------------
Γ ⊢ l op r : t                                        Γ ⊢ op x : t

Γ ⊢ f : a -> t    Γ ⊢ x : a                           Γ ⊢ s : a    every p => { b } of bs:
---------------------------                                        p : a gives Γ', and Γ' ⊢ b : t
Γ ⊢ f x : t                                           -------------------------------------------
                                                      Γ ⊢ case s bs : t
```

A variable pattern fits every type and gives its name that type. A constructor pattern fits the base
type that the constructor makes, and has one name for each field; a later name hides an equal one.

## Contents
- **`Context`**: `bind`, `bindAll`, `map`.
- **`PatternTyped`**, **`HasType`**, **`BranchesTyped`**: the rules.
-/

namespace Monotype

/-- The types of the names in scope. -/
abbrev Context : Type := String → Option Ty

namespace Context

/-- The scope with one more name, which hides an equal one. -/
def bind (Γ : Context) (name : String) (ty : Ty) : Context :=
  fun other => if other = name then some ty else Γ other

/-- The scope with more names, one after the other. -/
def bindAll (Γ : Context) (names : List (String × Ty)) : Context :=
  names.foldl (fun Γ entry => Γ.bind entry.1 entry.2) Γ

/-- The scope with every type changed in the same way. -/
def map (Γ : Context) (f : Ty → Ty) : Context := fun name => (Γ name).map f

variable {Γ : Context} {f : Ty → Ty}

/-- A name that is bound has its new type, and every other name what it had. -/
theorem bind_apply (Γ : Context) (name other : String) (ty : Ty) :
    Γ.bind name ty other = if other = name then some ty else Γ other := rfl

@[simp] theorem bindAll_nil (Γ : Context) : Γ.bindAll [] = Γ := rfl

@[simp] theorem bindAll_cons (Γ : Context) (entry : String × Ty) (others : List (String × Ty)) :
    Γ.bindAll (entry :: others) = (Γ.bind entry.1 entry.2).bindAll others := rfl

theorem map_apply_of_eq_some {name : String} {ty : Ty} (h : Γ name = some ty) :
    Γ.map f name = some (f ty) := by
  rw [map, h]
  rfl

/-- A change to every type of a scope commutes with binding a name. -/
theorem map_bind (name : String) (ty : Ty) : (Γ.bind name ty).map f = (Γ.map f).bind name (f ty) := by
  funext other
  by_cases h : other = name <;> simp [map, bind, h]

/-- A change to every type of a scope commutes with binding several names. -/
theorem map_bindAll (entries : List (String × Ty)) :
    (Γ.bindAll entries).map f = (Γ.map f).bindAll (entries.map fun entry => (entry.1, f entry.2)) := by
  induction entries generalizing Γ with
  | nil => rfl
  | cons entry others ih =>
    rw [bindAll_cons, ih, map_bind]
    rfl

/-- A change to every type of a scope commutes with binding parameters to their types. -/
theorem map_bindAll_zip (names : List String) (types : List Ty) :
    (Γ.bindAll (names.zip types)).map f = (Γ.map f).bindAll (names.zip (types.map f)) := by
  rw [map_bindAll, List.zip_map_right]
  rfl

/-- Names are bound one after the other, so a scope can be built in parts. -/
theorem bindAll_append (Γ : Context) (entries others : List (String × Ty)) :
    Γ.bindAll (entries ++ others) = (Γ.bindAll entries).bindAll others := List.foldl_append

end Context

/-- A pattern fits scrutinees of a type, and its names extend the scope. -/
inductive PatternTyped (Γ : Context) : Pattern → Ty → Context → Prop
  | var {name : String} {scrutinee : Ty} :
      PatternTyped Γ (.var name) scrutinee (Γ.bind name scrutinee)
  | constructor {name type : String} {params : List String} {fields : List Ty}
      (hname : Γ name = some (.curried fields (.base type)))
      (hlength : fields.length = params.length) :
      PatternTyped Γ (.constructor name params) (.base type) (Γ.bindAll (params.zip fields))

mutual

/-- An expression has a type in a scope. -/
inductive HasType : Context → Expr → Ty → Prop
  | int {Γ : Context} {value : Int} : HasType Γ (.int value) .int
  | str {Γ : Context} {text : String} : HasType Γ (.str text) .string
  | lower {Γ : Context} {name : String} {t : Ty} (hname : Γ name = some t) :
      HasType Γ (.lower name) t
  | upper {Γ : Context} {name : String} {t : Ty} (hname : Γ name = some t) :
      HasType Γ (.upper name) t
  | binary {Γ : Context} {op : BinaryOperator} {left right : Expr} {a b t : Ty}
      (hleft : HasType Γ left a) (hright : HasType Γ right b)
      (hop : Γ op.name = some (.arrow a (.arrow b t))) : HasType Γ (.binary op left right) t
  | unary {Γ : Context} {op : UnaryOperator} {operand : Expr} {a t : Ty}
      (hoperand : HasType Γ operand a) (hop : Γ op.name = some (.arrow a t)) :
      HasType Γ (.unary op operand) t
  | apply {Γ : Context} {function argument : Expr} {a t : Ty}
      (hfunction : HasType Γ function (.arrow a t)) (hargument : HasType Γ argument a) :
      HasType Γ (.apply function argument) t
  | case {Γ : Context} {scrutinee : Expr} {branches : List Branch} {a t : Ty}
      (hscrutinee : HasType Γ scrutinee a) (hbranches : BranchesTyped Γ a t branches) :
      HasType Γ (.case scrutinee branches) t

/-- Every branch of a case fits the scrutinee and has the type of the case. -/
inductive BranchesTyped : Context → Ty → Ty → List Branch → Prop
  | nil {Γ : Context} {a t : Ty} : BranchesTyped Γ a t []
  | cons {Γ Γ' : Context} {pattern : Pattern} {body : Expr} {others : List Branch} {a t : Ty}
      (hpattern : PatternTyped Γ pattern a Γ') (hbody : HasType Γ' body t)
      (hothers : BranchesTyped Γ a t others) : BranchesTyped Γ a t (⟨pattern, body⟩ :: others)

end

end Monotype
