import Monotype.Proofs.Typing.Checking

/-!
# `Monotype.Proofs.Typing.Patterns` — patterns that fit their constructors

Whether a constructor pattern has a name for each field can be told from the program alone: a name
stands for a constructor where the last definition of that name declares one and no local name hides
it. Inference walks the declared type of a constructor, so where the patterns of an expression fit the
program, the walk comes out right whatever is known of the fields (`Context.Makes`).

## Contents
- **`Arities`**: for which names stand constructors, and of how many fields. **`Program.arities`**.
- **`Expr.patternsFit`**, **`Definition.patternsFit`**: every constructor pattern fits.
- **`Context.Makes`**: a scope has a constructor's type for each such name.
- **`Context.makes_operators_declare`**: the root scope of a program does.
-/

namespace Monotype

/-- The number of fields of the constructor that a name stands for, if it stands for one. -/
abbrev Arities : Type := String → Option Nat

namespace Arities

/-- A name stands for a constructor with some fields, or for something else. -/
def set (A : Arities) (name : String) (fields : Option Nat) : Arities :=
  fun other => if other = name then fields else A other

/-- Local names stand for no constructor. -/
def hide (A : Arities) (names : List String) : Arities :=
  names.foldl (fun A name => A.set name none) A

/-- The constructors of a type, in order. -/
def declareConstructors (A : Arities) (constructors : List Constructor) : Arities :=
  constructors.foldl (fun A constructor => A.set constructor.name (some constructor.fields.length)) A

/-- What a definition declares hides what was declared under the same name. -/
def declare (A : Arities) : Definition → Arities
  | .function definition => A.set definition.name none
  | .type definition => A.declareConstructors definition.constructors

end Arities

/-- What the names of a program stand for in the root. -/
def Program.arities (program : Program) : Arities := program.foldl Arities.declare fun _ => none

/-! ## Patterns that fit -/

/-- The names that a pattern binds. -/
def Pattern.names : Pattern → List String
  | .var name => [name]
  | .constructor _ params => params

/-- A constructor pattern has exactly one name for each field. -/
def Pattern.fits (A : Arities) : Pattern → Bool
  | .var _ => true
  | .constructor name params => A name = some params.length

mutual

/-- All patterns of an expression fit. -/
def Expr.patternsFit (A : Arities) : Expr → Bool
  | .int _ => true
  | .str _ => true
  | .lower _ => true
  | .upper _ => true
  | .binary _ left right => left.patternsFit A && right.patternsFit A
  | .unary _ operand => operand.patternsFit A
  | .apply function argument => function.patternsFit A && argument.patternsFit A
  | .case scrutinee branches => scrutinee.patternsFit A && branchesFit A branches

/-- All patterns of branches fit, each body in the scope of its own pattern. -/
def branchesFit (A : Arities) : List Branch → Bool
  | [] => true
  | ⟨pattern, body⟩ :: others =>
    pattern.fits A && body.patternsFit (A.hide pattern.names) && branchesFit A others

end

/-- All patterns of a definition fit. -/
def Definition.patternsFit (A : Arities) : Definition → Bool
  | .function definition => definition.body.patternsFit (A.hide definition.params)
  | .type _ => true

/-- All patterns of a program fit. -/
def Program.patternsFit (program : Program) : Bool :=
  program.all (Definition.patternsFit program.arities)

/-! ## Scopes with constructors -/

/-- Every name that stands for a constructor has the type of one, with that many fields. -/
def Context.Makes (Γ : Context) (A : Arities) : Prop :=
  ∀ name count, A name = some count →
    ∃ fields type, Γ name = some (.curried fields (.base type)) ∧ fields.length = count

variable {Γ : Context} {A : Arities}

namespace Context.Makes

/-- A name that is bound otherwise is no constructor any more. -/
theorem bind (h : Γ.Makes A) (name : String) (t : Ty) : (Γ.bind name t).Makes (A.set name none) := by
  intro other count hother
  unfold Arities.set at hother
  rw [Context.bind_apply]
  by_cases hname : other = name
  · rw [if_pos hname] at hother
    exact absurd hother (by simp)
  · rw [if_neg hname] at hother ⊢
    exact h other count hother

/-- A name that is bound to the signature of a constructor is one, with as many fields. -/
theorem bindConstructor (h : Γ.Makes A) (name type : String) (fields : List Ty) :
    (Γ.bind name (.curried fields (.base type))).Makes (A.set name (some fields.length)) := by
  intro other count hother
  unfold Arities.set at hother
  rw [Context.bind_apply]
  by_cases hname : other = name
  · rw [if_pos hname] at hother ⊢
    exact ⟨fields, type, rfl, Option.some.inj hother⟩
  · rw [if_neg hname] at hother ⊢
    exact h other count hother

/-- Local names hide the constructors in scope. -/
theorem bindAll (h : Γ.Makes A) {names : List String} {types : List Ty}
    (hlength : types.length = names.length) :
    (Γ.bindAll (names.zip types)).Makes (A.hide names) := by
  induction names generalizing Γ A types with
  | nil => exact h
  | cons name names ih =>
    cases types with
    | nil => exact absurd hlength (by simp)
    | cons t types => exact ih (h.bind name t) (Nat.succ.inj hlength)

theorem bindConstructors (h : Γ.Makes A) {type : String} {constructors : List Constructor}
    {signatures : List Ty}
    (hmakes : List.Forall₂ (Constructor.Makes type) constructors signatures) :
    (Γ.bindAll ((constructors.zip signatures).map fun entry => (entry.1.name, entry.2))).Makes
      (A.declareConstructors constructors) := by
  induction hmakes generalizing Γ A with
  | nil => exact h
  | @cons constructor signature others signatures hfirst _ ih =>
    obtain ⟨fields, hlength, rfl⟩ := hfirst
    have hbind := h.bindConstructor constructor.name type fields
    rw [hlength] at hbind
    exact ih hbind

/-- A scope with definitions of a program has the types of its constructors. -/
theorem declare (h : Γ.Makes A) {definitions : List Declared}
    (hshaped : ∀ declared ∈ definitions, declared.Shaped) :
    (Γ.declare definitions).Makes ((definitions.map Declared.definition).foldl Arities.declare A) := by
  induction definitions generalizing Γ A with
  | nil => exact h
  | cons declared others ih =>
    rw [List.forall_mem_cons] at hshaped
    rw [Context.declare, Declared.entries_cons, Context.bindAll_append]
    refine ih ?_ hshaped.2
    cases hshaped.1 with
    | function _ => exact h.bind _ _
    | type hmakes =>
      rw [Declared.entries_type]
      exact h.bindConstructors hmakes

end Context.Makes

/-- The root scope of a program has the types of all constructors that it declares. -/
theorem Context.makes_operators_declare {definitions : List Declared}
    (hshaped : ∀ declared ∈ definitions, declared.Shaped) :
    (Context.operators.declare definitions).Makes
      (Program.arities (definitions.map Declared.definition)) := by
  have hnone : Context.operators.Makes fun _ => none := fun _ _ h => absurd h (by simp)
  exact hnone.declare hshaped

end Monotype
