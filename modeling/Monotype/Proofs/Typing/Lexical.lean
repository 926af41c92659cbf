import Monotype.Proofs.Typing.Congruence
import Monotype.Proofs.Typing.Rules

/-!
# `Monotype.Proofs.Typing.Lexical` — inference over an immutable context

Inference keeps scopes in an environment of frames, opens new ones, and binds names in them. Seen from
an expression none of that matters: what it needs is the type of each name in scope. Here is the same
inference with a context that is passed down and never changed. Its state is a `Store`: the count of
variables and their bindings. `Monotype.Proofs.Typing.Scopes` shows that the two agree.

What is proved of inference is proved of this form. Most of it does not depend on what the steps are,
but only on how each of them changes the store (`Kept`).

## Contents
- **`Store`**, **`Solver`** and its steps: `fresh`, `unify`, `lookup`.
- **`matchPattern`**, **`infer`**, **`checkBody`**, **`verdicts`**.
- **`Kept`**: relations between stores that every step keeps. **`Kept.infer`**, **`Kept.verdicts`**.
-/

namespace Monotype

/-- What is known of type variables: how many were handed out, and their bindings. -/
structure Store where
  allocated : Nat := 0
  bindings : Bindings := .empty

/-- The part of the state that does not concern scopes. -/
def TypingState.store (state : TypingState) : Store := ⟨state.allocated, state.bindings⟩

namespace Lexical

/-- A computation over what is known of type variables. -/
abbrev Solver (α : Type) : Type := Run TypeError Store α

/-- A variable that was not handed out before. -/
def fresh : Solver Ty := fun store =>
  .ok (.var store.allocated) { store with allocated := store.allocated + 1 }

/-- Make two types equal. -/
def unify (strict : Bool) (left right : Ty) : Solver Unit := fun store =>
  ((Unifier.unify strict left right store.bindings).mapError TypeError.ofUnify).mapState
    fun bindings => { store with bindings }

/-- The type of a name in scope, or an error. -/
def lookup (Γ : Context) (name : String) (missing : TypeError) : Solver Ty :=
  match Γ name with
  | some ty => return ty
  | none => Run.fail missing

/-- Fail with an error that shows a type. -/
def failWith {α : Type} (error : Ty → BindingError) (ty : Ty) : Solver α := do
  Run.fail (.binding (error ((← get).bindings.zonk ty)))

/-- The type of an operator. -/
def operator (Γ : Context) (name : String) : Solver Ty :=
  lookup Γ name (.binding (.unboundOperator name))

/-- Bind the parameters of a pattern to the domains of the constructor's type: the new scope, and
what the constructor makes. -/
def bindFields (constructor : String) (whole : Ty) :
    Context → Ty → List String → Solver (Context × Ty)
  | Γ, ty, [] => return (Γ, ty)
  | Γ, .arrow domain codomain, param :: others =>
    bindFields constructor whole (Γ.bind param domain) codomain others
  | _, _, _ :: _ => failWith (.tooManyFields constructor) whole

/-- The scope of a branch, for a scrutinee of some type. -/
def matchPattern (strict : Bool) (Γ : Context) (pattern : Pattern) (scrutinee : Ty) :
    Solver Context :=
  match pattern with
  | .var name => return Γ.bind name scrutinee
  | .constructor name params => do
    let whole ← lookup Γ name (.undefinedConstructor name)
    let (inner, made) ← bindFields name whole Γ whole params
    match made with
    | .base _ => do
      unify strict made scrutinee
      return inner
    | _ => failWith (.notNominal name) made

mutual

/-- The type of an expression in a scope. -/
def infer (strict : Bool) (Γ : Context) : Expr → Solver Ty
  | .int _ => return .int
  | .str _ => return .string
  | .lower name => lookup Γ name (.undefinedVariable name)
  | .upper name => lookup Γ name (.undefinedVariable name)
  | .binary op left right => do
    let left ← infer strict Γ left
    let right ← infer strict Γ right
    let operator ← operator Γ op.name
    let result ← fresh
    unify strict (.arrow left (.arrow right result)) operator
    return result
  | .unary op operand => do
    let operand ← infer strict Γ operand
    let operator ← operator Γ op.name
    let result ← fresh
    unify strict (.arrow operand result) operator
    return result
  | .apply function argument => do
    let function ← infer strict Γ function
    let argument ← infer strict Γ argument
    let result ← fresh
    unify strict (.arrow argument result) function
    return result
  | .case scrutinee branches => do
    let scrutinee ← infer strict Γ scrutinee
    let result ← fresh
    inferBranches strict Γ scrutinee result branches
    return result

/-- Give every branch of a case the result type, each in the scope of its pattern. -/
def inferBranches (strict : Bool) (Γ : Context) (scrutinee result : Ty) :
    List Branch → Solver Unit
  | [] => return ()
  | ⟨pattern, body⟩ :: others => do
    let inner ← matchPattern strict Γ pattern scrutinee
    let body ← infer strict inner body
    unify strict result body
    inferBranches strict Γ scrutinee result others

end

/-! ## Definitions -/

/-- Check the body of a function against the types declared for it. -/
def checkBody (strict : Bool) (Γ : Context) (definition : FunctionDefinition) (result : Ty)
    (params : List Ty) : Solver Unit := do
  let body ← infer strict (Γ.bindAll (definition.params.zip params)) definition.body
  unify strict body result

/-- Check a definition. A function must have been declared, with a type for each parameter. -/
def checkDefinition (strict : Bool) (Γ : Context) (declared : Declared) : Solver Unit :=
  match declared.definition, declared.declaration with
  | .type _, _ => return ()
  | .function definition, some (.function result params) =>
    if params.length = definition.params.length then checkBody strict Γ definition result params
    else Run.fail (.notDeclared definition.name)
  | .function definition, _ => Run.fail (.notDeclared definition.name)

/-- Verdicts on definitions in order, up to the first failure unless checking is to go on. -/
def verdicts (options : Options) (Γ : Context) : List Declared → Run Empty Store (List Verdict)
  | [] => return []
  | declared :: others => do
    let verdict ← (checkDefinition options.occursCheck Γ declared).attempt
    match verdict, options.keepGoing with
    | .error _, false => return [verdict]
    | _, _ => return verdict :: (← verdicts options Γ others)

/-! ## What every step keeps -/

/-- A relation between stores that steps of inference keep, and that carries over to sequences. -/
structure Kept (strict : Bool) (R : Store → Store → Prop) : Prop where
  refl : ∀ s, R s s
  trans : ∀ {s s' s''}, R s s' → R s' s'' → R s s''
  fresh : Run.Keeps R fresh
  unify : ∀ left right, Run.Keeps R (unify strict left right)

namespace Kept

variable {strict : Bool} {R : Store → Store → Prop} {ε α β : Type}

theorem pure (hR : Kept strict R) (a : α) : Run.Keeps R (Pure.pure a : Run ε Store α) :=
  Run.Keeps.pure hR.refl a

theorem fail (hR : Kept strict R) (e : ε) : Run.Keeps R (Run.fail e : Run ε Store α) :=
  Run.Keeps.fail hR.refl e

/-- What both parts of a sequence keep, the sequence keeps. -/
theorem bind (hR : Kept strict R) {x : Run ε Store α} {next : α → Run ε Store β}
    (hx : Run.Keeps R x) (hnext : ∀ a, Run.Keeps R (next a)) : Run.Keeps R (x >>= next) :=
  hx.bind hnext fun _ _ _ => hR.trans

/-- A name is looked up, or found missing, without a change to the store. -/
theorem lookup (hR : Kept strict R) (Γ : Context) (name : String) (missing : TypeError) :
    Run.Keeps R (lookup Γ name missing) := by
  unfold Lexical.lookup
  cases Γ name with
  | none => exact hR.fail missing
  | some t => exact hR.pure t

theorem failWith (hR : Kept strict R) (error : Ty → BindingError) (t : Ty) :
    Run.Keeps R (failWith error t : Solver α) := by
  intro s s' h
  cases h
  exact hR.refl s

/-- The parameters of a pattern go into the scope; the store is as before, also if there are too many of
them. -/
theorem bindFields (hR : Kept strict R) (constructor : String) (whole : Ty) (Γ : Context) (t : Ty)
    (params : List String) : Run.Keeps R (bindFields constructor whole Γ t params) := by
  induction params generalizing Γ t with
  | nil => rw [Lexical.bindFields]; exact hR.pure (Γ, t)
  | cons param others ih =>
    cases t with
    | var v => exact hR.failWith _ _
    | base n => exact hR.failWith _ _
    | arrow domain codomain => exact ih (Γ.bind param domain) codomain

/-- A pattern can change the store only where what the constructor makes is unified with the scrutinee. -/
theorem matchPattern (hR : Kept strict R) (Γ : Context) (pattern : Pattern) (scrutinee : Ty) :
    Run.Keeps R (matchPattern strict Γ pattern scrutinee) := by
  cases pattern with
  | var name => exact hR.pure _
  | constructor name params =>
    refine hR.bind (hR.lookup Γ name _) fun whole => ?_
    refine hR.bind (hR.bindFields name whole Γ whole params) fun out => ?_
    obtain ⟨inner, made⟩ := out
    -- only a constructor that makes a named type is unified with the scrutinee
    cases made with
    | var v => exact hR.failWith _ _
    | arrow domain codomain => exact hR.failWith _ _
    | base n => exact hR.bind (hR.unify _ _) fun _ => hR.pure inner

mutual

/-- **Inference keeps what its steps keep**, of every expression and however it ends. -/
theorem infer (hR : Kept strict R) : ∀ (e : Expr) (Γ : Context), Run.Keeps R (infer strict Γ e)
  | .int _, _ => hR.pure _
  | .str _, _ => hR.pure _
  | .lower name, Γ => hR.lookup Γ name _
  | .upper name, Γ => hR.lookup Γ name _
  | .binary op left right, Γ => by
    unfold Lexical.infer
    refine hR.bind (hR.infer left Γ) fun a => hR.bind (hR.infer right Γ) fun b => ?_
    refine hR.bind (hR.lookup Γ op.name _) fun operator => hR.bind hR.fresh fun result => ?_
    exact hR.bind (hR.unify _ _) fun _ => hR.pure result
  | .unary op operand, Γ => by
    unfold Lexical.infer
    refine hR.bind (hR.infer operand Γ) fun a => ?_
    refine hR.bind (hR.lookup Γ op.name _) fun operator => hR.bind hR.fresh fun result => ?_
    exact hR.bind (hR.unify _ _) fun _ => hR.pure result
  | .apply function argument, Γ => by
    unfold Lexical.infer
    refine hR.bind (hR.infer function Γ) fun f => hR.bind (hR.infer argument Γ) fun a => ?_
    refine hR.bind hR.fresh fun result => ?_
    exact hR.bind (hR.unify _ _) fun _ => hR.pure result
  | .case scrutinee branches, Γ => by
    unfold Lexical.infer
    refine hR.bind (hR.infer scrutinee Γ) fun a => hR.bind hR.fresh fun result => ?_
    exact hR.bind (hR.inferBranches branches Γ a result) fun _ => hR.pure result

theorem inferBranches (hR : Kept strict R) : ∀ (branches : List Branch) (Γ : Context)
    (scrutinee result : Ty), Run.Keeps R (inferBranches strict Γ scrutinee result branches)
  | [], _, _, _ => hR.pure _
  | ⟨pattern, body⟩ :: others, Γ, scrutinee, result => by
    unfold Lexical.inferBranches
    refine hR.bind (hR.matchPattern Γ pattern scrutinee) fun inner => ?_
    refine hR.bind (hR.infer body inner) fun t => hR.bind (hR.unify result t) fun _ => ?_
    exact hR.inferBranches others Γ scrutinee result

end

/-- A definition that fails, or was not declared at all, is no exception. -/
theorem checkDefinition (hR : Kept strict R) (Γ : Context) (declared : Declared) :
    Run.Keeps R (checkDefinition strict Γ declared) := by
  obtain ⟨definition, declaration⟩ := declared
  cases definition with
  | type _ => exact hR.pure ()
  | function definition =>
    match declaration with
    | none => exact hR.fail _
    | some (.type _) => exact hR.fail _
    | some (.function result params) =>
      by_cases hlength : params.length = definition.params.length
      · simp only [Lexical.checkDefinition, if_pos hlength]
        exact hR.bind (hR.infer definition.body _) fun body => hR.unify body result
      · simp only [Lexical.checkDefinition, if_neg hlength]
        exact hR.fail _

/-- A failure that checking goes on past has kept the relation up to there, and so does what follows. -/
theorem verdicts {options : Options} (hR : Kept options.occursCheck R) (Γ : Context)
    (definitions : List Declared) : Run.Keeps R (verdicts options Γ definitions) := by
  induction definitions with
  | nil => exact hR.pure []
  | cons declared others ih =>
    refine hR.bind (hR.checkDefinition Γ declared).attempt fun verdict => ?_
    -- whether there is a rest depends on the verdict and on the options
    have hrest : Run.Keeps R (do return verdict :: (← Lexical.verdicts options Γ others)) :=
      hR.bind ih fun vs => hR.pure (verdict :: vs)
    cases verdict with
    | ok _ => exact hrest
    | error e =>
      cases hgoing : options.keepGoing with
      | true => simpa only [hgoing] using hrest
      | false => exact hR.pure _

end Kept

end Lexical

end Monotype
