import Monotype.Typing.Check

/-!
# `Monotype.Proofs.Typing.Congruence` — arguments step by step

Most of what is true of every run of inference is true because it holds of each step, and passes from
two computations to the one that does both. Here that argument is made once, for two runs side by side:
inference of the same thing, which may or may not differ in the occurs check. What is to be shown is
only that the steps of the two are related, each to its twin (`Infer.Congruence`). A property of one run
is the case where the second is not looked at.

## Contents
- **`Run.Keeps`**: what a computation keeps of its state, whether it succeeds or fails.
- **`Infer.Congruence`**: relations that all steps satisfy, and sequences of steps.
- **`Infer.Congruence.infer`**, **`Infer.Congruence.checkDefinition`**: the induction.
- **`Verdict.andOthers`**: when checking goes on.
- **`Checker.Congruence`**, **`Checker.Congruence.verdicts`**: the same with recovery from failures.
-/

namespace Monotype

/-! ## What computations keep -/

namespace Run

variable {ε ε' σ α β : Type} {R : σ → σ → Prop}

/-- Every state that a computation leaves, with a value or an error, is related to its first state. -/
def Keeps (R : σ → σ → Prop) (x : Run ε σ α) : Prop := ∀ s s', (x s).state? = some s' → R s s'

/-- What is kept whenever a computation ends is kept when it succeeds. -/
theorem Keeps.of_ok {x : Run ε σ α} (h : Keeps R x) {s s' : σ} {a : α} (hx : x s = .ok a s') :
    R s s' :=
  h s s' (by rw [hx]; rfl)

theorem Keeps.pure (hR : ∀ s, R s s) (a : α) : Keeps R (Pure.pure a : Run ε σ α) := by
  intro s s' h
  cases h
  exact hR s

theorem Keeps.fail (hR : ∀ s, R s s) (e : ε) : Keeps R (Run.fail e : Run ε σ α) := by
  intro s s' h
  cases h
  exact hR s

/-- A transitive relation passes through a sequence, also if the sequence ends in its first part. -/
theorem Keeps.bind {x : Run ε σ α} {next : α → Run ε σ β} (hx : Keeps R x)
    (hnext : ∀ a, Keeps R (next a)) (hR : ∀ s s' s'', R s s' → R s' s'' → R s s'') :
    Keeps R (x >>= next) := by
  intro s s' h
  rw [run_bind, Outcome.state?_bind_eq_some_iff] at h
  rcases h with ⟨a, s₁, ho, h⟩ | ⟨e, ho⟩
  · exact hR s s₁ s' (hx.of_ok ho) (hnext a s₁ s' h)
  · exact hx s s' (by rw [ho]; rfl)

/-- A failure that was turned into a value leaves the state that it left as a failure. -/
theorem Keeps.attempt {x : Run ε σ α} (hx : Keeps R x) :
    Keeps R (x.attempt : Run ε' σ (Except ε α)) := by
  intro s s' h
  rw [state?_attempt] at h
  exact hx s s' h

end Run

/-! ## Two runs side by side -/

/-- The error of a variable that would have to hold itself. -/
def TypeError.isInfinite : TypeError → Bool
  | binding (.infinite _ _) => true
  | _ => false

namespace Infer

/-- A relation between computations that relates each step of inference to its twin, and sequences of
related computations. An error other than that of the occurs check is a step of its own. -/
structure Congruence (strict strict' : Bool) (P : ∀ α : Type, Infer α → Infer α → Prop) :
    Prop where
  pure : ∀ {α : Type} (a : α), P α (Pure.pure a) (Pure.pure a)
  bind : ∀ {α β : Type} {x x' : Infer α} {next next' : α → Infer β}, P α x x' →
    (∀ a, P β (next a) (next' a)) → P β (x >>= next) (x' >>= next')
  fail : ∀ {α : Type} (e : TypeError), e.isInfinite = false → P α (Run.fail e) (Run.fail e)
  state : P TypingState get get
  scopes : ∀ f : Environment → Environment,
    P PUnit (modify fun s => { s with environment := f s.environment })
      (modify fun s => { s with environment := f s.environment })
  fresh : P Ty fresh fresh
  unify : ∀ left right, P Unit (unify strict left right) (unify strict' left right)

namespace Congruence

variable {strict strict' : Bool} {P : ∀ α : Type, Infer α → Infer α → Prop} {α : Type}

theorem bindName (hP : Congruence strict strict' P) (scope : Nat) (name : String) (ty : Ty) :
    P Unit (Infer.bindName scope name ty) (Infer.bindName scope name ty) :=
  hP.scopes fun env => env.bind scope name ty

theorem bindNames (hP : Congruence strict strict' P) (scope : Nat) (names : List (String × Ty)) :
    P Unit (Infer.bindNames scope names) (Infer.bindNames scope names) :=
  hP.scopes fun env => env.bindAll scope names

/-- A scope is opened in three steps: its number is read, the frame is added, the number returned. -/
theorem openScope (hP : Congruence strict strict' P) (parent : Nat) :
    P Nat (Infer.openScope parent) (Infer.openScope parent) := by
  have hopen := hP.bind hP.state fun s : TypingState =>
    hP.bind (hP.scopes fun env => env.openScope parent) fun _ => hP.pure s.environment.nextScope
  exact hopen

theorem lookup (hP : Congruence strict strict' P) (scope : Nat) (name : String)
    {missing : TypeError} (hmissing : missing.isInfinite = false) :
    P Ty (Infer.lookup scope name missing) (Infer.lookup scope name missing) := by
  refine hP.bind hP.state fun s => ?_
  cases s.environment.lookup? scope name with
  | none => exact hP.fail missing hmissing
  | some ty => exact hP.pure ty

theorem operator (hP : Congruence strict strict' P) (scope : Nat) (name : String) :
    P Ty (Infer.operator scope name) (Infer.operator scope name) :=
  hP.lookup scope name rfl

theorem failWith (hP : Congruence strict strict' P) {error : Ty → BindingError}
    (herror : ∀ ty, (TypeError.binding (error ty)).isInfinite = false) (ty : Ty) :
    P α (Infer.failWith error ty) (Infer.failWith error ty) :=
  hP.bind hP.state fun s => hP.fail _ (herror (s.bindings.zonk ty))

/-! ### Patterns -/

/-- The walk over the type of a constructor is by its parameters, and takes no part in the occurs check. -/
theorem bindFields (hP : Congruence strict strict' P) (scope : Nat) (constructor : String)
    (whole ty : Ty) (params : List String) :
    P Ty (Infer.bindFields scope constructor whole ty params)
      (Infer.bindFields scope constructor whole ty params) := by
  induction params generalizing ty with
  | nil => rw [Infer.bindFields]; exact hP.pure ty
  | cons param others ih =>
    cases ty with
    | var v => exact hP.failWith (fun _ => rfl) whole
    | base n => exact hP.failWith (fun _ => rfl) whole
    | arrow domain codomain =>
      exact hP.bind (hP.bindName scope param domain) fun _ => ih codomain

/-- A pattern differs between the runs where a type is unified with the scrutinee, if anywhere. -/
theorem matchPattern (hP : Congruence strict strict' P) (scope : Nat) (pattern : Pattern)
    (scrutinee : Ty) : P Unit (Infer.matchPattern strict scope pattern scrutinee)
      (Infer.matchPattern strict' scope pattern scrutinee) := by
  cases pattern with
  | var name => exact hP.bindName scope name scrutinee
  | constructor name params =>
    refine hP.bind (hP.lookup scope name rfl) fun whole => ?_
    refine hP.bind (hP.bindFields scope name whole whole params) fun made => ?_
    cases made with
    | var v => exact hP.failWith (fun _ => rfl) _
    | arrow domain codomain => exact hP.failWith (fun _ => rfl) _
    | base n => exact hP.unify _ scrutinee

/-! ### Expressions -/

mutual

/-- **Inference of an expression relates to itself**, for relations that its steps satisfy: induction on
the expression, where an operation is a sequence of its operands, a fresh variable and a unification. -/
theorem infer (hP : Congruence strict strict' P) : ∀ (e : Expr) (scope : Nat),
    P Ty (Infer.infer strict scope e) (Infer.infer strict' scope e)
  | .int _, _ => by unfold Infer.infer; exact hP.pure _
  | .str _, _ => by unfold Infer.infer; exact hP.pure _
  | .lower name, scope => by unfold Infer.infer; exact hP.lookup scope name rfl
  | .upper name, scope => by unfold Infer.infer; exact hP.lookup scope name rfl
  | .binary op left right, scope => by
    unfold Infer.infer
    refine hP.bind (hP.infer left scope) fun a => hP.bind (hP.infer right scope) fun b => ?_
    refine hP.bind (hP.operator scope op.name) fun operator => hP.bind hP.fresh fun result => ?_
    exact hP.bind (hP.unify _ operator) fun _ => hP.pure result
  | .unary op operand, scope => by
    unfold Infer.infer
    refine hP.bind (hP.infer operand scope) fun a => ?_
    refine hP.bind (hP.operator scope op.name) fun operator => hP.bind hP.fresh fun result => ?_
    exact hP.bind (hP.unify _ operator) fun _ => hP.pure result
  | .apply function argument, scope => by
    unfold Infer.infer
    refine hP.bind (hP.infer function scope) fun f => hP.bind (hP.infer argument scope) fun a => ?_
    exact hP.bind hP.fresh fun result => hP.bind (hP.unify _ f) fun _ => hP.pure result
  | .case scrutinee branches, scope => by
    unfold Infer.infer
    refine hP.bind (hP.infer scrutinee scope) fun a => hP.bind hP.fresh fun result => ?_
    exact hP.bind (hP.inferBranches branches scope a result) fun _ => hP.pure result

/-- The branches of a case, one after the other, each in a scope that is opened for it. -/
theorem inferBranches (hP : Congruence strict strict' P) : ∀ (branches : List Branch) (scope : Nat)
    (scrutinee result : Ty), P Unit (Infer.inferBranches strict scope scrutinee result branches)
      (Infer.inferBranches strict' scope scrutinee result branches)
  | [], _, _, _ => by unfold Infer.inferBranches; exact hP.pure ()
  | ⟨pattern, body⟩ :: others, scope, scrutinee, result => by
    unfold Infer.inferBranches
    refine hP.bind (hP.openScope scope) fun inner => ?_
    refine hP.bind (hP.matchPattern inner pattern scrutinee) fun _ => ?_
    refine hP.bind (hP.infer body inner) fun t => hP.bind (hP.unify result t) fun _ => ?_
    exact hP.inferBranches others scope scrutinee result

end

/-! ### Definitions -/

theorem checkBody (hP : Congruence strict strict' P) (definition : FunctionDefinition) (result : Ty)
    (params : List Ty) : P Unit (Infer.checkBody strict definition result params)
      (Infer.checkBody strict' definition result params) := by
  refine hP.bind (hP.openScope Environment.root) fun scope => ?_
  refine hP.bind (hP.bindNames scope _) fun _ => ?_
  exact hP.bind (hP.infer definition.body scope) fun body => hP.unify body result

/-- A definition, whether or not it was declared with a type for each parameter. -/
theorem checkDefinition (hP : Congruence strict strict' P) (declared : Declared) :
    P Unit (Infer.checkDefinition strict declared) (Infer.checkDefinition strict' declared) := by
  obtain ⟨definition, declaration⟩ := declared
  cases definition with
  | type _ => exact hP.pure ()
  | function definition =>
    match declaration with
    | none => exact hP.fail _ rfl
    | some (.type _) => exact hP.fail _ rfl
    | some (.function result params) =>
      by_cases hlength : params.length = definition.params.length
      · simp only [Infer.checkDefinition, if_pos hlength]
        exact hP.checkBody definition result params
      · simp only [Infer.checkDefinition, if_neg hlength]
        exact hP.fail _ rfl

theorem checkAll (hP : Congruence strict strict' P) (definitions : List Declared) :
    P Unit (Infer.checkAll strict definitions) (Infer.checkAll strict' definitions) := by
  induction definitions with
  | nil => exact hP.pure ()
  | cons declared others ih => exact hP.bind (hP.checkDefinition declared) fun _ => ih

end Congruence

end Infer

/-! ## Verdicts -/

namespace Verdict

variable {σ : Type} {keepGoing : Bool} {others : σ → Outcome Empty σ (List Verdict)}
  {verdict : Verdict} {verdicts : List Verdict} {s s' : σ}

/-- Checking goes on after the verdict. -/
def goesOn (keepGoing : Bool) : Verdict → Bool
  | .ok _ => true
  | .error _ => keepGoing

/-- The verdict, and those that are come to after it if checking goes on. -/
def andOthers (keepGoing : Bool) (others : σ → Outcome Empty σ (List Verdict)) (verdict : Verdict)
    (s : σ) : Outcome Empty σ (List Verdict) :=
  if verdict.goesOn keepGoing then (others s).bind fun verdicts s' => .ok (verdict :: verdicts) s'
  else .ok [verdict] s

/-- If checking goes on there are the verdicts on the other definitions; if not, this is all. -/
theorem andOthers_eq_ok_iff : verdict.andOthers keepGoing others s = .ok verdicts s' ↔
    (verdict.goesOn keepGoing = true ∧
      ∃ verdicts', verdicts = verdict :: verdicts' ∧ others s = .ok verdicts' s') ∨
    (verdict.goesOn keepGoing = false ∧ verdicts = [verdict] ∧ s' = s) := by
  unfold andOthers
  cases hgoesOn : verdict.goesOn keepGoing with
  | true =>
    simp only [if_true, Outcome.bind_eq_ok_iff, Outcome.ok.injEq]
    constructor
    · rintro ⟨verdicts', s₁, hothers, rfl, rfl⟩
      exact .inl ⟨trivial, verdicts', rfl, hothers⟩
    · rintro (⟨_, verdicts', rfl, hothers⟩ | ⟨hstops, _⟩)
      · exact ⟨verdicts', s', hothers, rfl, rfl⟩
      · exact absurd hstops (by simp)
  | false => simp [eq_comm]

/-- Verdicts begin with the first one, and end there or go on with those on other definitions. -/
theorem andOthers_eq_ok (h : verdict.andOthers keepGoing others s = .ok verdicts s') :
    ∃ verdicts', verdicts = verdict :: verdicts' ∧
      (others s = .ok verdicts' s' ∨ (verdicts' = [] ∧ s' = s)) := by
  rcases andOthers_eq_ok_iff.mp h with ⟨_, verdicts', hcons, hothers⟩ | ⟨_, hone, hs⟩
  · exact ⟨verdicts', hcons, .inl hothers⟩
  · exact ⟨[], hone, .inr ⟨rfl, hs⟩⟩

end Verdict

namespace Checker

/-- A relation between computations that cannot fail, which holds of them as another one holds of what
they attempt. -/
structure Congruence (P : ∀ α : Type, Infer α → Infer α → Prop)
    (Q : ∀ α : Type, Checker α → Checker α → Prop) : Prop where
  pure : ∀ {α : Type} (a : α), Q α (Pure.pure a) (Pure.pure a)
  bind : ∀ {α β : Type} {x x' : Checker α} {next next' : α → Checker β}, Q α x x' →
    (∀ a, Q β (next a) (next' a)) → Q β (x >>= next) (x' >>= next')
  attempt : ∀ {x x' : Infer Unit}, P Unit x x' → Q Verdict x.attempt x'.attempt

variable {strict strict' : Bool} {P : ∀ α : Type, Infer α → Infer α → Prop}
  {Q : ∀ α : Type, Checker α → Checker α → Prop}

/-- **Verdicts relate to each other** if what is attempted for each definition does, where both runs
treat failures in the same way. -/
theorem Congruence.verdicts (hQ : Congruence P Q) (hP : Infer.Congruence strict strict' P)
    (keepGoing : Bool) (definitions : List Declared) :
    Q (List Verdict) (Checker.verdicts ⟨strict, keepGoing⟩ definitions)
      (Checker.verdicts ⟨strict', keepGoing⟩ definitions) := by
  induction definitions with
  | nil => exact hQ.pure []
  | cons declared others ih =>
    refine hQ.bind (hQ.attempt (hP.checkDefinition declared)) fun verdict => ?_
    -- the verdict is the same in both runs, and so both go on or neither does
    have hrest := hQ.bind ih fun vs => hQ.pure (verdict :: vs)
    cases verdict with
    | ok _ => exact hrest
    | error e =>
      cases keepGoing with
      | true => exact hrest
      | false => exact hQ.pure _

/-- What is kept by every computation that may fail is kept where failures are turned into values. -/
theorem congruence_keeps {R : TypingState → TypingState → Prop} (hrefl : ∀ s, R s s)
    (htrans : ∀ s s' s'', R s s' → R s' s'' → R s s'') :
    Congruence (fun _ x _ => Run.Keeps R x) fun _ x _ => Run.Keeps R x where
  pure := Run.Keeps.pure hrefl
  bind hx hnext := hx.bind hnext htrans
  attempt := Run.Keeps.attempt

/-- A computation that cannot fail has a value if it ends. -/
theorem exists_eq_ok_of_state? {α : Type} {x : Checker α} {s s' : TypingState}
    (h : (x s).state? = some s') : ∃ a, x s = .ok a s' := by
  cases ho : x s with
  | ok a s₁ => rw [ho] at h; cases h; exact ⟨a, rfl⟩
  | error e _ => exact e.elim
  | endless => rw [ho] at h; exact absurd h (by simp [Outcome.state?])

/-- Checking definitions is an attempt at the first one, and then what its verdict lets follow. -/
theorem verdicts_cons (options : Options) (declared : Declared) (others : List Declared)
    (s : TypingState) :
    verdicts options (declared :: others) s =
      ((Infer.checkDefinition options.occursCheck declared).attempt s).bind
        (Verdict.andOthers options.keepGoing (verdicts options others)) := by
  rw [verdicts, Run.run_bind]
  congr 1
  funext verdict s₁
  cases verdict with
  | ok _ => rfl
  | error e => cases options.keepGoing <;> rfl

/-- A run of the checker declares everything, and then comes to its verdicts. -/
theorem check_eq (options : Options) (program : Program) (s : TypingState) :
    check options program s =
      (verdicts options (TypingState.declareAll program s).1
        (TypingState.declareAll program s).2).bind fun vs s' =>
          .ok ⟨(TypingState.declareAll program s).1, vs⟩ s' := by
  simp [check]

end Checker

end Monotype
