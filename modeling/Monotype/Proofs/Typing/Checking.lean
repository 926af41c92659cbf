import Monotype.Proofs.Typing.Declarations

/-!
# `Monotype.Proofs.Typing.Checking` — a run of the checker

Checking a program is lexical inference of its bodies, one after the other, in the scope of all that
the program declares (`Checker.check_agrees`). A verdict belongs to the definition at its place. It was
come to at some moment of the run, and what happened before and after that moment is steps of inference
again, so all that such steps keep relates the moment to the start and the end of the run
(`Lexical.exists_checkDefinition_of_verdict`).

## Contents
- **`Context.operators`**: what the root of a new checker sees.
- **`Declared.BodyTyped`**, **`Program.TypedBy`**: a typing of a program by the rules.
- **`Checker.check_agrees`**, **`Checker.check_eq_ok`**.
- **`Lexical.verdicts_cons_eq_ok`**, **`Lexical.exists_checkDefinition_of_verdict`**.
-/

namespace Monotype

/-! ## The root scope -/

/-- The types of the operators. -/
def Context.operators : Context := Context.bindAll (fun _ => none) Environment.operatorTypes

theorem Environment.below_operatorTypes : ∀ entry ∈ operatorTypes, entry.2.Below 0 := by
  intro entry hentry
  rcases List.mem_append.mp hentry with hentry | hentry
  · obtain ⟨op, _, rfl⟩ := List.mem_map.mp hentry
    exact Ty.below_curried.mpr ⟨by simp [Ty.int, Ty.below_base], Ty.below_base _⟩
  · obtain ⟨op, _, rfl⟩ := List.mem_map.mp hentry
    exact Ty.below_arrow.mpr ⟨Ty.below_base _, Ty.below_base _⟩

theorem Context.below_operators : Context.operators.Below 0 :=
  Context.Below.bindAll (fun _ _ h => absurd h (by simp)) Environment.below_operatorTypes

theorem Context.map_operators (θ : Nat → Ty) :
    Context.operators.map (Ty.subst θ) = Context.operators := by
  funext name
  unfold Context.map
  cases hname : Context.operators name with
  | none => rfl
  | some t =>
    have hnone := Context.below_operators name t hname
    refine congrArg some (Eq.trans (Ty.subst_congr fun v hv => ?_) (Ty.subst_var t))
    exact absurd (hnone v hv) (Nat.not_lt_zero v)

/-- A new checker sees the operators, and nothing else. -/
theorem TypingState.sees_initial :
    TypingState.initial.environment.Sees Environment.root Context.operators := by
  have hempty : Environment.empty.Sees Environment.root fun _ => none := ⟨Nat.zero_lt_one, rfl⟩
  exact hempty.bindAll Environment.operatorTypes

/-! ## Typings of programs -/

/-- The body of a function has the declared result type, with the parameters in scope. -/
inductive Declared.BodyTyped (Γ : Context) : Declared → Prop
  | function {definition : FunctionDefinition} {result : Ty} {params : List Ty}
      (hbody : HasType (Γ.bindAll (definition.params.zip params)) definition.body result) :
      BodyTyped Γ ⟨.function definition, some (.function result params)⟩
  | type {definition : TypeDefinition} {declaration : Option Declaration} :
      BodyTyped Γ ⟨.type definition, declaration⟩

/-- Types for all parameters, results and fields of a program, by which every body is derivable in the
root scope: the operators, and then what is defined, of which the last definition of a name counts. -/
structure Program.TypedBy (program : Program) (assigned : List Declared) : Prop where
  definitions : assigned.map Declared.definition = program
  shaped : ∀ declared ∈ assigned, declared.Shaped
  bodies : ∀ declared ∈ assigned, declared.BodyTyped (Context.operators.declare assigned)

/-! ## Checking -/

variable {options : Options} {program : Program} {Γ : Context}

/-- **A run of the checker is lexical inference of all bodies**, in the scope of all declarations. -/
theorem Checker.check_agrees (options : Options) (program : Program) {s : TypingState}
    (hΓ : s.environment.Sees Environment.root Γ) :
    Agrees (TypingState.declareAll program s).2.environment.frames
      (fun report _ verdicts => report = ⟨(TypingState.declareAll program s).1, verdicts⟩)
      (check options program s)
      (Lexical.verdicts options (Γ.declare (TypingState.declareAll program s).1)
        (TypingState.declareAll program s).1 (TypingState.declareAll program s).2.store) := by
  have hsees := (TypingState.declares_declareAll program s).sees hΓ
  have hverdicts := verdicts_agrees options (TypingState.declareAll program s).1
    (List.suffix_refl _) hsees
  simp only [check, Run.run_bind, Run.run_modifyGet, Outcome.bind_ok, Context.declare]
  generalize verdicts options _ _ = o, Lexical.verdicts options _ _ _ = o' at hverdicts ⊢
  cases hverdicts with
  | ok hframes hvs => exact .ok hframes (congrArg (Report.mk _) hvs)
  | error hframes => exact .error hframes
  | endless => exact .endless

/-- What a run of the checker that ended has declared, inferred and left in the root. -/
theorem Checker.check_eq_ok {report : Report} {s final : TypingState}
    (hΓ : s.environment.Sees Environment.root Γ) (h : check options program s = .ok report final) :
    report.declared = (TypingState.declareAll program s).1 ∧
      Lexical.verdicts options (Γ.declare report.declared) report.declared
        (TypingState.declareAll program s).2.store = .ok report.verdicts final.store ∧
      final.environment.Sees Environment.root (Γ.declare report.declared) := by
  have hagrees := check_agrees options program hΓ
  have hsees := (TypingState.declares_declareAll program s).sees hΓ
  rw [h] at hagrees
  generalize ho : Lexical.verdicts options _ _ _ = o at hagrees
  cases hagrees with
  | ok hframes hreport =>
    subst hreport
    exact ⟨rfl, ho, hsees.later hframes⟩

/-! ## Verdicts -/

namespace Lexical

variable {definitions : List Declared} {declared : Declared} {verdict : Verdict}
  {verdicts' : List Verdict} {s s' : Store} {R : Store → Store → Prop}

/-- Checking over a context attempts the first definition, and then does what its verdict lets follow. -/
theorem verdicts_cons (options : Options) (Γ : Context) (declared : Declared)
    (definitions : List Declared) (s : Store) :
    verdicts options Γ (declared :: definitions) s =
      ((checkDefinition options.occursCheck Γ declared).attempt s).bind
        (Verdict.andOthers options.keepGoing (verdicts options Γ definitions)) := by
  rw [verdicts, Run.run_bind]
  congr 1
  funext verdict s₁
  cases verdict with
  | ok _ => rfl
  | error e => cases options.keepGoing <;> rfl

/-- The first verdict is that on the first definition. The others are those on the other definitions,
unless the first definition failed and that was the end of it. -/
theorem verdicts_cons_eq_ok
    (h : verdicts options Γ (declared :: definitions) s = .ok verdicts' s') :
    ∃ verdict s₁ others, verdicts' = verdict :: others ∧
      ((checkDefinition options.occursCheck Γ declared).attempt : Run Empty Store Verdict) s =
        .ok verdict s₁ ∧
      (verdicts options Γ definitions s₁ = .ok others s' ∨ (others = [] ∧ s' = s₁)) := by
  rw [verdicts_cons] at h
  obtain ⟨verdict, s₁, hverdict, h⟩ := Outcome.bind_eq_ok_iff.mp h
  obtain ⟨others, hcons, hothers⟩ := Verdict.andOthers_eq_ok h
  exact ⟨verdict, s₁, others, hcons, hverdict, hothers⟩

/-- **A verdict comes from a check of the definition at its place**, at some moment of the run. -/
theorem exists_checkDefinition_of_verdict (hR : Kept options.occursCheck R)
    (h : verdicts options Γ definitions s = .ok verdicts' s') {i : Nat}
    (hi : verdicts'[i]? = some verdict) :
    ∃ declared s₁ s₂, definitions[i]? = some declared ∧ R s s₁ ∧ R s₂ s' ∧
      ((checkDefinition options.occursCheck Γ declared).attempt : Run Empty Store Verdict) s₁ =
        .ok verdict s₂ := by
  induction definitions generalizing s verdicts' i with
  | nil =>
    cases h
    exact absurd hi (by simp)
  | cons first definitions ih =>
    obtain ⟨firstVerdict, s₁, others, rfl, hfirst, hothers⟩ := verdicts_cons_eq_ok h
    cases i with
    | zero =>
      cases hi
      refine ⟨first, s, s₁, rfl, hR.refl s, ?_, hfirst⟩
      rcases hothers with hothers | ⟨_, rfl⟩
      · exact (hR.verdicts Γ definitions).of_ok hothers
      · exact hR.refl s'
    | succ i =>
      rcases hothers with hothers | ⟨rfl, _⟩
      · obtain ⟨declared, s₂, s₃, hdeclared, hbefore, hafter, hverdict⟩ := ih hothers hi
        have hstep : R s s₁ := (hR.checkDefinition Γ first).attempt.of_ok hfirst
        exact ⟨declared, s₂, s₃, hdeclared, hR.trans hstep hbefore, hafter, hverdict⟩
      · exact absurd hi (by simp)

end Lexical

end Monotype
