import Monotype.Proofs.Typing.Reasons

/-!
# `Monotype.Proofs.Typing.Undefined` — which names are reported as undefined

The scope of a place in a function knows the operators, what the program declares, the parameters of the
function and the names that patterns bind on the way to the place. This can be read off the program. A name
that is reported as undefined is none of these, at some place where it is looked up; and no function passes
that looks such a name up. Everything that the second pass relies on was declared in the first, and the names
of operators are known everywhere, so the errors that would say otherwise are never raised.

## Contents
- **`Context.operators_declare_eq_none_iff`**: what the root knows when bodies are checked.
- **`FunctionDefinition.LooksUpUnknown`**: a function looks a name up where nothing is known of it.
- **`TypeError.Warranted`**, **`Checker.Raises.warranted`**: what errors say of names is so.
- **`Infer.Place.Infers.isSome_of_looksUp`**: where a type is inferred, all names are known.
- **`Checker.name_errors_exact`**.
-/

namespace Monotype

/-! ## Known names -/

/-- The names of the operators. -/
def Environment.operatorNames : List String := operatorTypes.map Prod.fst

/-- The root knows the operators and what the program declares. -/
theorem Context.operators_declare_eq_none_iff (program : Program) (s : TypingState) (name : String) :
    (Context.operators.declare (TypingState.declareAll program s).1) name = none ↔
      name ∉ program.declares ∧ name ∉ Environment.operatorNames := by
  have hoperators := Adds.bindAll (fun _ => none) Environment.operatorTypes name
  have hdeclared := Adds.bindAll Context.operators
    (Declared.entries (TypingState.declareAll program s).1) name
  rw [Declared.map_fst_entries (TypingState.shaped_of_mem_declareAll program s),
    TypingState.definitions_declareAll] at hdeclared
  rw [declare, hdeclared, operators, hoperators, and_iff_left rfl]
  rfl

/-- The name of every operation is that of an operator. -/
theorem Expr.mem_operatorNames {e : Expr} {name : String} (h : e.operator? = some name) :
    name ∈ Environment.operatorNames := by
  cases e with
  | binary op _ _ => cases h; cases op <;> decide
  | unary op _ => cases h; cases op; decide
  | int _ | str _ | lower _ | upper _ | apply _ _ | case _ _ => cases h

/-- The body of a function looks a name up, in one of the ways that there are, at a place where nothing is
known of it: the program does not declare it, no operator has it, and neither a parameter nor a pattern on
the way binds it. -/
def FunctionDefinition.LooksUpUnknown (program : Program) (definition : FunctionDefinition)
    (looksUp : Expr → List String) (name : String) : Prop :=
  ∃ path names place, definition.body.Within path names place ∧ name ∈ looksUp place ∧
    name ∉ program.declares ∧ name ∉ Environment.operatorNames ∧ name ∉ definition.params ∧
    name ∉ names

/-! ## Errors -/

/-- What an error says of the names of a function is so. Functions were declared, operators have types,
and variables are infinite only if that was looked for. -/
structure TypeError.Warranted (options : Options) (program : Program)
    (definition : FunctionDefinition) (error : TypeError) : Prop where
  declared : ∀ name, error ≠ .notDeclared name
  operator : ∀ name, error ≠ .binding (.unboundOperator name)
  infinite : ∀ v t, error = .binding (.infinite v t) → options.occursCheck = true
  reference : ∀ name, error = .undefinedVariable name →
    definition.LooksUpUnknown program Expr.references name
  constructor : ∀ name, error = .undefinedConstructor name →
    definition.LooksUpUnknown program Expr.matched name

namespace Checker

variable {options : Options} {program : Program} {definition : FunctionDefinition} {i : Nat}
  {error : DefinitionError} {s' : TypingState} {name : String}

/-- **What errors say of names is so.** -/
theorem Raises.warranted (h : Raises options program .initial i error s') :
    ∃ definition, program[i]? = some (.function definition) ∧ error.definition = definition.name ∧
      error.error.Warranted options program definition := by
  obtain ⟨definition, Γ₁, hi, hname, hparams, path, names, place, Γ₂, hwithin, hadds, hreason⟩ :=
    h.exists_reason TypingState.sees_initial
  refine ⟨definition, hi, hname, ?_⟩
  -- a name that the scope of the place lacks is known nowhere around it
  have hunknown : ∀ name, Γ₂ name = none → name ∉ program.declares ∧
      name ∉ Environment.operatorNames ∧ name ∉ definition.params ∧ name ∉ names := by
    intro name hnone
    obtain ⟨hnames, hnone⟩ := (hadds name).mp hnone
    obtain ⟨hparam, hnone⟩ := (hparams name).mp hnone
    obtain ⟨hdeclares, hoperator⟩ :=
      (Context.operators_declare_eq_none_iff program .initial name).mp hnone
    exact ⟨hdeclares, hoperator, hparam, hnames⟩
  generalize error.error = e at hreason
  cases hreason with
  | reference he hnone =>
    refine ⟨fun _ => nofun, fun _ => nofun, fun _ _ => nofun, ?_, fun _ => nofun⟩
    rintro _ ⟨⟩
    exact ⟨path, names, place, hwithin, he, hunknown _ hnone⟩
  | constructor he hnone =>
    refine ⟨fun _ => nofun, fun _ => nofun, fun _ _ => nofun, fun _ => nofun, ?_⟩
    rintro _ ⟨⟩
    exact ⟨path, names, place, hwithin, he, hunknown _ hnone⟩
  | operator he hnone => exact absurd (Expr.mem_operatorNames he) (hunknown _ hnone).2.1
  | tooManyFields _ _ | notNominal _ _ =>
    exact ⟨fun _ => nofun, fun _ => nofun, fun _ _ => nofun, fun _ => nofun, fun _ => nofun⟩
  | misfit hmisfit =>
    cases hmisfit with
    | mismatch _ =>
      exact ⟨fun _ => nofun, fun _ => nofun, fun _ _ => nofun, fun _ => nofun, fun _ => nofun⟩
    | infinite hs _ _ _ =>
      exact ⟨fun _ => nofun, fun _ => nofun, fun _ _ _ => hs, fun _ => nofun, fun _ => nofun⟩

end Checker

/-! ## Functions that pass -/

/-- **Where a type is inferred, all names are known** that are looked up there. -/
theorem Infer.Place.Infers.isSome_of_looksUp {strict : Bool} {place : Infer.Place} {Γ : Context}
    {b : Bindings} {name : String} (h : place.Infers strict Γ b)
    (hname : name ∈ place.expr.references ∨ name ∈ place.expr.matched) : (Γ name).isSome := by
  obtain ⟨scope, e, s⟩ := place
  obtain ⟨hΓ, t, s', hinfer, _⟩ := h
  have hagrees := infer_agrees strict e (List.suffix_refl _) hΓ
  rw [hinfer] at hagrees
  obtain ⟨_, _, hlexical, _⟩ := hagrees.of_ok
  cases e with
  | lower other | upper other =>
    obtain rfl : name = other := by simpa [Expr.references, Expr.matched] using hname
    unfold Lexical.infer at hlexical
    rw [(Lexical.lookup_eq_ok hlexical).1]
    rfl
  | case scrutinee branches =>
    obtain ⟨⟨pattern, body⟩, hbranch, hlooksUp⟩ :=
      List.mem_flatMap.mp (hname.resolve_left List.not_mem_nil)
    obtain ⟨i, hi⟩ := List.getElem?_of_mem hbranch
    obtain ⟨a, s₁, result, s₂, hscrutinee, hfresh, hbranches⟩ := infer_case_eq_ok hinfer
    obtain ⟨_, _, _, _, _, _, hbefore, hopen, hpattern, _⟩ := inferBranches_getElem? hi hbranches
    have hΓ₁ := sees_of_infer hscrutinee hΓ
    cases hfresh
    obtain ⟨_, hmatch, _⟩ :=
      exists_lexical_of_matchPattern (sees_of_inferBranches hbefore hΓ₁) hopen hpattern
    rcases Lexical.matchPattern_eq_ok hmatch with ⟨_, rfl, _⟩ | ⟨other, _, _, _, rfl, hother, _⟩
    · exact absurd hlooksUp List.not_mem_nil
    · obtain rfl := List.mem_singleton.mp hlooksUp
      rw [hother]
      rfl
  | int _ | str _ | binary _ _ _ | unary _ _ | apply _ _ =>
    exact absurd hname (by simp [Expr.references, Expr.matched])

namespace Checker

variable {options : Options} {program : Program} {definition : FunctionDefinition} {i : Nat}
  {name : String}

/-- A function that looks an unknown name up does not pass. -/
theorem not_passes_of_looksUpUnknown (hi : program[i]? = some (.function definition))
    {looksUp : Expr → List String} (h : definition.LooksUpUnknown program looksUp name)
    (hlooksUp : ∀ e, name ∈ looksUp e → name ∈ e.references ∨ name ∈ e.matched) :
    ¬ Passes options program .initial i := by
  rintro ⟨declared, s₁, s', hreaches, hcheck⟩
  obtain ⟨path, names, place, hwithin, hplace, hdeclares, hoperator, hparam, hnames⟩ := h
  obtain ⟨result, params, hlength, hdeclared⟩ :=
    TypingState.declareAll_of_function (s := .initial) hi
  cases hreaches.getElem?.symm.trans hdeclared
  have hroot : s₁.environment.Sees Environment.root
      (Context.operators.declare (TypingState.declareAll program .initial).1) :=
    hreaches.sees ((TypingState.declares_declareAll program .initial).sees TypingState.sees_initial)
  have hunknown := (Context.operators_declare_eq_none_iff program .initial name).mpr
    ⟨hdeclares, hoperator⟩
  have hnone := (Context.Adds.bindAll_zip _ hlength name).mpr ⟨hparam, hunknown⟩
  -- but a type was inferred for the place, so the name is known there
  obtain ⟨_, _, _, _, _, hinfers⟩ := Infer.exists_infers_of_checkDefinition hlength hroot hcheck
  obtain ⟨last, Γ', _, rfl, hlast, hsame⟩ := hinfers.exists_callsAt hwithin
  have hknown := hlast.isSome_of_looksUp (hlooksUp _ hplace)
  rw [hsame name hnames, hnone] at hknown
  exact absurd hknown (by simp)

/-- **Errors about names are exact**, in every run of a new checker. Every error that is reported was raised by
the function at some place of the program. It never says that a function was not declared or that an operator
has no type, and that a type is infinite only with the occurs check. A variable or a constructor that is said
to be undefined is looked up in the body of the function where nothing is known of its name: the program does
not declare it, it is not that of an operator, and neither a parameter nor a pattern around the place binds
it. And a function that looks such a name up never passes. -/
theorem name_errors_exact (options : Options) (program : Program) :
    (∀ report final, check options program .initial = .ok report final →
      ∀ error ∈ report.errors, ∃ i s', Raises options program .initial i error s') ∧
    (∀ i error s', Raises options program .initial i error s' →
      ∃ definition, program[i]? = some (.function definition) ∧ error.definition = definition.name ∧
        error.error.Warranted options program definition) ∧
    ∀ i definition name, program[i]? = some (.function definition) →
      definition.LooksUpUnknown program Expr.references name ∨
        definition.LooksUpUnknown program Expr.matched name →
      ¬ Passes options program .initial i := by
  refine ⟨fun _ _ h _ => Report.exists_raises_of_mem h, fun _ _ _ h => h.warranted, ?_⟩
  rintro i definition name hi (h | h)
  · exact not_passes_of_looksUpUnknown hi h fun _ => .inl
  · exact not_passes_of_looksUpUnknown hi h fun _ => .inr

/-- A branch that refers to a name of the branch before it, and a pattern for a constructor that the type does
not have. -/
theorem name_errors_exact_of_branches :
    let swap : FunctionDefinition := ⟨"Swap", ["p"], .case (.lower "p")
      [⟨.constructor "Pair" ["x", "y"], .lower "x"⟩, ⟨.var "q", .lower "x"⟩]⟩
    let unwrap : FunctionDefinition := ⟨"Unwrap", ["b"], .case (.lower "b")
      [⟨.constructor "Box" ["x"], .lower "x"⟩]⟩
    let program : Program :=
      [.type ⟨"Pairs", [⟨"Pair", ["first", "second"]⟩]⟩, .function swap, .function unwrap]
    (∃ s', Raises ⟨true, true⟩ program .initial 1 ⟨"Swap", .undefinedVariable "x"⟩ s') ∧
      swap.LooksUpUnknown program Expr.references "x" ∧
      (∃ s', Raises ⟨true, true⟩ program .initial 2 ⟨"Unwrap", .undefinedConstructor "Box"⟩ s') ∧
      unwrap.LooksUpUnknown program Expr.matched "Box" ∧
      ¬ Passes ⟨true, true⟩ program .initial 1 ∧ ¬ Passes ⟨true, true⟩ program .initial 2 := by
  intro swap unwrap program
  obtain ⟨_, hwarranted, hpasses⟩ := name_errors_exact ⟨true, true⟩ program
  have herrors : (match check ⟨true, true⟩ program .initial with
      | .ok report _ => (report.error? 1, report.error? 2)
      | _ => (none, none)) =
      (some ⟨"Swap", .undefinedVariable "x"⟩, some ⟨"Unwrap", .undefinedConstructor "Box"⟩) := by
    decide +kernel
  obtain ⟨report, final, h, _⟩ :=
    exists_check_eq_ok (s := .initial) Bindings.acyclic_empty true program
  rw [h] at herrors
  obtain ⟨hswap, hunwrap⟩ := Prod.mk.inj herrors
  obtain ⟨s₁, hswap⟩ := (Report.error?_eq_some_iff h).mp hswap
  obtain ⟨s₂, hunwrap⟩ := (Report.error?_eq_some_iff h).mp hunwrap
  obtain ⟨_, hfirst, _, hx⟩ := hwarranted 1 _ s₁ hswap
  obtain ⟨_, hsecond, _, hbox⟩ := hwarranted 2 _ s₂ hunwrap
  cases hfirst
  cases hsecond
  have hx := hx.reference "x" rfl
  have hbox := hbox.constructor "Box" rfl
  exact ⟨⟨s₁, hswap⟩, hx, ⟨s₂, hunwrap⟩, hbox, hpasses 1 swap "x" rfl (.inl hx),
    hpasses 2 unwrap "Box" rfl (.inr hbox)⟩

end Checker

end Monotype
