import Monotype.Proofs.Typing.Completeness
import Monotype.Proofs.Typing.Renaming
import Monotype.Proofs.Typing.Soundness
import Monotype.Proofs.Typing.Termination

/-!
# `Monotype.Proofs.Typing.Principal` — what is accepted, and with which signatures

With the occurs check, a program is accepted exactly if all of its patterns fit and it has a typing by
the rules. Neither of these speaks of a run: not of variables, not of bindings, and not of the order in
which anything is done. If a program is accepted, the signatures that are reported are those of a typing,
and every typing is an instance of it. So two programs with the same typings are accepted alike, and have
the same signatures up to the names of variables.

That a program with a typing is accepted was shown by following the typing through a run. The other way
there are patterns to be looked at once more: what is accepted has patterns that fit, since a pattern is
matched against the type that a name was bound with.

## Contents
- **`Lexical.infer_fits`**, **`checkDefinition_fits`**: the patterns of what is accepted fit.
- **`Lexical.verdicts_sound`**: all definitions of an accepted program, under any solution.
- **`Checker.typedBy_of_accepted`**, **`Checker.check_complete_of_fits`**: the two directions.
- **`Checker.accepted_iff`**: what is accepted.
-/

namespace Monotype

variable {strict : Bool} {Γ inner : Context} {t scrutinee result : Ty} {s s' : Store}
  {θ : Nat → Ty}

/-! ## The patterns of what is accepted -/

namespace Lexical

theorem scope?_of_matchPattern {pattern : Pattern}
    (h : matchPattern strict Γ pattern scrutinee s = .ok inner s') :
    pattern.scope? Γ scrutinee = some inner := by
  rcases matchPattern_eq_ok h with
    ⟨name, rfl, rfl⟩ | ⟨name, params, type, fields, rfl, hname, hlength, rfl, _⟩
  · rfl
  · have hfields : (Ty.curried fields (.base type)).fields? params.length = some fields :=
      Ty.fields?_eq_some_iff.mpr ⟨hlength, type, rfl⟩
    simp only [Pattern.scope?, hname, Option.bind_some, hfields, Option.map_some]

/-- An operation returns a bare variable. -/
theorem result_shape (expected : Ty → Ty) {actual : Ty}
    (h : (do let result ← fresh; unify strict (expected result) actual; return result : Solver Ty) s
      = .ok t s') : t.shape = .var 0 := by
  simp only [Run.run_bind, Outcome.bind_eq_ok_iff] at h
  obtain ⟨result, s₁, hfresh, _, s₂, _, hok⟩ := h
  cases hfresh
  cases hok
  rfl

mutual

/-- **The patterns of an expression that is accepted fit**, and its type has the shape that can be told
from the expression. -/
theorem infer_fits : ∀ (e : Expr) {Γ : Context} {t : Ty} {s s' : Store},
    infer strict Γ e s = .ok t s' → e.fits Γ.shape = true ∧ t.shape = e.shape Γ.shape
  | .int _, _, _, _, _, h => by
    cases h
    exact ⟨rfl, rfl⟩
  | .str _, _, _, _, _, h => by
    cases h
    exact ⟨rfl, rfl⟩
  | .lower name, _, _, _, _, h => by
    unfold infer at h
    exact ⟨rfl, (Expr.shape_name (lookup_eq_ok h).1).1.symm⟩
  | .upper name, _, _, _, _, h => by
    unfold infer at h
    exact ⟨rfl, (Expr.shape_name (lookup_eq_ok h).1).2.symm⟩
  | .binary op left right, Γ, t, s, s', h => by
    unfold infer at h
    obtain ⟨a, s₁, hleft, h⟩ := Outcome.bind_eq_ok_iff.mp h
    obtain ⟨b, s₂, hright, h⟩ := Outcome.bind_eq_ok_iff.mp h
    obtain ⟨operator, s₃, _, hresult⟩ := Outcome.bind_eq_ok_iff.mp h
    rw [Expr.fits, Bool.and_eq_true]
    refine ⟨⟨(infer_fits left hleft).1, (infer_fits right hright).1⟩, ?_⟩
    exact result_shape (fun result => .arrow a (.arrow b result)) hresult
  | .unary op operand, Γ, t, s, s', h => by
    unfold infer at h
    obtain ⟨a, s₁, hoperand, h⟩ := Outcome.bind_eq_ok_iff.mp h
    obtain ⟨operator, s₂, _, hresult⟩ := Outcome.bind_eq_ok_iff.mp h
    exact ⟨(infer_fits operand hoperand).1, result_shape (fun result => .arrow a result) hresult⟩
  | .apply function argument, Γ, t, s, s', h => by
    unfold infer at h
    obtain ⟨f, s₁, hfunction, h⟩ := Outcome.bind_eq_ok_iff.mp h
    obtain ⟨a, s₂, hargument, hresult⟩ := Outcome.bind_eq_ok_iff.mp h
    rw [Expr.fits, Bool.and_eq_true]
    refine ⟨⟨(infer_fits function hfunction).1, (infer_fits argument hargument).1⟩, ?_⟩
    exact result_shape (fun result => .arrow a result) hresult
  | .case scrutinee branches, Γ, t, s, s', h => by
    unfold infer at h
    obtain ⟨a, s₁, hscrutinee, h⟩ := Outcome.bind_eq_ok_iff.mp h
    obtain ⟨result, s₂, hfresh, h⟩ := Outcome.bind_eq_ok_iff.mp h
    obtain ⟨_, s₃, hbranches, h⟩ := Outcome.bind_eq_ok_iff.mp h
    cases h
    cases hfresh
    -- the patterns are matched against the shape that was inferred, and it is the predicted one
    obtain ⟨hfits, hshape⟩ := infer_fits scrutinee hscrutinee
    rw [Expr.fits, Bool.and_eq_true, ← hshape]
    exact ⟨⟨hfits, inferBranches_fit branches hbranches⟩, rfl⟩

theorem inferBranches_fit : ∀ (branches : List Branch) {Γ : Context} {scrutinee result : Ty}
    {s s' : Store}, inferBranches strict Γ scrutinee result branches s = .ok () s' →
    Branch.fit Γ.shape scrutinee.shape branches = true
  | [], _, _, _, _, _, _ => rfl
  | ⟨pattern, body⟩ :: others, Γ, scrutinee, result, s, s', h => by
    unfold inferBranches at h
    obtain ⟨inner, s₁, hpattern, h⟩ := Outcome.bind_eq_ok_iff.mp h
    obtain ⟨t, s₂, hbody, h⟩ := Outcome.bind_eq_ok_iff.mp h
    obtain ⟨_, s₃, _, hothers⟩ := Outcome.bind_eq_ok_iff.mp h
    -- the scope of the branch has the shape that the pattern gives it
    rw [Branch.fit, Bool.and_eq_true, Pattern.scope?_shape, scope?_of_matchPattern hpattern]
    exact ⟨(infer_fits body hbody).1, inferBranches_fit others hothers⟩

end

theorem checkDefinition_fits {declared : Declared} (hshaped : declared.Shaped)
    (h : checkDefinition strict Γ declared s = .ok () s') :
    declared.shape.fits Γ.shape = true := by
  cases hshaped with
  | type _ => rfl
  | @function definition result params hlength =>
    simp only [checkDefinition, if_pos hlength] at h
    unfold checkBody at h
    obtain ⟨body, s₁, hbody, _⟩ := Outcome.bind_eq_ok_iff.mp h
    have hfits := (infer_fits definition.body hbody).1
    rw [Context.shape_bindAll_zip] at hfits
    exact hfits

end Lexical

/-! ## Accepted reports -/

theorem Report.accepted_cons {declared : Declared} {definitions : List Declared} {verdict : Verdict}
    {verdicts : List Verdict} :
    Report.accepted ⟨declared :: definitions, verdict :: verdicts⟩ = true ↔
      verdict = .ok () ∧ Report.accepted ⟨definitions, verdicts⟩ = true := by
  cases verdict with
  | ok _ => exact ⟨fun h => ⟨rfl, h⟩, fun h => h.2⟩
  | error e =>
    refine ⟨fun h => absurd h (by simp [accepted, errors, Declared.error?]), fun h => ?_⟩
    exact absurd h.1 (by simp)

namespace Lexical

variable {options : Options} {verdicts' : List Verdict}

/-- Where all is accepted, the first definition is, and then all the others. -/
theorem verdicts_cons_of_accepted {declared : Declared} {definitions : List Declared}
    (h : verdicts options Γ (declared :: definitions) s = .ok verdicts' s')
    (haccepted : Report.accepted ⟨declared :: definitions, verdicts'⟩ = true) :
    ∃ s₁ others, checkDefinition options.occursCheck Γ declared s = .ok () s₁ ∧
      verdicts options Γ definitions s₁ = .ok others s' ∧
      Report.accepted ⟨definitions, others⟩ = true := by
  rw [verdicts_cons] at h
  obtain ⟨verdict, s₁, hverdict, h⟩ := Outcome.bind_eq_ok_iff.mp h
  obtain ⟨others, rfl, _⟩ := Verdict.andOthers_eq_ok h
  obtain ⟨rfl, hothers⟩ := Report.accepted_cons.mp haccepted
  -- after a success checking goes on
  obtain ⟨_, s₂, hrest, hok⟩ := Outcome.bind_eq_ok_iff.mp h
  cases hok
  exact ⟨s₁, others, Run.attempt_eq_ok_ok hverdict, hrest, hothers⟩

/-- **All definitions of an accepted program are typed**, under every solution of the bindings that are
left, and their patterns fit. -/
theorem verdicts_sound {definitions : List Declared}
    (hshaped : ∀ declared ∈ definitions, declared.Shaped)
    (h : verdicts options Γ definitions s = .ok verdicts' s')
    (haccepted : Report.accepted ⟨definitions, verdicts'⟩ = true) (hθ : s'.bindings.SolvedBy θ) :
    ∀ declared ∈ definitions, declared.shape.fits Γ.shape = true ∧
      (declared.subst θ).BodyTyped (Γ.map (Ty.subst θ)) := by
  induction definitions generalizing s verdicts' with
  | nil => exact fun _ hmem => absurd hmem (by simp)
  | cons declared definitions ih =>
    rw [List.forall_mem_cons] at hshaped ⊢
    obtain ⟨s₁, others, hfirst, hothers, haccepted⟩ := verdicts_cons_of_accepted h haccepted
    have hθ₁ := hθ.anti (((kept_extends _).verdicts Γ definitions).of_ok hothers)
    refine ⟨⟨?_, checkDefinition_sound hshaped.1 hfirst hθ₁⟩, ih hshaped.2 hothers haccepted⟩
    exact checkDefinition_fits hshaped.1 hfirst

end Lexical

/-! ## Programs -/

/-- The shape of the root scope of what is declared can be told from the program. -/
theorem Context.shape_operators_declare (program : Program) (s : TypingState) :
    (Context.operators.declare (TypingState.declareAll program s).1).shape =
      Context.operators.declare (program.map Definition.blank) := by
  rw [Context.shape, ← TypingState.shape_declareAll program s]
  show Context.map _ (Ty.subst fun _ => .var 0) = _
  rw [Context.map_declare, Context.map_operators]
  rfl

namespace Checker

variable {keepGoing : Bool} {program : Program} {report : Report} {final : TypingState}

/-- **What is accepted is typable.** All patterns of an accepted program fit, and the signatures that
are reported for it are those of a typing. -/
theorem typedBy_of_accepted (h : check ⟨true, keepGoing⟩ program .initial = .ok report final)
    (haccepted : report.accepted = true) :
    program.fits = true ∧ ∃ assigned, program.TypedBy assigned ∧
      final.signatures report.declared = assigned.flatMap Declared.signatures := by
  obtain ⟨hdeclared, hverdicts, _⟩ := check_eq_ok TypingState.sees_initial h
  have hshaped := TypingState.shaped_of_mem_declareAll program .initial
  have hshape := Context.shape_operators_declare program .initial
  have hblank := TypingState.shape_declareAll program .initial
  have hdefinitions := TypingState.definitions_declareAll program .initial
  rw [← hdeclared] at hshaped hshape hblank hdefinitions
  -- zonking solves the bindings at the end, so it makes a typing of what was declared
  obtain ⟨_, _, hcheck, hacyclic⟩ :=
    exists_check_eq_ok (s := .initial) Bindings.acyclic_empty keepGoing program
  obtain ⟨rfl, rfl⟩ := Outcome.ok.inj (h.symm.trans hcheck)
  let θ : Nat → Ty := fun v => final.bindings.zonk (.var v)
  have hzonk : final.bindings.zonk = Ty.subst θ := funext (Bindings.zonk_eq_subst final.bindings)
  have hsound := Lexical.verdicts_sound hshaped hverdicts haccepted hacyclic.solvedBy_zonk
  rw [hshape, Context.map_declare, Context.map_operators] at hsound
  constructor
  · rw [Program.fits, ← hblank, List.all_map, List.all_eq_true]
    rw [← hblank] at hsound
    exact fun declared hmem => (hsound declared hmem).1
  · refine ⟨report.declared.map (Declared.subst θ), ⟨?_, ?_, ?_⟩, ?_⟩
    · rw [List.map_map]
      exact hdefinitions
    · exact List.forall_mem_map.mpr fun declared hmem => (hshaped declared hmem).subst θ
    · exact List.forall_mem_map.mpr fun declared hmem => (hsound declared hmem).2
    · rw [TypingState.signatures, hzonk, Declared.flatMap_signatures_subst]

/-- The stage at which all is declared, where the declarations stand for those of a typing. -/
theorem exists_stage_of_typedBy {assigned : List Declared} (htyped : program.TypedBy assigned) :
    ∃ p : Stage, p.store = (TypingState.declareAll program .initial).2.store ∧
      (TypingState.declareAll program .initial).1.map (Declared.subst p.solution) = assigned ∧
      ∀ declared ∈ (TypingState.declareAll program .initial).1,
        declared.Shaped ∧ declared.Below p.store.allocated ∧
          (declared.subst p.solution).BodyTyped (Context.operators.declare assigned) := by
  obtain ⟨rfl, hshaped, hbodies⟩ := htyped
  obtain ⟨p, hstore, hassigned⟩ := Stage.exists_of_shaped hshaped
  refine ⟨p, hstore, hassigned, fun declared hmem => ⟨?_, ?_, ?_⟩⟩
  · exact TypingState.shaped_of_mem_declareAll _ _ declared hmem
  · rw [hstore]
    exact TypingState.below_of_mem_declareAll _ _ declared hmem
  · exact hbodies _ (hassigned ▸ List.mem_map_of_mem hmem)

/-- **What is typable is accepted**, if its patterns fit, and every typing is an instance of the
signatures that are reported. This holds with the occurs check and without it. -/
theorem check_complete_of_fits (options : Options) {assigned : List Declared}
    (hfits : program.fits = true) (htyped : program.TypedBy assigned) :
    ∃ report final, check options program .initial = .ok report final ∧ report.accepted = true ∧
      ∃ θ, (final.signatures report.declared).map (Signature.subst θ) =
        assigned.flatMap Declared.signatures := by
  obtain ⟨p, hstore, rfl, hdefinitions⟩ := exists_stage_of_typedBy htyped
  have hΓ := p.means_operators_declare fun declared hmem => (hdefinitions declared hmem).2.1
  have hshape := Context.shape_operators_declare program .initial
  rw [Program.fits, ← hshape, ← TypingState.shape_declareAll program .initial, List.all_map,
    List.all_eq_true] at hfits
  have hstage : ∀ declared ∈ (TypingState.declareAll program .initial).1, _ ∧ _ ∧ _ ∧ _ :=
    fun declared hmem => ⟨(hdefinitions declared hmem).1, (hdefinitions declared hmem).2.1,
      hfits declared hmem, (hdefinitions declared hmem).2.2⟩
  obtain ⟨vs, q, hrun, hpq, hvs⟩ := Lexical.verdicts_complete_of_fits options hΓ hstage
  have hagrees := check_agrees options program TypingState.sees_initial
  rw [← hstore, hrun] at hagrees
  obtain ⟨report, final, hcheck, hfinal, rfl⟩ := hagrees.exists_eq_ok
  refine ⟨_, final, hcheck, Report.accepted_of_forall_ok hvs, q.solution, ?_⟩
  -- the solution at the end is still the one of the start on everything that was declared
  have hsolved : final.store.bindings.SolvedBy q.solution := hfinal ▸ q.solves
  refine (TypingState.signatures_subst hsolved _).trans (congrArg _ ?_)
  exact List.map_congr_left fun declared hmem => (hdefinitions declared hmem).2.1.subst_eq hpq.agree

/-- **A program is accepted exactly if its patterns fit and it has a typing**, with the occurs check. -/
theorem accepted_iff (h : check ⟨true, keepGoing⟩ program .initial = .ok report final) :
    report.accepted = true ↔ program.fits = true ∧ ∃ assigned, program.TypedBy assigned := by
  constructor
  · intro haccepted
    obtain ⟨hfits, assigned, htyped, _⟩ := typedBy_of_accepted h haccepted
    exact ⟨hfits, assigned, htyped⟩
  · rintro ⟨hfits, assigned, htyped⟩
    obtain ⟨_, _, hcheck, haccepted, _⟩ := check_complete_of_fits ⟨true, keepGoing⟩ hfits htyped
    obtain ⟨rfl, rfl⟩ := Outcome.ok.inj (h.symm.trans hcheck)
    exact haccepted

end Checker

end Monotype
