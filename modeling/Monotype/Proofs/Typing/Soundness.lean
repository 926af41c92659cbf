import Monotype.Proofs.Bindings.Zonk
import Monotype.Proofs.Typing.Checking
import Monotype.Proofs.Unify.MostGeneral

/-!
# `Monotype.Proofs.Typing.Soundness` — what is accepted has the type that is reported

Inference gives an expression a type that mentions variables, some of which are bound only much later.
So soundness is said of solutions: under every substitution that solves the bindings that are left, the
expression has the type that was inferred (`Lexical.infer_sound`). Bindings are never lost, so a
solution of what is left at the end of a run solves what was known at each moment of it, whether the
steps in between succeeded or failed. With the occurs check the bindings at the end are acyclic, and
zonking is such a solution.

## Contents
- **`Lexical.unify_sound`**, **`bindFields_eq_ok`**, **`matchPattern_eq_ok`**, **`matchPattern_sound`**,
  **`infer_sound`**, **`checkDefinition_sound`**.
- **`Checker.check_sound`**: every body that was accepted has the type that is reported for it.
-/

namespace Monotype

variable {strict : Bool} {Γ inner : Context} {t scrutinee result : Ty} {s s' : Store}
  {θ : Nat → Ty}

namespace Lexical

/-! ## Steps -/

theorem unify_sound {left right : Ty} (h : unify strict left right s = .ok () s')
    (hθ : s'.bindings.SolvedBy θ) : left.subst θ = right.subst θ :=
  (Unifier.derives_unify (unify_eq_ok h) (by simp)).subst_eq rfl hθ

theorem lookup_eq_ok {name : String} {missing : TypeError}
    (h : lookup Γ name missing s = .ok t s') : Γ name = some t ∧ s' = s := by
  unfold lookup at h
  cases hname : Γ name with
  | none => rw [hname] at h; exact absurd h (by simp)
  | some u =>
    rw [hname] at h
    cases h
    exact ⟨rfl, rfl⟩

/-- An operation has the result type that the type of its operator yields. -/
theorem result_sound (expected : Ty → Ty) {actual : Ty}
    (h : (do let result ← fresh; unify strict (expected result) actual; return result : Solver Ty) s
      = .ok t s') (hθ : s'.bindings.SolvedBy θ) : (expected t).subst θ = actual.subst θ := by
  simp only [Run.run_bind, Outcome.bind_eq_ok_iff] at h
  obtain ⟨result, s₁, _, _, s₂, hunify, hok⟩ := h
  cases hok
  exact unify_sound hunify hθ

theorem keeps_result (expected : Ty → Ty) (actual : Ty) :
    Run.Keeps (fun s s' => s.bindings.Extends s'.bindings)
      (do let result ← fresh; unify strict (expected result) actual; return result : Solver Ty) := by
  have hkept := kept_extends strict
  exact hkept.bind hkept.fresh fun result => hkept.bind (hkept.unify _ _) fun _ => hkept.pure result

/-! ## Patterns -/

/-- The fields of a pattern are the domains of the type of its constructor, one for each name. -/
theorem bindFields_eq_ok {constructor : String} {whole made : Ty} {params : List String}
    (h : bindFields constructor whole Γ t params s = .ok (inner, made) s') :
    s' = s ∧ ∃ fields : List Ty, t = .curried fields made ∧ fields.length = params.length ∧
      inner = Γ.bindAll (params.zip fields) := by
  induction params generalizing Γ t with
  | nil =>
    rw [bindFields] at h
    cases h
    exact ⟨rfl, [], rfl, rfl, rfl⟩
  | cons param others ih =>
    cases t with
    | var v => exact absurd h (by simp [bindFields, failWith])
    | base n => exact absurd h (by simp [bindFields, failWith])
    | arrow domain codomain =>
      obtain ⟨rfl, fields, rfl, hlength, rfl⟩ := ih h
      exact ⟨rfl, domain :: fields, rfl, congrArg Nat.succ hlength, rfl⟩

/-- How a pattern is accepted: it is a variable, or it names a constructor with all of its fields, and
what the constructor makes is unified with the scrutinee. -/
theorem matchPattern_eq_ok {pattern : Pattern}
    (h : matchPattern strict Γ pattern scrutinee s = .ok inner s') :
    (∃ name, pattern = .var name ∧ inner = Γ.bind name scrutinee) ∨
      ∃ name params type fields, pattern = .constructor name params ∧
        Γ name = some (.curried fields (.base type)) ∧ fields.length = params.length ∧
        inner = Γ.bindAll (params.zip fields) ∧
        unify strict (.base type) scrutinee s = .ok () s' := by
  cases pattern with
  | var name =>
    cases h
    exact .inl ⟨name, rfl, rfl⟩
  | constructor name params =>
    simp only [matchPattern, Run.run_bind, Outcome.bind_eq_ok_iff] at h
    obtain ⟨whole, s₁, hlookup, ⟨bound, made⟩, s₂, hfields, hrest⟩ := h
    obtain ⟨hname, rfl⟩ := lookup_eq_ok hlookup
    obtain ⟨rfl, fields, rfl, hlength, rfl⟩ := bindFields_eq_ok hfields
    cases made with
    | var v => exact absurd hrest (by simp [failWith])
    | arrow domain codomain => exact absurd hrest (by simp [failWith])
    | base type =>
      obtain ⟨_, s₃, hunify, hok⟩ := Outcome.bind_eq_ok_iff.mp hrest
      cases hok
      exact .inr ⟨name, params, type, fields, rfl, hname, hlength, rfl, hunify⟩

/-- A pattern that is accepted fits the scrutinee, and its branch sees what the rules say. -/
theorem matchPattern_sound {pattern : Pattern}
    (h : matchPattern strict Γ pattern scrutinee s = .ok inner s') (hθ : s'.bindings.SolvedBy θ) :
    PatternTyped (Γ.map (Ty.subst θ)) pattern (scrutinee.subst θ) (inner.map (Ty.subst θ)) := by
  rcases matchPattern_eq_ok h with
    ⟨name, rfl, rfl⟩ | ⟨name, params, type, fields, rfl, hname, hlength, rfl, hunify⟩
  · rw [Context.map_bind]
    exact .var
  · have hscrutinee : Ty.base type = scrutinee.subst θ := unify_sound hunify hθ
    have hconstructor := Context.map_apply_of_eq_some (f := Ty.subst θ) hname
    rw [Ty.subst_curried] at hconstructor
    rw [Context.map_bindAll_zip, ← hscrutinee]
    exact .constructor hconstructor (by rw [List.length_map, hlength])

/-! ## Expressions -/

mutual

/-- **Inference is sound.** An expression has the type that was inferred for it, under every solution
of the bindings that are left. -/
theorem infer_sound : ∀ (e : Expr) {Γ : Context} {t : Ty} {s s' : Store},
    infer strict Γ e s = .ok t s' → s'.bindings.SolvedBy θ →
    HasType (Γ.map (Ty.subst θ)) e (t.subst θ)
  | .int _, _, _, _, _, h, _ => by
    cases h
    exact .int
  | .str _, _, _, _, _, h, _ => by
    cases h
    exact .str
  | .lower name, _, _, _, _, h, _ => by
    unfold infer at h
    exact .lower (Context.map_apply_of_eq_some (lookup_eq_ok h).1)
  | .upper name, _, _, _, _, h, _ => by
    unfold infer at h
    exact .upper (Context.map_apply_of_eq_some (lookup_eq_ok h).1)
  | .binary op left right, Γ, t, s, s', h, hθ => by
    unfold infer at h
    obtain ⟨a, s₁, hleft, h⟩ := Outcome.bind_eq_ok_iff.mp h
    obtain ⟨b, s₂, hright, h⟩ := Outcome.bind_eq_ok_iff.mp h
    obtain ⟨operator, s₃, hop, hresult⟩ := Outcome.bind_eq_ok_iff.mp h
    obtain ⟨hname, rfl⟩ := lookup_eq_ok hop
    have heq := result_sound (fun result => .arrow a (.arrow b result)) hresult hθ
    -- what solves the bindings at the end solves those after each operand
    have hθ₂ := hθ.anti ((keeps_result _ _).of_ok hresult)
    have hθ₁ := hθ₂.anti (((kept_extends strict).infer right Γ).of_ok hright)
    refine .binary (infer_sound left hleft hθ₁) (infer_sound right hright hθ₂) ?_
    rw [Context.map_apply_of_eq_some hname, ← heq]
    rfl
  | .unary op operand, Γ, t, s, s', h, hθ => by
    unfold infer at h
    obtain ⟨a, s₁, hoperand, h⟩ := Outcome.bind_eq_ok_iff.mp h
    obtain ⟨operator, s₂, hop, hresult⟩ := Outcome.bind_eq_ok_iff.mp h
    obtain ⟨hname, rfl⟩ := lookup_eq_ok hop
    have heq := result_sound (fun result => .arrow a result) hresult hθ
    have hθ₁ := hθ.anti ((keeps_result _ _).of_ok hresult)
    refine .unary (infer_sound operand hoperand hθ₁) ?_
    rw [Context.map_apply_of_eq_some hname, ← heq]
    rfl
  | .apply function argument, Γ, t, s, s', h, hθ => by
    unfold infer at h
    obtain ⟨f, s₁, hfunction, h⟩ := Outcome.bind_eq_ok_iff.mp h
    obtain ⟨a, s₂, hargument, hresult⟩ := Outcome.bind_eq_ok_iff.mp h
    have heq := result_sound (fun result => .arrow a result) hresult hθ
    have hθ₂ := hθ.anti ((keeps_result _ _).of_ok hresult)
    have hθ₁ := hθ₂.anti (((kept_extends strict).infer argument Γ).of_ok hargument)
    have hf := infer_sound function hfunction hθ₁
    rw [← heq] at hf
    exact .apply hf (infer_sound argument hargument hθ₂)
  | .case scrutinee branches, Γ, t, s, s', h, hθ => by
    unfold infer at h
    obtain ⟨a, s₁, hscrutinee, h⟩ := Outcome.bind_eq_ok_iff.mp h
    obtain ⟨result, s₂, hfresh, h⟩ := Outcome.bind_eq_ok_iff.mp h
    obtain ⟨_, s₃, hbranches, h⟩ := Outcome.bind_eq_ok_iff.mp h
    cases h
    have hθ₂ := hθ.anti (((kept_extends strict).inferBranches branches Γ a t).of_ok hbranches)
    have hθ₁ := hθ₂.anti ((kept_extends strict).fresh.of_ok hfresh)
    exact .case (infer_sound scrutinee hscrutinee hθ₁) (inferBranches_sound branches hbranches hθ)

/-- Every branch fits the scrutinee, and has the type that the branches share. -/
theorem inferBranches_sound : ∀ (branches : List Branch) {Γ : Context} {scrutinee result : Ty}
    {s s' : Store}, inferBranches strict Γ scrutinee result branches s = .ok () s' →
    s'.bindings.SolvedBy θ →
    BranchesTyped (Γ.map (Ty.subst θ)) (scrutinee.subst θ) (result.subst θ) branches
  | [], _, _, _, _, _, _, _ => .nil
  | ⟨pattern, body⟩ :: others, Γ, scrutinee, result, s, s', h, hθ => by
    unfold inferBranches at h
    obtain ⟨inner, s₁, hpattern, h⟩ := Outcome.bind_eq_ok_iff.mp h
    obtain ⟨t, s₂, hbody, h⟩ := Outcome.bind_eq_ok_iff.mp h
    obtain ⟨_, s₃, hunify, hothers⟩ := Outcome.bind_eq_ok_iff.mp h
    -- what solves the bindings at the end solves those after each step of this branch
    have hθ₃ :=
      hθ.anti (((kept_extends strict).inferBranches others Γ scrutinee result).of_ok hothers)
    have hθ₂ := hθ₃.anti (((kept_extends strict).unify result t).of_ok hunify)
    have hθ₁ := hθ₂.anti (((kept_extends strict).infer body inner).of_ok hbody)
    have htyped := infer_sound body hbody hθ₂
    rw [← unify_sound hunify hθ₃] at htyped
    exact .cons (matchPattern_sound hpattern hθ₁) htyped (inferBranches_sound others hothers hθ)

end

/-- A body that is accepted has the declared result type, with the parameters in scope. -/
theorem checkBody_sound {definition : FunctionDefinition} {params : List Ty}
    (h : checkBody strict Γ definition result params s = .ok () s') (hθ : s'.bindings.SolvedBy θ) :
    HasType ((Γ.map (Ty.subst θ)).bindAll (definition.params.zip (params.map (Ty.subst θ))))
      definition.body (result.subst θ) := by
  unfold checkBody at h
  obtain ⟨body, s₁, hbody, hunify⟩ := Outcome.bind_eq_ok_iff.mp h
  have hθ₁ := hθ.anti (((kept_extends strict).unify body result).of_ok hunify)
  have htyped := infer_sound definition.body hbody hθ₁
  rw [Context.map_bindAll_zip, unify_sound hunify hθ] at htyped
  exact htyped

/-- A definition that is accepted has a body of the declared type, under every solution. -/
theorem checkDefinition_sound {declared : Declared} (hshaped : declared.Shaped)
    (h : checkDefinition strict Γ declared s = .ok () s') (hθ : s'.bindings.SolvedBy θ) :
    (declared.subst θ).BodyTyped (Γ.map (Ty.subst θ)) := by
  cases hshaped with
  | type _ => exact .type
  | @function definition result params hlength =>
    simp only [checkDefinition, if_pos hlength] at h
    exact .function (checkBody_sound h hθ)

end Lexical

/-! ## Programs -/

/-- An attempt that gives a value is a success with that value. -/
theorem Run.attempt_eq_ok_ok {ε ε' σ α : Type} {x : Run ε σ α} {a : α} {s s' : σ}
    (h : (x.attempt : Run ε' σ (Except ε α)) s = .ok (.ok a) s') : x s = .ok a s' := by
  unfold Run.attempt at h
  cases hx : x s with
  | ok b s₁ => rw [hx] at h; cases h; rfl
  | error e s₁ => rw [hx] at h; cases h
  | endless => rw [hx] at h; cases h

/-- An attempt gives an error as a value exactly if there was that error. -/
theorem Run.attempt_eq_ok_error_iff {ε ε' σ α : Type} {x : Run ε σ α} {e : ε} {s s' : σ} :
    (x.attempt : Run ε' σ (Except ε α)) s = .ok (.error e) s' ↔ x s = .error e s' := by
  unfold Run.attempt
  cases x s <;> simp

/-- What a function was declared with, by its place in the program. -/
theorem TypingState.declareAll_of_function {program : Program} {s : TypingState} {i : Nat}
    {definition : FunctionDefinition} (h : program[i]? = some (.function definition)) :
    ∃ result params, params.length = definition.params.length ∧
      (declareAll program s).1[i]? =
        some ⟨.function definition, some (.function result params)⟩ := by
  rw [← definitions_declareAll program s, List.getElem?_map, Option.map_eq_some_iff] at h
  obtain ⟨declared, hi, hdefinition⟩ := h
  have hshaped := shaped_of_mem_declareAll program s declared (List.mem_of_getElem? hi)
  cases hshaped with
  | type hmakes => cases hdefinition
  | @function definition' result params hlength =>
    cases hdefinition
    exact ⟨result, params, hlength, hi⟩

/-- **Checking is sound.** With the occurs check, and whether or not checking goes on past failures:
the body of every function that was accepted has the zonked result type that was declared for it, in
the zonked root scope with the parameters at their zonked types. -/
theorem Checker.check_sound {keepGoing : Bool} {program : Program} {report : Report}
    {final : TypingState} (h : check ⟨true, keepGoing⟩ program .initial = .ok report final)
    {i : Nat} {definition : FunctionDefinition} (hi : program[i]? = some (.function definition))
    (hverdict : report.verdicts[i]? = some (.ok ())) :
    ∃ result params,
      report.declared[i]? = some ⟨.function definition, some (.function result params)⟩ ∧
      params.length = definition.params.length ∧
      HasType
        ((Context.map (final.environment.lookup? Environment.root) final.bindings.zonk).bindAll
          (definition.params.zip (params.map final.bindings.zonk)))
        definition.body (final.bindings.zonk result) := by
  obtain ⟨hdeclared, hverdicts, hsees⟩ := check_eq_ok TypingState.sees_initial h
  obtain ⟨result, params, hlength, hfunction⟩ := TypingState.declareAll_of_function hi
  rw [← hdeclared] at hfunction
  refine ⟨result, params, hfunction, hlength, ?_⟩
  -- the bindings are acyclic at the end, as they were when all was declared
  have hinitial := (TypingState.declares_declareAll program .initial).bindings_eq
  have hacyclic : final.bindings.Acyclic := (Lexical.kept_acyclic.verdicts _ _).of_ok hverdicts
    (by rw [TypingState.store, hinitial]; exact Bindings.acyclic_empty)
  -- so zonking solves them, and with them all that was known when the body was accepted
  obtain ⟨declared, s₁, s₂, hplace, _, hafter, hcheck⟩ :=
    Lexical.exists_checkDefinition_of_verdict (Lexical.kept_extends true) hverdicts hverdict
  have hθ := Bindings.SolvedBy.anti hafter hacyclic.solvedBy_zonk
  have hzonk : final.bindings.zonk = Ty.subst fun v => final.bindings.zonk (.var v) :=
    funext (Bindings.zonk_eq_subst final.bindings)
  obtain rfl : declared = _ := Option.some.inj (hplace.symm.trans hfunction)
  have hbody :=
    Lexical.checkDefinition_sound (.function hlength) (Run.attempt_eq_ok_ok hcheck) hθ
  rw [hsees.2, hzonk]
  cases hbody with
  | function hbody => exact hbody

/-- A function that is accepted after another one failed, and before a third one that uses it fails. -/
theorem Checker.check_sound_between_failures :
    let next : FunctionDefinition := ⟨"Next", ["n"], .binary .plus (.lower "n") (.int 1)⟩
    let program : Program :=
      [.function ⟨"Broken", [], .binary .plus (.str "a") (.upper "Next")⟩, .function next,
        .function ⟨"Misused", [], .apply (.upper "Next") (.str "a")⟩]
    ∃ report final, check ⟨true, true⟩ program .initial = .ok report final ∧
      report.verdicts[1]? = some (.ok ()) ∧ ∃ result params,
      report.declared[1]? = some ⟨.function next, some (.function result params)⟩ ∧
      params.length = next.params.length ∧
      HasType
        ((Context.map (final.environment.lookup? Environment.root) final.bindings.zonk).bindAll
          (next.params.zip (params.map final.bindings.zonk)))
        next.body (final.bindings.zonk result) := by
  intro next program
  have hrun : (match check ⟨true, true⟩ program .initial with
      | .ok report _ => report.verdicts[1]?
      | _ => none) = some (.ok ()) := by decide +kernel
  have hnext : program[1]? = some (.function next) := rfl
  cases hcheck : check ⟨true, true⟩ program .initial with
  | ok report final =>
    rw [hcheck] at hrun
    exact ⟨report, final, rfl, hrun, check_sound hcheck hnext hrun⟩
  | error e _ => exact e.elim
  | endless => rw [hcheck] at hrun; exact absurd hrun (by simp)

end Monotype
