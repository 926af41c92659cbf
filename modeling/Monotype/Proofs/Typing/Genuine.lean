import Monotype.Proofs.Bindings.Expansion
import Monotype.Proofs.Typing.Reasons

/-!
# `Monotype.Proofs.Typing.Genuine` — errors show what is wrong, and all that is known of it

A pair of types that does not fit is found deep inside a unification, after its other parts have bound
variables, and is resolved only as far as it takes to see that it does not fit. What is reported is the
pair zonked, and nothing is bound in between. So with the occurs check, where zonking replaces every bound
variable, an error shows types of which nothing more is known; and zonking takes no part of what is wrong
away. Two types that clash still do, and the variable that would have to hold itself still occurs in what it
would be bound to.

## Contents
- **`TypeError.types`**, **`TypeError.Genuine`**: what an error shows, and what that says.
- **`Unifier.Misfit.genuine`**, **`Lexical.ReasonWithin.genuine`**: every reason is genuine.
- **`Checker.Reachable`**: checkers that have checked some programs.
- **`Checker.errors_genuine`**.
-/

namespace Monotype

/-! ## What errors show -/

/-- The types that an error shows. -/
def TypeError.types : TypeError → List Ty
  | binding (.mismatch left right) => [left, right]
  | binding (.infinite _ ty) => [ty]
  | binding (.notNominal _ ty) => [ty]
  | binding (.tooManyFields _ ty) => [ty]
  | binding (.unboundOperator _) => []
  | undefinedVariable _ | undefinedConstructor _ | notDeclared _ => []

/-- An error shows no variable that is bound. Types that it says do not fit clash: they are different base
types, or a base type and an arrow. A variable that it says is infinite is unbound, and occurs in an arrow. -/
structure TypeError.Genuine (b : Bindings) (error : TypeError) : Prop where
  resolved : ∀ t ∈ error.types, ∀ v ∈ t.vars, b.find? v = none
  mismatch : ∀ left right, error = .binding (.mismatch left right) → Unifier.Clash left right
  infinite : ∀ v t, error = .binding (.infinite v t) →
    b.find? v = none ∧ t.isArrow = true ∧ v ∈ t.vars

variable {strict : Bool} {b : Bindings} {Γ : Context} {e : Expr} {error : TypeError} {t left right : Ty}
  {v : Nat}

/-- Zonked types clash as the types themselves do. -/
theorem Unifier.Clash.zonk (h : Clash left right) (b : Bindings) :
    Clash (b.zonk left) (b.zonk right) := by
  cases h with
  | bases hne => rw [Bindings.zonk_base, Bindings.zonk_base]; exact .bases hne
  | baseArrow => rw [Bindings.zonk_base, Bindings.zonk_arrow]; exact .baseArrow
  | arrowBase => rw [Bindings.zonk_base, Bindings.zonk_arrow]; exact .arrowBase

/-- An unbound variable that the occurs test finds in a type is left in the zonked type. -/
theorem Bindings.Acyclic.mem_vars_zonk_of_occurs? (hb : b.Acyclic) (hv : b.find? v = none)
    (h : b.occurs? v t = some true) : v ∈ (b.zonk t).vars :=
  (hb.mem_vars_zonk_iff t).mpr ⟨hv, (Bindings.reaches_iff_of_occursWithin hv h).mpr rfl⟩

/-- No bound variable is left in a zonked type. -/
theorem Bindings.Acyclic.find?_of_mem_vars_zonk (hb : b.Acyclic) (t : Ty) :
    ∀ v ∈ (b.zonk t).vars, b.find? v = none :=
  (hb.expands_zonk t).find?_eq_none

/-! ## Reasons are genuine -/

/-- **Types that unification rejects are in conflict as they are shown.** -/
theorem Unifier.Misfit.genuine (hb : b.Acyclic) (h : Misfit strict b error) : error.Genuine b := by
  cases h with
  | @mismatch left right hclash =>
    refine ⟨fun t ht => ?_, ?_, fun _ _ => nofun⟩
    · rcases List.mem_pair.mp ht with rfl | rfl
      · exact hb.find?_of_mem_vars_zonk left
      · exact hb.find?_of_mem_vars_zonk right
    · rintro _ _ ⟨⟩
      exact hclash.zonk b
  | @infinite v t _ hv ht hocc =>
    have hmem := hb.mem_vars_zonk_of_occurs? hv hocc
    refine ⟨List.forall_mem_singleton.mpr (hb.find?_of_mem_vars_zonk t), fun _ _ => nofun, ?_⟩
    rintro _ _ ⟨⟩
    refine ⟨hv, ?_, hmem⟩
    -- a base type has no variables at all
    cases t with
    | var w => exact absurd ht (by simp [Ty.isVar])
    | base name => exact absurd hmem (by simp [Bindings.zonk_base, Ty.vars])
    | arrow a c => rw [Bindings.zonk_arrow]; rfl

theorem Lexical.Reason.genuine (hb : b.Acyclic) (h : Reason strict Γ b e error) :
    error.Genuine b := by
  cases h with
  | reference _ _ | operator _ _ | constructor _ _ =>
    -- no types are shown
    exact ⟨nofun, fun _ _ => nofun, fun _ _ => nofun⟩
  | tooManyFields _ _ | notNominal _ _ =>
    exact ⟨List.forall_mem_singleton.mpr (hb.find?_of_mem_vars_zonk _), fun _ _ => nofun,
      fun _ _ => nofun⟩
  | misfit h => exact h.genuine hb

theorem Lexical.ReasonWithin.genuine (hb : b.Acyclic) (h : ReasonWithin strict Γ b e error) :
    error.Genuine b := by
  obtain ⟨_, _, _, _, _, _, hreason⟩ := h
  exact hreason.genuine hb

/-! ## Checkers that have checked programs -/

namespace Checker

variable {s s' : TypingState} {i : Nat}

/-- A new checker becomes this one by checking programs, each of them with or without stopping at errors. -/
inductive Reachable (strict : Bool) : TypingState → Prop
  | new : Reachable strict .initial
  | check {keepGoing : Bool} {program : Program} {report : Report} {s s' : TypingState}
      (hs : Reachable strict s) (h : check ⟨strict, keepGoing⟩ program s = .ok report s') :
      Reachable strict s'

/-- The root sees some context, whatever was called before. -/
theorem Reachable.exists_sees (h : Reachable strict s) :
    ∃ Γ, s.environment.Sees Environment.root Γ := by
  induction h with
  | new => exact ⟨_, TypingState.sees_initial⟩
  | check _ h ih =>
    obtain ⟨Γ, hΓ⟩ := ih
    exact ⟨_, (check_eq_ok hΓ h).2.2⟩

theorem Reachable.acyclic (h : Reachable true s) : s.bindings.Acyclic := by
  induction h with
  | new => exact Bindings.acyclic_empty
  | check _ h ih => exact check_keeps Unifier.kept_acyclic h ih

/-- **Errors are genuine, and show all that is known.** Let a checker with the occurs check have checked some
programs, and check one more. It comes to a report, and every error in it was raised at some moment of the
run. At that moment every error that is raised shows types without bound variables; types that are said not
to fit clash; and a variable that is said to be infinite is unbound and occurs in the arrow that is shown. -/
theorem errors_genuine (hs : Reachable true s) (keepGoing : Bool) (program : Program) :
    ∃ report final, check ⟨true, keepGoing⟩ program s = .ok report final ∧
      (∀ error ∈ report.errors, ∃ i s', Raises ⟨true, keepGoing⟩ program s i error s') ∧
      ∀ i error s', Raises ⟨true, keepGoing⟩ program s i error s' →
        error.error.Genuine s'.bindings := by
  obtain ⟨report, final, hcheck, _⟩ := exists_check_eq_ok hs.acyclic keepGoing program
  refine ⟨report, final, hcheck, fun error => Report.exists_raises_of_mem hcheck, ?_⟩
  intro i error s' hraises
  obtain ⟨Γ, hΓ⟩ := hs.exists_sees
  obtain ⟨_, _, _, _, _, hreason⟩ := hraises.exists_reason hΓ
  exact hreason.genuine (hraises.keeps Unifier.kept_acyclic hs.acyclic)

/-- A function that is applied to itself, an argument for a number, and a pattern for a constructor that has
fewer fields. -/
theorem errors_genuine_of_each_kind :
    let program : Program := [
      .type ⟨"Box", [⟨"Wrap", ["content"]⟩]⟩,
      .function ⟨"Self", ["f"], .apply (.lower "f") (.lower "f")⟩,
      .function ⟨"Number", ["x"], .apply (.binary .plus (.lower "x") (.int 1)) (.lower "x")⟩,
      .function ⟨"Unwrap", ["b"], .case (.lower "b") [⟨.constructor "Wrap" ["x", "y"], .lower "x"⟩]⟩]
    let infinite : DefinitionError := ⟨"Self", .binding (.infinite 2 (.arrow (.var 2) (.var 7)))⟩
    let mismatch : DefinitionError := ⟨"Number", .binding (.mismatch (.arrow .int (.var 9)) .int)⟩
    let fields : DefinitionError :=
      ⟨"Unwrap", .binding (.tooManyFields "Wrap" (.arrow (.var 0) (.base "Box")))⟩
    ∃ report final, check ⟨true, true⟩ program .initial = .ok report final ∧
      report.errors = [infinite, mismatch, fields] ∧
      ∀ error ∈ report.errors, ∃ i s', Raises ⟨true, true⟩ program .initial i error s' ∧
        error.error.Genuine s'.bindings := by
  intro program infinite mismatch fields
  have herrors : (match check ⟨true, true⟩ program .initial with
      | .ok report _ => report.errors
      | _ => []) = [infinite, mismatch, fields] := by decide +kernel
  obtain ⟨report, final, h, hraised, hgenuine⟩ := errors_genuine .new true program
  rw [h] at herrors
  refine ⟨report, final, h, herrors, fun error herror => ?_⟩
  obtain ⟨i, s', hraises⟩ := hraised error herror
  exact ⟨i, s', hraises, hgenuine i error s' hraises⟩

end Checker

end Monotype
