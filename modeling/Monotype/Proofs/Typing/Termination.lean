import Monotype.Proofs.Typing.Reachable
import Monotype.Proofs.Unify.Termination

/-!
# `Monotype.Proofs.Typing.Termination` — with the occurs check, checking ends

Inference recurs on expressions, and checking on lists of definitions. The only steps that might not
end are the unifications. From acyclic bindings they do end, and leave acyclic bindings to the next
step; so a run never reaches bindings from which a unification goes on for ever. That holds of failures
too, which matters where checking goes on after them.

## Contents
- **`Run.Total`**: computations that end wherever an invariant holds, and leave it intact.
- **`Infer.congruence_total`**, **`Checker.congruence_total`**: inference and checking are such.
- **`Checker.exists_check_eq_ok`**, **`Checker.check_terminates`**.
-/

namespace Monotype

/-! ## Computations that end under an invariant -/

namespace Run

variable {ε ε' σ α β : Type} {I : σ → Prop}

/-- Wherever the invariant holds, the computation ends, with a value or an error, and leaves a state
in which it holds again. -/
def Total (I : σ → Prop) (x : Run ε σ α) : Prop :=
  ∀ s, I s → ∃ s', (x s).state? = some s' ∧ I s'

theorem Total.pure (a : α) : Total I (Pure.pure a : Run ε σ α) := fun s hs => ⟨s, rfl, hs⟩

theorem Total.fail (e : ε) : Total I (Run.fail e : Run ε σ α) := fun s hs => ⟨s, rfl, hs⟩

/-- A sequence ends if both parts do, each from states in which the invariant holds. -/
theorem Total.bind {x : Run ε σ α} {next : α → Run ε σ β} (hx : Total I x)
    (hnext : ∀ a, Total I (next a)) : Total I (x >>= next) := by
  intro s hs
  obtain ⟨s₁, hs₁, hI⟩ := hx s hs
  rw [run_bind]
  cases ho : x s with
  | ok a s₂ =>
    rw [ho] at hs₁
    cases hs₁
    exact hnext a s₁ hI
  | error e s₂ => rw [ho] at hs₁; exact ⟨s₁, hs₁, hI⟩
  | endless => rw [ho] at hs₁; exact absurd hs₁ (by simp [Outcome.state?])

theorem Total.attempt {x : Run ε σ α} (hx : Total I x) :
    Total I (x.attempt : Run ε' σ (Except ε α)) := by
  intro s hs
  obtain ⟨s', hs', hI⟩ := hx s hs
  exact ⟨s', state?_attempt.trans hs', hI⟩

end Run

/-! ## Inference and checking -/

variable {s : TypingState}

namespace Infer

/-- A unification from acyclic bindings ends, and leaves acyclic bindings. -/
theorem total_unify (left right : Ty) :
    Run.Total (fun s : TypingState => s.bindings.Acyclic) (unify true left right) := by
  intro s hs
  obtain ⟨b', hb'⟩ := Option.isSome_iff_exists.mp (Unifier.unify_ends_of_acyclic hs left right)
  have hder := Unifier.derives_unify rfl (Outcome.ends_of_state? hb')
  refine ⟨{ s with bindings := b' }, ?_, hder.acyclic hb' hs⟩
  rw [unify, Outcome.state?_mapState, Outcome.state?_mapError, hb']
  rfl

/-- **All steps of inference with the occurs check end** from acyclic bindings. -/
theorem congruence_total : Congruence true true fun _ x _ =>
    Run.Total (fun s : TypingState => s.bindings.Acyclic) x where
  pure := .pure
  bind := .bind
  fail e _ := .fail e
  state s hs := ⟨s, rfl, hs⟩
  scopes _ _ hs := ⟨_, rfl, hs⟩
  fresh _ hs := ⟨_, rfl, hs⟩
  unify := total_unify

end Infer

namespace Checker

theorem congruence_total {I : TypingState → Prop} :
    Congruence (fun _ x _ => Run.Total I x) fun _ x _ => Run.Total I x where
  pure := .pure
  bind := .bind
  attempt := .attempt

/-- **A run with the occurs check from acyclic bindings ends**, and leaves acyclic bindings. -/
theorem exists_check_eq_ok (hs : s.bindings.Acyclic) (keepGoing : Bool) (program : Program) :
    ∃ report final, check ⟨true, keepGoing⟩ program s = .ok report final ∧
      final.bindings.Acyclic := by
  have hdeclared : (TypingState.declareAll program s).2.bindings.Acyclic := by
    rwa [(TypingState.declares_declareAll program s).bindings_eq]
  obtain ⟨final, hfinal, hacyclic⟩ := congruence_total.verdicts Infer.congruence_total keepGoing
    (TypingState.declareAll program s).1 (TypingState.declareAll program s).2 hdeclared
  obtain ⟨vs, hvs⟩ := exists_eq_ok_of_state? hfinal
  refine ⟨⟨(TypingState.declareAll program s).1, vs⟩, final, ?_, hacyclic⟩
  rw [check_eq, hvs]
  rfl

/-- **With the occurs check, everything ends.** From acyclic bindings, types resolve, the occurs test
has an answer, and unification ends, with success, a mismatch or an infinite type; and so checking any
program comes to a report. -/
theorem check_terminates (hs : s.bindings.Acyclic) :
    (∀ t, ∃ t', s.bindings.resolve? t = some t') ∧
      (∀ v t, ∃ found, s.bindings.occurs? v t = some found) ∧
      (∀ left right, (Unifier.unify true left right s.bindings).Ends) ∧
      ∀ keepGoing program, ∃ report final,
        check ⟨true, keepGoing⟩ program s = .ok report final := by
  refine ⟨?_, ?_, Unifier.unify_ends_of_acyclic hs, ?_⟩
  · exact Bindings.exists_resolve? hs.chainsEnd
  · exact Bindings.exists_occurs? hs.chainsEnd hs.solvedBy_zonk
  · intro keepGoing program
    obtain ⟨report, final, hcheck, _⟩ := exists_check_eq_ok hs keepGoing program
    exact ⟨report, final, hcheck⟩

/-- A variable that is bound to functions of another one. Unifying the two ends with an error, and so
does the check of a function that is applied to itself; checking goes on after it. -/
theorem check_terminates_on_self_application :
    let s : TypingState := ⟨2, Bindings.empty.bind 0 (.arrow (.var 1) .int), .builtins⟩
    let program : Program := [.function ⟨"Self", ["f"], .apply (.lower "f") (.lower "f")⟩,
      .function ⟨"One", [], .int 1⟩]
    s.bindings.Acyclic ∧ (∃ t', s.bindings.resolve? (.var 0) = some t') ∧
      (∃ found, s.bindings.occurs? 1 (.var 0) = some found) ∧
      (Unifier.unify true (.var 1) (.var 0) s.bindings).Ends ∧
      ∃ report final, check ⟨true, true⟩ program s = .ok report final := by
  intro s program
  have hs : s.bindings.Acyclic := Bindings.acyclic_empty.bind (by
    intro w hw hpath
    obtain rfl : w = 1 := by simpa [Ty.vars, Ty.int] using hw
    exact absurd (Bindings.eq_of_reaches_of_unbound (Bindings.find?_empty 1) hpath) (by decide))
  obtain ⟨hresolve, hoccurs, hunify, hcheck⟩ := check_terminates hs
  exact ⟨hs, hresolve _, hoccurs _ _, hunify _ _, hcheck true program⟩

end Checker

end Monotype
