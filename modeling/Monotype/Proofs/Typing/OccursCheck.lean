import Monotype.Proofs.Typing.Termination
import Monotype.Proofs.Unify.OccursCheck

/-!
# `Monotype.Proofs.Typing.OccursCheck` — the occurs check rejects infinite types, and does nothing else

The option is read in one place only, where unification is about to bind a variable. So two runs of the
checker on one program, with the option and without, go side by side up to the first unification in
which the check fails. From there on the run without it has cyclic bindings to the end, for bindings
are never taken back; and the run with it has the error in its report. Which of the two is the case can
be read off either run: off the errors of the one, and off the final bindings of the other.

## Contents
- **`Infer.Parallel`**, **`Infer.congruence_parallel`**: inference with and without the occurs check.
- **`Checker.AgreeUntilInfinite`**, **`Checker.agree_verdicts`**: verdicts with and without it.
- **`Report.hasInfinite`**: some definition was rejected by the occurs check.
- **`Checker.occursCheck_rejects_only_infinite`**.
-/

namespace Monotype

/-! ## Inference -/

namespace Infer

variable {α : Type}

/-- Two computations that have the same outcome from acyclic bindings until the occurs check fails. The
first keeps bindings acyclic, and the second keeps all of them. -/
structure Parallel (x x' : Infer α) : Prop where
  agree : ∀ s : TypingState, s.bindings.Acyclic →
    Outcome.AgreeUntil TypeError.isInfinite (fun s => ¬ s.bindings.Acyclic) (x s) (x' s)
  keepsAcyclic : Run.Keeps (fun s s' => s.bindings.Acyclic → s'.bindings.Acyclic) x
  keepsBindings : Run.Keeps (fun s s' => s.bindings.Extends s'.bindings) x'

theorem isInfinite_ofUnify (e : UnifyError) (b : Bindings) :
    (TypeError.ofUnify e b).isInfinite = e.isInfinite := by cases e <;> rfl

/-- **Inference with and without the occurs check goes side by side.** -/
theorem congruence_parallel : Congruence true false fun _ x x' => Parallel x x' where
  pure a := ⟨fun s _ => .ok a s, congruence_acyclic.pure a, (congruence_extends false).pure a⟩
  bind hx hnext := by
    refine ⟨fun s hs => ?_, ?_, ?_⟩
    · -- once the check has failed, the second run only binds more, and its cycle stays
      refine (hx.agree s hs).bind (fun a s₁ ho => ?_) (fun a s₁ s₂ hcyclic hs₂ hacyclic => ?_)
      · exact (hnext a).agree s₁ (hx.keepsAcyclic.of_ok ho hs)
      · exact hcyclic (hacyclic.anti ((hnext a).keepsBindings s₁ s₂ hs₂))
    · exact hx.keepsAcyclic.bind (fun a => (hnext a).keepsAcyclic) fun _ _ _ h h' hs => h' (h hs)
    · exact hx.keepsBindings.bind (fun a => (hnext a).keepsBindings) fun _ _ _ h h' => h.trans h'
  fail e he := ⟨fun s _ => .error he s, congruence_acyclic.fail e he,
    (congruence_extends false).fail e he⟩
  state := ⟨fun s _ => .ok s s, congruence_acyclic.state, (congruence_extends false).state⟩
  scopes f := ⟨fun s _ => .ok _ _, congruence_acyclic.scopes f, (congruence_extends false).scopes f⟩
  fresh := ⟨fun s _ => .ok _ _, congruence_acyclic.fresh, (congruence_extends false).fresh⟩
  unify left right := by
    refine ⟨fun s hs => ?_, congruence_acyclic.unify left right,
      (congruence_extends false).unify left right⟩
    exact (Unifier.agreeUntil_unify hs left right).map isInfinite_ofUnify fun _ => id

end Infer

/-! ## Verdicts -/

/-- The verdict is that a variable would have to hold itself. -/
def Verdict.isInfinite : Verdict → Bool
  | .ok _ => false
  | .error e => e.isInfinite

namespace Checker

variable {options : Options} {s s' : TypingState} {declared : Declared} {others : List Declared}
  {vs : List Verdict}

/-- The first verdict is that on the first definition. The others are those on the other definitions,
unless checking did not go on. -/
theorem verdicts_cons_eq_ok (h : verdicts options (declared :: others) s = .ok vs s') :
    ∃ verdict s₁ vs', vs = verdict :: vs' ∧
      ((Infer.checkDefinition options.occursCheck declared).attempt : Checker Verdict) s =
        .ok verdict s₁ ∧
      (verdicts options others s₁ = .ok vs' s' ∨ (vs' = [] ∧ s' = s₁)) := by
  rw [verdicts_cons] at h
  obtain ⟨verdict, s₁, hverdict, h⟩ := Outcome.bind_eq_ok_iff.mp h
  obtain ⟨vs', hcons, hothers⟩ := Verdict.andOthers_eq_ok h
  exact ⟨verdict, s₁, vs', hcons, hverdict, hothers⟩

/-- There is no more than one verdict on each definition. -/
theorem length_verdicts_le {definitions : List Declared}
    (h : verdicts options definitions s = .ok vs s') : vs.length ≤ definitions.length := by
  induction definitions generalizing s vs with
  | nil => cases h; exact Nat.le_refl 0
  | cons declared others ih =>
    obtain ⟨verdict, s₁, vs', rfl, _, hothers⟩ := verdicts_cons_eq_ok h
    rcases hothers with hothers | ⟨rfl, _⟩
    · exact Nat.succ_le_succ (ih hothers)
    · exact Nat.succ_le_succ (Nat.zero_le _)

/-- What the check of the first definition has bound is bound at the end. -/
theorem exists_extends_of_verdicts_cons
    (h : (verdicts options (declared :: others) s).state? = some s') :
    ∃ s₁, (Infer.checkDefinition options.occursCheck declared s).state? = some s₁ ∧
      s₁.bindings.Extends s'.bindings := by
  have hkeeps := verdicts_keeps (Unifier.kept_extends options.occursCheck) options.keepGoing others
  obtain ⟨vs, hvs⟩ := exists_eq_ok_of_state? h
  obtain ⟨verdict, s₁, vs', rfl, hverdict, hothers⟩ := verdicts_cons_eq_ok hvs
  refine ⟨s₁, ?_, ?_⟩
  · rw [← Run.state?_attempt, hverdict]
    rfl
  · rcases hothers with hothers | ⟨_, rfl⟩
    · exact hkeeps.of_ok hothers
    · exact .refl _

/-- The same verdicts, none of them that a type is infinite; or else some of the first ones are, and the
bindings that are left with the second ones, if they are ever come to, are cyclic. -/
inductive AgreeUntilInfinite : Outcome Empty TypingState (List Verdict) →
    Outcome Empty TypingState (List Verdict) → Prop
  | same {vs : List Verdict} {s : TypingState} (h : vs.any Verdict.isInfinite = false) :
      AgreeUntilInfinite (.ok vs s) (.ok vs s)
  | parted {vs : List Verdict} {s : TypingState} {o : Outcome Empty TypingState (List Verdict)}
      (h : vs.any Verdict.isInfinite = true)
      (hcyclic : ∀ s', o.state? = some s' → ¬ s'.bindings.Acyclic) :
      AgreeUntilInfinite (.ok vs s) o

/-- The relation carries over to all verdicts after one that is the same, and not of that kind. -/
theorem AgreeUntilInfinite.andOthers {keepGoing : Bool} {verdict : Verdict}
    {others others' : TypingState → Outcome Empty TypingState (List Verdict)}
    (h : AgreeUntilInfinite (others s) (others' s)) (hverdict : verdict.isInfinite = false) :
    AgreeUntilInfinite (verdict.andOthers keepGoing others s)
      (verdict.andOthers keepGoing others' s) := by
  unfold Verdict.andOthers
  split
  · generalize others s = o, others' s = o' at h
    cases h with
    | same h => exact .same (by rw [List.any_cons, hverdict, h]; rfl)
    | parted h hcyclic =>
      refine .parted (by rw [List.any_cons, h, Bool.or_true]) fun s' hs' => ?_
      rw [Outcome.state?_bind_pure] at hs'
      exact hcyclic s' hs'
  · exact .same (by rw [List.any_cons, hverdict]; rfl)

section Step

variable {keepGoing : Bool} {s₁ : TypingState}

/-- A definition on which both runs come to the same verdict, and go on or stop with it alike. -/
theorem agree_verdicts_cons_of_same {verdict : Verdict}
    (hstrict : ((Infer.checkDefinition true declared).attempt : Checker Verdict) s = .ok verdict s₁)
    (hlenient : ((Infer.checkDefinition false declared).attempt : Checker Verdict) s =
      .ok verdict s₁) (hverdict : verdict.isInfinite = false)
    (hothers : AgreeUntilInfinite (verdicts ⟨true, keepGoing⟩ others s₁)
      (verdicts ⟨false, keepGoing⟩ others s₁)) :
    AgreeUntilInfinite (verdicts ⟨true, keepGoing⟩ (declared :: others) s)
      (verdicts ⟨false, keepGoing⟩ (declared :: others) s) := by
  rw [verdicts_cons, verdicts_cons, hstrict, hlenient, Outcome.bind_ok, Outcome.bind_ok]
  exact hothers.andOthers hverdict

/-- A definition on which the occurs check fails. Without it the definition leaves a cycle, and that is
still there after all others. -/
theorem agree_verdicts_cons_of_infinite {e : TypeError} (hs : s.bindings.Acyclic)
    (hstrict : Infer.checkDefinition true declared s = .error e s₁) (he : e.isInfinite = true)
    (hcyclic : ∀ s', (Infer.checkDefinition false declared s).state? = some s' →
      ¬ s'.bindings.Acyclic) :
    AgreeUntilInfinite (verdicts ⟨true, keepGoing⟩ (declared :: others) s)
      (verdicts ⟨false, keepGoing⟩ (declared :: others) s) := by
  -- the run with the check ends, and its first verdict is the error
  obtain ⟨s', hs', _⟩ := congruence_total.verdicts Infer.congruence_total keepGoing
    (declared :: others) s hs
  obtain ⟨vs, hvs⟩ := exists_eq_ok_of_state? hs'
  obtain ⟨verdict, s₂, vs', rfl, hverdict, _⟩ := verdicts_cons_eq_ok hvs
  rw [Run.attempt, hstrict] at hverdict
  cases hverdict
  rw [hvs]
  refine .parted (by rw [List.any_cons, Verdict.isInfinite, he, Bool.true_or]) ?_
  intro s' hs' hacyclic
  obtain ⟨s₂, hs₂, hextends⟩ := exists_extends_of_verdicts_cons hs'
  exact hcyclic s₂ hs₂ (hacyclic.anti hextends)

end Step

/-- **Verdicts with and without the occurs check are the same until one is that a type is infinite.** -/
theorem agree_verdicts (keepGoing : Bool) (definitions : List Declared)
    (hs : s.bindings.Acyclic) :
    AgreeUntilInfinite (verdicts ⟨true, keepGoing⟩ definitions s)
      (verdicts ⟨false, keepGoing⟩ definitions s) := by
  induction definitions generalizing s with
  | nil => exact .same rfl
  | cons declared others ih =>
    have hagree := (Infer.congruence_parallel.checkDefinition declared).agree s hs
    obtain ⟨s₁, hs₁, hacyclic⟩ := Infer.congruence_total.checkDefinition declared s hs
    generalize hstrict : Infer.checkDefinition true declared s = o at hs₁ hagree
    generalize hlenient : Infer.checkDefinition false declared s = o' at hagree
    -- the run with the check ends, so both come to the same verdict, or the check has failed
    cases hagree with
    | ok a s₂ =>
      cases hs₁
      exact agree_verdicts_cons_of_same (by rw [Run.attempt, hstrict])
        (by rw [Run.attempt, hlenient]) rfl (ih hacyclic)
    | @error e he s₂ =>
      cases hs₁
      have hverdict : Verdict.isInfinite (.error e) = false := he
      exact agree_verdicts_cons_of_same (by rw [Run.attempt, hstrict])
        (by rw [Run.attempt, hlenient]) hverdict (ih hacyclic)
    | endless => exact absurd hs₁ (by simp [Outcome.state?])
    | parted he hcyclic => exact agree_verdicts_cons_of_infinite hs hstrict he (hlenient ▸ hcyclic)

end Checker

/-! ## Reports -/

/-- Some definition was rejected because a variable would have to hold itself. -/
def Report.hasInfinite (report : Report) : Bool :=
  report.errors.any fun error => error.error.isInfinite

/-- No verdict is lost on the way to the errors of a report. -/
theorem Report.hasInfinite_mk {declared : List Declared} {verdicts : List Verdict}
    (h : verdicts.length ≤ declared.length) :
    Report.hasInfinite ⟨declared, verdicts⟩ = verdicts.any Verdict.isInfinite := by
  induction verdicts generalizing declared with
  | nil => simp [hasInfinite, errors]
  | cons verdict verdicts ih =>
    cases declared with
    | nil => exact absurd h (by simp)
    | cons first declared =>
      have hothers := ih (Nat.le_of_succ_le_succ h)
      rw [List.any_cons, ← hothers]
      cases verdict <;> simp [hasInfinite, errors, Declared.error?, Verdict.isInfinite]

namespace Checker

/-- **The occurs check rejects infinite types, and changes nothing else.** Any program, checked from new
with and without the occurs check, stopping at errors or going on. The run with it comes to a report. If
that has no error of an infinite type, the run without it comes to the same report in the same state:
the same declarations, errors, variables and bindings, and so the same signatures. If the run without
it ends with acyclic bindings, it is the run with it that comes to the same; and if the run with it has
reported such an error, the bindings are cyclic. -/
theorem occursCheck_rejects_only_infinite (keepGoing : Bool) (program : Program) :
    ∃ report final, check ⟨true, keepGoing⟩ program .initial = .ok report final ∧
      (report.hasInfinite = false →
        check ⟨false, keepGoing⟩ program .initial = .ok report final) ∧
      ∀ report' final', check ⟨false, keepGoing⟩ program .initial = .ok report' final' →
        (final'.bindings.Acyclic →
          check ⟨true, keepGoing⟩ program .initial = .ok report' final') ∧
        (report.hasInfinite = true → ¬ final'.bindings.Acyclic) := by
  -- the first pass binds names, but no variable
  have hacyclic : (TypingState.declareAll program .initial).2.bindings.Acyclic := by
    rw [(TypingState.declares_declareAll program .initial).bindings_eq]
    exact Bindings.acyclic_empty
  have hagree := agree_verdicts keepGoing (TypingState.declareAll program .initial).1 hacyclic
  simp only [check_eq]
  generalize hstrict : verdicts ⟨true, keepGoing⟩ _ _ = o, verdicts ⟨false, keepGoing⟩ _ _ = o'
    at hagree ⊢
  cases hagree with
  | @same vs final h =>
    have hreport := Report.hasInfinite_mk (length_verdicts_le hstrict)
    refine ⟨_, final, rfl, fun _ => rfl, ?_⟩
    rintro report' final' hlenient
    cases hlenient
    exact ⟨fun _ => rfl, fun hinfinite => absurd (hreport ▸ hinfinite) (by simp [h])⟩
  | @parted vs final _ h hcyclic =>
    have hreport := Report.hasInfinite_mk (length_verdicts_le hstrict)
    refine ⟨_, final, rfl, fun hfinite => absurd (hreport ▸ hfinite) (by simp [h]), ?_⟩
    intro report' final' hlenient
    obtain ⟨vs', s', rfl, hok⟩ := Outcome.bind_eq_ok_iff.mp hlenient
    cases hok
    exact ⟨fun hfinal => absurd hfinal (hcyclic _ rfl), fun _ => hcyclic _ rfl⟩

/-- A function that is applied to itself is accepted without the occurs check, with a cycle. A function
that is used as it should be is checked alike with and without it. -/
theorem occursCheck_rejects_only_self_application :
    let self : Program := [.function ⟨"Self", ["f"], .apply (.lower "f") (.lower "f")⟩]
    let next : Program := [.function ⟨"Next", ["n"], .binary .plus (.lower "n") (.int 1)⟩]
    (∃ report final, check ⟨false, true⟩ self .initial = .ok report final ∧
      report.accepted = true ∧ ¬ final.bindings.Acyclic) ∧
    ∃ report final, check ⟨true, false⟩ next .initial = .ok report final ∧
      check ⟨false, false⟩ next .initial = .ok report final ∧ final.bindings.Acyclic := by
  intro self next
  obtain ⟨report, final, hstrict, _, hlenient⟩ := occursCheck_rejects_only_infinite true self
  obtain ⟨report', final', hstrict', hsame, hlenient'⟩ :=
    occursCheck_rejects_only_infinite false next
  have hself : (match check ⟨true, true⟩ self .initial with
      | .ok report _ => report.hasInfinite
      | _ => false) = true := by decide +kernel
  have haccepted : (match check ⟨false, true⟩ self .initial with
      | .ok report _ => report.accepted
      | _ => false) = true := by decide +kernel
  have hnext : (match check ⟨true, false⟩ next .initial with
      | .ok report _ => report.hasInfinite
      | _ => true) = false := by decide +kernel
  rw [hstrict] at hself
  rw [hstrict'] at hnext
  constructor
  · cases hcheck : check ⟨false, true⟩ self .initial with
    | ok report'' final'' =>
      rw [hcheck] at haccepted
      exact ⟨report'', final'', rfl, haccepted, (hlenient _ _ hcheck).2 hself⟩
    | error e _ => exact e.elim
    | endless => rw [hcheck] at haccepted; exact absurd haccepted (by simp)
  · obtain ⟨report'', final'', hcheck, hacyclic⟩ :=
      exists_check_eq_ok (s := .initial) Bindings.acyclic_empty false next
    rw [hstrict'] at hcheck
    cases hcheck
    have hboth := hsame hnext
    exact ⟨report', final', (hlenient' _ _ hboth).1 hacyclic, hboth, hacyclic⟩

end Checker

end Monotype
