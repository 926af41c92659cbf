import Monotype.Proofs.Typing.OccursCheck
import Monotype.Proofs.Typing.Soundness

/-!
# `Monotype.Proofs.Typing.Failures` — which definitions fail, and in which runs

Definitions are checked one after the other, each in the state that the ones before it have left, failed
ones included. What is checked next depends on the verdict: a run that stops at errors has come to its end
at the first one. So the runs that stop and those that go on are the same up to there, and what follows is
seen by the latter only. The errors of a report are those of the definitions that failed, each in its place.

## Contents
- **`exists_places_filterMap`**: what is kept of a list, by places.
- **`Checker.Reaches`**, **`Checker.Raises`**, **`Checker.Passes`**: what becomes of one definition in a run.
- **`Checker.getElem?_verdicts_iff`**, **`Report.error?_eq_some_iff`**: verdicts and errors, by places.
- **`Checker.DriversAgree`**, **`Checker.driversAgree_of_verdicts`**: stopping at errors, and going on.
- **`Checker.drivers_agree`**.
-/

namespace Monotype

/-! ## Places in a list -/

/-- What is kept of a list comes from places in order, which are those of all that is kept. -/
theorem exists_places_filterMap {α β : Type} (f : α → Option β) (l : List α) :
    ∃ places : List Nat, places.Pairwise (· < ·) ∧
      (∀ i, i ∈ places ↔ ∃ b, l[i]?.bind f = some b) ∧
      List.Forall₂ (fun i b => l[i]?.bind f = some b) places (l.filterMap f) := by
  induction l with
  | nil => exact ⟨[], .nil, by simp, .nil⟩
  | cons a l ih =>
    obtain ⟨places, hsorted, hmem, hkept⟩ := ih
    have hsorted' : (places.map (· + 1)).Pairwise (· < ·) :=
      List.pairwise_map.mpr (hsorted.imp fun h => Nat.succ_lt_succ h)
    have hkept' : List.Forall₂ (fun i b => (a :: l)[i]?.bind f = some b) (places.map (· + 1))
        (l.filterMap f) := List.forall₂_map_left_iff.mpr hkept
    cases ha : f a with
    | none =>
      refine ⟨places.map (· + 1), hsorted', fun i => ?_, ?_⟩
      · cases i with
        | zero => simp [ha]
        | succ i => simp [hmem]
      · rwa [List.filterMap_cons_none ha]
    | some b =>
      refine ⟨0 :: places.map (· + 1), .cons (by simp) hsorted', fun i => ?_, ?_⟩
      · cases i with
        | zero => simp [ha]
        | succ i => simp [hmem]
      · rw [List.filterMap_cons_some ha]
        exact .cons (by simp [ha]) hkept'

namespace Checker

variable {options : Options} {program : Program} {definitions others : List Declared}
  {first declared : Declared} {verdict : Verdict} {vs : List Verdict} {s s' s₁ s₂ : TypingState}
  {i : Nat}

/-! ## Coming to a definition -/

/-- Checking definitions in order comes to the one at this place, and this is the state then. No verdict
before that was the end of it. -/
inductive Reaches (options : Options) :
    List Declared → TypingState → Nat → Declared → TypingState → Prop
  | here {declared : Declared} {others : List Declared} {s : TypingState} :
      Reaches options (declared :: others) s 0 declared s
  | later {first declared : Declared} {others : List Declared} {verdict : Verdict} {i : Nat}
      {s s₁ s₂ : TypingState}
      (hfirst : ((Infer.checkDefinition options.occursCheck first).attempt : Checker Verdict) s =
        .ok verdict s₁)
      (hgoesOn : verdict.goesOn options.keepGoing = true)
      (hothers : Reaches options others s₁ i declared s₂) :
      Reaches options (first :: others) s (i + 1) declared s₂

/-- In a run on a program the second pass over the definition at this place fails, with this error, and
leaves this state. -/
def Raises (options : Options) (program : Program) (s : TypingState) (i : Nat)
    (error : DefinitionError) (s' : TypingState) : Prop :=
  ∃ declared s₁,
    Reaches options (TypingState.declareAll program s).1 (TypingState.declareAll program s).2 i
      declared s₁ ∧
    Infer.checkDefinition options.occursCheck declared s₁ = .error error.error s' ∧
    error.definition = declared.definition.name

/-- In a run on a program the second pass over the definition at this place succeeds. -/
def Passes (options : Options) (program : Program) (s : TypingState) (i : Nat) : Prop :=
  ∃ declared s₁ s',
    Reaches options (TypingState.declareAll program s).1 (TypingState.declareAll program s).2 i
      declared s₁ ∧
    Infer.checkDefinition options.occursCheck declared s₁ = .ok () s'

theorem Reaches.getElem? (h : Reaches options definitions s i declared s₁) :
    definitions[i]? = some declared := by
  induction h with
  | here => rfl
  | later _ _ _ ih => exact ih

/-- The definition at a place in the program, with what was declared for it. -/
theorem Reaches.getElem?_program
    (h : Reaches options (TypingState.declareAll program s).1 s₁ i declared s₂) :
    program[i]? = some declared.definition ∧ declared ∈ (TypingState.declareAll program s).1 := by
  have hdefinition := congrArg (Option.map Declared.definition) h.getElem?
  rw [← List.getElem?_map, TypingState.definitions_declareAll] at hdefinition
  exact ⟨hdefinition, List.mem_of_getElem? h.getElem?⟩

theorem reaches_zero_iff :
    Reaches options (first :: others) s 0 declared s₁ ↔ declared = first ∧ s₁ = s := by
  constructor
  · rintro ⟨⟩
    exact ⟨rfl, rfl⟩
  · rintro ⟨rfl, rfl⟩
    exact .here

theorem reaches_succ_iff
    (hfirst : ((Infer.checkDefinition options.occursCheck first).attempt : Checker Verdict) s =
      .ok verdict s₁) :
    Reaches options (first :: others) s (i + 1) declared s₂ ↔
      verdict.goesOn options.keepGoing = true ∧ Reaches options others s₁ i declared s₂ := by
  constructor
  · intro h
    cases h with
    | later hfirst' hgoesOn hothers =>
      cases hfirst.symm.trans hfirst'
      exact ⟨hgoesOn, hothers⟩
  · rintro ⟨hgoesOn, hothers⟩
    exact .later hfirst hgoesOn hothers

/-- The definitions before the one that checking comes to were checked, and came to verdicts. -/
theorem Reaches.exists_verdicts (h : Reaches options definitions s i declared s₁) :
    ∃ vs, verdicts options (definitions.take i) s = .ok vs s₁ := by
  induction h with
  | here => exact ⟨[], rfl⟩
  | @later _ _ _ verdict _ _ _ _ hfirst hgoesOn _ ih =>
    obtain ⟨vs, hvs⟩ := ih
    refine ⟨verdict :: vs, ?_⟩
    rw [List.take_succ_cons, verdicts_cons, hfirst]
    exact Verdict.andOthers_eq_ok_iff.mpr (.inl ⟨hgoesOn, vs, rfl, hvs⟩)

/-! ## Verdicts and errors -/

/-- **The verdict at a place** is what the check of the definition at that place comes to, if checking comes
to it. -/
theorem getElem?_verdicts_iff (h : verdicts options definitions s = .ok vs s') :
    vs[i]? = some verdict ↔ ∃ declared s₁ s₂, Reaches options definitions s i declared s₁ ∧
      ((Infer.checkDefinition options.occursCheck declared).attempt : Checker Verdict) s₁ =
        .ok verdict s₂ := by
  induction definitions generalizing s vs i with
  | nil =>
    -- with no definitions there is no verdict, and no place is reached
    cases h
    refine ⟨fun h => absurd h (by simp), ?_⟩
    rintro ⟨_, _, _, ⟨⟩, _⟩
  | cons first others ih =>
    rw [verdicts_cons] at h
    obtain ⟨firstVerdict, s₁, hfirst, h⟩ := Outcome.bind_eq_ok_iff.mp h
    cases i with
    | zero =>
      obtain ⟨_, rfl, _⟩ := Verdict.andOthers_eq_ok h
      simp only [reaches_zero_iff]
      constructor
      · rintro ⟨⟩
        exact ⟨first, s, s₁, ⟨rfl, rfl⟩, hfirst⟩
      · rintro ⟨_, _, _, ⟨rfl, rfl⟩, hcheck⟩
        cases hfirst.symm.trans hcheck
        rfl
    | succ i =>
      simp only [reaches_succ_iff hfirst]
      -- later places have a verdict only if the run goes on after the first definition
      rcases Verdict.andOthers_eq_ok_iff.mp h with ⟨hgoesOn, _, rfl, hothers⟩ | ⟨hstops, rfl, _⟩
      · simp only [List.getElem?_cons_succ, ih hothers, hgoesOn, true_and]
      · simp [hstops]

end Checker

namespace Report

variable {options : Options} {program : Program} {report : Report} {s final : TypingState} {i : Nat}
  {error : DefinitionError}

/-- The error of the definition at a place, if the verdict on it is one. -/
def error? (report : Report) (i : Nat) : Option DefinitionError :=
  (report.declared.zip report.verdicts)[i]?.bind fun entry => entry.1.error? entry.2

/-- **A report has an error at a place** if the definition there has failed with that error. -/
theorem error?_eq_some_iff (h : Checker.check options program s = .ok report final) :
    report.error? i = some error ↔ ∃ s', Checker.Raises options program s i error s' := by
  rw [Checker.check_eq] at h
  obtain ⟨vs, _, hvs, hok⟩ := Outcome.bind_eq_ok_iff.mp h
  cases hok
  simp only [error?, Option.bind_eq_some_iff, Prod.exists, List.getElem?_zip_eq_some,
    Checker.getElem?_verdicts_iff hvs]
  constructor
  · rintro ⟨declared, verdict, ⟨hdeclared, _, s₁, s₂, hreaches, hcheck⟩, herror⟩
    cases verdict with
    | ok _ => exact absurd herror (by simp [Declared.error?])
    | error e =>
      cases herror
      cases hdeclared.symm.trans hreaches.getElem?
      exact ⟨s₂, declared, s₁, hreaches, Run.attempt_eq_ok_error_iff.mp hcheck, rfl⟩
  · rintro ⟨s', declared, s₁, hreaches, hcheck, hname⟩
    refine ⟨declared, .error error.error, ⟨hreaches.getElem?, declared, s₁, s', hreaches,
      Run.attempt_eq_ok_error_iff.mpr hcheck⟩, ?_⟩
    rw [Declared.error?, ← hname]

/-- Every error of a report was raised at some place of the program. -/
theorem exists_raises_of_mem (h : Checker.check options program s = .ok report final)
    (herror : error ∈ report.errors) : ∃ i s', Checker.Raises options program s i error s' := by
  obtain ⟨entry, hentry, herror⟩ := List.mem_filterMap.mp herror
  obtain ⟨i, hi⟩ := List.getElem?_of_mem hentry
  exact ⟨i, (error?_eq_some_iff h).mp (by rw [error?, hi]; exact herror)⟩

/-- The errors of a report name definitions in order, none of them twice. -/
theorem names_errors_sublist (report : Report) :
    (report.errors.map DefinitionError.definition).Sublist
      ((report.declared.map Declared.definition).map Definition.name) := by
  obtain ⟨declared, verdicts⟩ := report
  induction declared generalizing verdicts with
  | nil => simp [errors]
  | cons first declared ih =>
    cases verdicts with
    | nil => simp [errors]
    | cons verdict verdicts =>
      cases verdict with
      | ok _ => exact (ih verdicts).cons _
      | error e => exact (ih verdicts).cons_cons _

end Report

namespace Checker

variable {strict : Bool} {program : Program} {definitions : List Declared} {vs : List Verdict}
  {report : Report} {s final : TypingState}

/-! ## Stopping at errors, and going on -/

/-- How three runs on the same definitions end: one that goes on past errors, with its state and its errors;
one that stops, with its errors and its state; and one without recovery. -/
inductive DriversAgree (final : TypingState) : List DefinitionError → List DefinitionError →
    TypingState → Outcome TypeError TypingState Unit → Prop
  | passed : DriversAgree final [] [] final (.ok () final)
  | failed {error : DefinitionError} {others : List DefinitionError} {stopped : TypingState} :
      DriversAgree final (error :: others) [error] stopped (.error error.error stopped)

/-- **The three ways of checking definitions agree**, if the one that goes on ends. -/
theorem driversAgree_of_verdicts (h : verdicts ⟨strict, true⟩ definitions s = .ok vs final) :
    ∃ vs' stopped, verdicts ⟨strict, false⟩ definitions s = .ok vs' stopped ∧
      DriversAgree final (Report.errors ⟨definitions, vs⟩) (Report.errors ⟨definitions, vs'⟩) stopped
        (Infer.checkAll strict definitions s) := by
  induction definitions generalizing s vs with
  | nil =>
    cases h
    exact ⟨[], _, rfl, .passed⟩
  | cons declared others ih =>
    rw [verdicts_cons] at h
    obtain ⟨verdict, s₁, hverdict, h⟩ := Outcome.bind_eq_ok_iff.mp h
    rw [verdicts_cons, hverdict, Infer.checkAll, Run.run_bind, Outcome.bind_ok]
    cases verdict with
    | ok _ =>
      -- all three go on to the other definitions
      obtain ⟨_, vs₁, rfl, hothers⟩ | ⟨hstops, _⟩ := Verdict.andOthers_eq_ok_iff.mp h
      · obtain ⟨vs', stopped, hstopped, hagree⟩ := ih hothers
        rw [Run.attempt_eq_ok_ok hverdict]
        exact ⟨.ok () :: vs', stopped, Verdict.andOthers_eq_ok_iff.mpr (.inl ⟨rfl, vs', rfl, hstopped⟩),
          hagree⟩
      · exact absurd hstops (by simp [Verdict.goesOn])
    | error e =>
      obtain ⟨vs₁, rfl, _⟩ := Verdict.andOthers_eq_ok h
      have hone : Report.errors ⟨declared :: others, [.error e]⟩ = [⟨declared.definition.name, e⟩] := by
        simp [Report.errors, Declared.error?]
      refine ⟨[.error e], s₁, Verdict.andOthers_eq_ok_iff.mpr (.inr ⟨rfl, rfl, rfl⟩), ?_⟩
      rw [Run.attempt_eq_ok_error_iff.mp hverdict, hone]
      exact @DriversAgree.failed final ⟨declared.definition.name, e⟩ (Report.errors ⟨others, vs₁⟩) s₁

/-- **The three ways of checking a program agree.** Let the run that goes on past errors end. Then the run that
stops at errors ends too, and so does checking without recovery, and they declare the same. Either all three
accept the program and leave the same state; or the error without recovery is the only one of the run that
stops and the first one of the run that goes on, and the former two leave the same state. The errors of the
run that goes on name definitions of the program in order: there is one for each definition that fails in it,
and it is the error of that definition. -/
theorem drivers_agree (h : check ⟨strict, true⟩ program s = .ok report final) :
    (∃ first stopped outcome, check ⟨strict, false⟩ program s = .ok first stopped ∧
      first.declared = report.declared ∧
      s.checkProgram strict program = (report.declared, outcome) ∧
      DriversAgree final report.errors first.errors stopped outcome) ∧
    (report.errors.map DefinitionError.definition).Sublist (program.map Definition.name) ∧
    ∃ failed : List Nat, failed.Pairwise (· < ·) ∧
      (∀ i, i ∈ failed ↔ ∃ error s', Raises ⟨strict, true⟩ program s i error s') ∧
      List.Forall₂ (fun i error => ∃ s', Raises ⟨strict, true⟩ program s i error s') failed
        report.errors := by
  have hnames := report.names_errors_sublist
  obtain ⟨failed, hsorted, hfailed, herrors⟩ :=
    exists_places_filterMap (fun entry : Declared × Verdict => entry.1.error? entry.2)
      (report.declared.zip report.verdicts)
  have hraises : ∀ i error, report.error? i = some error ↔
      ∃ s', Raises ⟨strict, true⟩ program s i error s' := fun _ _ => Report.error?_eq_some_iff h
  -- the drivers that stop do what this run does, up to the first error
  rw [check_eq] at h
  obtain ⟨vs, _, hvs, hok⟩ := Outcome.bind_eq_ok_iff.mp h
  cases hok
  obtain ⟨vs', stopped, hstopped, hagree⟩ := driversAgree_of_verdicts hvs
  refine ⟨⟨⟨_, vs'⟩, stopped, _, ?_, rfl, rfl, hagree⟩, ?_, failed, hsorted, fun i => ?_, ?_⟩
  · rw [check_eq, hstopped]
    rfl
  · rwa [TypingState.definitions_declareAll] at hnames
  · rw [hfailed]
    exact exists_congr (hraises i)
  · exact herrors.imp fun i error => (hraises i error).mp

/-- A function that fails after it has bound its parameter, one that is accepted, and one that fails because
of what is known from the second. -/
theorem drivers_agree_on_first_failure :
    let program : Program := [
      .function ⟨"First", ["x"],
        .binary .plus (.binary .plus (.lower "x") (.int 1)) (.lower "missing")⟩,
      .function ⟨"Fine", [], .int 1⟩,
      .function ⟨"Second", [], .apply (.upper "Fine") (.int 2)⟩]
    let missing : DefinitionError := ⟨"First", .undefinedVariable "missing"⟩
    let applied : DefinitionError :=
      ⟨"Second", .binding (.mismatch (.arrow .int (.var 5)) .int)⟩
    ∃ report final, check ⟨true, true⟩ program .initial = .ok report final ∧
      report.errors = [missing, applied] ∧
      (∃ first stopped, check ⟨true, false⟩ program .initial = .ok first stopped ∧
        first.errors = [missing] ∧
        TypingState.initial.checkProgram true program =
          (report.declared, .error (.undefinedVariable "missing") stopped)) ∧
      ∃ i j, i < j ∧ (∃ s', Raises ⟨true, true⟩ program .initial i missing s') ∧
        ∃ s', Raises ⟨true, true⟩ program .initial j applied s' := by
  intro program missing applied
  have herrors : (match check ⟨true, true⟩ program .initial with
      | .ok report _ => report.errors
      | _ => []) = [missing, applied] := by decide +kernel
  obtain ⟨report, final, h, _⟩ :=
    exists_check_eq_ok (s := .initial) Bindings.acyclic_empty true program
  rw [h] at herrors
  obtain ⟨⟨first, stopped, outcome, hfirst, _, hprogram, hagree⟩, _, failed, hsorted, _, hraises⟩ :=
    drivers_agree h
  rw [show report.errors = [missing, applied] from herrors] at hagree hraises
  generalize hones : first.errors = ones at hagree
  cases hagree
  obtain ⟨i, _, hi, hothers, rfl⟩ := List.forall₂_cons_right_iff.mp hraises
  obtain ⟨j, _, hj, _, rfl⟩ := List.forall₂_cons_right_iff.mp hothers
  have hij : i < j := (List.pairwise_cons.mp hsorted).1 j List.mem_cons_self
  exact ⟨report, final, h, herrors, ⟨first, stopped, hfirst, hones, hprogram⟩, i, j, hij, hi, hj⟩

end Checker

end Monotype
