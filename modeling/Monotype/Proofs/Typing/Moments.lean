import Monotype.Proofs.Typing.Failures
import Monotype.Proofs.Typing.Writes

/-!
# `Monotype.Proofs.Typing.Moments` — fresh variables occur nowhere, at any moment

A new checker is in a fresh state, and so is one that has checked some programs. A run on one more program
passes through many states before it comes to an end, if it does. In the first pass it is busy with a
definition, or with a constructor of it, and has handed out some of the variables for it. In the second
pass it is busy with the body of a function. At each of these moments the state is fresh, and no later than
that the variables in all the types that were recorded on definitions were handed out. So the variable that
would be handed out next occurs nowhere: not in the bindings, not in a frame, and not on a definition.

A run that comes to its end goes there through these moments only, from each to the next by a single write.

## Contents
- **`Declared.types`**, **`TypingState.Mentions`**: recorded types, and where variables occur.
- **`TypingState.Constructing`**, **`TypingState.Declaring`**: what the first pass goes through.
- **`Checker.Ran`**, **`Checker.Moment`**: runs on one checker, and the moments of the next one.
- **`Checker.Moment.fresh`**, **`Checker.through_check`**: states are fresh at the moments, and a run goes
  through no others.
- **`Checker.Ran.fresh_is_new`**: at each moment the next variable is new.
-/

namespace Monotype

variable {s s' : TypingState} {n m : Nat}

/-! ## The first pass -/

open Infer (Later)

/-- The types that the first pass records. -/
def Declaration.types : Declaration → List Ty
  | .function result params => result :: params
  | .type signatures => signatures

/-- The types that are recorded for definitions. -/
def Declared.types (definitions : List Declared) : List Ty :=
  definitions.flatMap fun declared => (declared.declaration.map Declaration.types).getD []

theorem Declared.types_cons (declared : Declared) (others : List Declared) :
    types (declared :: others) = types [declared] ++ types others := by
  simp [types]

theorem Declared.Below.types {declared : Declared} (h : declared.Below n) :
    ∀ t ∈ Declared.types [declared], t.Below n := by
  obtain ⟨definition, declaration⟩ := declared
  intro t ht
  cases declaration with
  | none => exact absurd ht (by simp [Declared.types])
  | some declaration =>
    have hmem : t ∈ declaration.types := by simpa [Declared.types] using ht
    have hbelow := h declaration rfl
    cases declaration with
    | function result params =>
      rcases List.mem_cons.mp hmem with rfl | hparam
      · exact hbelow.1
      · exact hbelow.2 t hparam
    | type signatures => exact hbelow t hmem

theorem Declared.below_types {definitions : List Declared}
    (h : ∀ declared ∈ definitions, declared.Below n) : ∀ t ∈ types definitions, t.Below n := by
  induction definitions with
  | nil => exact fun _ ht => absurd ht List.not_mem_nil
  | cons declared others ih =>
    rw [List.forall_mem_cons] at h
    rw [types_cons]
    exact List.forall_mem_append.mpr ⟨h.1.types, ih h.2⟩

/-- What was recorded before, and what is recorded now. -/
theorem Ty.below_append {types more : List Ty} (h : ∀ t ∈ types, t.Below n) (hnm : n ≤ m)
    (hmore : ∀ t ∈ more, t.Below m) : ∀ t ∈ types ++ more, t.Below m :=
  List.forall_mem_append.mpr ⟨fun t ht => (h t ht).mono hnm, hmore⟩

/-- Where a variable occurs, in a state and in the types that are recorded on definitions. -/
inductive TypingState.Mentions (s : TypingState) (types : List Ty) (v : Nat) : Prop
  | key {t : Ty} (h : s.bindings.find? v = some t)
  | value {w : Nat} {t : Ty} (h : s.bindings.find? w = some t) (hv : v ∈ t.vars)
  | name {frame : Frame} {entry : String × Ty} (hframe : frame ∈ s.environment.frames)
      (hentry : entry ∈ frame.names) (hv : v ∈ entry.2.vars)
  | recorded {t : Ty} (ht : t ∈ types) (hv : v ∈ t.vars)

/-- In a fresh state only variables that were handed out occur. -/
theorem TypingState.Fresh.lt_of_mentions {types : List Ty} (hs : s.Fresh)
    (hbelow : ∀ t ∈ types, t.Below s.allocated) (v : Nat) (hv : s.Mentions types v) : v < s.allocated := by
  cases hv with
  | key h => exact Ty.below_var.mp (hs.bindings v _ h).1
  | value h hv => exact (hs.bindings _ _ h).2 v hv
  | name hframe hentry hv => exact hs.names _ hframe _ hentry v hv
  | recorded ht hv => exact hbelow _ ht v hv

/-- Handing out variables writes them nowhere. -/
theorem TypingState.Mentions.of_allocate {types : List Ty} {v : Nat}
    (h : ({ s with allocated := n } : TypingState).Mentions types v) : s.Mentions types v := by
  cases h with
  | key h => exact .key h
  | value h hv => exact .value h hv
  | name hframe hentry hv => exact .name hframe hentry hv
  | recorded ht hv => exact .recorded ht hv

namespace TypingState

/-- Declaring constructors of a type from the first state on passes through the second one, and has recorded
these types by then. A constructor is bound in the root before its type is recorded. -/
inductive Constructing (type : String) :
    List Constructor → TypingState → List Ty → TypingState → Prop
  | begins {constructors : List Constructor} {s : TypingState} : Constructing type constructors s [] s
  | fresh {constructor : Constructor} {others : List Constructor} {s : TypingState} {i : Nat}
      (hi : i ≤ constructor.fields.length) :
      Constructing type (constructor :: others) s [] { s with allocated := s.allocated + i }
  | bound {constructor : Constructor} {others : List Constructor} {s : TypingState} :
      Constructing type (constructor :: others) s [] (s.declareConstructor type constructor).2
  | next {constructor : Constructor} {others : List Constructor} {types : List Ty} {s s' : TypingState}
      (h : Constructing type others (s.declareConstructor type constructor).2 types s') :
      Constructing type (constructor :: others) s ((s.declareConstructor type constructor).1 :: types) s'

/-- Declaring definitions from the first state on passes through the second one, and has recorded these types
by then. The variable for the result of a function comes before those for its parameters. -/
inductive Declaring : Program → TypingState → List Ty → TypingState → Prop
  | begins {program : Program} {s : TypingState} : Declaring program s [] s
  | fresh {definition : FunctionDefinition} {others : Program} {s : TypingState} {i : Nat}
      (hi : i ≤ definition.params.length + 1) :
      Declaring (.function definition :: others) s [] { s with allocated := s.allocated + i }
  | bound {definition : FunctionDefinition} {others : Program} {s : TypingState} :
      Declaring (.function definition :: others) s [] (s.declare (.function definition)).2
  | constructors {definition : TypeDefinition} {others : Program} {types : List Ty} {s s' : TypingState}
      (h : Constructing definition.name definition.constructors s types s') :
      Declaring (.type definition :: others) s types s'
  | next {definition : Definition} {others : Program} {types : List Ty} {s s' : TypingState}
      (h : Declaring others (s.declare definition).2 types s') :
      Declaring (definition :: others) s
        (Declared.types [⟨definition, some (s.declare definition).1⟩] ++ types) s'

variable {type : String} {constructors : List Constructor} {constructor : Constructor} {types : List Ty}
  {program : Program}

theorem Fresh.later_allocate (hs : s.Fresh) (count : Nat) :
    Later s { s with allocated := s.allocated + count } := ⟨hs.allocate count, Nat.le_add_right _ _⟩

theorem Fresh.later_declare (hs : s.Fresh) (definition : Definition) : Later s (s.declare definition).2 :=
  ⟨hs.declare definition, (declares_declare definition s).allocated_le⟩

theorem Fresh.later_declareAll (hs : s.Fresh) (program : Program) :
    Later s (TypingState.declareAll program s).2 :=
  ⟨hs.declareAll program, (declares_declareAll program s).allocated_le⟩

theorem Fresh.later_declareConstructor (hs : s.Fresh) (type : String) (constructor : Constructor) :
    Later s (s.declareConstructor type constructor).2 :=
  ⟨hs.declareConstructors type [constructor], Nat.le_add_right _ _⟩

theorem below_declareConstructor (s : TypingState) (type : String) (constructor : Constructor) :
    (s.declareConstructor type constructor).1.Below (s.declareConstructor type constructor).2.allocated :=
  below_declareConstructors type [constructor] s _ List.mem_cons_self

/-- Constructors are declared through later states, and what is recorded by then was handed out. -/
theorem Constructing.later (h : Constructing type constructors s types s') (hs : s.Fresh) :
    Later s s' ∧ ∀ t ∈ types, t.Below s'.allocated := by
  induction h with
  | begins => exact ⟨.refl hs, by simp⟩
  | fresh _ => exact ⟨hs.later_allocate _, by simp⟩
  | bound => exact ⟨hs.later_declareConstructor type _, by simp⟩
  | @next constructor _ _ s _ _ ih =>
    have hfirst := hs.later_declareConstructor type constructor
    obtain ⟨hlater, hbelow⟩ := ih hfirst.fresh
    refine ⟨hfirst.trans hlater, List.forall_mem_cons.mpr ⟨?_, hbelow⟩⟩
    exact (below_declareConstructor s type constructor).mono hlater.allocated

/-- **The first pass goes through later states**, and what is recorded by then was handed out. -/
theorem Declaring.later (h : Declaring program s types s') (hs : s.Fresh) :
    Later s s' ∧ ∀ t ∈ types, t.Below s'.allocated := by
  induction h with
  | begins => exact ⟨.refl hs, by simp⟩
  | fresh _ => exact ⟨hs.later_allocate _, by simp⟩
  | bound => exact ⟨hs.later_declare _, by simp⟩
  | constructors h => exact h.later hs
  | @next definition _ _ s _ _ ih =>
    have hfirst := hs.later_declare definition
    obtain ⟨hlater, hbelow⟩ := ih hfirst.fresh
    exact ⟨hfirst.trans hlater, Ty.below_append (below_declare definition s).types hlater.allocated hbelow⟩

variable {M : TypingState → Prop}

/-- Variables are handed out one after the other. -/
theorem through_allocate (count : Nat)
    (hM : ∀ i ≤ count, M { s with allocated := s.allocated + i }) :
    s.Through M { s with allocated := s.allocated + count } := by
  induction count with
  | zero => exact .refl
  | succ count ih =>
    have hbefore := ih fun i hi => hM i (Nat.le_succ_of_le hi)
    exact hbefore.tail ⟨.allocate, hM (count + 1) (Nat.le_refl _)⟩

theorem through_declareConstructors (type : String) (constructors : List Constructor)
    (s : TypingState) :
    s.Through (fun now => ∃ types, Constructing type constructors s types now)
      (declareConstructors type constructors s).2 := by
  induction constructors generalizing s with
  | nil => exact .refl
  | cons constructor others ih =>
    have hfields := through_allocate
      (M := fun now => ∃ types, Constructing type (constructor :: others) s types now)
      constructor.fields.length fun i hi => ⟨[], .fresh hi⟩
    have hfirst : s.Through _ (s.declareConstructor type constructor).2 :=
      hfields.tail ⟨.name Environment.root constructor.name _, [], .bound⟩
    refine hfirst.trans ((ih (s.declareConstructor type constructor).2).mono ?_)
    rintro _ ⟨_, h⟩
    exact ⟨_, .next h⟩

/-- **The first pass goes through its moments**, from each to the next by a single write. -/
theorem through_declareAll (program : Program) (s : TypingState) :
    s.Through (fun now => ∃ types, Declaring program s types now) (declareAll program s).2 := by
  induction program generalizing s with
  | nil => exact .refl
  | cons definition others ih =>
    refine .trans ?_ ((ih (s.declare definition).2).mono ?next)
    case next =>
      rintro _ ⟨_, h⟩
      exact ⟨_, .next h⟩
    cases definition with
    | type definition =>
      exact (through_declareConstructors definition.name definition.constructors s).mono
        fun _ ⟨_, h⟩ => ⟨_, .constructors h⟩
    | function definition =>
      have hfresh := through_allocate
        (M := fun now => ∃ types, Declaring (.function definition :: others) s types now)
        (definition.params.length + 1) fun i hi => ⟨[], .fresh hi⟩
      -- the variable for the result is counted first
      rw [Nat.add_comm definition.params.length, ← Nat.add_assoc] at hfresh
      exact hfresh.tail ⟨.name Environment.root definition.name _, [], .bound⟩

end TypingState

/-! ## Runs of the checker -/

namespace Checker

/-- A new checker has checked some programs, one after the other, and come to this state. These types are
recorded on their definitions. -/
inductive Ran : List Ty → TypingState → Prop
  | new : Ran [] .initial
  | check {options : Options} {program : Program} {report : Report} {types : List Ty}
      {s s' : TypingState} (hran : Ran types s) (h : check options program s = .ok report s') :
      Ran (types ++ Declared.types report.declared) s'

/-- The moments of a run of the checker on a program, and what the run has recorded by then: in its first
pass, and in its second pass over each definition that checking comes to. -/
inductive Moment (options : Options) (program : Program) (s : TypingState) :
    List Ty → TypingState → Prop
  | declaring {types : List Ty} {s' : TypingState} (h : TypingState.Declaring program s types s') :
      Moment options program s types s'
  | checking {declared : Declared} {i : Nat} {s₁ s' : TypingState}
      (hreaches : Reaches options (TypingState.declareAll program s).1
        (TypingState.declareAll program s).2 i declared s₁)
      (h : Infer.Moment options.occursCheck (.checkDefinition declared) s₁ s') :
      Moment options program s (Declared.types (TypingState.declareAll program s).1) s'

variable {types : List Ty} {options : Options} {definitions : List Declared} {declared : Declared} {i : Nat}

/-- Checking comes to each definition in a later state. -/
theorem Reaches.later_state (h : Reaches options definitions s i declared s') (hs : s.Fresh)
    (hdefinitions : ∀ declared ∈ definitions, declared.Below s.allocated) : Later s s' := by
  obtain ⟨vs, hvs⟩ := h.exists_verdicts
  have hbefore : ∀ declared ∈ definitions.take i, declared.Below s.allocated :=
    fun declared hmem => hdefinitions declared (List.mem_of_mem_take hmem)
  exact (Infer.later_of_ok (verdicts_mints options hs hbefore) hvs).1

/-- Between runs, states are fresh, and all that is recorded was handed out. -/
theorem Ran.fresh (h : Ran types s) : s.Fresh ∧ ∀ t ∈ types, t.Below s.allocated := by
  induction h with
  | new => exact ⟨TypingState.fresh_initial, by simp⟩
  | @check options program report types s s' _ h ih =>
    obtain ⟨hs, hbelow⟩ := ih
    have hfirst := hs.later_declareAll program
    have hdeclared := TypingState.below_of_mem_declareAll program s
    rw [check_eq] at h
    obtain ⟨vs, final, hvs, hok⟩ := Outcome.bind_eq_ok_iff.mp h
    cases hok
    obtain ⟨hsecond, -⟩ := Infer.later_of_ok (verdicts_mints options hfirst.fresh hdeclared) hvs
    have hmore : ∀ t ∈ Declared.types (TypingState.declareAll program s).1, t.Below _ :=
      fun t ht => (Declared.below_types hdeclared t ht).mono hsecond.allocated
    exact ⟨hsecond.fresh, Ty.below_append hbelow (hfirst.trans hsecond).allocated hmore⟩

/-- **States are fresh at every moment** of a run from a fresh state, and what was recorded by then was
handed out. -/
theorem Moment.fresh (h : Moment options program s types s') (hs : s.Fresh) :
    Later s s' ∧ ∀ t ∈ types, t.Below s'.allocated := by
  cases h with
  | declaring h => exact h.later hs
  | @checking declared i s₁ s' hreaches h =>
    have hfirst := hs.later_declareAll program
    have hdeclared := TypingState.below_of_mem_declareAll program s
    have hreached := hreaches.later_state hfirst.fresh hdeclared
    have hchecked := h.later hreached.fresh
      ((hdeclared declared hreaches.getElem?_program.2).mono hreached.allocated)
    have hsecond := hreached.trans hchecked
    exact ⟨hfirst.trans hsecond,
      fun t ht => (Declared.below_types hdeclared t ht).mono hsecond.allocated⟩

/-- Verdicts are come to through the moments of the definitions that checking comes to. -/
theorem goes_verdicts {M : TypingState → Prop} (options : Options) (definitions : List Declared)
    (hM : ∀ {i declared s₁ s₂}, Reaches options definitions s i declared s₁ →
      Infer.Moment options.occursCheck (.checkDefinition declared) s₁ s₂ → M s₂) :
    Goes M s (verdicts options definitions s) := by
  induction definitions generalizing s with
  | nil => exact .ok []
  | cons declared others ih =>
    have hfirst : Goes M s
        (((Infer.checkDefinition options.occursCheck declared).attempt : Checker Verdict) s) := by
      intro s' hs'
      rw [Run.state?_attempt] at hs'
      exact (Infer.goes_checkDefinition declared s s' hs').mono fun _ h => hM .here h
    rw [verdicts_cons]
    refine hfirst.bind fun verdict s₁ hverdict => ?_
    unfold Verdict.andOthers
    split
    case isTrue hgoesOn =>
      have hothers := ih fun hreaches h => hM (.later hverdict hgoesOn hreaches) h
      exact hothers.bind fun _ _ _ => .ok _
    case isFalse => exact .ok [verdict]

/-- **A run goes through its moments**, from each to the next by a single write. -/
theorem through_check {report : Report} (h : check options program s = .ok report s') :
    s.Through (fun now => ∃ types, Moment options program s types now) s' := by
  have hfirst := TypingState.through_declareAll program s
  rw [check_eq] at h
  obtain ⟨vs, _, hvs, hok⟩ := Outcome.bind_eq_ok_iff.mp h
  cases hok
  have hsecond := goes_verdicts options _ (M := fun now => ∃ types, Moment options program s types now)
    fun hreaches hmoment => ⟨_, .checking hreaches hmoment⟩
  exact (hfirst.mono fun _ ⟨_, h⟩ => ⟨_, .declaring h⟩).trans (hsecond s' (by rw [hvs]; rfl))

/-- **Fresh variables are new.** After any runs on the same checker, a run on one more program passes through
its moments only, from each to the next by a single write. At every moment each variable that occurs in the
state, or on a definition of these runs, was handed out before. So the variable that is handed out next is
not bound, and occurs nowhere. -/
theorem Ran.fresh_is_new (hran : Ran types s) (options : Options) (program : Program) :
    (∀ more now, Moment options program s more now →
      (∀ v, now.Mentions (types ++ more) v → v < now.allocated) ∧
      ∃ v next, Infer.fresh now = .ok (.var v) next ∧ next.bindings.find? v = none ∧
        ¬ now.Mentions (types ++ more) v ∧ ¬ next.Mentions (types ++ more) v) ∧
    ∀ report s', Checker.check options program s = .ok report s' →
      s.Through (fun now => ∃ more, Moment options program s more now) s' := by
  refine ⟨fun more now hmoment => ?_, fun report s' h => through_check h⟩
  obtain ⟨hs, hbelow⟩ := hran.fresh
  obtain ⟨hlater, hmore⟩ := hmoment.fresh hs
  have hrecorded := Ty.below_append hbelow hlater.allocated hmore
  have hmentions := hlater.fresh.lt_of_mentions hrecorded
  have hnew : ¬ now.Mentions (types ++ more) now.allocated :=
    fun hv => Nat.lt_irrefl _ (hmentions _ hv)
  refine ⟨hmentions, now.allocated, _, rfl, hlater.fresh.find?_eq_none (Nat.le_refl _), hnew, fun hv => ?_⟩
  exact hnew hv.of_allocate

/-- After a run that failed, in the second pass over `fn Add y { y + "a" }`: the first operand is known to fit,
and the second one, which will not, is about to be compared. -/
theorem Ran.fresh_is_new_before_mismatch :
    let old : TypingState := { allocated := 3, environment :=
      ((Environment.builtins.bind 0 "Bad" (.arrow (.var 1) (.var 0))).openScope 0).bind 1 "x" (.var 1) }
    let now : TypingState := { allocated := 6, bindings := ⟨[(4, .int)]⟩, environment :=
      ((old.environment.bind 0 "Add" (.arrow (.var 4) (.var 3))).openScope 0).bind 2 "y" (.var 4) }
    let options : Options := ⟨true, false⟩
    let program : Program :=
      [.function ⟨"Add", ["y"], .binary .plus (.lower "y") (.str "a")⟩]
    let recorded : List Ty := [.var 0, .var 1, .var 3, .var 4]
    Ran [.var 0, .var 1] old ∧ Moment options program old [.var 3, .var 4] now ∧
      (∀ v, now.Mentions recorded v → v < 6) ∧
      (∃ v next, Infer.fresh now = .ok (.var v) next ∧ next.bindings.find? v = none ∧
        ¬ now.Mentions recorded v ∧ ¬ next.Mentions recorded v) ∧
      old.Through (fun passed => ∃ more, Moment options program old more passed) now := by
  intro old now options program recorded
  let failing : Program := [.function ⟨"Bad", ["x"], .apply (.int 1) (.lower "x")⟩]
  let called : TypingState := { now with allocated := 5, bindings := .empty }
  let asked : TypingState := { now with bindings := .empty }
  have hfailed : Checker.check options failing .initial = .ok
      ⟨(TypingState.declareAll failing .initial).1,
        [.error (.binding (.mismatch (.arrow (.var 1) (.var 2)) .int))]⟩ old := by rfl
  have hran : Ran [.var 0, .var 1] old := .check .new hfailed
  have hunify : Infer.Moment true
      (.unify (.arrow (.var 4) (.arrow .string (.var 5))) (.curried [.int, .int] .int)) asked now := by
    refine .within (.codomain (.plain (by simp)) (.plain (by simp)) ?_) .begins
    exact Unifier.derives_unify (by rfl) Outcome.ends_ok
  have hoperator : Infer.operator 2 "PLUS" called = .ok (.curried [.int, .int] .int) called := by rfl
  have hbody : Infer.Moment true (.infer 2 (.binary .plus (.lower "y") (.str "a"))) called now :=
    .within (.binary rfl rfl hoperator rfl) hunify
  have hmoment : Moment options program old [.var 3, .var 4] now :=
    .checking .here (.within (.functionBody rfl rfl rfl) hbody)
  have hrun : Checker.check options program old = .ok
      ⟨(TypingState.declareAll program old).1,
        [.error (.binding (.mismatch .string .int))]⟩ now := by rfl
  obtain ⟨hmoments, hthrough⟩ := Ran.fresh_is_new hran options program
  obtain ⟨hmentions, hnew⟩ := hmoments _ _ hmoment
  exact ⟨hran, hmoment, hmentions, hnew, hthrough _ _ hrun⟩

end Checker

end Monotype
