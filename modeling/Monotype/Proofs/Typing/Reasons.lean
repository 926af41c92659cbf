import Monotype.Proofs.Typing.Failures
import Monotype.Proofs.Typing.Operators

/-!
# `Monotype.Proofs.Typing.Reasons` — why inference fails

Inference that fails does so at one place of the expression. Either a name is looked up there of which the
scope says nothing, or types do not fit. Such a scope knows no more than the scope of the whole and the
patterns on the way, so it can be told from the expression alone which names it lacks. And what an error
shows of types is what is known in the state that inference leaves: nothing is bound after that.

## Contents
- **`Context.Adds`**: a scope that knows what another one knows, and some names.
- **`Unifier.Misfit`**, **`Unifier.Derives.misfit`**: how types do not fit.
- **`Expr.references`**, **`Expr.matched`**: the names that are looked up at a place.
- **`Lexical.Reason`**, **`Lexical.ReasonWithin`**: a reason for an error, and one within an expression.
- **`Lexical.reasonWithin_of_infer`**, **`Lexical.reasonWithin_of_checkDefinition`**.
- **`Checker.Raises.exists_reason`**: there is a reason for every error that a run raises.
-/

namespace Monotype

/-! ## Scopes that know more names -/

namespace Context

variable {Γ Γ₁ Γ₂ : Context} {names others : List String}

/-- The second scope knows of the names that the first one knows of, and of these. -/
def Adds (Γ : Context) (names : List String) (Γ' : Context) : Prop :=
  ∀ name, Γ' name = none ↔ name ∉ names ∧ Γ name = none

theorem Adds.refl (Γ : Context) : Γ.Adds [] Γ := fun name => by simp

theorem Adds.trans (h : Γ.Adds names Γ₁) (h' : Γ₁.Adds others Γ₂) : Γ.Adds (names ++ others) Γ₂ := by
  intro name
  rw [h' name, h name, List.mem_append, not_or, and_left_comm, and_assoc]

theorem Adds.bind (Γ : Context) (name : String) (t : Ty) : Γ.Adds [name] (Γ.bind name t) := by
  intro other
  rw [bind_apply, List.mem_singleton]
  by_cases h : other = name <;> simp [h]

theorem Adds.bindAll (Γ : Context) (entries : List (String × Ty)) :
    Γ.Adds (entries.map Prod.fst) (Γ.bindAll entries) := by
  induction entries generalizing Γ with
  | nil => exact .refl Γ
  | cons entry entries ih => exact (Adds.bind Γ entry.1 entry.2).trans (ih (Γ.bind entry.1 entry.2))

/-- Names with a type for each. -/
theorem Adds.bindAll_zip (Γ : Context) {types : List Ty} (h : types.length = names.length) :
    Γ.Adds names (Γ.bindAll (names.zip types)) := by
  have hadds := Adds.bindAll Γ (names.zip types)
  rwa [List.map_fst_zip h.ge] at hadds

end Context

/-! ## Types that do not fit -/

namespace Unifier

variable {strict : Bool} {b b' : Bindings} {left right : Ty} {error : UnifyError}

/-- What is wrong where two types cannot be made equal, and what is shown of it. -/
inductive Misfit (strict : Bool) (b : Bindings) : TypeError → Prop
  | mismatch {left right : Ty} (h : Clash left right) :
      Misfit strict b (.binding (.mismatch (b.zonk left) (b.zonk right)))
  | infinite {v : Nat} {t : Ty} (hs : strict = true) (hv : b.find? v = none) (ht : t.isVar = false)
      (hocc : b.occurs? v t = some true) : Misfit strict b (.binding (.infinite v (b.zonk t)))

/-- **A unification that fails** does so at two types that clash or at a variable that occurs in what it would
be bound to, and binds nothing after it has found them. -/
theorem Derives.misfit (h : Derives strict left right b (.error error b')) :
    Misfit strict b' (TypeError.ofUnify error b') := by
  generalize ho : Outcome.error error b' = o at h
  induction h with
  | bind _ _ => cases ho
  | infinite hflex hs ht hocc =>
    cases ho
    exact .infinite hs hflex.find?_eq_none ht hocc
  | base _ _ => cases ho
  | mismatch _ _ hclash =>
    cases ho
    exact .mismatch hclash
  | domain _ _ _ iha =>
    cases ho
    exact iha rfl
  | arrow _ _ _ _ _ ihc => exact ihc ho

end Unifier

/-! ## Names that are looked up -/

/-- The name that the expression refers to, if that is all it is. -/
def Expr.references : Expr → List String
  | .lower name => [name]
  | .upper name => [name]
  | _ => []

/-- The names of the constructors that the branches of a case match. -/
def Expr.matched : Expr → List String
  | .case _ branches => branches.flatMap fun branch => branch.pattern.looksUp
  | _ => []

namespace Lexical

variable {strict : Bool} {Γ Γ' : Context} {e e' : Expr} {t u : Ty} {s s' : Store} {b : Bindings}
  {error : TypeError} {names : List String}

/-! ## Reasons -/

/-- Why inference of an expression fails by itself, and not by its parts, in a scope. Types are shown as they
are known under these bindings. -/
inductive Reason (strict : Bool) (Γ : Context) (b : Bindings) : Expr → TypeError → Prop
  | reference {e : Expr} {name : String} (he : name ∈ e.references) (hname : Γ name = none) :
      Reason strict Γ b e (.undefinedVariable name)
  | operator {e : Expr} {name : String} (he : e.operator? = some name) (hname : Γ name = none) :
      Reason strict Γ b e (.binding (.unboundOperator name))
  | constructor {e : Expr} {name : String} (he : name ∈ e.matched) (hname : Γ name = none) :
      Reason strict Γ b e (.undefinedConstructor name)
  | tooManyFields {e : Expr} {name : String} {t : Ty} (he : name ∈ e.matched)
      (hname : Γ name = some t) : Reason strict Γ b e (.binding (.tooManyFields name (b.zonk t)))
  | notNominal {e : Expr} {name : String} {fields : List Ty} {t : Ty} (he : name ∈ e.matched)
      (hname : Γ name = some (.curried fields t)) :
      Reason strict Γ b e (.binding (.notNominal name (b.zonk t)))
  | misfit {e : Expr} {error : TypeError} (h : Unifier.Misfit strict b error) :
      Reason strict Γ b e error

/-- There is a place within an expression at which inference fails by itself, with a scope that knows of the
names that the scope of the whole knows of and of those that are bound on the way. -/
def ReasonWithin (strict : Bool) (Γ : Context) (b : Bindings) (e : Expr) (error : TypeError) : Prop :=
  ∃ path names place Γ', e.Within path names place ∧ Γ.Adds names Γ' ∧ Reason strict Γ' b place error

theorem Reason.within (h : Reason strict Γ b e error) : ReasonWithin strict Γ b e error :=
  ⟨[], [], e, Γ, .here, .refl Γ, h⟩

/-- A reason in a part of an expression is one in the expression. It is in the scope that the part is
in. -/
theorem ReasonWithin.part {step : Expr.Step} (h : ReasonWithin strict Γ' b e' error)
    (hpart : e.Part step names e') (hΓ : Γ.Adds names Γ') : ReasonWithin strict Γ b e error := by
  obtain ⟨path, others, place, Γ'', hwithin, hadds, hreason⟩ := h
  exact ⟨step :: path, names ++ others, place, Γ'', .part hpart hwithin, hΓ.trans hadds, hreason⟩

/-! ## Steps -/

/-- An error of unification has its reason in the bindings that are left. -/
theorem misfit_of_unify (h : unify strict t u s = .error error s') :
    Unifier.Misfit strict s'.bindings error := by
  unfold unify at h
  cases ho : Unifier.unify strict t u s.bindings with
  | ok value b => rw [ho] at h; cases h
  | error e b =>
    rw [ho] at h
    cases h
    exact (Unifier.derives_unify ho (by simp)).misfit
  | endless => rw [ho] at h; cases h

theorem misfit_of_result (expected : Ty → Ty) {actual : Ty}
    (h : (do let result ← fresh; unify strict (expected result) actual; return result : Solver Ty) s
      = .error error s') : Unifier.Misfit strict s'.bindings error := by
  obtain ⟨⟨⟩⟩ | ⟨result, s₁, _, h⟩ := Outcome.bind_eq_error_iff.mp h
  obtain h | ⟨_, s₂, _, ⟨⟩⟩ := Outcome.bind_eq_error_iff.mp h
  exact misfit_of_unify h

/-- A name is missing only where the scope does not have it. -/
theorem lookup_eq_error {name : String} {missing : TypeError}
    (h : lookup Γ name missing s = .error error s') : Γ name = none ∧ error = missing ∧ s' = s := by
  unfold lookup at h
  cases hname : Γ name with
  | none =>
    rw [hname] at h
    cases h
    exact ⟨rfl, rfl, rfl⟩
  | some t => rw [hname] at h; cases h

/-- The walk over the type of a constructor fails in one way only: the pattern has too many names for it. -/
theorem bindFields_eq_error {constructor : String} {whole : Ty} {params : List String}
    (h : bindFields constructor whole Γ t params s = .error error s') :
    error = .binding (.tooManyFields constructor (s.bindings.zonk whole)) ∧ s' = s := by
  induction params generalizing Γ t with
  | nil =>
    rw [bindFields] at h
    cases h
  | cons param others ih =>
    cases t with
    | var v => cases h; exact ⟨rfl, rfl⟩
    | base n => cases h; exact ⟨rfl, rfl⟩
    | arrow domain codomain => exact ih h

/-- A pattern is rejected at the case that its branch belongs to. -/
theorem reason_of_matchPattern {pattern : Pattern}
    (h : matchPattern strict Γ pattern t s = .error error s')
    (he : ∀ name ∈ pattern.looksUp, name ∈ e.matched) : Reason strict Γ s'.bindings e error := by
  cases pattern with
  | var name => cases h
  | constructor name params =>
    have he : name ∈ e.matched := he name List.mem_cons_self
    obtain hlookup | ⟨whole, s₁, hlookup, hwhole⟩ := Outcome.bind_eq_error_iff.mp h
    · obtain ⟨hname, rfl, rfl⟩ := lookup_eq_error hlookup
      exact .constructor he hname
    obtain ⟨hname, rfl⟩ := lookup_eq_ok hlookup
    obtain hfields | ⟨⟨inner, made⟩, s₂, hfields, hmade⟩ := Outcome.bind_eq_error_iff.mp hwhole
    · obtain ⟨rfl, rfl⟩ := bindFields_eq_error hfields
      exact .tooManyFields he hname
    obtain ⟨rfl, fields, rfl, _, _⟩ := bindFields_eq_ok hfields
    cases made with
    | var v => cases hmade; exact .notNominal he hname
    | arrow domain codomain => cases hmade; exact .notNominal he hname
    | base n =>
      obtain hunify | ⟨_, s₃, _, ⟨⟩⟩ := Outcome.bind_eq_error_iff.mp hmade
      exact .misfit (misfit_of_unify hunify)

/-- The scope of a branch knows the names of its pattern. -/
theorem adds_of_matchPattern {pattern : Pattern}
    (h : matchPattern strict Γ pattern t s = .ok Γ' s') : Γ.Adds pattern.binds Γ' := by
  rcases matchPattern_eq_ok h with ⟨name, rfl, rfl⟩ | ⟨_, params, _, fields, rfl, _, hlength, rfl, _⟩
  · exact .bind Γ name t
  · exact .bindAll_zip Γ hlength

/-! ## Expressions -/

mutual

/-- **Inference that fails does so at a place** within the expression, for a reason. -/
theorem reasonWithin_of_infer (strict : Bool) : ∀ (e : Expr) {Γ : Context} {s s' : Store}
    {error : TypeError}, infer strict Γ e s = .error error s' →
    ReasonWithin strict Γ s'.bindings e error
  | .int _, _, _, _, _, h => by unfold infer at h; cases h
  | .str _, _, _, _, _, h => by unfold infer at h; cases h
  | .lower name, _, _, _, _, h => by
    unfold infer at h
    obtain ⟨hname, rfl, rfl⟩ := lookup_eq_error h
    exact (Reason.reference List.mem_cons_self hname).within
  | .upper name, _, _, _, _, h => by
    unfold infer at h
    obtain ⟨hname, rfl, rfl⟩ := lookup_eq_error h
    exact (Reason.reference List.mem_cons_self hname).within
  | .binary op left right, Γ, _, _, _, h => by
    unfold infer at h
    -- the first part that fails has the place; the bindings of its error are the final ones
    obtain h | ⟨a, s₁, _, h⟩ := Outcome.bind_eq_error_iff.mp h
    · exact (reasonWithin_of_infer strict left h).part .left (.refl Γ)
    obtain h | ⟨c, s₂, _, h⟩ := Outcome.bind_eq_error_iff.mp h
    · exact (reasonWithin_of_infer strict right h).part .right (.refl Γ)
    obtain h | ⟨operator, s₃, _, h⟩ := Outcome.bind_eq_error_iff.mp h
    · obtain ⟨hname, rfl, rfl⟩ := lookup_eq_error h
      exact (Reason.operator rfl hname).within
    · have hmisfit := misfit_of_result (fun result => .arrow a (.arrow c result)) h
      exact (Reason.misfit hmisfit).within
  | .unary op operand, Γ, _, _, _, h => by
    unfold infer at h
    obtain h | ⟨a, s₁, _, h⟩ := Outcome.bind_eq_error_iff.mp h
    · exact (reasonWithin_of_infer strict operand h).part .operand (.refl Γ)
    obtain h | ⟨operator, s₂, _, h⟩ := Outcome.bind_eq_error_iff.mp h
    · obtain ⟨hname, rfl, rfl⟩ := lookup_eq_error h
      exact (Reason.operator rfl hname).within
    · have hmisfit := misfit_of_result (fun result => .arrow a result) h
      exact (Reason.misfit hmisfit).within
  | .apply function argument, Γ, _, _, _, h => by
    unfold infer at h
    obtain h | ⟨f, s₁, _, h⟩ := Outcome.bind_eq_error_iff.mp h
    · exact (reasonWithin_of_infer strict function h).part .function (.refl Γ)
    obtain h | ⟨a, s₂, _, h⟩ := Outcome.bind_eq_error_iff.mp h
    · exact (reasonWithin_of_infer strict argument h).part .argument (.refl Γ)
    · have hmisfit := misfit_of_result (fun result => .arrow a result) h
      exact (Reason.misfit hmisfit).within
  | .case scrutinee branches, Γ, _, _, _, h => by
    unfold infer at h
    obtain h | ⟨a, s₁, _, h⟩ := Outcome.bind_eq_error_iff.mp h
    · exact (reasonWithin_of_infer strict scrutinee h).part .scrutinee (.refl Γ)
    -- a fresh variable is always there, and nothing fails after the branches
    obtain ⟨⟨⟩⟩ | ⟨result, s₂, _, h⟩ := Outcome.bind_eq_error_iff.mp h
    obtain h | ⟨_, s₃, _, ⟨⟩⟩ := Outcome.bind_eq_error_iff.mp h
    exact reasonWithin_of_inferBranches strict branches scrutinee (List.Subset.refl _) h

theorem reasonWithin_of_inferBranches (strict : Bool) : ∀ (branches : List Branch) (e : Expr)
    {all : List Branch} {Γ : Context} {a result : Ty} {s s' : Store} {error : TypeError},
    branches ⊆ all → inferBranches strict Γ a result branches s = .error error s' →
    ReasonWithin strict Γ s'.bindings (.case e all) error
  | [], _, _, _, _, _, _, _, _, _, h => by unfold inferBranches at h; cases h
  | ⟨pattern, body⟩ :: others, e, all, _, _, _, _, _, _, hall, h => by
    rw [List.cons_subset] at hall
    unfold inferBranches at h
    obtain h | ⟨inner, s₁, hpattern, h⟩ := Outcome.bind_eq_error_iff.mp h
    · have hmatched : ∀ name ∈ pattern.looksUp, name ∈ (Expr.case e all).matched :=
        fun name hname => List.mem_flatMap.mpr ⟨_, hall.1, hname⟩
      exact (reason_of_matchPattern h hmatched).within
    obtain h | ⟨t, s₂, _, h⟩ := Outcome.bind_eq_error_iff.mp h
    · obtain ⟨i, hi⟩ := List.getElem?_of_mem hall.1
      exact (reasonWithin_of_infer strict body h).part (.branch hi) (adds_of_matchPattern hpattern)
    obtain h | ⟨_, s₃, _, h⟩ := Outcome.bind_eq_error_iff.mp h
    · exact (Reason.misfit (misfit_of_unify h)).within
    · exact reasonWithin_of_inferBranches strict others e hall.2 h

end

/-! ## Definitions -/

/-- **A definition fails because of its body.** That it was declared is never in doubt. -/
theorem reasonWithin_of_checkDefinition {declared : Declared} (hshaped : declared.Shaped)
    (h : checkDefinition strict Γ declared s = .error error s') :
    ∃ definition Γ', declared.definition = .function definition ∧ Γ.Adds definition.params Γ' ∧
      ReasonWithin strict Γ' s'.bindings definition.body error := by
  cases hshaped with
  | type _ => cases h
  | @function definition result params hlength =>
    simp only [checkDefinition, if_pos hlength] at h
    refine ⟨definition, _, rfl, .bindAll_zip Γ hlength, ?_⟩
    obtain h | ⟨t, s₁, _, h⟩ := Outcome.bind_eq_error_iff.mp h
    · exact reasonWithin_of_infer strict definition.body h
    · exact (Reason.misfit (misfit_of_unify h)).within

end Lexical

/-! ## Runs of the checker -/

namespace Checker

variable {options : Options} {program : Program} {definitions : List Declared} {declared : Declared}
  {Γ : Context} {s s' s₁ : TypingState} {i : Nat} {error : DefinitionError}

/-- The root sees at every definition what it saw at first. -/
theorem Reaches.sees (h : Reaches options definitions s i declared s₁)
    (hΓ : s.environment.Sees Environment.root Γ) : s₁.environment.Sees Environment.root Γ := by
  obtain ⟨vs, hvs⟩ := h.exists_verdicts
  have hagrees := verdicts_agrees options (definitions.take i) (List.suffix_refl _) hΓ
  rw [hvs] at hagrees
  exact hΓ.later hagrees.of_ok.1

/-- What unification keeps of bindings is kept up to every definition. -/
theorem Reaches.keeps {R : Bindings → Bindings → Prop} (hR : Unifier.Kept options.occursCheck R)
    (h : Reaches options definitions s i declared s₁) : R s.bindings s₁.bindings := by
  obtain ⟨vs, hvs⟩ := h.exists_verdicts
  exact (verdicts_keeps hR options.keepGoing (definitions.take i)).of_ok hvs

/-- What unification keeps of bindings is kept up to every error. -/
theorem Raises.keeps {R : Bindings → Bindings → Prop} (hR : Unifier.Kept options.occursCheck R)
    (h : Raises options program s i error s') : R s.bindings s'.bindings := by
  obtain ⟨declared, s₁, hreaches, herror, _⟩ := h
  have hcheck := (Infer.congruence_of_kept hR).checkDefinition declared
  have hlast := hcheck s₁ s' (by rw [herror]; rfl)
  rw [← (TypingState.declares_declareAll program s).bindings_eq]
  exact hR.trans (hreaches.keeps hR) hlast

/-- **There is a reason for every error that a run raises**, in the body of the function at its place. -/
theorem Raises.exists_reason (h : Raises options program s i error s')
    (hΓ : s.environment.Sees Environment.root Γ) :
    ∃ definition Γ', program[i]? = some (.function definition) ∧ error.definition = definition.name ∧
      (Γ.declare (TypingState.declareAll program s).1).Adds definition.params Γ' ∧
      Lexical.ReasonWithin options.occursCheck Γ' s'.bindings definition.body error.error := by
  obtain ⟨declared, s₁, hreaches, herror, hname⟩ := h
  obtain ⟨hplace, hmem⟩ := hreaches.getElem?_program
  have hroot := hreaches.sees ((TypingState.declares_declareAll program s).sees hΓ)
  have hagrees := checkDefinition_agrees options.occursCheck declared (List.suffix_refl _) hroot
  rw [herror] at hagrees
  generalize hlexical : Lexical.checkDefinition _ _ _ _ = o at hagrees
  cases hagrees
  obtain ⟨definition, Γ', hdefinition, hadds, hreason⟩ :=
    Lexical.reasonWithin_of_checkDefinition (TypingState.shaped_of_mem_declareAll program s _ hmem)
      hlexical
  exact ⟨definition, Γ', hdefinition ▸ hplace, by rw [hname, hdefinition]; rfl, hadds, hreason⟩

end Checker

end Monotype
