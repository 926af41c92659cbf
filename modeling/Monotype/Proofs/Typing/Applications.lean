import Monotype.Proofs.Typing.Principal

/-!
# `Monotype.Proofs.Typing.Applications` — operators are applications of what is bound to their names

Inference treats an operator in one step: both operands, and then one equation with the type of the
operator. Applying the value that is bound to the operator's name, to one operand after the other, takes
two steps, with one equation between them and one variable more. So the two come to other equations in
another order. By the rules they are the same, since the type of the operator is taken apart in the same
way. Patterns do not tell the two apart either, as both have a bare variable for their type. Acceptance,
and the signatures up to the names of variables, depend on no more than that.

## Contents
- **`Expr.asApplications`**, **`Program.asApplications`**: every operator as applications.
- **`hasType_binary_iff`**, **`hasType_unary_iff`**: one operator. **`hasType_asApplications_iff`**: all.
- **`Expr.fits_asApplications`**: the patterns.
- **`Program.TypedBy.asApplications`**, **`Program.TypedBy.exists_of_asApplications`**: typings.
- **`Checker.check_asApplications`**: verdict and signatures.
-/

namespace Monotype

/-! ## Operators as applications -/

mutual

/-- An expression with applications of what is bound to their names in place of operators. -/
def Expr.asApplications : Expr → Expr
  | .int value => .int value
  | .str text => .str text
  | .lower name => .lower name
  | .upper name => .upper name
  | .binary op left right =>
    .apply (.apply (.upper op.name) left.asApplications) right.asApplications
  | .unary op operand => .apply (.upper op.name) operand.asApplications
  | .apply function argument => .apply function.asApplications argument.asApplications
  | .case scrutinee branches => .case scrutinee.asApplications (Branch.asApplications branches)

/-- Branches with applications in place of operators. -/
def Branch.asApplications : List Branch → List Branch
  | [] => []
  | ⟨pattern, body⟩ :: others => ⟨pattern, body.asApplications⟩ :: Branch.asApplications others

end

/-- A definition with applications in place of operators. -/
def Definition.asApplications : Definition → Definition
  | .function definition => .function { definition with body := definition.body.asApplications }
  | .type definition => .type definition

/-- A program with applications in place of operators. -/
def Program.asApplications (program : Program) : Program := program.map Definition.asApplications

/-- A declared definition with applications in place of operators. -/
def Declared.asApplications (declared : Declared) : Declared :=
  { declared with definition := declared.definition.asApplications }

/-! ## Typing by the rules -/

variable {Γ : Context} {t a : Ty}

/-- An application is typed by the rule for applications only. -/
theorem hasType_apply_iff {function argument : Expr} :
    HasType Γ (.apply function argument) t ↔
      ∃ a, HasType Γ function (.arrow a t) ∧ HasType Γ argument a := by
  constructor
  · intro h
    cases h with
    | apply hfunction hargument => exact ⟨_, hfunction, hargument⟩
  · rintro ⟨a, hfunction, hargument⟩
    exact .apply hfunction hargument

theorem hasType_case_iff {scrutinee : Expr} {branches : List Branch} :
    HasType Γ (.case scrutinee branches) t ↔
      ∃ a, HasType Γ scrutinee a ∧ BranchesTyped Γ a t branches := by
  constructor
  · intro h
    cases h with
    | case hscrutinee hbranches => exact ⟨_, hscrutinee, hbranches⟩
  · rintro ⟨a, hscrutinee, hbranches⟩
    exact .case hscrutinee hbranches

theorem branchesTyped_cons_iff {pattern : Pattern} {body : Expr} {others : List Branch} :
    BranchesTyped Γ a t (⟨pattern, body⟩ :: others) ↔
      (∃ Γ', PatternTyped Γ pattern a Γ' ∧ HasType Γ' body t) ∧ BranchesTyped Γ a t others := by
  constructor
  · intro h
    cases h with
    | cons hpattern hbody hothers => exact ⟨⟨_, hpattern, hbody⟩, hothers⟩
  · rintro ⟨⟨Γ', hpattern, hbody⟩, hothers⟩
    exact .cons hpattern hbody hothers

/-- A binary operator types as what is bound to its name does, applied to one operand and the other. -/
theorem hasType_binary_iff {op : BinaryOperator} {left right : Expr} :
    HasType Γ (.binary op left right) t ↔
      HasType Γ (.apply (.apply (.upper op.name) left) right) t := by
  constructor
  · intro h
    cases h with
    | binary hleft hright hop => exact .apply (.apply (.upper hop) hleft) hright
  · intro h
    obtain ⟨b, hpartial, hright⟩ := hasType_apply_iff.mp h
    obtain ⟨a, hop, hleft⟩ := hasType_apply_iff.mp hpartial
    cases hop with
    | upper hname => exact .binary hleft hright hname

/-- A unary operator types as what is bound to its name does, applied to the operand. -/
theorem hasType_unary_iff {op : UnaryOperator} {operand : Expr} :
    HasType Γ (.unary op operand) t ↔ HasType Γ (.apply (.upper op.name) operand) t := by
  constructor
  · intro h
    cases h with
    | unary hoperand hop => exact .apply (.upper hop) hoperand
  · intro h
    obtain ⟨a, hop, hoperand⟩ := hasType_apply_iff.mp h
    cases hop with
    | upper hname => exact .unary hoperand hname

mutual

/-- **An expression types as it does with applications in place of all operators.** -/
theorem hasType_asApplications_iff : ∀ (e : Expr) {Γ : Context} {t : Ty},
    HasType Γ e.asApplications t ↔ HasType Γ e t
  | .int _, _, _ | .str _, _, _ | .lower _, _, _ | .upper _, _, _ => Iff.rfl
  | .binary op left right, _, _ => by
    simp only [Expr.asApplications, hasType_binary_iff, hasType_apply_iff,
      hasType_asApplications_iff left, hasType_asApplications_iff right]
  | .unary op operand, _, _ => by
    simp only [Expr.asApplications, hasType_unary_iff, hasType_apply_iff,
      hasType_asApplications_iff operand]
  | .apply function argument, _, _ => by
    simp only [Expr.asApplications, hasType_apply_iff, hasType_asApplications_iff function,
      hasType_asApplications_iff argument]
  | .case scrutinee branches, _, _ => by
    simp only [Expr.asApplications, hasType_case_iff, hasType_asApplications_iff scrutinee,
      branchesTyped_asApplications_iff branches]

/-- The bodies of branches, each in the scope that its own pattern makes. -/
theorem branchesTyped_asApplications_iff : ∀ (branches : List Branch) {Γ : Context} {a t : Ty},
    BranchesTyped Γ a t (Branch.asApplications branches) ↔ BranchesTyped Γ a t branches
  | [], _, _, _ => Iff.rfl
  | ⟨pattern, body⟩ :: others, _, _, _ => by
    simp only [Branch.asApplications, branchesTyped_cons_iff, hasType_asApplications_iff body,
      branchesTyped_asApplications_iff others]

end

/-! ## Patterns -/

/-- An operator and an application both return a bare variable. -/
theorem Expr.shape_asApplications (e : Expr) (Γ : Context) :
    e.asApplications.shape Γ = e.shape Γ := by
  cases e <;> rfl

mutual

/-- The same patterns fit with applications in place of operators. -/
theorem Expr.fits_asApplications : ∀ (e : Expr) (Γ : Context), e.asApplications.fits Γ = e.fits Γ
  | .int _, _ | .str _, _ | .lower _, _ | .upper _, _ => rfl
  | .binary op left right, Γ => by
    simp only [Expr.asApplications, Expr.fits, Bool.true_and, left.fits_asApplications Γ,
      right.fits_asApplications Γ]
  | .unary op operand, Γ => by
    simp only [Expr.asApplications, Expr.fits, Bool.true_and, operand.fits_asApplications Γ]
  | .apply function argument, Γ => by
    simp only [Expr.asApplications, Expr.fits, function.fits_asApplications Γ,
      argument.fits_asApplications Γ]
  | .case scrutinee branches, Γ => by
    simp only [Expr.asApplications, Expr.fits, scrutinee.fits_asApplications Γ,
      scrutinee.shape_asApplications Γ, Branch.fit_asApplications branches Γ]

theorem Branch.fit_asApplications : ∀ (branches : List Branch) (Γ : Context) (scrutinee : Ty),
    Branch.fit Γ scrutinee (Branch.asApplications branches) = Branch.fit Γ scrutinee branches
  | [], _, _ => rfl
  | ⟨pattern, body⟩ :: others, Γ, scrutinee => by
    simp only [Branch.asApplications, Branch.fit, Expr.fits_asApplications body,
      Branch.fit_asApplications others Γ scrutinee]

end

/-! ## Definitions and programs -/

namespace Declared

/-- Signatures do not depend on bodies. -/
theorem signatures_asApplications (declared : Declared) :
    declared.asApplications.signatures = declared.signatures := by
  obtain ⟨definition, declaration⟩ := declared
  match definition, declaration with
  | .function _, some (.function _ _) | .type _, some (.type _) => rfl
  | .function _, none | .function _, some (.type _) => rfl
  | .type _, none | .type _, some (.function _ _) => rfl

theorem flatMap_signatures_asApplications (definitions : List Declared) :
    (definitions.map asApplications).flatMap signatures = definitions.flatMap signatures := by
  rw [List.flatMap_map]
  exact List.flatMap_congr fun declared _ => declared.signatures_asApplications

theorem shaped_asApplications_iff (declared : Declared) :
    declared.asApplications.Shaped ↔ declared.Shaped := by
  obtain ⟨definition, declaration⟩ := declared
  constructor
  · intro h
    cases definition with
    | function _ => cases h with | function hlength => exact .function hlength
    | type _ => cases h with | type hmakes => exact .type hmakes
  · intro h
    cases h with
    | function hlength => exact .function hlength
    | type hmakes => exact .type hmakes

/-- **A body is typed as it is with applications in place of operators.** -/
theorem bodyTyped_asApplications_iff (declared : Declared) :
    declared.asApplications.BodyTyped Γ ↔ declared.BodyTyped Γ := by
  obtain ⟨definition, declaration⟩ := declared
  constructor
  · intro h
    cases definition with
    | function definition =>
      cases h with
      | function hbody => exact .function ((hasType_asApplications_iff definition.body).mp hbody)
    | type _ => exact .type
  · intro h
    cases h with
    | @function definition _ _ hbody =>
      exact .function ((hasType_asApplications_iff definition.body).mpr hbody)
    | type => exact .type

theorem fits_asApplications (declared : Declared) (Γ : Context) :
    declared.asApplications.fits Γ = declared.fits Γ := by
  obtain ⟨definition, declaration⟩ := declared
  match definition, declaration with
  | .function definition, some (.function _ _) => exact definition.body.fits_asApplications _
  | .function _, none | .function _, some (.type _) | .type _, _ => rfl

end Declared

theorem Context.declare_asApplications (Γ : Context) (definitions : List Declared) :
    Γ.declare (definitions.map Declared.asApplications) = Γ.declare definitions := by
  rw [declare, declare, Declared.entries, Declared.flatMap_signatures_asApplications,
    Declared.entries]

theorem Definition.blank_asApplications (definition : Definition) :
    definition.asApplications.blank = definition.blank.asApplications := by
  cases definition <;> rfl

namespace Program

variable {program : Program} {assigned : List Declared}

/-- Patterns stay what they are, and so they fit or not. -/
theorem fits_asApplications (program : Program) : program.asApplications.fits = program.fits := by
  have hblank : program.asApplications.map Definition.blank =
      (program.map Definition.blank).map Declared.asApplications := by
    rw [asApplications, List.map_map, List.map_map]
    exact List.map_congr_left fun definition _ => definition.blank_asApplications
  rw [fits, hblank, Context.declare_asApplications, List.all_map, fits]
  congr 1
  funext declared
  exact declared.fits_asApplications _

/-- A typing of a program types the program with applications in place of operators. -/
theorem TypedBy.asApplications (h : program.TypedBy assigned) :
    program.asApplications.TypedBy (assigned.map Declared.asApplications) := by
  obtain ⟨rfl, hshaped, hbodies⟩ := h
  refine ⟨?_, ?_, ?_⟩
  · rw [Program.asApplications, List.map_map, List.map_map]
    rfl
  · exact List.forall_mem_map.mpr fun declared hmem =>
      declared.shaped_asApplications_iff.mpr (hshaped declared hmem)
  · rw [Context.declare_asApplications]
    exact List.forall_mem_map.mpr fun declared hmem =>
      declared.bodyTyped_asApplications_iff.mpr (hbodies declared hmem)

/-- Definitions with applications are those of some program, with what is declared for them. -/
theorem exists_map_asApplications {assigned' : List Declared}
    (h : assigned'.map Declared.definition = program.asApplications) :
    ∃ assigned : List Declared, assigned.map Declared.definition = program ∧
      assigned.map Declared.asApplications = assigned' := by
  induction program generalizing assigned' with
  | nil =>
    obtain rfl := List.map_eq_nil_iff.mp h
    exact ⟨[], rfl, rfl⟩
  | cons definition others ih =>
    obtain ⟨declared, rest, rfl, hdeclared, hrest⟩ := List.map_eq_cons_iff.mp h
    obtain ⟨assigned, rfl, rfl⟩ := ih hrest
    refine ⟨⟨definition, declared.declaration⟩ :: assigned, rfl, ?_⟩
    rw [List.map_cons, Declared.asApplications, ← hdeclared]

/-- Every typing of a program with applications in place of operators comes from one of the program. -/
theorem TypedBy.exists_of_asApplications {assigned' : List Declared}
    (h : program.asApplications.TypedBy assigned') :
    ∃ assigned, program.TypedBy assigned ∧ assigned.map Declared.asApplications = assigned' := by
  obtain ⟨hdefinitions, hshaped, hbodies⟩ := h
  obtain ⟨assigned, hassigned, rfl⟩ := exists_map_asApplications hdefinitions
  rw [Context.declare_asApplications] at hbodies
  refine ⟨assigned, ⟨hassigned, fun declared hmem => ?_, fun declared hmem => ?_⟩, rfl⟩
  · exact declared.shaped_asApplications_iff.mp (hshaped _ (List.mem_map_of_mem hmem))
  · exact declared.bodyTyped_asApplications_iff.mp (hbodies _ (List.mem_map_of_mem hmem))

end Program

/-! ## Checking -/

namespace Checker

/-- **Operators are exactly applications of what is bound to their names.** Check any program, and the
program with such applications in place of its operators, with the occurs check, each with a new checker.
Both runs come to a report. The one is accepted exactly if the other is; and then one renaming of
variables makes the signatures of the one those of the other. -/
theorem check_asApplications (keepGoing keepGoing' : Bool) (program : Program) :
    ∃ report final report' final',
      check ⟨true, keepGoing⟩ program .initial = .ok report final ∧
      check ⟨true, keepGoing'⟩ program.asApplications .initial = .ok report' final' ∧
      report.accepted = report'.accepted ∧
      (report.accepted = true → ∃ ρ : Equiv.Perm Nat,
        (final.signatures report.declared).map (Signature.rename ρ) =
          final'.signatures report'.declared) := by
  obtain ⟨report, final, h, _⟩ :=
    exists_check_eq_ok (s := .initial) Bindings.acyclic_empty keepGoing program
  obtain ⟨report', final', h', _⟩ :=
    exists_check_eq_ok (s := .initial) Bindings.acyclic_empty keepGoing' program.asApplications
  -- the two programs have the same typings, and the same patterns fit
  have hsame : report.accepted = true ↔ report'.accepted = true := by
    rw [accepted_iff h, accepted_iff h', program.fits_asApplications]
    refine and_congr_right fun _ => ⟨?_, ?_⟩
    · rintro ⟨assigned, htyped⟩
      exact ⟨_, htyped.asApplications⟩
    · rintro ⟨_, htyped⟩
      obtain ⟨assigned, htyped, _⟩ := htyped.exists_of_asApplications
      exact ⟨assigned, htyped⟩
  refine ⟨report, final, report', final', h, h', Bool.eq_iff_iff.mpr hsame, fun haccepted => ?_⟩
  -- and so the signatures of each are an instance of those of the other
  obtain ⟨hfits, assigned, htyped, hsignatures⟩ := typedBy_of_accepted h haccepted
  obtain ⟨hfits', assigned', htyped', hsignatures'⟩ := typedBy_of_accepted h' (hsame.mp haccepted)
  obtain ⟨origin, horigin, rfl⟩ := htyped'.exists_of_asApplications
  obtain ⟨_, _, hcheck, _, θ, hθ⟩ := check_complete_of_fits ⟨true, keepGoing⟩ hfits horigin
  obtain ⟨rfl, rfl⟩ := Outcome.ok.inj (h.symm.trans hcheck)
  obtain ⟨_, _, hcheck', _, θ', hθ'⟩ :=
    check_complete_of_fits ⟨true, keepGoing'⟩ hfits' htyped.asApplications
  obtain ⟨rfl, rfl⟩ := Outcome.ok.inj (h'.symm.trans hcheck')
  rw [Declared.flatMap_signatures_asApplications] at hsignatures' hθ'
  exact Signature.exists_rename (hθ.trans hsignatures'.symm) (hθ'.trans hsignatures.symm)

end Checker

end Monotype
