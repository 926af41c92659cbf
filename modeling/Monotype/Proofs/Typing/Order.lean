import Monotype.Proofs.Typing.Principal

/-!
# `Monotype.Proofs.Typing.Order` — definitions may stand in any order

The order of definitions decides which variables are handed out for what, which equation comes first, and
how far checking has got when a body is looked at. None of this is seen in the end. If no name is declared
twice, the root scope does not depend on the order, so the typings of a program are those of the other
order with their declarations moved along, and the same patterns fit. And acceptance, and the signatures
up to the names of variables, depend on no more than that.

A name that is declared twice would stand for its last declaration, which the order decides.

## Contents
- **`Definition.declares`**, **`Program.declares`**: the names that are declared.
- **`Context.bindAll_perm`**, **`Context.operators_declare_perm`**: scopes without equal names.
- **`Program.TypedBy.perm`**, **`Program.fits_of_perm`**: typings and patterns in another order.
- **`Checker.check_perm`**: verdict and signatures in another order.
-/

namespace Monotype

/-! ## Declared names -/

/-- The names that a definition declares: that of a function, or those of all constructors of a type. -/
def Definition.declares : Definition → List String
  | .function definition => [definition.name]
  | .type definition => definition.constructors.map Constructor.name

/-- The names that a program declares, in order. -/
def Program.declares (program : Program) : List String := program.flatMap Definition.declares

theorem Declared.Shaped.names {declared : Declared} (h : declared.Shaped) :
    declared.signatures.map Signature.name = declared.definition.declares := by
  cases h with
  | function _ => rfl
  | @type definition signatures hmakes =>
    have hlength : definition.constructors.length ≤ signatures.length := hmakes.length_eq.le
    show (((definition.constructors.zip signatures).map _).map _) = _
    rw [List.map_map]
    show (definition.constructors.zip signatures).map (Constructor.name ∘ Prod.fst) = _
    rw [← List.map_map, List.map_fst_zip hlength]
    rfl

/-- The signatures of declared definitions have the names that the program declares. -/
theorem Declared.names_flatMap_signatures {definitions : List Declared}
    (hshaped : ∀ declared ∈ definitions, declared.Shaped) :
    (definitions.flatMap Declared.signatures).map Signature.name =
      Program.declares (definitions.map Declared.definition) := by
  rw [Program.declares, List.map_flatMap, List.flatMap_map]
  exact List.flatMap_congr fun declared hmem => (hshaped declared hmem).names

/-- Names of the entries of declared definitions. -/
theorem Declared.map_fst_entries {definitions : List Declared}
    (hshaped : ∀ declared ∈ definitions, declared.Shaped) :
    (entries definitions).map Prod.fst = Program.declares (definitions.map Declared.definition) := by
  rw [← names_flatMap_signatures hshaped, entries, List.map_map]
  rfl

/-! ## Scopes without equal names -/

namespace Context

theorem bind_comm (Γ : Context) {name other : String} (h : name ≠ other) (t u : Ty) :
    (Γ.bind name t).bind other u = (Γ.bind other u).bind name t := by
  funext x
  simp only [bind_apply]
  by_cases hother : x = other
  · rw [if_pos hother, if_neg fun hname => h (hname.symm.trans hother), if_pos hother]
  · rw [if_neg hother, if_neg hother]

/-- If no name is bound twice, names may be bound in any order. -/
theorem bindAll_perm (Γ : Context) {entries entries' : List (String × Ty)}
    (hperm : entries.Perm entries') (hnames : (entries.map Prod.fst).Nodup) :
    Γ.bindAll entries = Γ.bindAll entries' := by
  induction hperm generalizing Γ with
  | nil => rfl
  | cons entry _ ih =>
    rw [List.map_cons, List.nodup_cons] at hnames
    exact ih (Γ.bind entry.1 entry.2) hnames.2
  | swap entry entry' others =>
    have hne : entry'.1 ≠ entry.1 := fun heq =>
      (List.nodup_cons.mp hnames).1 (List.mem_cons.mpr (.inl heq))
    rw [bindAll_cons, bindAll_cons, bindAll_cons, bindAll_cons, bind_comm Γ hne]
  | trans hperm _ ih ih' =>
    exact (ih Γ hnames).trans (ih' Γ ((hperm.map Prod.fst).nodup_iff.mp hnames))

/-- The root scope of what is declared does not depend on the order. -/
theorem operators_declare_perm {definitions definitions' : List Declared}
    (hperm : definitions.Perm definitions') (hshaped : ∀ declared ∈ definitions, declared.Shaped)
    (hnames : (Program.declares (definitions.map Declared.definition)).Nodup) :
    operators.declare definitions = operators.declare definitions' := by
  refine bindAll_perm operators ((hperm.flatMap_right _).map _) ?_
  rw [Declared.entries, List.map_map]
  show ((definitions.flatMap Declared.signatures).map Signature.name).Nodup
  rw [Declared.names_flatMap_signatures hshaped]
  exact hnames

end Context

/-! ## Typings and patterns in another order -/

namespace Program

variable {program program' : Program} {assigned : List Declared}

/-- A typing of a program types the program in another order, with its declarations moved along. -/
theorem TypedBy.perm (h : program.TypedBy assigned) (hperm : program.Perm program')
    (hnames : program.declares.Nodup) :
    ∃ assigned', assigned.Perm assigned' ∧ program'.TypedBy assigned' := by
  obtain ⟨rfl, hshaped, hbodies⟩ := h
  obtain ⟨assigned', hdefinitions, hassigned⟩ :
      Relation.Comp (fun l ds => l = ds.map Declared.definition) List.Perm program' assigned := by
    rw [List.eq_map_comp_perm]
    exact hperm.symm
  have hscope := Context.operators_declare_perm hassigned.symm hshaped hnames
  refine ⟨assigned', hassigned.symm, hdefinitions.symm, fun declared hmem => ?_, fun declared hmem => ?_⟩
  · exact hshaped declared (hassigned.mem_iff.mp hmem)
  · rw [← hscope]
    exact hbodies declared (hassigned.mem_iff.mp hmem)

theorem shaped_blank (definition : Definition) : definition.blank.Shaped := by
  rw [← TypingState.shape_declare definition .initial]
  exact (TypingState.shaped_declare definition .initial).subst _

theorem definitions_blank (program : Program) :
    (program.map Definition.blank).map Declared.definition = program := by
  rw [List.map_map]
  refine (List.map_congr_left fun definition _ => ?_).trans program.map_id
  cases definition <;> rfl

/-- Whether all patterns fit does not depend on the order of definitions. -/
theorem fits_of_perm (hfits : program.fits = true) (hperm : program.Perm program')
    (hnames : program.declares.Nodup) : program'.fits = true := by
  have hblank := hperm.map Definition.blank
  have hscope := Context.operators_declare_perm hblank
    (List.forall_mem_map.mpr fun definition _ => shaped_blank definition)
    (by rwa [definitions_blank])
  rw [fits, List.all_eq_true] at hfits ⊢
  intro declared hmem
  rw [← hscope]
  exact hfits declared (hblank.mem_iff.mpr hmem)

end Program

/-! ## Checking in another order -/

namespace Checker

variable {keepGoing keepGoing' : Bool} {program program' : Program} {report report' : Report}
  {final final' : TypingState}

/-- If a program is accepted, it is accepted in every order, and the signatures of the first order are
instances of those of the other. -/
theorem instance_of_perm (hperm : program.Perm program') (hnames : program.declares.Nodup)
    (h : check ⟨true, keepGoing⟩ program .initial = .ok report final)
    (h' : check ⟨true, keepGoing'⟩ program' .initial = .ok report' final')
    (haccepted : report.accepted = true) :
    report'.accepted = true ∧ ∃ θ,
      ((final'.signatures report'.declared).map (Signature.subst θ)).Perm
        (final.signatures report.declared) := by
  obtain ⟨hfits, assigned, htyped, hsignatures⟩ := typedBy_of_accepted h haccepted
  obtain ⟨assigned', hassigned, htyped'⟩ := htyped.perm hperm hnames
  have hfits' := Program.fits_of_perm hfits hperm hnames
  obtain ⟨_, _, hcheck, haccepted', θ, hθ⟩ :=
    check_complete_of_fits ⟨true, keepGoing'⟩ hfits' htyped'
  obtain ⟨rfl, rfl⟩ := Outcome.ok.inj (h'.symm.trans hcheck)
  refine ⟨haccepted', θ, ?_⟩
  rw [hθ, hsignatures]
  exact hassigned.symm.flatMap_right _

/-- The signatures of an accepted program have the names that it declares. -/
theorem names_signatures (h : check ⟨true, keepGoing⟩ program .initial = .ok report final) :
    (final.signatures report.declared).map Signature.name = program.declares := by
  obtain ⟨hdeclared, _, _⟩ := check_eq_ok TypingState.sees_initial h
  rw [TypingState.signatures, List.map_map, hdeclared]
  show (List.flatMap _ _).map Signature.name = _
  rw [Declared.names_flatMap_signatures (TypingState.shaped_of_mem_declareAll program .initial),
    TypingState.definitions_declareAll]

/-- **The order of definitions does not matter.** Check a program that declares no name twice, and its
definitions in any other order, with the occurs check, each with a new checker. Both runs come to a
report. The one is accepted exactly if the other is; and then one renaming of variables makes the
signatures of the one those of the other, in some order. -/
theorem check_perm (keepGoing keepGoing' : Bool) (hperm : program.Perm program')
    (hnames : program.declares.Nodup) :
    ∃ report final report' final',
      check ⟨true, keepGoing⟩ program .initial = .ok report final ∧
      check ⟨true, keepGoing'⟩ program' .initial = .ok report' final' ∧
      report.accepted = report'.accepted ∧
      (report.accepted = true → ∃ ρ : Equiv.Perm Nat,
        ((final.signatures report.declared).map (Signature.rename ρ)).Perm
          (final'.signatures report'.declared)) := by
  obtain ⟨report, final, h, _⟩ :=
    exists_check_eq_ok (s := .initial) Bindings.acyclic_empty keepGoing program
  obtain ⟨report', final', h', _⟩ :=
    exists_check_eq_ok (s := .initial) Bindings.acyclic_empty keepGoing' program'
  have hnames' : program'.declares.Nodup := (hperm.flatMap_right _).nodup_iff.mp hnames
  refine ⟨report, final, report', final', h, h', ?_, fun haccepted => ?_⟩
  · rw [Bool.eq_iff_iff]
    exact ⟨fun haccepted => (instance_of_perm hperm hnames h h' haccepted).1,
      fun haccepted => (instance_of_perm hperm.symm hnames' h' h haccepted).1⟩
  · -- each of the two lists of signatures is an instance of the other
    obtain ⟨haccepted', θ, hθ⟩ := instance_of_perm hperm hnames h h' haccepted
    obtain ⟨_, θ', hθ'⟩ := instance_of_perm hperm.symm hnames' h' h haccepted'
    exact Signature.exists_rename_of_perm (by rwa [names_signatures h]) hθ' hθ

/-- A function before the type whose constructor it uses, and after it. The signatures of the other
function and of the constructor have different variables in the two orders. -/
theorem check_perm_of_later_declared :
    let twice : FunctionDefinition := ⟨"Twice", ["f", "x"],
      .apply (.lower "f") (.apply (.lower "f") (.lower "x"))⟩
    let swap : FunctionDefinition := ⟨"Swap", ["p"], .case (.lower "p")
      [⟨.constructor "Pair" ["x", "y"], .apply (.apply (.upper "Pair") (.lower "y")) (.lower "x")⟩]⟩
    let program : Program :=
      [.function twice, .function swap, .type ⟨"Pairs", [⟨"Pair", ["first", "second"]⟩]⟩]
    program.Perm program.reverse ∧ program.declares.Nodup ∧
    ∃ report final report' final',
      check ⟨true, true⟩ program .initial = .ok report final ∧
      check ⟨true, false⟩ program.reverse .initial = .ok report' final' ∧
      report.accepted = true ∧ report'.accepted = true ∧ ∃ ρ : Equiv.Perm Nat,
        ((final.signatures report.declared).map (Signature.rename ρ)).Perm
          (final'.signatures report'.declared) := by
  intro twice swap program
  have hperm : program.Perm program.reverse := program.reverse_perm.symm
  have hnames : program.declares.Nodup := by decide
  have hrun : (match check ⟨true, true⟩ program .initial with
      | .ok report _ => report.accepted
      | _ => false) = true := by decide +kernel
  obtain ⟨report, final, report', final', h, h', hsame, hrenamed⟩ :=
    check_perm true false hperm hnames
  rw [h] at hrun
  exact ⟨hperm, hnames, report, final, report', final', h, h', hrun, hsame ▸ hrun, hrenamed hrun⟩

end Checker

end Monotype
