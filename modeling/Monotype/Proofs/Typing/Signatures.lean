import Monotype.Proofs.Typing.Runs

/-!
# `Monotype.Proofs.Typing.Signatures` — signatures and the root

The first pass leaves the type of a name in two places: with the definition, from where signatures are
listed, and in the root, where names are looked up. It leaves the same types in the same order
(`Declared.entries`), but the list keeps every one of them and the root only the last of a name, in front of
the operators. The second pass has no part in it. It binds names in frames of its own, so whatever fails in
it, and wherever, both places are read at the end as the first pass has left them, through the bindings that
were found.

## Contents
- **`Definition.Signs`**, **`Program.Signs`**: one signature for each function and each constructor.
- **`Signature.last?`**, **`Context.bindAll_eq_lookup`**: what was said of a name last.
- **`TypingState.resolve`**: what was declared, as far as its types are known.
- **`Checker.signatures_agree`**.
-/

namespace Monotype

/-! ## One signature for each name -/

/-- The signatures of what a definition declares, in order: that of a function, with a type for each of its
parameters, or those of all constructors of a type, each with a type for each field and then the type that
it makes. -/
inductive Definition.Signs : Definition → List Signature → Prop
  | function {definition : FunctionDefinition} {params : List Ty} {result : Ty}
      (hlength : params.length = definition.params.length) :
      Signs (.function definition) [⟨definition.name, .curried params result⟩]
  | type {definition : TypeDefinition} {signatures : List Signature}
      (hsigns : List.Forall₂ (fun constructor signature => signature.name = constructor.name ∧
        constructor.Makes definition.name signature.ty) definition.constructors signatures) :
      Signs (.type definition) signatures

/-- The signatures of what a program declares: those of each definition, one definition after the other. -/
def Program.Signs (program : Program) (signatures : List Signature) : Prop :=
  ∃ groups, List.Forall₂ Definition.Signs program groups ∧ signatures = groups.flatten

/-- Signatures that constructors can have, with their names. -/
theorem Constructor.forall₂_zip {type : String} {constructors : List Constructor} {types : List Ty}
    (h : List.Forall₂ (Makes type) constructors types) :
    List.Forall₂ (fun constructor signature => signature.name = constructor.name ∧
      constructor.Makes type signature.ty) constructors
      ((constructors.zip types).map fun entry => Signature.mk entry.1.name entry.2) := by
  induction h with
  | nil => exact .nil
  | cons hfirst _ ih => exact .cons ⟨rfl, hfirst⟩ ih

/-- A definition that was declared has the signatures of what it declares. -/
theorem Declared.Shaped.signs {declared : Declared} (h : declared.Shaped) :
    declared.definition.Signs declared.signatures := by
  cases h with
  | function hlength => exact .function hlength
  | type hmakes => exact .type (Constructor.forall₂_zip hmakes)

theorem Program.signs_of_shaped {definitions : List Declared}
    (hshaped : ∀ declared ∈ definitions, declared.Shaped) :
    Program.Signs (definitions.map Declared.definition) (definitions.flatMap Declared.signatures) := by
  refine ⟨definitions.map Declared.signatures, ?_, List.flatMap_def⟩
  rw [List.forall₂_map_left_iff, List.forall₂_map_right_iff, List.forall₂_same]
  exact fun declared hmem => (hshaped declared hmem).signs

/-! ## The last of a name -/

/-- The type of the last signature of a name. -/
def Signature.last? (signatures : List Signature) (name : String) : Option Ty :=
  (signatures.map fun signature => (signature.name, signature.ty)).reverse.lookup name

/-- There is a last signature of a name if there is one at all. -/
theorem Signature.last?_eq_none_iff {signatures : List Signature} {name : String} :
    last? signatures name = none ↔ name ∉ signatures.map Signature.name := by
  rw [last?, List.lookup_eq_none_iff]
  constructor
  · intro h hname
    obtain ⟨signature, hsignature, heq⟩ := List.mem_map.mp hname
    have hne := h _ (List.mem_reverse.mpr (List.mem_map_of_mem hsignature))
    exact bne_iff_ne.mp hne heq.symm
  · intro h entry hentry
    obtain ⟨signature, hsignature, rfl⟩ := List.mem_map.mp (List.mem_reverse.mp hentry)
    exact bne_iff_ne.mpr fun heq => h (List.mem_map.mpr ⟨signature, hsignature, heq.symm⟩)

namespace Context

/-- A scope says of a name what was bound to it last. -/
theorem bindAll_eq_lookup (Γ : Context) (entries : List (String × Ty)) (name : String) :
    Γ.bindAll entries name = (entries.reverse.lookup name).or (Γ name) := by
  induction entries generalizing Γ with
  | nil => rfl
  | cons entry others ih =>
    rw [bindAll_cons, ih, List.reverse_cons, List.lookup_append, Option.or_assoc, bind_apply]
    by_cases hname : name = entry.1
    · rw [if_pos hname, hname, List.lookup_cons_self]
      rfl
    · rw [if_neg hname, List.lookup_cons, beq_eq_false_iff_ne.mpr hname]
      rfl

/-- The names of operators are all different, so they may as well be looked up where they are listed. -/
theorem operators_eq_lookup (name : String) : operators name = Environment.operatorTypes.lookup name := by
  have hreverse : operators = bindAll (fun _ => none) Environment.operatorTypes.reverse :=
    bindAll_perm _ (List.reverse_perm _).symm (by decide)
  rw [hreverse, bindAll_eq_lookup, List.reverse_reverse, Option.or_none]

/-- What definitions declare is seen by the last signature of each name, and what is in scope besides by the
other names. -/
theorem declare_eq_last? (Γ : Context) (definitions : List Declared) (name : String) :
    Γ.declare definitions name =
      (Signature.last? (definitions.flatMap Declared.signatures) name).or (Γ name) :=
  bindAll_eq_lookup Γ (Declared.entries definitions) name

end Context

/-! ## Two readings of what was declared -/

namespace TypingState

variable {state : TypingState} {definitions : List Declared}

/-- What was declared, as far as its types are known. -/
def resolve (state : TypingState) (definitions : List Declared) : List Declared :=
  definitions.map (Declared.subst fun v => state.bindings.zonk (.var v))

theorem zonk_eq (state : TypingState) :
    state.bindings.zonk = Ty.subst fun v => state.bindings.zonk (.var v) :=
  funext (Bindings.zonk_eq_subst state.bindings)

theorem definitions_resolve (state : TypingState) (definitions : List Declared) :
    (state.resolve definitions).map Declared.definition = definitions.map Declared.definition := by
  rw [resolve, List.map_map]
  rfl

theorem shaped_resolve (hshaped : ∀ declared ∈ definitions, declared.Shaped) :
    ∀ declared ∈ state.resolve definitions, declared.Shaped :=
  List.forall_mem_map.mpr fun declared hmem => (hshaped declared hmem).subst _

/-- Signatures are listed as the definitions have them. -/
theorem signatures_eq_flatMap (state : TypingState) (definitions : List Declared) :
    state.signatures definitions = (state.resolve definitions).flatMap Declared.signatures := by
  rw [signatures, zonk_eq, resolve, Declared.flatMap_signatures_subst]

/-- Names are looked up among the operators and, before them, the definitions. -/
theorem typeOf?_eq_declare
    (hΓ : state.environment.Sees Environment.root (Context.operators.declare definitions)) :
    state.typeOf? = Context.operators.declare (state.resolve definitions) := by
  funext name
  rw [typeOf?_of_sees hΓ, zonk_eq, resolve, ← Context.map_operators fun v => state.bindings.zonk (.var v),
    ← Context.map_declare, Context.map_operators]
  rfl

end TypingState

namespace Checker

variable {options : Options} {program : Program} {report : Report} {final : TypingState}

/-- **Signatures and the root agree.** Check a program with a new checker, with any options. When the run has
come to its end, whatever has failed in it, there is one signature for each function and each constructor,
in the order of the program. The type of a name that the program declares is that of the last signature of
that name. The type of any other name is that of the operator of that name, if there is one. -/
theorem signatures_agree (h : check options program .initial = .ok report final) :
    program.Signs (final.signatures report.declared) ∧
    (∀ name ∈ program.declares, ∃ t,
      Signature.last? (final.signatures report.declared) name = some t ∧ final.typeOf? name = some t) ∧
    ∀ name ∉ program.declares, final.typeOf? name = Environment.operatorTypes.lookup name := by
  obtain ⟨hdeclared, _, hroot⟩ := check_eq_ok TypingState.sees_initial h
  have hshaped := TypingState.shaped_of_mem_declareAll program .initial
  have hdefinitions := TypingState.definitions_declareAll program .initial
  rw [← hdeclared] at hshaped hdefinitions
  have hresolved : ∀ declared ∈ final.resolve report.declared, declared.Shaped :=
    TypingState.shaped_resolve hshaped
  have hsigns := Program.signs_of_shaped hresolved
  have hnames := Declared.names_flatMap_signatures hresolved
  -- resolving changes the types only, so names and order are those of the program
  rw [TypingState.definitions_resolve, hdefinitions, ← TypingState.signatures_eq_flatMap] at hsigns hnames
  have htype : ∀ name, final.typeOf? name =
      (Signature.last? (final.signatures report.declared) name).or (Context.operators name) := by
    intro name
    -- the root frame holds the same declarations, over the operators
    rw [TypingState.typeOf?_eq_declare hroot, Context.declare_eq_last?, TypingState.signatures_eq_flatMap]
  refine ⟨hsigns, fun name hname => ?_, fun name hname => ?_⟩
  · have hlast : Signature.last? (final.signatures report.declared) name ≠ none := fun hnone =>
      Signature.last?_eq_none_iff.mp hnone (hnames ▸ hname)
    obtain ⟨t, ht⟩ := Option.ne_none_iff_exists'.mp hlast
    refine ⟨t, ht, ?_⟩
    rw [htype, ht]
    rfl
  · have hnone : Signature.last? (final.signatures report.declared) name = none :=
      Signature.last?_eq_none_iff.mpr (hnames ▸ hname)
    rw [htype, hnone, Context.operators_eq_lookup]
    rfl

/-- A constructor and a function of the same name, with a function that fails between them and one that has
the name of an operator after them. -/
theorem signatures_agree_on_equal_names :
    let program : Program := [
      .type ⟨"Box", [⟨"Wrap", ["Int"]⟩]⟩,
      .function ⟨"Broken", ["x"], .binary .plus (.lower "x") (.lower "missing")⟩,
      .function ⟨"Wrap", ["x"], .binary .minus (.lower "x") (.int 1)⟩,
      .function ⟨"PLUS", [], .str "\"plus\""⟩]
    ∃ report final, check ⟨true, true⟩ program .initial = .ok report final ∧ report.accepted = false ∧
      final.signatures report.declared =
        [⟨"Wrap", .arrow (.var 0) (.base "Box")⟩, ⟨"Broken", .arrow (.var 2) (.var 1)⟩,
          ⟨"Wrap", .arrow .int .int⟩, ⟨"PLUS", .string⟩] ∧
      final.typeOf? "Wrap" = some (.arrow .int .int) ∧ final.typeOf? "PLUS" = some .string ∧
      final.typeOf? "NOT" = some (.arrow .int .int) ∧ final.typeOf? "Box" = none := by
  intro program
  have hrun : (match check ⟨true, true⟩ program .initial with
      | .ok report final => !report.accepted && decide (final.signatures report.declared =
        [⟨"Wrap", .arrow (.var 0) (.base "Box")⟩, ⟨"Broken", .arrow (.var 2) (.var 1)⟩,
          ⟨"Wrap", .arrow .int .int⟩, ⟨"PLUS", .string⟩])
      | _ => false) = true := by decide +kernel
  obtain ⟨report, final, h, _⟩ :=
    exists_check_eq_ok (s := .initial) Bindings.acyclic_empty true program
  rw [h] at hrun
  simp only [Bool.and_eq_true, Bool.not_eq_true', decide_eq_true_eq] at hrun
  obtain ⟨haccepted, hsignatures⟩ := hrun
  obtain ⟨_, hlast, hothers⟩ := signatures_agree h
  rw [hsignatures] at hlast
  obtain ⟨_, ⟨⟩, hwrap⟩ := hlast "Wrap" (by decide)
  obtain ⟨_, ⟨⟩, hplus⟩ := hlast "PLUS" (by decide)
  have hnot := hothers "NOT" (by decide)
  have hbox := hothers "Box" (by decide)
  exact ⟨report, final, h, haccepted, hsignatures, hwrap, hplus, hnot, hbox⟩

end Checker

end Monotype
