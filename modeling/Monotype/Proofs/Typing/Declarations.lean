import Mathlib.Data.List.Forall2
import Monotype.Proofs.Typing.Invariant
import Monotype.Proofs.Typing.Scopes

/-!
# `Monotype.Proofs.Typing.Declarations` — what the first pass declares

The first pass does two things only, over and over: it hands out variables, and it binds a name in the
root (`Declares`). So bindings stay as they are, and the root sees its earlier names and then every
signature, in order. Each definition is declared with as many types as it has parameters or fields
(`Declared.Shaped`), all of them distinct fresh variables: whatever types one has in mind for a
program, some substitution turns what is declared into them (`exists_subst_declareAll`).

## Contents
- **`Declared.Shaped`**, **`Declared.subst`**, **`Declared.Shaped.subst`**, **`Declaration.Below`**.
- **`Context.declare`**: the scope with the signatures of definitions.
- **`Declares`**: what the first pass does to a state, with its invariants.
- **`shaped_of_mem_declareAll`**, **`below_of_mem_declareAll`**, **`declares_declareAll`**.
- **`exists_subst_declareAll`**: what is declared can become anything.
-/

namespace Monotype

/-! ## Declarations -/

/-- A signature that a constructor can have: a type for each field, and then the type that it makes. -/
def Constructor.Makes (type : String) (constructor : Constructor) (signature : Ty) : Prop :=
  ∃ fields : List Ty, fields.length = constructor.fields.length ∧
    signature = .curried fields (.base type)

/-- A definition with a type for its result and each parameter, or with a type for each field. -/
inductive Declared.Shaped : Declared → Prop
  | function {definition : FunctionDefinition} {result : Ty} {params : List Ty}
      (hlength : params.length = definition.params.length) :
      Shaped ⟨.function definition, some (.function result params)⟩
  | type {definition : TypeDefinition} {signatures : List Ty}
      (hmakes : List.Forall₂ (Constructor.Makes definition.name) definition.constructors signatures) :
      Shaped ⟨.type definition, some (.type signatures)⟩

/-- A declaration with types in place of variables. -/
def Declaration.subst (θ : Nat → Ty) : Declaration → Declaration
  | .function result params => .function (result.subst θ) (params.map (Ty.subst θ))
  | .type signatures => .type (signatures.map (Ty.subst θ))

/-- A declared definition with types in place of variables. -/
def Declared.subst (θ : Nat → Ty) (declared : Declared) : Declared :=
  { declared with declaration := declared.declaration.map (Declaration.subst θ) }

/-- All variables of a declaration are below a count. -/
def Declaration.Below (n : Nat) : Declaration → Prop
  | .function result params => result.Below n ∧ ∀ param ∈ params, param.Below n
  | .type signatures => ∀ signature ∈ signatures, signature.Below n

/-- All variables of what is declared for a definition are below a count. -/
def Declared.Below (n : Nat) (declared : Declared) : Prop :=
  ∀ declaration ∈ declared.declaration, declaration.Below n

variable {n m : Nat} {θ θ' : Nat → Ty}

/-- Substitution goes to the parameters of a curried type and to its result. -/
theorem Ty.subst_curried (θ : Nat → Ty) (params : List Ty) (result : Ty) :
    (curried params result).subst θ = curried (params.map (Ty.subst θ)) (result.subst θ) := by
  induction params with
  | nil => rfl
  | cons param others ih => rw [curried_cons, subst, ih, List.map_cons, curried_cons]

/-- Substitution leaves what is declared with as many types as before. -/
theorem Declared.Shaped.subst {declared : Declared} (h : declared.Shaped) (θ : Nat → Ty) :
    (declared.subst θ).Shaped := by
  cases h with
  | function hlength => exact .function (by rw [List.length_map, hlength])
  | type hmakes =>
    refine .type (List.forall₂_map_right_iff.mpr (hmakes.imp ?_))
    rintro constructor _ ⟨fields, hlength, rfl⟩
    exact ⟨fields.map (Ty.subst θ), by rw [List.length_map, hlength], Ty.subst_curried θ fields _⟩

/-- Types that mention only variables below a count do not tell apart what agrees below it. -/
theorem Ty.map_subst_eq_of_agreeBelow {types : List Ty} (h : ∀ t ∈ types, t.Below n)
    (hagree : AgreeBelow n θ θ') : types.map (Ty.subst θ') = types.map (Ty.subst θ) :=
  List.map_congr_left fun t ht => (h t ht).subst_eq hagree

theorem Declared.Below.mono {declared : Declared} (hnm : n ≤ m) (h : declared.Below n) :
    declared.Below m := by
  intro declaration hdeclaration
  have hbelow := h declaration hdeclaration
  cases declaration with
  | function result params => exact ⟨hbelow.1.mono hnm, fun t ht => (hbelow.2 t ht).mono hnm⟩
  | type signatures => exact fun t ht => (hbelow t ht).mono hnm

/-- What was declared before more variables were handed out does not tell apart substitutions that agree
on the earlier ones. -/
theorem Declared.Below.subst_eq {declared : Declared} (h : declared.Below n)
    (hagree : AgreeBelow n θ θ') : declared.subst θ' = declared.subst θ := by
  obtain ⟨definition, declaration⟩ := declared
  cases declaration with
  | none => rfl
  | some declaration =>
    have hbelow := h declaration rfl
    cases declaration with
    | function result params =>
      simp only [Declared.subst, Option.map_some, Declaration.subst, hbelow.1.subst_eq hagree,
        Ty.map_subst_eq_of_agreeBelow hbelow.2 hagree]
    | type signatures =>
      simp only [Declared.subst, Option.map_some, Declaration.subst,
        Ty.map_subst_eq_of_agreeBelow hbelow hagree]

/-! ## Signatures in scope -/

/-- The names that definitions declare, with their types. -/
def Declared.entries (definitions : List Declared) : List (String × Ty) :=
  (definitions.flatMap Declared.signatures).map fun signature => (signature.name, signature.ty)

/-- A scope with the signatures of definitions, one after the other. -/
def Context.declare (Γ : Context) (definitions : List Declared) : Context :=
  Γ.bindAll (Declared.entries definitions)

namespace Declared

theorem entries_cons (declared : Declared) (others : List Declared) :
    entries (declared :: others) = entries [declared] ++ entries others := by
  simp [entries]

theorem entries_type (definition : TypeDefinition) (signatures : List Ty) :
    entries [⟨.type definition, some (.type signatures)⟩] =
      (definition.constructors.zip signatures).map fun entry => (entry.1.name, entry.2) := by
  simp [entries, Declared.signatures]

/-- Substitution acts on the signature of each name. -/
theorem signatures_subst (θ : Nat → Ty) (declared : Declared) :
    (declared.subst θ).signatures =
      declared.signatures.map fun signature => { signature with ty := signature.ty.subst θ } := by
  obtain ⟨definition, declaration⟩ := declared
  match definition, declaration with
  | .function definition, some (.function result params) =>
    simp [signatures, subst, Declaration.subst, Ty.subst_curried]
  | .type definition, some (.type signatures) =>
    simp [Declared.signatures, subst, Declaration.subst, List.zip_map_right]
  | .function _, none | .function _, some (.type _) => rfl
  | .type _, none | .type _, some (.function _ _) => rfl

/-- Substitution acts on the signatures of a program, and leaves their names and order. -/
theorem flatMap_signatures_subst (θ : Nat → Ty) (definitions : List Declared) :
    (definitions.map (subst θ)).flatMap signatures =
      (definitions.flatMap signatures).map fun signature =>
        { signature with ty := signature.ty.subst θ } := by
  induction definitions with
  | nil => rfl
  | cons declared others ih =>
    rw [List.map_cons, List.flatMap_cons, signatures_subst, ih, List.flatMap_cons, List.map_append]

theorem entries_subst (θ : Nat → Ty) (definitions : List Declared) :
    entries (definitions.map (subst θ)) =
      (entries definitions).map fun entry => (entry.1, entry.2.subst θ) := by
  rw [entries, flatMap_signatures_subst, entries, List.map_map, List.map_map]
  rfl

/-- A signature mentions only variables of its declaration. -/
theorem Below.signatures {declared : Declared} (h : declared.Below n) :
    ∀ signature ∈ declared.signatures, signature.ty.Below n := by
  obtain ⟨definition, declaration⟩ := declared
  unfold Declared.signatures
  split
  · next definition result params hdefinition hdeclaration =>
    have hbelow := h _ hdeclaration
    rw [List.forall_mem_singleton]
    exact Ty.below_curried.mpr ⟨hbelow.2, hbelow.1⟩
  · next definition signatures hdefinition hdeclaration =>
    intro signature hsignature
    obtain ⟨entry, hentry, rfl⟩ := List.mem_map.mp hsignature
    exact h _ hdeclaration _ (List.of_mem_zip hentry).2
  · exact fun _ hsignature => absurd hsignature (by simp)

theorem below_of_mem_entries {definitions : List Declared}
    (h : ∀ declared ∈ definitions, declared.Below n) :
    ∀ entry ∈ entries definitions, entry.2.Below n := by
  intro entry hentry
  obtain ⟨signature, hsignature, rfl⟩ := List.mem_map.mp hentry
  obtain ⟨declared, hdeclared, hmem⟩ := List.mem_flatMap.mp hsignature
  exact (h declared hdeclared).signatures signature hmem

end Declared

/-- Substitution in a scope with signatures acts on the scope and on what was declared. -/
theorem Context.map_declare (Γ : Context) (θ : Nat → Ty) (definitions : List Declared) :
    (Γ.declare definitions).map (Ty.subst θ) =
      (Γ.map (Ty.subst θ)).declare (definitions.map (Declared.subst θ)) := by
  rw [declare, declare, map_bindAll, Declared.entries_subst]

theorem Context.Below.declare {Γ : Context} (h : Γ.Below n) {definitions : List Declared}
    (hdefinitions : ∀ declared ∈ definitions, declared.Below n) : (Γ.declare definitions).Below n :=
  h.bindAll (Declared.below_of_mem_entries hdefinitions)

/-! ## The first pass -/

/-- What the first pass does to a state: it hands out variables and binds a name in the root, once for
each name. -/
inductive Declares : TypingState → List (String × Ty) → TypingState → Prop
  | done {s : TypingState} : Declares s [] s
  | declare {s s' : TypingState} {name : String} {ty : Ty} {entries : List (String × Ty)} {n : Nat}
      (hn : s.allocated ≤ n)
      (h : Declares (({ s with allocated := n } : TypingState).bindRoot name ty) entries s') :
      Declares s ((name, ty) :: entries) s'

variable {s s' s'' : TypingState} {entries others : List (String × Ty)}

theorem Declares.append (h : Declares s entries s') (h' : Declares s' others s'') :
    Declares s (entries ++ others) s'' := by
  induction h with
  | done => exact h'
  | declare hn _ ih => exact .declare hn (ih h')

/-- **Declaring binds no variable.** -/
theorem Declares.bindings_eq (h : Declares s entries s') : s'.bindings = s.bindings := by
  induction h with
  | done => rfl
  | declare _ _ ih => exact ih

theorem Declares.allocated_le (h : Declares s entries s') : s.allocated ≤ s'.allocated := by
  induction h with
  | done => exact Nat.le_refl _
  | declare hn _ ih => exact Nat.le_trans hn ih

/-- The root sees what it saw, and then all that was declared. -/
theorem Declares.sees (h : Declares s entries s') {Γ : Context}
    (hΓ : s.environment.Sees Environment.root Γ) :
    s'.environment.Sees Environment.root (Γ.bindAll entries) := by
  induction h generalizing Γ with
  | done => exact hΓ
  | declare _ _ ih => exact ih (hΓ.bind _ _)

namespace TypingState

theorem length_freshMany (s : TypingState) (count : Nat) : (s.freshMany count).1.length = count := by
  rw [freshMany, List.length_map, List.length_range']

theorem freshMany_below (s : TypingState) (count : Nat) :
    ∀ t ∈ (s.freshMany count).1, t.Below (s.freshMany count).2.allocated := by
  intro t ht
  obtain ⟨v, hv, rfl⟩ := List.mem_map.mp ht
  have hlt := (List.mem_range'_1.mp hv).2
  exact Ty.below_var.mpr hlt

/-! ### Constructors -/

section Constructors

variable (type : String) (constructors : List Constructor) (s : TypingState)

/-- Declaring the constructors of a type binds each of them in the root, with its signature. -/
theorem declares_declareConstructors :
    Declares s ((constructors.zip (declareConstructors type constructors s).1).map
      fun entry => (entry.1.name, entry.2)) (declareConstructors type constructors s).2 := by
  induction constructors generalizing s with
  | nil => exact .done
  | cons constructor others ih =>
    exact .declare (n := s.allocated + constructor.fields.length) (Nat.le_add_right _ _) (ih _)

/-- Each signature has a type for each field of its constructor, and makes the type that is defined. -/
theorem makes_declareConstructors :
    List.Forall₂ (Constructor.Makes type) constructors (declareConstructors type constructors s).1 := by
  induction constructors generalizing s with
  | nil => exact .nil
  | cons constructor others ih =>
    exact .cons ⟨(s.freshMany constructor.fields.length).1, length_freshMany _ _, rfl⟩ (ih _)

/-- Signatures mention only variables that were handed out by then. -/
theorem below_declareConstructors :
    ∀ signature ∈ (declareConstructors type constructors s).1,
      signature.Below (declareConstructors type constructors s).2.allocated := by
  induction constructors generalizing s with
  | nil => exact fun _ hmem => absurd hmem (by simp [declareConstructors])
  | cons constructor others ih =>
    intro signature hmem
    rcases List.mem_cons.mp hmem with rfl | hmem
    · -- the variables of the first constructor are handed out before those of the others
      have hle := (declares_declareConstructors type others
        (s.declareConstructor type constructor).2).allocated_le
      have hfields := freshMany_below s constructor.fields.length
      exact (Ty.below_curried.mpr ⟨hfields, Ty.below_base type⟩).mono hle
    · exact ih _ signature hmem

variable {type constructors}

/-- Fresh variables for the fields of constructors can become any types of fields. -/
theorem exists_subst_declareConstructors {signatures : List Ty}
    (h : List.Forall₂ (Constructor.Makes type) constructors signatures) (s : TypingState)
    (θ : Nat → Ty) : ∃ θ', AgreeBelow s.allocated θ θ' ∧
      (declareConstructors type constructors s).1.map (Ty.subst θ') = signatures := by
  induction h generalizing s θ with
  | nil => exact ⟨θ, .refl _ θ, rfl⟩
  | @cons constructor signature others signatures hmakes _ ih =>
    obtain ⟨fields, hlength, rfl⟩ := hmakes
    -- first the variables of this constructor get their types, then the later ones, which are other variables
    obtain ⟨θ₁, hagree₁, hfields⟩ := exists_agreeBelow s.allocated θ fields
    obtain ⟨θ₂, hagree₂, hothers⟩ := ih (s.declareConstructor type constructor).2 θ₁
    rw [hlength] at hfields
    have hbelow := freshMany_below s constructor.fields.length
    refine ⟨θ₂, hagree₁.trans (Nat.le_add_right _ _) hagree₂, ?_⟩
    have hfirst : (s.declareConstructor type constructor).1.subst θ₂ =
        .curried fields (.base type) := by
      simp only [declareConstructor, Ty.subst_curried]
      rw [Ty.map_subst_eq_of_agreeBelow hbelow hagree₂]
      exact congrArg (Ty.curried · (.base type)) hfields
    exact congrArg₂ List.cons hfirst hothers

end Constructors

/-! ### Definitions -/

variable (definition : Definition) (program : Program) (s : TypingState)

/-- Declaring a definition binds its signatures in the root: one for a function, one for each
constructor of a type. -/
theorem declares_declare :
    Declares s (Declared.entries [⟨definition, some (s.declare definition).1⟩])
      (s.declare definition).2 := by
  cases definition with
  | function definition =>
    refine .declare (n := s.allocated + 1 + definition.params.length) ?_ .done
    omega
  | type definition =>
    show Declares s (Declared.entries [⟨.type definition, some (.type _)⟩]) _
    rw [Declared.entries_type]
    exact declares_declareConstructors definition.name definition.constructors s

/-- A definition is declared with as many types as it has parameters or fields. -/
theorem shaped_declare : Declared.Shaped ⟨definition, some (s.declare definition).1⟩ := by
  cases definition with
  | function definition => exact .function (length_freshMany _ definition.params.length)
  | type definition => exact .type (makes_declareConstructors _ _ s)

/-- What is declared for a definition mentions only variables that were handed out by then. -/
theorem below_declare :
    Declared.Below (s.declare definition).2.allocated ⟨definition, some (s.declare definition).1⟩ := by
  rintro _ ⟨⟩
  cases definition with
  | function definition =>
    refine ⟨Ty.below_var.mpr ?_, freshMany_below _ definition.params.length⟩
    show s.allocated < s.allocated + 1 + definition.params.length
    omega
  | type definition => exact below_declareConstructors _ _ s

/-- What is declared for one definition can become anything of the same shape. -/
theorem exists_subst_declare {assigned : Declared} (h : assigned.Shaped) (s : TypingState)
    (θ : Nat → Ty) : ∃ θ', AgreeBelow s.allocated θ θ' ∧
      Declared.subst θ' ⟨assigned.definition, some (s.declare assigned.definition).1⟩ = assigned := by
  cases h with
  | @function definition result params hlength =>
    -- the variable for the result is handed out before those for the parameters
    obtain ⟨θ', hagree, htypes⟩ := exists_agreeBelow s.allocated θ (result :: params)
    rw [List.length_cons, List.range'_succ, List.map_cons, List.map_cons, List.cons.injEq,
      hlength] at htypes
    refine ⟨θ', hagree, ?_⟩
    simp only [Declared.subst, declare, Option.map_some, Declaration.subst, freshMany, htypes.1,
      htypes.2]
  | type hmakes =>
    obtain ⟨θ', hagree, hsignatures⟩ := exists_subst_declareConstructors hmakes s θ
    refine ⟨θ', hagree, ?_⟩
    simp only [Declared.subst, declare, Option.map_some, Declaration.subst, hsignatures]

/-! ### Programs -/

/-- The first pass keeps the definitions, in their order. -/
theorem definitions_declareAll : (declareAll program s).1.map Declared.definition = program := by
  induction program generalizing s with
  | nil => rfl
  | cons definition others ih => exact congrArg (definition :: ·) (ih _)

/-- **The first pass binds every signature in the root**, in the order of the program, and does nothing
else but hand out variables. -/
theorem declares_declareAll :
    Declares s (Declared.entries (declareAll program s).1) (declareAll program s).2 := by
  induction program generalizing s with
  | nil => exact .done
  | cons definition others ih =>
    show Declares s (Declared.entries (⟨definition, some (s.declare definition).1⟩ :: _)) _
    rw [Declared.entries_cons]
    exact (declares_declare definition s).append (ih _)

theorem shaped_of_mem_declareAll : ∀ declared ∈ (declareAll program s).1, declared.Shaped := by
  induction program generalizing s with
  | nil => exact fun _ hmem => absurd hmem (by simp [declareAll])
  | cons definition others ih =>
    intro declared hmem
    rcases List.mem_cons.mp hmem with rfl | hmem
    · exact shaped_declare definition s
    · exact ih _ declared hmem

/-- All that was declared mentions only variables that were handed out by the end of the first pass. -/
theorem below_of_mem_declareAll :
    ∀ declared ∈ (declareAll program s).1, declared.Below (declareAll program s).2.allocated := by
  induction program generalizing s with
  | nil => exact fun _ hmem => absurd hmem (by simp [declareAll])
  | cons definition others ih =>
    intro declared hmem
    rcases List.mem_cons.mp hmem with rfl | hmem
    · exact (below_declare definition s).mono (declares_declareAll others _).allocated_le
    · exact ih _ declared hmem

/-- **What is declared for a program can become anything of the same shape**, whatever stands for the
variables that were handed out before. -/
theorem exists_subst_declareAll {assigned : List Declared}
    (h : ∀ declared ∈ assigned, declared.Shaped) (s : TypingState) (θ : Nat → Ty) :
    ∃ θ', AgreeBelow s.allocated θ θ' ∧
      (declareAll (assigned.map Declared.definition) s).1.map (Declared.subst θ') = assigned := by
  induction assigned generalizing s θ with
  | nil => exact ⟨θ, .refl _ θ, rfl⟩
  | cons declared others ih =>
    rw [List.forall_mem_cons] at h
    obtain ⟨θ₁, hagree₁, hfirst⟩ := exists_subst_declare h.1 s θ
    obtain ⟨θ₂, hagree₂, hothers⟩ := ih h.2 (s.declare declared.definition).2 θ₁
    have hle := (declares_declare declared.definition s).allocated_le
    refine ⟨θ₂, hagree₁.trans hle hagree₂, ?_⟩
    simp only [List.map_cons, declareAll, hothers,
      (below_declare declared.definition s).subst_eq hagree₂, hfirst]

end TypingState

end Monotype
