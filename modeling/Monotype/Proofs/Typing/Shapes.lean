import Monotype.Proofs.Typing.Patterns

/-!
# `Monotype.Proofs.Typing.Shapes` — what patterns see of types

A constructor pattern walks the type with which a name was bound, and not what has become known of it.
So of a type it sees only the *shape*: the type with its variables forgotten. The shape of what inference
returns can be told from the program too, because every operation returns a bare variable. Hence whether
the patterns of an expression fit is settled before anything is inferred (`Expr.fits`), wherever the
names in scope come from; it does not depend on the order of definitions or on how far checking has got.

This is the exact condition. That every constructor pattern names a constructor of the program with one
name for each field (`Expr.patternsFit`) is the usual reason for it.

## Contents
- **`Ty.shape`**, **`Context.shape`**, **`Ty.fields?`**: shapes, and what a pattern walks.
- **`Pattern.scope?`**, **`Expr.shape`**, **`Expr.fits`**: which patterns fit, and what they bind.
- **`Definition.blank`**, **`TypingState.shape_declareAll`**: the shapes of what is declared.
- **`Program.fits`**: all patterns of a program fit.
- **`Expr.fits_of_patternsFit`**, **`Declared.fits_of_patternsFit`**.
-/

namespace Monotype

/-! ## Shapes -/

namespace Ty

/-- A type with its variables forgotten. -/
def shape (t : Ty) : Ty := t.subst fun _ => .var 0

@[simp] theorem shape_var (v : Nat) : (var v).shape = var 0 := rfl

@[simp] theorem shape_base (name : String) : (base name).shape = base name := rfl

@[simp] theorem shape_arrow (a c : Ty) : (arrow a c).shape = arrow a.shape c.shape := rfl

theorem shape_curried (params : List Ty) (result : Ty) :
    (curried params result).shape = curried (params.map shape) result.shape :=
  subst_curried _ params result

/-- The domains of a function of some number of arguments that makes a base type. -/
def fields? : Nat → Ty → Option (List Ty)
  | 0, base _ => some []
  | n + 1, arrow domain codomain => (codomain.fields? n).map (domain :: ·)
  | _, _ => none

/-- A pattern with some number of names walks exactly the curried types with that many parameters that
make a named type. -/
theorem fields?_eq_some_iff {n : Nat} {t : Ty} {fields : List Ty} :
    t.fields? n = some fields ↔ fields.length = n ∧ ∃ type, t = curried fields (base type) := by
  induction n generalizing t fields with
  | zero =>
    cases t with
    | base name =>
      constructor
      · intro h
        -- no names are left, and the walk has come to the named type
        obtain rfl : [] = fields := Option.some.inj h
        exact ⟨rfl, name, rfl⟩
      · rintro ⟨hlength, _⟩
        obtain rfl := List.length_eq_zero_iff.mp hlength
        rfl
    | var _ | arrow _ _ =>
      refine ⟨fun h => absurd h (by simp [fields?]), ?_⟩
      rintro ⟨hlength, type, h⟩
      obtain rfl := List.length_eq_zero_iff.mp hlength
      exact absurd h (by simp)
  | succ n ih =>
    cases t with
    | arrow a c =>
      rw [fields?, Option.map_eq_some_iff]
      constructor
      · rintro ⟨others, hothers, rfl⟩
        obtain ⟨hlength, type, rfl⟩ := ih.mp hothers
        exact ⟨congrArg Nat.succ hlength, type, rfl⟩
      · rintro ⟨hlength, type, h⟩
        cases fields with
        | nil => exact absurd hlength (by simp)
        | cons field others =>
          rw [curried_cons, arrow.injEq] at h
          obtain ⟨rfl, rfl⟩ := h
          exact ⟨others, ih.mpr ⟨Nat.succ.inj hlength, type, rfl⟩, rfl⟩
    | var v | base name =>
      refine ⟨fun h => absurd h (by simp [fields?]), ?_⟩
      rintro ⟨hlength, type, h⟩
      cases fields with
      | nil => exact absurd hlength (by simp)
      | cons field others => exact absurd h (by simp)

/-- The shape of a type tells the shapes of its fields. -/
theorem fields?_shape (n : Nat) (t : Ty) : t.shape.fields? n = (t.fields? n).map (List.map shape) := by
  induction n generalizing t with
  | zero => cases t <;> rfl
  | succ n ih =>
    cases t with
    | arrow a c =>
      rw [shape_arrow, fields?, fields?, ih, Option.map_map, Option.map_map]
      rfl
    | var v => rfl
    | base name => rfl

end Ty

/-- A scope with the variables of its types forgotten. -/
def Context.shape (Γ : Context) : Context := Γ.map Ty.shape

namespace Context

variable {Γ : Context}

theorem shape_bind (name : String) (t : Ty) : (Γ.bind name t).shape = Γ.shape.bind name t.shape :=
  map_bind name t

theorem shape_bindAll_zip (names : List String) (types : List Ty) :
    (Γ.bindAll (names.zip types)).shape = Γ.shape.bindAll (names.zip (types.map Ty.shape)) :=
  map_bindAll_zip names types

end Context

/-! ## Patterns that fit -/

/-- What a pattern makes of a scope, for a scrutinee that was inferred to be of some type; nothing if it
names no constructor with that many fields. -/
def Pattern.scope? (Γ : Context) (scrutinee : Ty) : Pattern → Option Context
  | .var name => some (Γ.bind name scrutinee)
  | .constructor name params =>
    ((Γ name).bind (Ty.fields? params.length)).map fun fields => Γ.bindAll (params.zip fields)

/-- The shape of the type that inference returns, before anything is known of it. -/
def Expr.shape (Γ : Context) : Expr → Ty
  | .int _ => .int
  | .str _ => .string
  | .lower name | .upper name => (Γ name).getD (.var 0)
  | .binary _ _ _ | .unary _ _ | .apply _ _ | .case _ _ => .var 0

/-- The shape of a reference is that of the type which its name is bound to. -/
theorem Expr.shape_name {Γ : Context} {name : String} {t : Ty} (h : Γ name = some t) :
    (Expr.lower name).shape Γ.shape = t.shape ∧ (Expr.upper name).shape Γ.shape = t.shape := by
  have hshape : Γ.shape name = some t.shape := Context.map_apply_of_eq_some h
  simp only [Expr.shape, hshape, Option.getD_some, and_self]

mutual

/-- All patterns of an expression fit, in a scope of shapes. -/
def Expr.fits (Γ : Context) : Expr → Bool
  | .int _ | .str _ | .lower _ | .upper _ => true
  | .binary _ left right => left.fits Γ && right.fits Γ
  | .unary _ operand => operand.fits Γ
  | .apply function argument => function.fits Γ && argument.fits Γ
  | .case scrutinee branches => scrutinee.fits Γ && Branch.fit Γ (scrutinee.shape Γ) branches

/-- All patterns of branches fit, each body in the scope that its own pattern makes. -/
def Branch.fit (Γ : Context) (scrutinee : Ty) : List Branch → Bool
  | [] => true
  | ⟨pattern, body⟩ :: others =>
    (pattern.scope? Γ scrutinee).any (fun inner => body.fits inner) && Branch.fit Γ scrutinee others

end

/-- What a pattern makes of a scope of shapes is the shape of what it makes of the scope. -/
theorem Pattern.scope?_shape (pattern : Pattern) (Γ : Context) (scrutinee : Ty) :
    pattern.scope? Γ.shape scrutinee.shape = (pattern.scope? Γ scrutinee).map Context.shape := by
  cases pattern with
  | var name => exact congrArg some (Context.shape_bind name scrutinee).symm
  | constructor name params =>
    simp only [scope?]
    cases hname : Γ name with
    | none =>
      have hshape : Γ.shape name = none := by rw [Context.shape, Context.map, hname]; rfl
      rw [hshape]
      rfl
    | some whole =>
      have hshape : Γ.shape name = some whole.shape := Context.map_apply_of_eq_some hname
      rw [hshape, Option.bind_some, Option.bind_some, Ty.fields?_shape, Option.map_map, Option.map_map]
      congr 1
      funext fields
      exact (Context.shape_bindAll_zip params fields).symm

/-! ## Definitions -/

/-- All patterns of a body fit, in a scope of shapes. -/
def Declared.fits (Γ : Context) (declared : Declared) : Bool :=
  match declared.definition, declared.declaration with
  | .function definition, some (.function _ params) =>
    definition.body.fits (Γ.bindAll (definition.params.zip params))
  | _, _ => true

/-- What is declared for a definition, with its variables forgotten. -/
def Declared.shape (declared : Declared) : Declared := declared.subst fun _ => .var 0

/-- The shape of what will be declared for a definition. -/
def Definition.blank : Definition → Declared
  | .function definition =>
    ⟨.function definition, some (.function (.var 0) (definition.params.map fun _ => .var 0))⟩
  | .type definition =>
    ⟨.type definition, some (.type (definition.constructors.map fun constructor =>
      .curried (constructor.fields.map fun _ => .var 0) (.base definition.name)))⟩

/-- All patterns of a program fit. -/
def Program.fits (program : Program) : Bool :=
  (program.map Definition.blank).all
    (Declared.fits (Context.operators.declare (program.map Definition.blank)))

namespace TypingState

/-- Variables that were handed out are forgotten, and only their number is left. -/
theorem shape_freshMany (s : TypingState) {α : Type} (items : List α) :
    (s.freshMany items.length).1.map Ty.shape = items.map fun _ => Ty.var 0 := by
  have hconst : Ty.shape ∘ Ty.var = fun _ => Ty.var 0 := rfl
  rw [freshMany, List.map_map, hconst, List.map_const', List.map_const', List.length_range']

/-- The shape of a signature says how many fields a constructor has, and which type it makes. -/
theorem shape_declareConstructors (type : String) (constructors : List Constructor) (s : TypingState) :
    (declareConstructors type constructors s).1.map Ty.shape = constructors.map fun constructor =>
      .curried (constructor.fields.map fun _ => .var 0) (.base type) := by
  induction constructors generalizing s with
  | nil => rfl
  | cons constructor others ih =>
    have hfirst : (s.declareConstructor type constructor).1.shape =
        .curried (constructor.fields.map fun _ => .var 0) (.base type) := by
      rw [declareConstructor, Ty.shape_curried, shape_freshMany]
      rfl
    exact congrArg₂ List.cons hfirst (ih _)

/-- The shape of what is declared does not depend on when it is declared. -/
theorem shape_declare (definition : Definition) (s : TypingState) :
    Declared.shape ⟨definition, some (s.declare definition).1⟩ = definition.blank := by
  cases definition with
  | function definition =>
    have hparams := shape_freshMany { s with allocated := s.allocated + 1 } definition.params
    exact congrArg (fun types => Declared.mk (.function definition)
      (some (.function (.var 0) types))) hparams
  | type definition =>
    have hsignatures := shape_declareConstructors definition.name definition.constructors s
    exact congrArg (fun types => Declared.mk (.type definition) (some (.type types))) hsignatures

/-- **The shapes of what is declared can be told from the program.** -/
theorem shape_declareAll (program : Program) (s : TypingState) :
    (declareAll program s).1.map Declared.shape = program.map Definition.blank := by
  induction program generalizing s with
  | nil => rfl
  | cons definition others ih => exact congrArg₂ List.cons (shape_declare definition s) (ih _)

end TypingState

/-! ## Patterns that name constructors -/

variable {Γ : Context} {A : Arities}

/-- Shapes tell constructors and their fields. -/
theorem Context.Makes.shape (h : Γ.Makes A) : Γ.shape.Makes A := by
  intro name count hname
  obtain ⟨fields, type, hΓ, hlength⟩ := h name count hname
  refine ⟨fields.map Ty.shape, type, ?_, by rw [List.length_map, hlength]⟩
  have hshape : Γ.shape name = some (Ty.curried fields (.base type)).shape :=
    Context.map_apply_of_eq_some hΓ
  rw [hshape, Ty.shape_curried]
  rfl

/-- A pattern that names a constructor with all of its fields fits. -/
theorem Pattern.exists_scope_of_fits {pattern : Pattern} (hΓ : Γ.Makes A)
    (hfits : pattern.fits A = true) (scrutinee : Ty) :
    ∃ inner, pattern.scope? Γ scrutinee = some inner ∧ inner.Makes (A.hide pattern.names) := by
  cases pattern with
  | var name => exact ⟨Γ.bind name scrutinee, rfl, hΓ.bind name scrutinee⟩
  | constructor name params =>
    have harity : A name = some params.length := by simpa [Pattern.fits] using hfits
    obtain ⟨fields, type, hname, hlength⟩ := hΓ name _ harity
    refine ⟨Γ.bindAll (params.zip fields), ?_, hΓ.bindAll hlength⟩
    have hfields : (Ty.curried fields (.base type)).fields? params.length = some fields :=
      Ty.fields?_eq_some_iff.mpr ⟨hlength, type, rfl⟩
    simp only [scope?, hname, Option.bind_some, hfields, Option.map_some]

mutual

/-- Patterns that name constructors with all of their fields fit. -/
theorem Expr.fits_of_patternsFit : ∀ (e : Expr) {Γ : Context} {A : Arities}, Γ.Makes A →
    e.patternsFit A = true → e.fits Γ = true
  | .int _, _, _, _, _ | .str _, _, _, _, _ | .lower _, _, _, _, _ | .upper _, _, _, _, _ => rfl
  | .binary _ left right, _, _, hΓ, h => by
    rw [Expr.patternsFit, Bool.and_eq_true] at h
    rw [Expr.fits, Bool.and_eq_true]
    exact ⟨left.fits_of_patternsFit hΓ h.1, right.fits_of_patternsFit hΓ h.2⟩
  | .unary _ operand, _, _, hΓ, h => operand.fits_of_patternsFit hΓ h
  | .apply function argument, _, _, hΓ, h => by
    rw [Expr.patternsFit, Bool.and_eq_true] at h
    rw [Expr.fits, Bool.and_eq_true]
    exact ⟨function.fits_of_patternsFit hΓ h.1, argument.fits_of_patternsFit hΓ h.2⟩
  | .case scrutinee branches, _, _, hΓ, h => by
    rw [Expr.patternsFit, Bool.and_eq_true] at h
    rw [Expr.fits, Bool.and_eq_true]
    exact ⟨scrutinee.fits_of_patternsFit hΓ h.1, Branch.fit_of_patternsFit branches hΓ h.2 _⟩

theorem Branch.fit_of_patternsFit : ∀ (branches : List Branch) {Γ : Context} {A : Arities}, Γ.Makes A →
    branchesFit A branches = true → ∀ scrutinee, Branch.fit Γ scrutinee branches = true
  | [], _, _, _, _, _ => rfl
  | ⟨pattern, body⟩ :: others, Γ, A, hΓ, h, scrutinee => by
    simp only [branchesFit, Bool.and_eq_true] at h
    obtain ⟨⟨hpattern, hbody⟩, hothers⟩ := h
    obtain ⟨inner, hinner, hmakes⟩ := Pattern.exists_scope_of_fits hΓ hpattern scrutinee
    rw [Branch.fit, Bool.and_eq_true, hinner]
    exact ⟨body.fits_of_patternsFit hmakes hbody, Branch.fit_of_patternsFit others hΓ hothers scrutinee⟩

end

/-- The body of a function fits where its patterns name constructors with all of their fields. -/
theorem Declared.fits_of_patternsFit {declared : Declared} (hshaped : declared.Shaped) (hΓ : Γ.Makes A)
    (h : declared.definition.patternsFit A = true) : declared.shape.fits Γ.shape = true := by
  cases hshaped with
  | type _ => rfl
  | @function definition result params hlength =>
    have hparams : (params.map Ty.shape).length = definition.params.length := by
      rw [List.length_map, hlength]
    exact definition.body.fits_of_patternsFit (hΓ.shape.bindAll hparams) h

end Monotype
