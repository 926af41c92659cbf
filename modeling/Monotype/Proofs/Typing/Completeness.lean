import Monotype.Proofs.Typing.Shapes
import Monotype.Proofs.Unify.MostGeneral

/-!
# `Monotype.Proofs.Typing.Completeness` — what has a type is accepted

Take any typing of a program by the rules. At each moment of a run there is a solution of what is known
so far that turns the types in the scope into those of the typing (`Stage`). A variable that is handed
out next can stand for whatever the typing has at its place, since nothing mentions it yet; and two
types that are to be unified mean the same type of the typing, so unification succeeds and the solution
survives. So a run that follows a typing never fails, and ends with a solution that gives every
signature the type that it has in the typing.

Patterns have to fit as well, which the rules alone do not say: a pattern that the rules accept walks the
declared type of its constructor, and that must have the fields already. What it sees are shapes, and
shapes do not change.

Nothing of this needs the occurs check: a program with a typing by finite types never meets it.

## Contents
- **`Stage`**, **`Stage.Later`**, **`Stage.Stands`**, **`Stage.Means`**.
- **`Completes`**: a computation that succeeds from a stage. **`infer_complete`**,
  **`verdicts_complete_of_fits`**, **`verdicts_complete`**.
- **`Checker.check_complete`**: typable programs are accepted, with principal signatures.
-/

namespace Monotype

/-! ## Stages -/

/-- A moment of a run, with a solution of what is known by then. -/
structure Stage where
  store : Store
  solution : Nat → Ty
  fresh : store.Fresh
  chainsEnd : store.bindings.ChainsEnd
  solves : store.bindings.SolvedBy solution

namespace Stage

variable {p q r : Stage} {t T : Ty} {Γ Δ : Context}

/-- A later stage, at which the variables that were handed out stand for the same types. -/
structure Later (p q : Stage) : Prop where
  le : p.store.allocated ≤ q.store.allocated
  agree : AgreeBelow p.store.allocated p.solution q.solution

theorem Later.refl (p : Stage) : p.Later p := ⟨Nat.le_refl _, .refl _ _⟩

theorem Later.trans (h : p.Later q) (h' : q.Later r) : p.Later r :=
  ⟨Nat.le_trans h.le h'.le, h.agree.trans h.le h'.agree⟩

/-- A type of variables that were handed out stands for a type of the typing. -/
def Stands (p : Stage) (t T : Ty) : Prop := t.Below p.store.allocated ∧ t.subst p.solution = T

/-- What a type stands for at a stage, it stands for at every later one. -/
theorem Stands.later (h : p.Stands t T) (hpq : p.Later q) : q.Stands t T :=
  ⟨h.1.mono hpq.le, (h.1.subst_eq hpq.agree).trans h.2⟩

theorem Stands.arrow {u U : Ty} (h : p.Stands t T) (h' : p.Stands u U) :
    p.Stands (.arrow t u) (.arrow T U) := by
  refine ⟨Ty.below_arrow.mpr ⟨h.1, h'.1⟩, ?_⟩
  rw [Ty.subst, h.2, h'.2]

theorem stands_base (p : Stage) (name : String) : p.Stands (.base name) (.base name) :=
  ⟨Ty.below_base name, rfl⟩

/-- A scope of variables that were handed out means a scope of the typing. -/
def Means (p : Stage) (Γ Δ : Context) : Prop :=
  Γ.Below p.store.allocated ∧ Γ.map (Ty.subst p.solution) = Δ

/-- What a scope means at a stage, it means at every later one. -/
theorem Means.later (h : p.Means Γ Δ) (hpq : p.Later q) : q.Means Γ Δ := by
  refine ⟨h.1.mono hpq.le, ?_⟩
  rw [← h.2]
  funext name
  unfold Context.map
  cases hname : Γ name with
  | none => rfl
  | some t => exact congrArg some ((h.1 name t hname).subst_eq hpq.agree)

/-- A name that has a type in the typing is in scope, with a type that stands for it. -/
theorem Means.exists_stands (h : p.Means Γ Δ) {name : String} (hname : Δ name = some T) :
    ∃ t, Γ name = some t ∧ p.Stands t T := by
  rw [← h.2, Context.map, Option.map_eq_some_iff] at hname
  obtain ⟨t, ht, hT⟩ := hname
  exact ⟨t, ht, h.1 name t ht, hT⟩

theorem Means.bind (h : p.Means Γ Δ) (ht : p.Stands t T) (name : String) :
    p.Means (Γ.bind name t) (Δ.bind name T) := by
  refine ⟨h.1.bind ht.1 name, ?_⟩
  rw [Context.map_bind, h.2, ht.2]

theorem Means.bindAll (h : p.Means Γ Δ) {types : List Ty}
    (htypes : ∀ t ∈ types, t.Below p.store.allocated) (names : List String) :
    p.Means (Γ.bindAll (names.zip types))
      (Δ.bindAll (names.zip (types.map (Ty.subst p.solution)))) := by
  refine ⟨h.1.bindAll fun entry hentry => htypes _ (List.of_mem_zip hentry).2, ?_⟩
  rw [Context.map_bindAll_zip, h.2]

/-- The root scope of what is declared means the root scope of the typing that it stands for. -/
theorem means_operators_declare (p : Stage) {definitions : List Declared}
    (hbelow : ∀ declared ∈ definitions, declared.Below p.store.allocated) :
    p.Means (Context.operators.declare definitions)
      (Context.operators.declare (definitions.map (Declared.subst p.solution))) := by
  refine ⟨(Context.below_operators.mono (Nat.zero_le _)).declare hbelow, ?_⟩
  rw [Context.map_declare, Context.map_operators]

end Stage

/-! ## Computations that succeed -/

/-- From a stage, a computation succeeds at a later stage at which its value has a property. -/
def Completes {ε α : Type} (x : Run ε Store α) (p : Stage) (P : Stage → α → Prop) : Prop :=
  ∃ a q, x p.store = .ok a q.store ∧ p.Later q ∧ P q a

section

variable {ε α β : Type} {x : Run ε Store α} {next : α → Run ε Store β} {p : Stage}
  {P : Stage → α → Prop} {Q : Stage → β → Prop}

theorem Completes.pure {a : α} (h : P p a) : Completes (pure a : Run ε Store α) p P :=
  ⟨a, p, rfl, .refl p, h⟩

/-- **A sequence succeeds if both parts do**: the second part is given what the first one stands for. -/
theorem Completes.bind (hx : Completes x p P)
    (hnext : ∀ a q, p.Later q → P q a → Completes (next a) q Q) : Completes (x >>= next) p Q := by
  obtain ⟨a, q, hrun, hpq, ha⟩ := hx
  obtain ⟨b, r, hrun', hqr, hb⟩ := hnext a q hpq ha
  refine ⟨b, r, ?_, hpq.trans hqr, hb⟩
  rw [Run.run_bind, hrun, Outcome.bind_ok, hrun']

theorem Completes.mono (hx : Completes x p P) {P' : Stage → α → Prop} (h : ∀ q a, P q a → P' q a) :
    Completes x p P' := by
  obtain ⟨a, q, hrun, hpq, ha⟩ := hx
  exact ⟨a, q, hrun, hpq, h q a ha⟩

theorem Completes.attempt {x : Run TypeError Store α} {P : Stage → α → Prop}
    (hx : Completes x p P) :
    Completes (x.attempt : Run ε Store (Except TypeError α)) p fun q v => ∃ a, v = .ok a ∧ P q a := by
  obtain ⟨a, q, hrun, hpq, ha⟩ := hx
  refine ⟨.ok a, q, ?_, hpq, a, rfl, ha⟩
  rw [Run.attempt, hrun]

end

namespace Lexical

variable {strict : Bool} {p : Stage} {Γ Δ : Context} {A : Arities} {t u T : Ty}

/-! ## Steps -/

/-- A variable that is handed out can stand for anything. -/
theorem fresh_complete (p : Stage) (T : Ty) :
    Completes fresh p fun q t => q.Stands t T ∧ t.shape = .var 0 := by
  obtain ⟨θ, hagree, hθ⟩ := exists_agreeBelow p.store.allocated p.solution [T]
  have hvar : θ p.store.allocated = T := List.head_eq_of_cons_eq hθ
  let q : Stage :=
    { store := { p.store with allocated := p.store.allocated + 1 }
      solution := θ
      fresh := p.fresh.allocate 1
      chainsEnd := p.chainsEnd
      solves := p.fresh.solvedBy hagree p.solves }
  refine ⟨.var p.store.allocated, q, rfl, ⟨Nat.le_succ _, hagree⟩, ?_, rfl⟩
  exact ⟨Ty.below_var.mpr (Nat.lt_succ_self _), hvar⟩

/-- Types that stand for the same type are unified, and the solution survives. -/
theorem unify_complete (ht : p.Stands t T) (hu : p.Stands u T) :
    Completes (unify strict t u) p fun _ _ => True := by
  obtain ⟨b, hb, hθ⟩ :=
    Unifier.exists_unify_of_solution strict p.chainsEnd p.solves (ht.2.trans hu.2.symm)
  have hrun : unify strict t u p.store = .ok () { p.store with bindings := b } := by
    rw [unify, hb]
    rfl
  have hder := Unifier.derives_unify hb (by simp)
  let q : Stage :=
    { store := { p.store with bindings := b }
      solution := p.solution
      fresh := p.fresh.unify ht.1 hu.1 (by rw [hrun]; rfl)
      chainsEnd := hder.chainsEnd rfl p.chainsEnd
      solves := hθ }
  exact ⟨(), q, hrun, ⟨Nat.le_refl _, .refl _ _⟩, trivial⟩

/-- A name that has a type in the intended scope is found, and its type stands for that one. -/
theorem lookup_complete (hΓ : p.Means Γ Δ) {name : String} (hname : Δ name = some T)
    (missing : TypeError) :
    Completes (lookup Γ name missing) p fun q t => q.Stands t T ∧ Γ name = some t := by
  obtain ⟨t, ht, hstands⟩ := hΓ.exists_stands hname
  unfold lookup
  rw [ht]
  exact .pure ⟨hstands, rfl⟩

/-- An operation has a result of the type that its operator yields in the typing. -/
theorem result_complete (expected : Ty → Ty) {actual U : Ty} (hactual : p.Stands actual U)
    (hexpected : ∀ q result, p.Later q → q.Stands result T → q.Stands (expected result) U) :
    Completes
      (do let result ← fresh; unify strict (expected result) actual; return result : Solver Ty) p
      fun q t => q.Stands t T ∧ t.shape = .var 0 := by
  refine (fresh_complete p T).bind fun result q hpq ⟨hresult, hshape⟩ => ?_
  refine (unify_complete (hexpected q result hpq hresult) (hactual.later hpq)).bind ?_
  intro _ r hqr _
  exact .pure ⟨hresult.later hqr, hshape⟩

/-! ## Patterns -/

/-- A constructor with as many fields as there are names gives each name the type of its field. -/
theorem bindFields_curried (constructor : String) (whole made : Ty) {params : List String}
    {fields : List Ty} (hlength : fields.length = params.length) (Γ : Context) (s : Store) :
    bindFields constructor whole Γ (.curried fields made) params s =
      .ok (Γ.bindAll (params.zip fields), made) s := by
  induction params generalizing Γ fields with
  | nil =>
    rw [List.length_nil, List.length_eq_zero_iff] at hlength
    subst hlength
    rw [bindFields]
    rfl
  | cons param others ih =>
    cases fields with
    | nil => exact absurd hlength (by simp)
    | cons field fields =>
      rw [Ty.curried_cons, bindFields]
      exact ih (Nat.succ.inj hlength) (Γ.bind param field)

theorem curried_inj {fields fields' : List Ty} {made made' : Ty}
    (hlength : fields.length = fields'.length)
    (h : Ty.curried fields made = Ty.curried fields' made') : fields = fields' ∧ made = made' := by
  induction fields generalizing fields' with
  | nil =>
    rw [List.length_nil, eq_comm, List.length_eq_zero_iff] at hlength
    subst hlength
    exact ⟨rfl, h⟩
  | cons field fields ih =>
    cases fields' with
    | nil => exact absurd hlength (by simp)
    | cons field' fields' =>
      rw [Ty.curried_cons, Ty.curried_cons, Ty.arrow.injEq] at h
      obtain ⟨hfields, hmade⟩ := ih (Nat.succ.inj hlength) h.2
      exact ⟨by rw [h.1, hfields], hmade⟩

/-- A pattern that fits what is in scope, and fits the scrutinee in the typing, is accepted. The scope of
its branch means the one that the rules give to the branch. -/
theorem matchPattern_complete {pattern : Pattern} {scrutinee S : Ty} {inner Δ' : Context}
    (hΓ : p.Means Γ Δ) (hfits : pattern.scope? Γ scrutinee = some inner)
    (hscrutinee : p.Stands scrutinee S) (htyped : PatternTyped Δ pattern S Δ') :
    Completes (matchPattern strict Γ pattern scrutinee) p fun q out =>
      out = inner ∧ q.Means inner Δ' := by
  cases htyped with
  | @var name _ =>
    obtain rfl := Option.some.inj hfits
    exact .pure ⟨rfl, hΓ.bind hscrutinee name⟩
  | @constructor name type params fields hname hlength =>
    obtain ⟨whole, hwhole, hstands⟩ := hΓ.exists_stands hname
    -- the type in scope has the shape of a constructor, whatever is known of its fields
    simp only [Pattern.scope?, hwhole, Option.bind_some, Option.map_eq_some_iff] at hfits
    obtain ⟨declared, hdeclared, rfl⟩ := hfits
    obtain ⟨hcount, type', rfl⟩ := Ty.fields?_eq_some_iff.mp hdeclared
    have hcurried := hstands.2
    rw [Ty.subst_curried] at hcurried
    obtain ⟨hfields, hmade⟩ := curried_inj (by rw [List.length_map, hcount, hlength]) hcurried
    obtain rfl : type' = type := Ty.base.inj hmade
    have hbelow := (Ty.below_curried.mp hstands.1).1
    have hinner := hΓ.bindAll hbelow params
    rw [hfields] at hinner
    have hlookup : lookup Γ name (.undefinedConstructor name) p.store =
        .ok (.curried declared (.base type')) p.store := by
      rw [lookup, hwhole]
      rfl
    have hunify : Completes (unify strict (.base type') scrutinee) p fun _ _ => True :=
      unify_complete (p.stands_base type') hscrutinee
    obtain ⟨_, q, hrun, hpq, _⟩ := hunify
    refine ⟨Γ.bindAll (params.zip declared), q, ?_, hpq, rfl, hinner.later hpq⟩
    simp only [matchPattern, Run.run_bind, hlookup, Outcome.bind_ok,
      bindFields_curried name _ _ hcount, hrun, Run.run_pure]

/-! ## Expressions -/

mutual

/-- **Inference is complete.** An expression with a type in the typing, whose patterns fit, is given a
type that stands for it. -/
theorem infer_complete : ∀ (e : Expr) {p : Stage} {Γ Δ : Context} {T : Ty},
    p.Means Γ Δ → e.fits Γ.shape = true → HasType Δ e T →
    Completes (infer strict Γ e) p fun q t => q.Stands t T ∧ t.shape = e.shape Γ.shape
  | .int _, p, _, _, _, _, _, h => by
    cases h
    exact .pure ⟨p.stands_base _, rfl⟩
  | .str _, p, _, _, _, _, _, h => by
    cases h
    exact .pure ⟨p.stands_base _, rfl⟩
  | .lower name, p, Γ, _, _, hΓ, _, h => by
    cases h with
    | lower hname => exact (lookup_complete hΓ hname _).mono fun q t ⟨ht, hbound⟩ =>
        ⟨ht, (Expr.shape_name hbound).1.symm⟩
  | .upper name, p, Γ, _, _, hΓ, _, h => by
    cases h with
    | upper hname => exact (lookup_complete hΓ hname _).mono fun q t ⟨ht, hbound⟩ =>
        ⟨ht, (Expr.shape_name hbound).2.symm⟩
  | .binary op left right, p, Γ, Δ, T, hΓ, hfit, h => by
    rw [Expr.fits, Bool.and_eq_true] at hfit
    cases h with
    | @binary _ _ _ _ a b _ hleft hright hop =>
      unfold infer
      refine (infer_complete left hΓ hfit.1 hleft).bind fun l q hpq ⟨hl, _⟩ => ?_
      -- the scope still means the same, and so does the type of the left operand later on
      have hΓq := hΓ.later hpq
      refine (infer_complete right hΓq hfit.2 hright).bind fun r q' hqq' ⟨hr, _⟩ => ?_
      refine (lookup_complete (hΓq.later hqq') hop _).bind fun operator q'' hq'' ⟨hoperator, _⟩ => ?_
      refine result_complete (fun result => .arrow l (.arrow r result)) hoperator ?_
      intro q₃ result hq₃ hresult
      have hlater := hq''.trans hq₃
      exact ((hl.later hqq').later hlater).arrow ((hr.later hlater).arrow hresult)
  | .unary op operand, p, Γ, Δ, T, hΓ, hfit, h => by
    cases h with
    | @unary _ _ _ a _ hoperand hop =>
      unfold infer
      refine (infer_complete operand hΓ hfit hoperand).bind fun t q hpq ⟨ht, _⟩ => ?_
      refine (lookup_complete (hΓ.later hpq) hop _).bind fun operator q' hqq' ⟨hoperator, _⟩ => ?_
      refine result_complete (fun result => .arrow t result) hoperator ?_
      intro q'' result hq'' hresult
      exact (ht.later (hqq'.trans hq'')).arrow hresult
  | .apply function argument, p, Γ, Δ, T, hΓ, hfit, h => by
    rw [Expr.fits, Bool.and_eq_true] at hfit
    cases h with
    | @apply _ _ _ a _ hfunction hargument =>
      unfold infer
      refine (infer_complete function hΓ hfit.1 hfunction).bind fun f q hpq ⟨hf, _⟩ => ?_
      refine (infer_complete argument (hΓ.later hpq) hfit.2 hargument).bind ?_
      intro t q' hqq' ⟨ht, _⟩
      refine result_complete (fun result => .arrow t result) (hf.later hqq') ?_
      intro q'' result hq'' hresult
      exact (ht.later hq'').arrow hresult
  | .case scrutinee branches, p, Γ, Δ, T, hΓ, hfit, h => by
    rw [Expr.fits, Bool.and_eq_true] at hfit
    cases h with
    | @case _ _ _ a _ hscrutinee hbranches =>
      unfold infer
      refine (infer_complete scrutinee hΓ hfit.1 hscrutinee).bind fun t q hpq ⟨ht, hshape⟩ => ?_
      refine (fresh_complete q T).bind fun result q' hqq' ⟨hresult, hvar⟩ => ?_
      have hΓ' := (hΓ.later hpq).later hqq'
      have hfitBranches : Branch.fit Γ.shape t.shape branches = true := by
        rw [hshape]
        exact hfit.2
      refine (inferBranches_complete branches hΓ' hfitBranches (ht.later hqq') hresult hbranches).bind ?_
      intro _ q'' hq'' _
      exact .pure ⟨hresult.later hq'', hvar⟩

/-- Branches with a common type in the typing are accepted, each in the scope of its pattern. -/
theorem inferBranches_complete : ∀ (branches : List Branch) {p : Stage} {Γ Δ : Context}
    {scrutinee result S T : Ty}, p.Means Γ Δ → Branch.fit Γ.shape scrutinee.shape branches = true →
    p.Stands scrutinee S → p.Stands result T → BranchesTyped Δ S T branches →
    Completes (inferBranches strict Γ scrutinee result branches) p fun _ _ => True
  | [], _, _, _, _, _, _, _, _, _, _, _, _ => .pure trivial
  | ⟨pattern, body⟩ :: others, p, Γ, Δ, scrutinee, result, S, T, hΓ, hfit, hscrutinee, hresult, h => by
    rw [Branch.fit, Bool.and_eq_true, Pattern.scope?_shape, Option.any_map, Option.any_eq_true] at hfit
    obtain ⟨⟨inner, hinner, hfitBody⟩, hfitOthers⟩ := hfit
    cases h with
    | cons hpattern hbody hothers =>
      unfold inferBranches
      refine (matchPattern_complete hΓ hinner hscrutinee hpattern).bind ?_
      rintro _ q hpq ⟨rfl, hmeans⟩
      refine (infer_complete body hmeans hfitBody hbody).bind fun t q' hqq' ⟨ht, _⟩ => ?_
      have hpq' := hpq.trans hqq'
      refine (unify_complete (hresult.later hpq') ht).bind fun _ q'' hq'' _ => ?_
      -- the other branches start from the scope and the types that this one started from
      have hpq'' := hpq'.trans hq''
      exact inferBranches_complete others (hΓ.later hpq'') hfitOthers (hscrutinee.later hpq'')
        (hresult.later hpq'') hothers

end

/-! ## Definitions -/

/-- **A definition is accepted if its body has the declared types** under the solution, and its patterns
fit. -/
theorem checkDefinition_complete {declared : Declared} (hshaped : declared.Shaped)
    (hbelow : declared.Below p.store.allocated) (hΓ : p.Means Γ Δ)
    (hfit : declared.shape.fits Γ.shape = true) (htyped : (declared.subst p.solution).BodyTyped Δ) :
    Completes (checkDefinition strict Γ declared) p fun _ _ => True := by
  cases hshaped with
  | type _ => exact .pure trivial
  | @function definition result params hlength =>
    obtain ⟨hresult, hparams⟩ := hbelow _ rfl
    simp only [checkDefinition, if_pos hlength]
    cases htyped with
    | function hbody =>
      unfold checkBody
      have hinner := hΓ.bindAll hparams definition.params
      have hfitBody : definition.body.fits
          (Γ.bindAll (definition.params.zip params)).shape = true := by
        rw [Context.shape_bindAll_zip]
        exact hfit
      refine (infer_complete definition.body hinner hfitBody hbody).bind ?_
      rintro t q hpq ⟨ht, _⟩
      exact unify_complete ht (Stage.Stands.later ⟨hresult, rfl⟩ hpq)

/-- Definitions with a typing, whose patterns fit, are accepted, one after the other. -/
theorem verdicts_complete_of_fits (options : Options) {definitions : List Declared} (hΓ : p.Means Γ Δ)
    (h : ∀ declared ∈ definitions, declared.Shaped ∧ declared.Below p.store.allocated ∧
      declared.shape.fits Γ.shape = true ∧ (declared.subst p.solution).BodyTyped Δ) :
    Completes (verdicts options Γ definitions) p fun _ vs => ∀ v ∈ vs, v = .ok () := by
  induction definitions generalizing p with
  | nil => exact .pure (by simp)
  | cons declared others ih =>
    rw [List.forall_mem_cons] at h
    obtain ⟨⟨hshaped, hbelow, hfit, htyped⟩, hothers⟩ := h
    unfold verdicts
    refine (checkDefinition_complete hshaped hbelow hΓ hfit htyped).attempt.bind ?_
    rintro _ q hpq ⟨_, rfl, _⟩
    have hrest : Completes (verdicts options Γ others) q fun _ vs => ∀ v ∈ vs, v = .ok () := by
      refine ih (hΓ.later hpq) fun other hother => ?_
      obtain ⟨hshaped, hbelow, hfit, htyped⟩ := hothers other hother
      refine ⟨hshaped, hbelow.mono hpq.le, hfit, ?_⟩
      rw [hbelow.subst_eq hpq.agree]
      exact htyped
    refine hrest.bind fun vs r _ hvs => .pure ?_
    rw [List.forall_mem_cons]
    exact ⟨rfl, hvs⟩

/-- Definitions with a typing are accepted if their patterns name constructors with all their fields. -/
theorem verdicts_complete {options : Options} {definitions : List Declared} (hΓ : p.Means Γ Δ)
    (hmakes : Γ.Makes A)
    (h : ∀ declared ∈ definitions, declared.Shaped ∧ declared.Below p.store.allocated ∧
      declared.definition.patternsFit A = true ∧ (declared.subst p.solution).BodyTyped Δ) :
    Completes (verdicts options Γ definitions) p fun _ vs => ∀ v ∈ vs, v = .ok () := by
  refine verdicts_complete_of_fits options hΓ fun declared hmem => ?_
  obtain ⟨hshaped, hbelow, hfit, htyped⟩ := h declared hmem
  exact ⟨hshaped, hbelow, Declared.fits_of_patternsFit hshaped hmakes hfit, htyped⟩

end Lexical

/-! ## Programs -/

/-- A report without a failure is accepted. -/
theorem Report.accepted_of_forall_ok {report : Report}
    (h : ∀ verdict ∈ report.verdicts, verdict = .ok ()) : report.accepted = true := by
  unfold accepted errors
  rw [List.isEmpty_iff, List.filterMap_eq_nil_iff]
  intro entry hentry
  rw [h entry.2 (List.of_mem_zip hentry).2]
  rfl

/-- A solution of what is left turns the signatures that are reported into those that were declared,
with the solution in place of variables. -/
theorem TypingState.signatures_subst {final : TypingState} {θ : Nat → Ty}
    (hθ : final.bindings.SolvedBy θ) (definitions : List Declared) :
    ((final.signatures definitions).map fun signature =>
        { signature with ty := signature.ty.subst θ }) =
      (definitions.map (Declared.subst θ)).flatMap Declared.signatures := by
  rw [Declared.flatMap_signatures_subst, signatures, List.map_map]
  refine List.map_congr_left fun signature _ => ?_
  show Signature.mk signature.name ((final.bindings.zonk signature.ty).subst θ) = _
  rw [hθ.subst_zonk]

/-- When all is declared, the variables of the declarations can stand for the types of any typing. -/
theorem Stage.exists_of_shaped {assigned : List Declared}
    (hshaped : ∀ declared ∈ assigned, declared.Shaped) :
    let (declared, state) :=
      TypingState.declareAll (assigned.map Declared.definition) TypingState.initial
    ∃ p : Stage, p.store = state.store ∧ declared.map (Declared.subst p.solution) = assigned := by
  obtain ⟨θ, _, hassigned⟩ :=
    TypingState.exists_subst_declareAll hshaped TypingState.initial Ty.var
  have hbindings := (TypingState.declares_declareAll (assigned.map Declared.definition)
    TypingState.initial).bindings_eq
  generalize TypingState.declareAll _ _ = out at *
  obtain ⟨declared, state⟩ := out
  -- nothing is bound yet
  have hempty : state.store.bindings = Bindings.empty := hbindings
  let p : Stage :=
    { store := state.store
      solution := θ
      fresh := by rw [Store.Fresh, hempty]; exact Bindings.within_empty _
      chainsEnd := by rw [hempty]; exact Bindings.acyclic_empty.chainsEnd
      solves := by rw [hempty]; exact Bindings.solvedBy_empty θ }
  exact ⟨p, rfl, hassigned⟩

/-- **Checking is complete, and signatures are principal.** Let all constructor patterns of a program
fit. If the program has any typing at all, it is accepted, and one substitution turns all signatures
that are reported into those of the typing. This holds with the occurs check and without it, and
whether or not checking would go on past failures. -/
theorem Checker.check_complete (options : Options) {program : Program} {assigned : List Declared}
    (hfit : program.patternsFit = true) (htyped : program.TypedBy assigned) :
    ∃ report final, check options program .initial = .ok report final ∧
      report.accepted = true ∧
      ∃ θ : Nat → Ty, ((final.signatures report.declared).map fun signature =>
          { signature with ty := signature.ty.subst θ }) =
        assigned.flatMap Declared.signatures := by
  obtain ⟨rfl, hshaped, hbodies⟩ := htyped
  obtain ⟨p, hstore, hassigned⟩ := Stage.exists_of_shaped hshaped
  have hdefinitions := TypingState.definitions_declareAll (assigned.map Declared.definition) .initial
  have hdeclared :=
    TypingState.shaped_of_mem_declareAll (assigned.map Declared.definition) .initial
  have hbelow := TypingState.below_of_mem_declareAll (assigned.map Declared.definition) .initial
  have hagrees := check_agrees options (assigned.map Declared.definition) TypingState.sees_initial
  generalize TypingState.declareAll _ _ = out at *
  obtain ⟨definitions, state⟩ := out
  have hallocated : state.allocated = p.store.allocated := by rw [hstore, TypingState.store]
  rw [hallocated] at hbelow
  -- the root scope means that of the typing, and has the types of all constructors
  have hΓ := p.means_operators_declare hbelow
  have hmakes := Context.makes_operators_declare hdeclared
  rw [hassigned] at hΓ
  rw [hdefinitions] at hmakes
  have hcomplete : Completes
      (Lexical.verdicts options (Context.operators.declare definitions) definitions) p
      fun _ vs => ∀ v ∈ vs, v = .ok () := by
    refine Lexical.verdicts_complete hΓ hmakes fun d hd => ⟨hdeclared d hd, hbelow d hd, ?_, ?_⟩
    · rw [Program.patternsFit, List.all_eq_true] at hfit
      exact hfit _ (hdefinitions ▸ List.mem_map_of_mem hd)
    · exact hbodies _ (hassigned ▸ List.mem_map_of_mem hd)
  obtain ⟨vs, q, hrun, hpq, hvs⟩ := hcomplete
  rw [← hstore, hrun] at hagrees
  obtain ⟨report, final, hcheck, hfinal, rfl⟩ := hagrees.exists_eq_ok
  refine ⟨_, final, hcheck, Report.accepted_of_forall_ok hvs, q.solution, ?_⟩
  -- the solution at the end is still the one of the start on everything that was declared
  have hsolved : final.store.bindings.SolvedBy q.solution := hfinal ▸ q.solves
  rw [TypingState.signatures_subst hsolved]
  congr 1
  rw [← hassigned]
  exact List.map_congr_left fun d hd => (hbelow d hd).subst_eq hpq.agree

/-- A recursive function on lists, which the typing uses at lists of strings. -/
theorem Checker.check_complete_length :
    let list : TypeDefinition := ⟨"List", [⟨"Cons", ["head", "tail"]⟩, ⟨"Nil", []⟩]⟩
    let length : FunctionDefinition := ⟨"Length", ["l"], .case (.lower "l")
      [⟨.constructor "Cons" ["x", "xs"],
          .binary .plus (.int 1) (.apply (.upper "Length") (.lower "xs"))⟩,
        ⟨.constructor "Nil" [], .int 0⟩]⟩
    let program : Program := [.type list, .function length]
    let strings := Ty.base "List"
    let assigned : List Declared :=
      [⟨.type list, some (.type [.curried [.string, strings] strings, strings])⟩,
        ⟨.function length, some (.function .int [strings])⟩]
    program.patternsFit = true ∧ program.TypedBy assigned ∧
    ∃ report final, check ⟨true, false⟩ program .initial = .ok report final ∧
      report.accepted = true ∧
      ∃ θ : Nat → Ty, ((final.signatures report.declared).map fun signature =>
          { signature with ty := signature.ty.subst θ }) =
        assigned.flatMap Declared.signatures := by
  intro list length program strings assigned
  have hfit : program.patternsFit = true := by decide +kernel
  have htyped : program.TypedBy assigned := by
    refine ⟨rfl, ?_, ?_⟩
    · simp only [assigned, List.forall_mem_cons]
      refine ⟨.type (.cons ⟨[.string, strings], rfl, rfl⟩ (.cons ⟨[], rfl, rfl⟩ .nil)), ?_⟩
      exact ⟨.function rfl, by simp⟩
    · simp only [assigned, List.forall_mem_cons]
      refine ⟨.type, .function (.case (.lower rfl) ?_), by simp⟩
      refine .cons (@PatternTyped.constructor _ "Cons" "List" _ [.string, strings] rfl rfl) ?_ ?_
      · exact .binary .int (.apply (.upper rfl) (.lower rfl)) rfl
      · exact .cons (@PatternTyped.constructor _ "Nil" "List" _ [] rfl rfl) .int .nil
  exact ⟨hfit, htyped, check_complete ⟨true, false⟩ hfit htyped⟩

end Monotype
