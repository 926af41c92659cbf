import Monotype.Proofs.Typing.Fresh
import Monotype.Proofs.Typing.Names
import Monotype.Proofs.Unify.Shift

/-!
# `Monotype.Proofs.Typing.Runs` — one run of the checker after another

A checker that has checked a program is not as it was: variables were handed out, some of them are bound,
perhaps by a run that failed midway, and the root declares what the program declares. A second program is
checked on top of that. Its variables come after those of the first, so nothing that is bound yet is about
them; and the root says of each name that the second program looks up what it would say without the first
one, if the first does not declare it. So each step of the second run is the step of a run with a new
checker, with all variables moved up (`Mirrors`), and it leaves what was bound before as it was.

## Contents
- **`TypeError.shift`**, **`Report.shift`**: what a run comes to, with all variables moved up.
- **`Store.above`**, **`Mirrors`**: stores and outcomes on top of older bindings.
- **`Lexical.infer_mirrors`**, **`Lexical.verdicts_mirrors`**: inference takes the same steps there.
- **`TypingState.declareAll_shift`**: what is declared there.
- **`Checker.check_after`**: runs on one checker do not disturb each other.
-/

namespace Monotype

/-! ## Moving up -/

/-- An error with all variables moved up. -/
def BindingError.shift (k : Nat) : BindingError → BindingError
  | mismatch left right => mismatch (left.shift k) (right.shift k)
  | infinite var ty => infinite (var + k) (ty.shift k)
  | unboundOperator operator => unboundOperator operator
  | notNominal constructor ty => notNominal constructor (ty.shift k)
  | tooManyFields constructor ty => tooManyFields constructor (ty.shift k)

/-- An error with all variables moved up. -/
def TypeError.shift (k : Nat) : TypeError → TypeError
  | undefinedVariable name => undefinedVariable name
  | undefinedConstructor name => undefinedConstructor name
  | binding error => binding (error.shift k)
  | notDeclared name => notDeclared name

/-- An error with all variables moved up. -/
def DefinitionError.shift (k : Nat) (error : DefinitionError) : DefinitionError :=
  { error with error := error.error.shift k }

/-- A verdict with all variables moved up. -/
def Verdict.shift (k : Nat) (verdict : Verdict) : Verdict := verdict.mapError (TypeError.shift k)

/-- What is declared for a definition, with all variables moved up. -/
def Declared.shift (k : Nat) (declared : Declared) : Declared := declared.subst fun v => .var (v + k)

/-- A signature with all variables moved up. -/
def Signature.shift (k : Nat) (signature : Signature) : Signature :=
  { signature with ty := signature.ty.shift k }

/-- A report with all variables moved up. -/
def Report.shift (k : Nat) (report : Report) : Report :=
  ⟨report.declared.map (Declared.shift k), report.verdicts.map (Verdict.shift k)⟩

variable {k : Nat} {old : Bindings} {strict : Bool} {ε ε' α β γ δ : Type}

theorem TypeError.ofUnify_above (hold : old.Under k) (e : UnifyError) (b : Bindings) :
    ofUnify (e.shift k) (b.above k old) = (ofUnify e b).shift k := by
  cases e with
  | mismatch left right => simp only [UnifyError.shift, ofUnify, Bindings.zonk_above hold]; rfl
  | infinite v t => simp only [UnifyError.shift, ofUnify, Bindings.zonk_above hold]; rfl

/-- The errors of a report that was moved up are its errors, moved up. -/
theorem Report.errors_shift (report : Report) :
    (report.shift k).errors = report.errors.map (DefinitionError.shift k) := by
  obtain ⟨declared, verdicts⟩ := report
  simp only [errors, shift, List.zip_map, List.filterMap_map, List.map_filterMap]
  refine List.filterMap_congr fun entry _ => ?_
  obtain ⟨declared, verdict⟩ := entry
  cases verdict <;> rfl

/-! ## Stores and outcomes on top of older bindings -/

/-- What is known of type variables, moved up and on top of older bindings. -/
def Store.above (s : Store) (k : Nat) (old : Bindings) : Store :=
  ⟨s.allocated + k, s.bindings.above k old⟩

/-- Two outcomes of which the second is the first one moved up and on top of older bindings, with related
values. -/
inductive Mirrors (strict : Bool) (k : Nat) (old : Bindings) (E : ε → ε) (P : α → β → Prop) :
    Outcome ε Store α → Outcome ε Store β → Prop
  | ok {a : α} {b : β} {s : Store} (hs : s.bindings.Sound strict) (hP : P a b) :
      Mirrors strict k old E P (.ok a s) (.ok b (s.above k old))
  | error {e : ε} {s : Store} (hs : s.bindings.Sound strict) :
      Mirrors strict k old E P (.error e s) (.error (E e) (s.above k old))
  | endless : Mirrors strict k old E P .endless .endless

/-- **Mirroring passes through sequences**, from bindings that are sound again after the first part. -/
theorem Mirrors.bind {E : ε → ε} {P : α → β → Prop} {Q : γ → δ → Prop} {o : Outcome ε Store α}
    {o' : Outcome ε Store β} {next : α → Store → Outcome ε Store γ}
    {next' : β → Store → Outcome ε Store δ} (h : Mirrors strict k old E P o o')
    (hnext : ∀ a b s, s.bindings.Sound strict → P a b →
      Mirrors strict k old E Q (next a s) (next' b (s.above k old))) :
    Mirrors strict k old E Q (o.bind next) (o'.bind next') := by
  cases h with
  | ok hs hP => exact hnext _ _ _ hs hP
  | error hs => exact .error hs
  | endless => exact .endless

/-- A type, and the type moved up. -/
def Ty.IsShift (k : Nat) (t t' : Ty) : Prop := t' = t.shift k

namespace Lexical

variable {s : Store} {Γ Γ' : Context} {N : String → Prop}

/-! ## Steps -/

theorem fresh_mirrors (hs : s.bindings.Sound strict) :
    Mirrors strict k old (TypeError.shift k) (Ty.IsShift k) (fresh s) (fresh (s.above k old)) := by
  have hnext : fresh (s.above k old) = .ok ((Ty.var s.allocated).shift k)
      (Store.above { s with allocated := s.allocated + 1 } k old) := by
    simp only [fresh, Store.above, Ty.shift_var, Nat.add_right_comm]
  rw [hnext]
  exact .ok (s := { s with allocated := s.allocated + 1 }) hs rfl

/-- Unification mirrors, since its three readings of bindings do. -/
theorem unify_mirrors (hold : old.Under k) (hs : s.bindings.Sound strict) (left right : Ty) :
    Mirrors strict k old (TypeError.shift k) (fun _ _ => True) (unify strict left right s)
      (unify strict (left.shift k) (right.shift k) (s.above k old)) := by
  have hunify : Unifier.unify strict (left.shift k) (right.shift k) (s.above k old).bindings =
      Unifier.above k old (Unifier.unify strict left right s.bindings) :=
    Unifier.unify_above hold hs left right
  have hsound : ∀ b, (Unifier.unify strict left right s.bindings).state? = some b →
      b.Sound strict := fun b hb =>
    (Unifier.derives_unify rfl (Outcome.ends_of_state? hb)).sound hb hs
  unfold unify
  rw [hunify]
  cases ho : Unifier.unify strict left right s.bindings with
  | ok u b => exact .ok (s := { s with bindings := b }) (hsound b (by rw [ho]; rfl)) trivial
  | error e b =>
    have herror := TypeError.ofUnify_above hold e b
    show Mirrors strict k old (TypeError.shift k) _ (.error (TypeError.ofUnify e b) _)
      (.error (TypeError.ofUnify (e.shift k) (b.above k old)) _)
    rw [herror]
    exact .error (s := { s with bindings := b }) (hsound b (by rw [ho]; rfl))
  | endless => exact .endless

theorem lookup_mirrors (hs : s.bindings.Sound strict) (hΓ : Γ.ShiftedOn k N Γ') {name : String}
    (hname : N name) {missing : TypeError} (hmissing : missing.shift k = missing) :
    Mirrors strict k old (TypeError.shift k) (Ty.IsShift k) (lookup Γ name missing s)
      (lookup Γ' name missing (s.above k old)) := by
  unfold lookup
  rw [hΓ name hname]
  cases Γ name with
  | none =>
    have herror : Mirrors strict k old (TypeError.shift k) (Ty.IsShift k) (.error missing s)
        (.error (missing.shift k) (s.above k old)) := .error hs
    rw [hmissing] at herror
    exact herror
  | some t => exact .ok hs rfl

theorem failWith_mirrors {P : α → β → Prop} (hold : old.Under k) (hs : s.bindings.Sound strict)
    {error : Ty → BindingError} (herror : ∀ t, error (t.shift k) = (error t).shift k) (t : Ty) :
    Mirrors strict k old (TypeError.shift k) P (failWith error t s)
      (failWith error (t.shift k) (s.above k old)) := by
  have hfail : (failWith error (t.shift k) : Solver β) (s.above k old) =
      .error (TypeError.shift k (TypeError.binding (error (s.bindings.zonk t)))) (s.above k old) := by
    show Outcome.error (TypeError.binding (error ((s.bindings.above k old).zonk (t.shift k)))) _ = _
    rw [Bindings.zonk_above hold, herror]
    rfl
  rw [hfail]
  exact .error hs

/-! ## Patterns -/

/-- The names of a pattern need not have agreed before. -/
theorem bindFields_mirrors (hold : old.Under k) (hs : s.bindings.Sound strict) (constructor : String)
    (whole : Ty) {params : List String} (hΓ : Γ.ShiftedOn k (fun name => N name ∧ name ∉ params) Γ')
    (t : Ty) :
    Mirrors strict k old (TypeError.shift k)
      (fun out out' => out.1.ShiftedOn k N out'.1 ∧ out.2.IsShift k out'.2)
      (bindFields constructor whole Γ t params s)
      (bindFields constructor (whole.shift k) Γ' (t.shift k) params (s.above k old)) := by
  induction params generalizing t Γ Γ' with
  | nil =>
    simp only [bindFields, Run.run_pure]
    exact .ok hs ⟨hΓ.mono fun name hname => ⟨hname, List.not_mem_nil⟩, rfl⟩
  | cons param others ih =>
    cases t with
    | var v => exact failWith_mirrors hold hs (fun _ => rfl) whole
    | base name => exact failWith_mirrors hold hs (fun _ => rfl) whole
    | arrow domain codomain =>
      refine ih (Context.ShiftedOn.bind (hΓ.mono fun name hname => ⟨hname.1.1, ?_⟩) domain) codomain
      rw [List.mem_cons, not_or]
      exact ⟨hname.2, hname.1.2⟩

/-- A pattern looks up its constructor, and binds names of which the scopes need not have agreed. -/
theorem matchPattern_mirrors (hold : old.Under k) (hs : s.bindings.Sound strict) {pattern : Pattern}
    (hΓ : Γ.ShiftedOn k (fun name => name ∈ pattern.looksUp ∨ N name ∧ name ∉ pattern.binds) Γ')
    (scrutinee : Ty) :
    Mirrors strict k old (TypeError.shift k) (Context.ShiftedOn k N)
      (matchPattern strict Γ pattern scrutinee s)
      (matchPattern strict Γ' pattern (scrutinee.shift k) (s.above k old)) := by
  cases pattern with
  | var bound =>
    refine .ok hs (Context.ShiftedOn.bind (hΓ.mono fun name hname => .inr ⟨hname.1, ?_⟩) scrutinee)
    exact fun hmem => hname.2 (List.mem_singleton.mp hmem)
  | constructor name params =>
    simp only [matchPattern, Run.run_bind]
    refine (lookup_mirrors hs hΓ (.inl List.mem_cons_self) rfl).bind ?_
    rintro whole _ s₁ hs₁ rfl
    refine (bindFields_mirrors hold hs₁ name whole (hΓ.mono fun _ => .inr) whole).bind ?_
    rintro ⟨inner, made⟩ ⟨inner', _⟩ s₂ hs₂ ⟨hinner, rfl⟩
    cases made with
    | var v => exact failWith_mirrors hold hs₂ (fun _ => rfl) (.var v)
    | arrow domain codomain => exact failWith_mirrors hold hs₂ (fun _ => rfl) (.arrow domain codomain)
    | base type =>
      exact (unify_mirrors hold hs₂ (.base type) scrutinee).bind fun _ _ s₃ hs₃ _ => .ok hs₃ hinner

/-! ## Expressions -/

/-- Give an operation its result type: a fresh variable, which the type of the operator must yield. -/
theorem result_mirrors (hold : old.Under k) (hs : s.bindings.Sound strict) (expected expected' : Ty → Ty)
    (hexpected : ∀ t, expected' (t.shift k) = (expected t).shift k) (actual : Ty) :
    Mirrors strict k old (TypeError.shift k) (Ty.IsShift k)
      ((do let result ← fresh; unify strict (expected result) actual; return result) s)
      ((do let result ← fresh; unify strict (expected' result) (actual.shift k); return result)
        (s.above k old)) := by
  simp only [Run.run_bind]
  refine (fresh_mirrors hs).bind ?_
  rintro result _ s₁ hs₁ rfl
  rw [hexpected]
  exact (unify_mirrors hold hs₁ (expected result) actual).bind fun _ _ s₂ hs₂ _ => .ok hs₂ rfl

mutual

/-- **Inference takes the same steps on top of older bindings**, in scopes that agree on the free names of
the expression. -/
theorem infer_mirrors (hold : old.Under k) : ∀ (e : Expr) {s : Store} {Γ Γ' : Context},
    s.bindings.Sound strict → Γ.ShiftedOn k (· ∈ e.freeNames) Γ' →
    Mirrors strict k old (TypeError.shift k) (Ty.IsShift k) (infer strict Γ e s)
      (infer strict Γ' e (s.above k old))
  | .int _, _, _, _, hs, _ => .ok hs rfl
  | .str _, _, _, _, hs, _ => .ok hs rfl
  | .lower name, _, _, _, hs, hΓ => by
    unfold infer
    exact lookup_mirrors hs hΓ List.mem_cons_self rfl
  | .upper name, _, _, _, hs, hΓ => by
    unfold infer
    exact lookup_mirrors hs hΓ List.mem_cons_self rfl
  | .binary op left right, s, Γ, Γ', hs, hΓ => by
    -- a part has fewer free names, so the scopes agree on them too
    have hleft : Γ.ShiftedOn k (· ∈ left.freeNames) Γ' :=
      hΓ.mono fun name h => List.mem_cons_of_mem _ (List.mem_append_left _ h)
    have hright : Γ.ShiftedOn k (· ∈ right.freeNames) Γ' :=
      hΓ.mono fun name h => List.mem_cons_of_mem _ (List.mem_append_right _ h)
    simp only [infer, Run.run_bind]
    refine (infer_mirrors hold left hs hleft).bind ?_
    rintro a _ s₁ hs₁ rfl
    refine (infer_mirrors hold right hs₁ hright).bind ?_
    rintro b _ s₂ hs₂ rfl
    refine (lookup_mirrors hs₂ hΓ List.mem_cons_self rfl).bind ?_
    rintro operator _ s₃ hs₃ rfl
    exact result_mirrors hold hs₃ (fun result => .arrow a (.arrow b result))
      (fun result => .arrow (a.shift k) (.arrow (b.shift k) result)) (fun _ => rfl) operator
  | .unary op operand, s, Γ, Γ', hs, hΓ => by
    simp only [infer, Run.run_bind]
    refine (infer_mirrors hold operand hs (hΓ.mono fun name => List.mem_cons_of_mem _)).bind ?_
    rintro a _ s₁ hs₁ rfl
    refine (lookup_mirrors hs₁ hΓ List.mem_cons_self rfl).bind ?_
    rintro operator _ s₂ hs₂ rfl
    exact result_mirrors hold hs₂ (fun result => .arrow a result)
      (fun result => .arrow (a.shift k) result) (fun _ => rfl) operator
  | .apply function argument, s, Γ, Γ', hs, hΓ => by
    simp only [infer, Run.run_bind]
    refine (infer_mirrors hold function hs (hΓ.mono fun name => List.mem_append_left _)).bind ?_
    rintro f _ s₁ hs₁ rfl
    refine (infer_mirrors hold argument hs₁ (hΓ.mono fun name => List.mem_append_right _)).bind ?_
    rintro a _ s₂ hs₂ rfl
    exact result_mirrors hold hs₂ (fun result => .arrow a result)
      (fun result => .arrow (a.shift k) result) (fun _ => rfl) f
  | .case scrutinee branches, s, Γ, Γ', hs, hΓ => by
    simp only [infer, Run.run_bind]
    refine (infer_mirrors hold scrutinee hs (hΓ.mono fun name => List.mem_append_left _)).bind ?_
    rintro a _ s₁ hs₁ rfl
    refine (fresh_mirrors hs₁).bind ?_
    rintro result _ s₂ hs₂ rfl
    refine (inferBranches_mirrors hold branches a result hs₂
      (hΓ.mono fun name => List.mem_append_right _)).bind ?_
    exact fun _ _ s₃ hs₃ _ => .ok hs₃ rfl

theorem inferBranches_mirrors (hold : old.Under k) : ∀ (branches : List Branch) {s : Store}
    {Γ Γ' : Context} (scrutinee result : Ty), s.bindings.Sound strict →
    Γ.ShiftedOn k (· ∈ Branch.freeNames branches) Γ' →
    Mirrors strict k old (TypeError.shift k) (fun _ _ => True)
      (inferBranches strict Γ scrutinee result branches s)
      (inferBranches strict Γ' (scrutinee.shift k) (result.shift k) branches (s.above k old))
  | [], _, _, _, _, _, hs, _ => .ok hs trivial
  | ⟨pattern, body⟩ :: others, s, Γ, Γ', scrutinee, result, hs, hΓ => by
    have hpattern : Γ.ShiftedOn k (fun name => name ∈ pattern.looksUp ∨
        name ∈ body.freeNames ∧ name ∉ pattern.binds) Γ' := by
      refine hΓ.mono fun name hname => List.mem_append_left _ (List.mem_append.mpr ?_)
      exact hname.imp_right fun h => List.mem_filter.mpr ⟨h.1, decide_eq_true h.2⟩
    simp only [inferBranches, Run.run_bind]
    refine (matchPattern_mirrors hold hs hpattern scrutinee).bind ?_
    intro inner inner' s₁ hs₁ hinner
    refine (infer_mirrors hold body hs₁ hinner).bind ?_
    rintro t _ s₂ hs₂ rfl
    refine (unify_mirrors hold hs₂ result t).bind fun _ _ s₃ hs₃ _ => ?_
    exact inferBranches_mirrors hold others scrutinee result hs₃
      (hΓ.mono fun name => List.mem_append_right _)

end

/-! ## Definitions -/

theorem checkBody_mirrors (hold : old.Under k) (hs : s.bindings.Sound strict)
    (definition : FunctionDefinition) (result : Ty) {params : List Ty}
    (hlength : params.length = definition.params.length)
    (hΓ : Γ.ShiftedOn k (· ∈ (Definition.function definition).freeNames) Γ') :
    Mirrors strict k old (TypeError.shift k) (fun _ _ => True)
      (checkBody strict Γ definition result params s)
      (checkBody strict Γ' definition (result.shift k) (params.map (Ty.shift k)) (s.above k old)) := by
  have hnames : (definition.params.zip params).map Prod.fst = definition.params :=
    List.map_fst_zip hlength.ge
  have hbody : (Γ.bindAll (definition.params.zip params)).ShiftedOn k (· ∈ definition.body.freeNames)
      (Γ'.bindAll (definition.params.zip (params.map (Ty.shift k)))) := by
    rw [List.zip_map_right]
    refine Context.ShiftedOn.bindAll (hΓ.mono fun name hname => ?_)
    rw [hnames] at hname
    exact List.mem_filter.mpr ⟨hname.1, decide_eq_true hname.2⟩
  simp only [checkBody, Run.run_bind]
  refine (infer_mirrors hold definition.body hs hbody).bind ?_
  rintro t _ s₁ hs₁ rfl
  exact unify_mirrors hold hs₁ t result

/-- **Checking a definition mirrors**, if the scopes agree on the names that it looks up. -/
theorem checkDefinition_mirrors (hold : old.Under k) (hs : s.bindings.Sound strict)
    {declared : Declared} (hΓ : Γ.ShiftedOn k (· ∈ declared.definition.freeNames) Γ') :
    Mirrors strict k old (TypeError.shift k) (fun _ _ => True) (checkDefinition strict Γ declared s)
      (checkDefinition strict Γ' (declared.shift k) (s.above k old)) := by
  obtain ⟨definition, declaration⟩ := declared
  cases definition with
  | type _ => exact .ok hs trivial
  | function definition =>
    match declaration with
    | none => exact .error hs
    | some (.type _) => exact .error hs
    | some (.function result params) =>
      have hmoved : (params.map (Ty.shift k)).length = params.length := List.length_map ..
      show Mirrors strict k old _ _ _ (checkDefinition strict Γ' ⟨.function definition,
        some (.function (result.shift k) (params.map (Ty.shift k)))⟩ (s.above k old))
      by_cases hlength : params.length = definition.params.length
      · simp only [checkDefinition, hmoved, if_pos hlength]
        exact checkBody_mirrors hold hs definition result hlength hΓ
      · simp only [checkDefinition, hmoved, if_neg hlength]
        exact .error hs

/-- A failure that was turned into a verdict is the same verdict, moved up. -/
theorem attempt_mirrors {x x' : Solver Unit}
    (h : Mirrors strict k old (TypeError.shift k) (fun _ _ => True) (x s) (x' (s.above k old))) :
    Mirrors strict k old (id : Empty → Empty) (fun v v' => v' = Verdict.shift k v) (x.attempt s)
      (x'.attempt (s.above k old)) := by
  unfold Run.attempt
  generalize x s = o, x' (s.above k old) = o' at h
  cases h with
  | ok hs _ => exact .ok hs rfl
  | error hs => exact .ok hs rfl
  | endless => exact .endless

/-- Checking goes on after a verdict that was moved up as it does after the verdict. -/
theorem andOthers_mirrors {others others' : Store → Outcome Empty Store (List Verdict)}
    (hs : s.bindings.Sound strict)
    (h : Mirrors strict k old (id : Empty → Empty) (fun vs vs' => vs' = vs.map (Verdict.shift k))
      (others s) (others' (s.above k old))) (keepGoing : Bool) (verdict : Verdict) :
    Mirrors strict k old (id : Empty → Empty) (fun vs vs' => vs' = vs.map (Verdict.shift k))
      (verdict.andOthers keepGoing others s)
      ((verdict.shift k).andOthers keepGoing others' (s.above k old)) := by
  have hgoes : (verdict.shift k).goesOn keepGoing = verdict.goesOn keepGoing := by cases verdict <;> rfl
  unfold Verdict.andOthers
  rw [hgoes]
  split
  · refine h.bind ?_
    rintro vs _ s₁ hs₁ rfl
    exact .ok hs₁ rfl
  · exact .ok hs rfl

/-- Verdicts in order mirror each other: the scopes are those of the whole program, and never change. -/
theorem verdicts_mirrors (options : Options) (hold : old.Under k)
    (hs : s.bindings.Sound options.occursCheck) {definitions : List Declared}
    (hΓ : ∀ declared ∈ definitions, Γ.ShiftedOn k (· ∈ declared.definition.freeNames) Γ') :
    Mirrors options.occursCheck k old (id : Empty → Empty) (fun vs vs' => vs' = vs.map (Verdict.shift k))
      (verdicts options Γ definitions s)
      (verdicts options Γ' (definitions.map (Declared.shift k)) (s.above k old)) := by
  induction definitions generalizing s with
  | nil => exact .ok hs rfl
  | cons declared others ih =>
    rw [List.forall_mem_cons] at hΓ
    rw [List.map_cons, verdicts_cons, verdicts_cons]
    refine (attempt_mirrors (checkDefinition_mirrors hold hs hΓ.1)).bind ?_
    rintro verdict _ s₁ hs₁ rfl
    exact andOthers_mirrors hs₁ (ih hs₁ hΓ.2) options.keepGoing verdict

end Lexical

/-! ## Declarations -/

namespace TypingState

variable {s s' : TypingState}

theorem freshMany_shift (h : s'.allocated = s.allocated + k) (count : Nat) :
    (s'.freshMany count).1 = (s.freshMany count).1.map (Ty.shift k) := by
  have hrange : List.range' (s.allocated + k) count =
      (List.range' s.allocated count).map (k + ·) := by
    rw [List.map_add_range', Nat.add_comm]
  simp only [freshMany, h, hrange, List.map_map]
  exact List.map_congr_left fun v _ => congrArg Ty.var (Nat.add_comm k v)

theorem declareConstructors_shift (type : String) (constructors : List Constructor)
    (h : s'.allocated = s.allocated + k) :
    (declareConstructors type constructors s').1 =
        (declareConstructors type constructors s).1.map (Ty.shift k) ∧
      (declareConstructors type constructors s').2.allocated =
        (declareConstructors type constructors s).2.allocated + k := by
  induction constructors generalizing s s' with
  | nil => exact ⟨rfl, h⟩
  | cons constructor others ih =>
    have hfields := freshMany_shift h constructor.fields.length
    have hnext : (s'.declareConstructor type constructor).2.allocated =
        (s.declareConstructor type constructor).2.allocated + k := by
      show s'.allocated + constructor.fields.length = s.allocated + constructor.fields.length + k
      omega
    obtain ⟨hothers, hallocated⟩ := ih hnext
    refine ⟨?_, hallocated⟩
    have hfirst : (s'.declareConstructor type constructor).1 =
        (s.declareConstructor type constructor).1.shift k := by
      show Ty.curried (s'.freshMany _).1 _ = (Ty.curried (s.freshMany _).1 _).shift k
      rw [hfields, Ty.shift, Ty.subst_curried]
      rfl
    exact congrArg₂ List.cons hfirst hothers

/-- What is declared for a definition is the same, moved up. -/
theorem declare_shift (definition : Definition) (h : s'.allocated = s.allocated + k) :
    (⟨definition, some (s'.declare definition).1⟩ : Declared) =
        Declared.shift k ⟨definition, some (s.declare definition).1⟩ ∧
      (s'.declare definition).2.allocated = (s.declare definition).2.allocated + k := by
  cases definition with
  | function definition =>
    have hnext : ({ s' with allocated := s'.allocated + 1 } : TypingState).allocated =
        ({ s with allocated := s.allocated + 1 } : TypingState).allocated + k := by
      simp only [h]
      omega
    have hparams := freshMany_shift hnext definition.params.length
    constructor
    · show Declared.mk _ (some (.function (.var s'.allocated)
        (freshMany { s' with allocated := s'.allocated + 1 } definition.params.length).1)) = _
      rw [hparams, h]
      rfl
    · show s'.allocated + 1 + definition.params.length = s.allocated + 1 + definition.params.length + k
      omega
  | type definition =>
    obtain ⟨hsignatures, hallocated⟩ :=
      declareConstructors_shift definition.name definition.constructors h
    refine ⟨?_, hallocated⟩
    simp only [declare, Declared.shift, Declared.subst, Option.map_some, Declaration.subst, hsignatures]
    rfl

/-- What is declared depends on the variables that were handed out before, and on nothing else. -/
theorem declareAll_shift (program : Program) (h : s'.allocated = s.allocated + k) :
    (declareAll program s').1 = (declareAll program s).1.map (Declared.shift k) ∧
      (declareAll program s').2.allocated = (declareAll program s).2.allocated + k := by
  induction program generalizing s s' with
  | nil => exact ⟨rfl, h⟩
  | cons definition others ih =>
    obtain ⟨hfirst, hnext⟩ := declare_shift definition h
    obtain ⟨hothers, hallocated⟩ := ih hnext
    exact ⟨congrArg₂ List.cons hfirst hothers, hallocated⟩

end TypingState

/-! ## The root scope -/

/-- After a program that declares none of them, the root says of the names that another program looks up or
declares what it says in a new checker. -/
theorem Context.declare_shiftedOn {first second : Program} {s : TypingState}
    (hnames : ∀ name ∈ second.freeNames, name ∉ second.declares → name ∉ first.declares)
    {definitions : List Declared} (hshaped : ∀ declared ∈ definitions, declared.Shaped)
    (hdefinitions : definitions.map Declared.definition = second) :
    (operators.declare definitions).ShiftedOn k
      (fun name => name ∈ second.freeNames ∨ name ∈ second.declares)
      ((operators.declare (TypingState.declareAll first s).1).declare
        (definitions.map (Declared.shift k))) := by
  have hentries : Declared.entries (definitions.map (Declared.shift k)) =
      (Declared.entries definitions).map fun entry => (entry.1, entry.2.shift k) :=
    Declared.entries_subst _ definitions
  rw [declare, declare, hentries]
  refine ShiftedOn.bindAll ?_
  rintro name ⟨hname, hsecond⟩
  rw [Declared.map_fst_entries hshaped, hdefinitions] at hsecond
  have hfirst : name ∉ (Declared.entries (TypingState.declareAll first s).1).map Prod.fst := by
    rw [Declared.map_fst_entries (TypingState.shaped_of_mem_declareAll first s),
      TypingState.definitions_declareAll]
    exact hnames name (hname.resolve_right hsecond) hsecond
  rw [declare, bindAll_of_not_mem hfirst]
  exact (congrFun (map_operators fun v => .var (v + k)) name).symm

/-! ## One run after another -/

/-- Where inference over a context never ends, neither does inference in an environment. -/
theorem Agrees.eq_endless {frames : List Frame} {P : α → TypingState → β → Prop}
    {o : Outcome ε TypingState α} (h : Agrees frames P o .endless) : o = .endless := by
  cases h
  rfl

/-- Signatures in a state whose bindings are those of another one, moved up and on top of older ones. -/
theorem TypingState.signatures_above {s s' : TypingState} (hold : old.Under k)
    (hb : s'.bindings = s.bindings.above k old) (definitions : List Declared) :
    s'.signatures (definitions.map (Declared.shift k)) =
      (s.signatures definitions).map (Signature.shift k) := by
  have hsignatures : (definitions.map (Declared.shift k)).flatMap Declared.signatures =
      (definitions.flatMap Declared.signatures).map (Signature.shift k) :=
    Declared.flatMap_signatures_subst _ definitions
  unfold signatures
  rw [hsignatures, hb, List.map_map, List.map_map]
  refine List.map_congr_left fun signature _ => ?_
  exact congrArg (Signature.mk signature.name) (Bindings.zonk_above hold s.bindings signature.ty)

theorem TypingState.typeOf?_of_sees {s : TypingState} {Γ : Context}
    (hΓ : s.environment.Sees Environment.root Γ) (name : String) :
    s.typeOf? name = (Γ name).map s.bindings.zonk := by
  rw [typeOf?, hΓ.2]

/-- Types of names in a state whose bindings are those of another one, moved up and on top of older ones. -/
theorem TypingState.typeOf?_above {s s' : TypingState} {Γ Γ' : Context} {N : String → Prop}
    (hold : old.Under k) (hb : s'.bindings = s.bindings.above k old)
    (hs : s.environment.Sees Environment.root Γ) (hs' : s'.environment.Sees Environment.root Γ')
    (hΓ : Γ.ShiftedOn k N Γ') {name : String} (hname : N name) :
    s'.typeOf? name = (s.typeOf? name).map (Ty.shift k) := by
  rw [typeOf?_of_sees hs, typeOf?_of_sees hs', hΓ name hname, hb, Option.map_map, Option.map_map]
  exact congrArg (Option.map · (Γ name)) (funext fun t => Bindings.zonk_above hold s.bindings t)

namespace Checker

variable {options : Options} {first second : Program} {report₁ : Report} {s₁ : TypingState}

/-- The second run of a checker is lexical inference on top of what the first run has bound. -/
theorem verdicts_after (hfirst : check options first .initial = .ok report₁ s₁)
    (hnames : ∀ name ∈ second.freeNames, name ∉ second.declares → name ∉ first.declares) :
    Mirrors options.occursCheck s₁.allocated s₁.bindings (id : Empty → Empty)
      (fun vs vs' => vs' = vs.map (Verdict.shift s₁.allocated))
      (Lexical.verdicts options (Context.operators.declare (TypingState.declareAll second .initial).1)
        (TypingState.declareAll second .initial).1 (TypingState.declareAll second .initial).2.store)
      (Lexical.verdicts options
        ((Context.operators.declare report₁.declared).declare (TypingState.declareAll second s₁).1)
        (TypingState.declareAll second s₁).1 (TypingState.declareAll second s₁).2.store) := by
  have hfresh : s₁.Fresh := fresh_of_check TypingState.fresh_initial hfirst
  have hold : s₁.bindings.Under s₁.allocated := fun v hv => hfresh.find?_eq_none hv
  obtain ⟨hdeclared₁, _, _⟩ := check_eq_ok TypingState.sees_initial hfirst
  have hzero : s₁.allocated = TypingState.initial.allocated + s₁.allocated := (Nat.zero_add _).symm
  obtain ⟨hdeclared, hallocated⟩ := TypingState.declareAll_shift second hzero
  -- the first pass binds no variable, so a new checker has bound none when it comes to its verdicts
  have hempty : (TypingState.declareAll second .initial).2.bindings = .empty :=
    (TypingState.declares_declareAll second .initial).bindings_eq
  have hstore : (TypingState.declareAll second s₁).2.store =
      (TypingState.declareAll second .initial).2.store.above s₁.allocated s₁.bindings := by
    simp only [TypingState.store, Store.above, hallocated, hempty, Bindings.above_empty,
      (TypingState.declares_declareAll second s₁).bindings_eq]
  have hΓ := Context.declare_shiftedOn (k := s₁.allocated) (s := .initial) hnames
    (TypingState.shaped_of_mem_declareAll second .initial)
    (TypingState.definitions_declareAll second .initial)
  rw [hdeclared, hdeclared₁, hstore]
  refine Lexical.verdicts_mirrors options hold ?_ fun declared hmem => hΓ.mono fun name hname => .inl ?_
  · rw [TypingState.store, hempty]
    exact Bindings.sound_empty _
  · have hdefinition : declared.definition ∈ second :=
      TypingState.definitions_declareAll second .initial ▸ List.mem_map_of_mem hmem
    exact List.mem_flatMap.mpr ⟨_, hdefinition, hname⟩

/-- **Runs on one checker do not disturb each other.** A checker checks a program and comes to an end, with
errors or without. Then it checks another one, of which no name that it looks up without declaring or
binding it is declared by the first. Either it never ends, and neither does a new checker; or it comes to
what a new checker comes to, with all variables moved up by those that the first run handed out: the same
declarations, errors and signatures, the same types of names, and the same bindings on top of those that
the first run left. -/
theorem check_after (hfirst : check options first .initial = .ok report₁ s₁)
    (hnames : ∀ name ∈ second.freeNames, name ∉ second.declares → name ∉ first.declares) :
    (check options second .initial = .endless ∧ check options second s₁ = .endless) ∨
    ∃ report final report' final',
      check options second .initial = .ok report final ∧
      check options second s₁ = .ok report' final' ∧
      report'.declared = report.declared.map (Declared.shift s₁.allocated) ∧
      report'.errors = report.errors.map (DefinitionError.shift s₁.allocated) ∧
      final'.signatures report'.declared =
        (final.signatures report.declared).map (Signature.shift s₁.allocated) ∧
      (∀ name, name ∈ second.freeNames ∨ name ∈ second.declares →
        final'.typeOf? name = (final.typeOf? name).map (Ty.shift s₁.allocated)) ∧
      final'.allocated = final.allocated + s₁.allocated ∧
      (∀ v, final'.bindings.find? (v + s₁.allocated) =
        (final.bindings.find? v).map (Ty.shift s₁.allocated)) ∧
      ∀ v < s₁.allocated, final'.bindings.find? v = s₁.bindings.find? v := by
  -- the first run bound only variables that it had handed out: its bindings lie below the shift
  have hfresh : s₁.Fresh := fresh_of_check TypingState.fresh_initial hfirst
  have hold : s₁.bindings.Under s₁.allocated := fun v hv => hfresh.find?_eq_none hv
  obtain ⟨hdeclared₁, _, hsees₁⟩ := check_eq_ok TypingState.sees_initial hfirst
  -- both runs of the second program are compared in the lexical form of inference
  have hnew := check_agrees options second TypingState.sees_initial
  have hafter := check_agrees options second hsees₁
  have hmirrors := verdicts_after hfirst hnames
  generalize Lexical.verdicts options (Context.operators.declare _) _ _ = o,
    Lexical.verdicts options ((Context.operators.declare _).declare _) _ _ = o' at hnew hafter hmirrors
  cases hmirrors with
  | endless => exact .inl ⟨hnew.eq_endless, hafter.eq_endless⟩
  -- an error of a definition is caught in its verdict
  | error => rename_i e _ _; exact e.elim
  | @ok vs vs' s _ hvs =>
    subst hvs
    obtain ⟨report, final, hcheck, hstore, hreport⟩ := hnew.exists_eq_ok
    obtain ⟨report', final', hcheck', hstore', hreport'⟩ := hafter.exists_eq_ok
    have hzero : s₁.allocated = TypingState.initial.allocated + s₁.allocated := (Nat.zero_add _).symm
    obtain ⟨hdeclared, _⟩ := TypingState.declareAll_shift second hzero
    obtain ⟨hdeclared', _, hsees⟩ := check_eq_ok TypingState.sees_initial hcheck
    obtain ⟨_, _, hsees'⟩ := check_eq_ok hsees₁ hcheck'
    have hshift : report' = report.shift s₁.allocated := by
      rw [hreport', hreport, hdeclared]
      rfl
    have hallocated : final'.allocated = final.allocated + s₁.allocated := by
      rw [show final'.allocated = final'.store.allocated from rfl, hstore', ← hstore]
      rfl
    have hbindings : final'.bindings = final.bindings.above s₁.allocated s₁.bindings := by
      rw [show final'.bindings = final'.store.bindings from rfl, hstore', ← hstore]
      rfl
    have hΓ := Context.declare_shiftedOn (k := s₁.allocated) (s := .initial) hnames
      (TypingState.shaped_of_mem_declareAll second .initial)
      (TypingState.definitions_declareAll second .initial)
    rw [← hdeclared', ← hdeclared₁] at hΓ
    rw [hshift] at hsees'
    refine .inr ⟨report, final, report', final', hcheck, hcheck', ?_⟩
    rw [hshift]
    refine ⟨rfl, report.errors_shift, TypingState.signatures_above hold hbindings report.declared,
      fun name hname => TypingState.typeOf?_above hold hbindings hsees hsees' hΓ hname, hallocated, ?_⟩
    rw [hbindings]
    exact ⟨Bindings.find?_above_add hold final.bindings, fun v hv =>
      Bindings.find?_above_of_lt final.bindings hv⟩

/-- A run that applies an integer, and so fails with a variable bound on the way, and a run of another
program after it. -/
theorem check_after_failed :
    let first : Program := [.type ⟨"Bools", [⟨"True", []⟩, ⟨"False", []⟩]⟩,
      .function ⟨"Bad", ["x"], .apply (.int 1) (.binary .plus (.lower "x") (.int 1))⟩]
    let second : Program := [.function ⟨"Next", ["n"], .binary .plus (.lower "n") (.int 1)⟩,
      .function ⟨"Twice", ["f", "x"], .apply (.lower "f") (.apply (.lower "f") (.lower "x"))⟩]
    ∃ report₁ s₁ report final report' final',
      check ⟨true, true⟩ first .initial = .ok report₁ s₁ ∧ report₁.accepted = false ∧
      s₁.allocated = 4 ∧ s₁.bindings.find? 1 = some .int ∧
      check ⟨true, true⟩ second .initial = .ok report final ∧
      check ⟨true, true⟩ second s₁ = .ok report' final' ∧
      final'.signatures report'.declared =
        (final.signatures report.declared).map (Signature.shift s₁.allocated) := by
  intro first second
  obtain ⟨report₁, s₁, hfirst, _⟩ :=
    exists_check_eq_ok (s := .initial) Bindings.acyclic_empty true first
  obtain ⟨report, final, hsecond, _⟩ :=
    exists_check_eq_ok (s := .initial) Bindings.acyclic_empty true second
  have hrun : (match check ⟨true, true⟩ first .initial with
      | .ok report s =>
        !report.accepted && decide (s.allocated = 4) && decide (s.bindings.find? 1 = some .int)
      | _ => false) = true := by decide +kernel
  rw [hfirst] at hrun
  simp only [Bool.and_eq_true, Bool.not_eq_true', decide_eq_true_eq] at hrun
  have hnames : ∀ name ∈ second.freeNames, name ∉ second.declares → name ∉ first.declares := by
    decide +kernel
  rcases check_after hfirst hnames with ⟨hendless, _⟩ | h
  · rw [hsecond] at hendless
    cases hendless
  · obtain ⟨report, final, report', final', hnew, hafter, _, _, hsignatures, _⟩ := h
    exact ⟨report₁, s₁, report, final, report', final', hfirst, hrun.1.1, hrun.1.2, hrun.2, hnew, hafter,
      hsignatures⟩

end Checker

end Monotype
