import Monotype.Proofs.Typing.Checking

/-!
# `Monotype.Proofs.Typing.Fresh` — fresh variables occur nowhere

A state of inference knows variables in three places: bound ones and those in their bindings, and those in
the types that frames give to names. In all three places, every variable was handed out before. So
nothing is known yet of the variable that is handed out next, and nothing mentions it. Each step of
inference keeps that, if the types that it is given mention only variables that were handed out, and then
so do the types that it gives. It is kept by a failed step too, and in the frames of scopes that nothing
refers to any more.

## Contents
- **`TypingState.Fresh`**: every variable in a state was handed out.
- **`Mints`**: an outcome that keeps that, and whose value mentions only such variables.
- **`Infer.infer_mints`**, **`Infer.checkDefinition_mints`**, **`Checker.verdicts_mints`**.
- **`TypingState.Fresh.declareAll`**, **`Checker.fresh_of_check`**: a run of the checker keeps it.
-/

namespace Monotype

variable {ε α β : Type} {n m : Nat} {s s' : TypingState} {t : Ty} {strict : Bool}

/-! ## Names in frames -/

namespace Environment

variable {frames : List Frame} {scope : Nat} {name : String}

/-- What a scope says of a name is an entry of some frame. -/
theorem exists_entry_of_lookupIn (h : lookupIn frames scope name = some t) :
    ∃ frame ∈ frames, (name, t) ∈ frame.names := by
  induction frames generalizing scope with
  | nil => cases h
  | cons frame older ih =>
    have hothers : ∀ {scope}, lookupIn older scope name = some t →
        ∃ frame' ∈ frame :: older, (name, t) ∈ frame'.names := by
      intro scope h
      obtain ⟨frame', hmem, hentry⟩ := ih h
      exact ⟨frame', List.mem_cons_of_mem _ hmem, hentry⟩
    rw [lookupIn] at h
    split at h
    -- the frame of the scope: the name is there, or it is what the scope around it says
    · cases hnames : frame.names.lookup name with
      | some t' =>
        rw [hnames] at h
        cases h
        obtain ⟨before, after, hsplit, _⟩ := List.lookup_eq_some_iff.mp hnames
        exact ⟨frame, List.mem_cons_self, hsplit ▸ List.mem_append_right _ List.mem_cons_self⟩
      | none =>
        rw [hnames] at h
        cases hparent : frame.parent with
        | none => rw [hparent] at h; cases h
        | some parent => rw [hparent] at h; exact hothers h
    · exact hothers h

/-- All types of names in all frames have a property. -/
def All (env : Environment) (Q : Ty → Prop) : Prop :=
  ∀ frame ∈ env.frames, ∀ entry ∈ frame.names, Q entry.2

variable {env : Environment} {Q Q' : Ty → Prop}

theorem All.imp (h : env.All Q) (hQ : ∀ t, Q t → Q' t) : env.All Q' :=
  fun frame hframe entry hentry => hQ _ (h frame hframe entry hentry)

theorem All.lookup? (h : env.All Q) (ht : env.lookup? scope name = some t) : Q t := by
  obtain ⟨frame, hframe, hentry⟩ := exists_entry_of_lookupIn ht
  exact h frame hframe _ hentry

/-- A scope that was just opened has no names. -/
theorem All.openScope (h : env.All Q) (parent : Nat) : (env.openScope parent).All Q := by
  intro frame hframe entry hentry
  rcases List.mem_cons.mp hframe with rfl | hframe
  · exact absurd hentry List.not_mem_nil
  · exact h frame hframe entry hentry

/-- A name is bound in one frame, and the types of all other names are left. -/
theorem All.bind (h : env.All Q) (ht : Q t) (scope : Nat) (name : String) :
    (env.bind scope name t).All Q := by
  obtain ⟨frames⟩ := env
  induction frames with
  | nil => exact h
  | cons frame older ih =>
    unfold All at h ih ⊢
    rw [List.forall_mem_cons] at h
    rw [Environment.bind, bindIn]
    split
    · rw [List.forall_mem_cons]
      refine ⟨fun entry hentry => ?_, h.2⟩
      rcases List.mem_cons.mp hentry with rfl | hentry
      · exact ht
      · exact h.1 entry hentry
    · rw [List.forall_mem_cons]
      exact ⟨h.1, ih h.2⟩

theorem All.bindAll {names : List (String × Ty)} (h : env.All Q) (ht : ∀ entry ∈ names, Q entry.2)
    (scope : Nat) : (env.bindAll scope names).All Q := by
  induction names generalizing env with
  | nil => exact h
  | cons entry names ih =>
    rw [List.forall_mem_cons] at ht
    exact ih (h.bind ht.1 scope entry.1) ht.2

end Environment

/-! ## Fresh states -/

/-- Every variable in a state was handed out: in its bindings, and in its frames. -/
structure TypingState.Fresh (s : TypingState) : Prop where
  bindings : s.store.Fresh
  names : s.environment.All (Ty.Below s.allocated)

namespace TypingState

/-- A new state knows the operators only, and their types mention no variable. -/
theorem fresh_initial : TypingState.initial.Fresh := by
  refine ⟨Bindings.within_empty _, ?_⟩
  refine Environment.All.bindAll (fun frame hframe => ?_) (fun entry hentry => ?_) Environment.root
  · rw [List.mem_singleton.mp hframe]
    exact fun entry hentry => absurd hentry List.not_mem_nil
  · exact Environment.below_operatorTypes entry hentry

/-- The variable that is handed out next is not bound, and neither is any later one. -/
theorem Fresh.find?_eq_none (h : s.Fresh) {v : Nat} (hv : s.allocated ≤ v) :
    s.bindings.find? v = none := by
  cases hfind : s.bindings.find? v with
  | none => rfl
  | some t =>
    have hlt := Ty.below_var.mp (h.bindings v t hfind).1
    exact absurd hlt (Nat.not_lt.mpr hv)

theorem Fresh.allocate (h : s.Fresh) (count : Nat) :
    Fresh { s with allocated := s.allocated + count } :=
  ⟨h.bindings.allocate count, h.names.imp fun _ ht => ht.mono (Nat.le_add_right _ _)⟩

theorem Fresh.openScope (h : s.Fresh) (parent : Nat) :
    Fresh { s with environment := s.environment.openScope parent } :=
  ⟨h.bindings, h.names.openScope parent⟩

theorem Fresh.bind (h : s.Fresh) (ht : t.Below s.allocated) (scope : Nat) (name : String) :
    Fresh { s with environment := s.environment.bind scope name t } :=
  ⟨h.bindings, h.names.bind ht scope name⟩

theorem Fresh.bindAll (h : s.Fresh) {names : List (String × Ty)}
    (ht : ∀ entry ∈ names, entry.2.Below s.allocated) (scope : Nat) :
    Fresh { s with environment := s.environment.bindAll scope names } :=
  ⟨h.bindings, h.names.bindAll ht scope⟩

end TypingState

/-! ## Outcomes -/

/-- An outcome leaves a fresh state in which no fewer variables were handed out, and its value fits what
was handed out. -/
inductive Mints (n : Nat) (P : Nat → α → Prop) : Outcome ε TypingState α → Prop
  | ok {a : α} {s : TypingState} (hn : n ≤ s.allocated) (hs : s.Fresh) (ha : P s.allocated a) :
      Mints n P (.ok a s)
  | error {e : ε} {s : TypingState} (hn : n ≤ s.allocated) (hs : s.Fresh) : Mints n P (.error e s)
  | endless : Mints n P .endless

namespace Mints

variable {P : Nat → α → Prop} {Q : Nat → β → Prop} {o : Outcome ε TypingState α}
  {next : α → TypingState → Outcome ε TypingState β}

/-- What comes second starts with a fresh state and the value of what came first. -/
theorem bind (h : Mints n P o)
    (hnext : ∀ a s, n ≤ s.allocated → s.Fresh → P s.allocated a → Mints s.allocated Q (next a s)) :
    Mints n Q (o.bind next) := by
  cases h with
  | @ok a s hn hs ha =>
    have hmints := hnext a s hn hs ha
    rw [Outcome.bind_ok]
    generalize next a s = o at hmints
    cases hmints with
    | ok hn' hs' hb => exact .ok (Nat.le_trans hn hn') hs' hb
    | error hn' hs' => exact .error (Nat.le_trans hn hn') hs'
    | endless => exact .endless
  | error hn hs => exact .error hn hs
  | endless => exact .endless

/-- The state that is left is fresh, also after a failure. -/
theorem of_state? (h : Mints n P o) (hs : o.state? = some s') : n ≤ s'.allocated ∧ s'.Fresh := by
  cases h with
  | ok hn hs' _ => cases hs; exact ⟨hn, hs'⟩
  | error hn hs' => cases hs; exact ⟨hn, hs'⟩
  | endless => cases hs

end Mints

/-! ## Inference -/

namespace Infer

theorem fresh_mints (hs : s.Fresh) : Mints s.allocated Ty.Below (fresh s) :=
  .ok (Nat.le_succ _) (hs.allocate 1) (Ty.below_var.mpr (Nat.lt_succ_self _))

/-- Unification hands out nothing, and binds variables to parts of what it is given or of what is bound. -/
theorem unify_mints {left right : Ty} (strict : Bool) (hs : s.Fresh) (hleft : left.Below s.allocated)
    (hright : right.Below s.allocated) :
    Mints s.allocated (fun _ _ => True) (unify strict left right s) := by
  have hstore : ∀ b, (Unifier.unify strict left right s.bindings).state? = some b →
      Store.Fresh ⟨s.allocated, b⟩ := by
    intro b hb
    have hunify : (Lexical.unify strict left right s.store).state? = some ⟨s.allocated, b⟩ := ?_
    · exact hs.bindings.unify hleft hright hunify
    rw [Lexical.unify, Outcome.state?_mapState, Outcome.state?_mapError]
    exact congrArg (Option.map _) hb
  unfold unify
  cases ho : Unifier.unify strict left right s.bindings with
  | ok u b =>
    exact .ok (s := { s with bindings := b }) (Nat.le_refl _) ⟨hstore b (by rw [ho]; rfl), hs.names⟩
      trivial
  | error e b =>
    exact .error (s := { s with bindings := b }) (Nat.le_refl _)
      ⟨hstore b (by rw [ho]; rfl), hs.names⟩
  | endless => exact .endless

/-- What a name is bound to was handed out, in whatever frame the name is found. -/
theorem lookup_mints (hs : s.Fresh) (scope : Nat) (name : String) (missing : TypeError) :
    Mints s.allocated Ty.Below (lookup scope name missing s) := by
  unfold lookup
  simp only [Run.run_bind, Run.run_get, Outcome.bind_ok]
  cases hlookup : s.environment.lookup? scope name with
  | none => exact .error (Nat.le_refl _) hs
  | some t => exact .ok (Nat.le_refl _) hs (hs.names.lookup? hlookup)

theorem failWith_mints {P : Nat → α → Prop} (hs : s.Fresh) (error : Ty → BindingError) (t : Ty) :
    Mints s.allocated P (failWith error t s) := .error (Nat.le_refl _) hs

/-- The fields of a constructor are parts of its type; so they, and what is left of it, mention no other
variables. -/
theorem bindFields_mints (scope : Nat) (constructor : String) (whole : Ty) (params : List String)
    (hs : s.Fresh) (ht : t.Below s.allocated) :
    Mints s.allocated Ty.Below (bindFields scope constructor whole t params s) := by
  induction params generalizing s t with
  | nil =>
    rw [bindFields]
    exact .ok (Nat.le_refl _) hs ht
  | cons param others ih =>
    cases t with
    | var v => exact failWith_mints hs _ _
    | base name => exact failWith_mints hs _ _
    | arrow domain codomain =>
      have hparts := Ty.below_arrow.mp ht
      exact ih (hs.bind hparts.1 scope param) hparts.2

/-- A pattern binds names to the scrutinee, or to fields of the type of a constructor that is in scope. -/
theorem matchPattern_mints (strict : Bool) (scope : Nat) (pattern : Pattern) {scrutinee : Ty}
    (hs : s.Fresh) (hscrutinee : scrutinee.Below s.allocated) :
    Mints s.allocated (fun _ _ => True) (matchPattern strict scope pattern scrutinee s) := by
  cases pattern with
  | var name =>
    exact .ok (s := { s with environment := s.environment.bind scope name scrutinee })
      (Nat.le_refl _) (hs.bind hscrutinee scope name) trivial
  | constructor name params =>
    simp only [matchPattern, Run.run_bind]
    refine (lookup_mints hs scope name _).bind fun whole s₁ hn₁ hs₁ hwhole => ?_
    refine (bindFields_mints scope name whole params hs₁ hwhole).bind fun made s₂ hn₂ hs₂ hmade => ?_
    cases made with
    | var v => exact failWith_mints hs₂ _ _
    | arrow domain codomain => exact failWith_mints hs₂ _ _
    | base type => exact unify_mints strict hs₂ hmade (hscrutinee.mono (Nat.le_trans hn₁ hn₂))

/-- An operation has a fresh result type, which the type of the operator must yield. -/
theorem result_mints (strict : Bool) (expected : Ty → Ty) {actual : Ty} (hs : s.Fresh)
    (hexpected : ∀ m t, s.allocated ≤ m → t.Below m → (expected t).Below m)
    (hactual : actual.Below s.allocated) :
    Mints s.allocated Ty.Below
      ((do let result ← fresh; unify strict (expected result) actual; return result) s) := by
  simp only [Run.run_bind]
  refine (fresh_mints hs).bind fun result s₁ hn₁ hs₁ hresult => ?_
  refine (unify_mints strict hs₁ (hexpected _ _ hn₁ hresult) (hactual.mono hn₁)).bind ?_
  exact fun _ s₂ hn₂ hs₂ _ => .ok (Nat.le_refl _) hs₂ (hresult.mono hn₂)

mutual

/-- **Inference keeps states fresh**, and gives a type of variables that were handed out. -/
theorem infer_mints (strict : Bool) : ∀ (e : Expr) {s : TypingState} (scope : Nat), s.Fresh →
    Mints s.allocated Ty.Below (infer strict scope e s)
  | .int _, _, _, hs => .ok (Nat.le_refl _) hs (Ty.below_base _)
  | .str _, _, _, hs => .ok (Nat.le_refl _) hs (Ty.below_base _)
  | .lower name, _, scope, hs => by
    unfold infer
    exact lookup_mints hs scope name _
  | .upper name, _, scope, hs => by
    unfold infer
    exact lookup_mints hs scope name _
  | .binary op left right, s, scope, hs => by
    simp only [infer, Run.run_bind]
    refine (infer_mints strict left scope hs).bind fun a s₁ hn₁ hs₁ ha => ?_
    refine (infer_mints strict right scope hs₁).bind fun b s₂ hn₂ hs₂ hb => ?_
    refine (lookup_mints hs₂ scope op.name _).bind fun operator s₃ hn₃ hs₃ hoperator => ?_
    refine result_mints strict (fun result => .arrow a (.arrow b result)) hs₃ ?_ hoperator
    intro m t hm ht
    exact Ty.below_arrow.mpr ⟨ha.mono (Nat.le_trans hn₂ (Nat.le_trans hn₃ hm)),
      Ty.below_arrow.mpr ⟨hb.mono (Nat.le_trans hn₃ hm), ht⟩⟩
  | .unary op operand, s, scope, hs => by
    simp only [infer, Run.run_bind]
    refine (infer_mints strict operand scope hs).bind fun a s₁ hn₁ hs₁ ha => ?_
    refine (lookup_mints hs₁ scope op.name _).bind fun operator s₂ hn₂ hs₂ hoperator => ?_
    refine result_mints strict (fun result => .arrow a result) hs₂ ?_ hoperator
    exact fun m t hm ht => Ty.below_arrow.mpr ⟨ha.mono (Nat.le_trans hn₂ hm), ht⟩
  | .apply function argument, s, scope, hs => by
    simp only [infer, Run.run_bind]
    refine (infer_mints strict function scope hs).bind fun f s₁ hn₁ hs₁ hf => ?_
    refine (infer_mints strict argument scope hs₁).bind fun a s₂ hn₂ hs₂ ha => ?_
    refine result_mints strict (fun result => .arrow a result) hs₂ ?_ (hf.mono hn₂)
    exact fun m t hm ht => Ty.below_arrow.mpr ⟨ha.mono hm, ht⟩
  | .case scrutinee branches, s, scope, hs => by
    simp only [infer, Run.run_bind]
    refine (infer_mints strict scrutinee scope hs).bind fun a s₁ hn₁ hs₁ ha => ?_
    refine (fresh_mints hs₁).bind fun result s₂ hn₂ hs₂ hresult => ?_
    refine (inferBranches_mints strict branches scope hs₂ (ha.mono hn₂) hresult).bind ?_
    exact fun _ s₃ hn₃ hs₃ _ => .ok (Nat.le_refl _) hs₃ (hresult.mono hn₃)

/-- The scopes of branches that failed, or were left, stay in the state and keep it fresh. -/
theorem inferBranches_mints (strict : Bool) : ∀ (branches : List Branch) {s : TypingState}
    {scrutinee result : Ty} (scope : Nat), s.Fresh → scrutinee.Below s.allocated →
    result.Below s.allocated →
    Mints s.allocated (fun _ _ => True) (inferBranches strict scope scrutinee result branches s)
  | [], _, _, _, _, hs, _, _ => .ok (Nat.le_refl _) hs trivial
  | ⟨pattern, body⟩ :: others, s, scrutinee, result, scope, hs, hscrutinee, hresult => by
    simp only [inferBranches, Run.run_bind, openScope, Outcome.bind_ok]
    refine (matchPattern_mints strict s.environment.nextScope pattern (hs.openScope scope)
      hscrutinee).bind fun _ s₁ hn₁ hs₁ _ => ?_
    refine (infer_mints strict body _ hs₁).bind fun t s₂ hn₂ hs₂ ht => ?_
    have hn := Nat.le_trans hn₁ hn₂
    refine (unify_mints strict hs₂ (hresult.mono hn) ht).bind fun _ s₃ hn₃ hs₃ _ => ?_
    exact inferBranches_mints strict others scope hs₃ (hscrutinee.mono (Nat.le_trans hn hn₃))
      (hresult.mono (Nat.le_trans hn hn₃))

end

/-! ## Definitions and programs -/

theorem checkBody_mints (strict : Bool) (definition : FunctionDefinition) {result : Ty}
    {params : List Ty} (hs : s.Fresh) (hresult : result.Below s.allocated)
    (hparams : ∀ param ∈ params, param.Below s.allocated) :
    Mints s.allocated (fun _ _ => True) (checkBody strict definition result params s) := by
  have hentries : ∀ entry ∈ definition.params.zip params, entry.2.Below s.allocated :=
    fun entry hentry => hparams _ (List.of_mem_zip hentry).2
  simp only [checkBody, Run.run_bind, openScope, bindNames, Run.run_modify, Outcome.bind_ok]
  refine (infer_mints strict definition.body _
    ((hs.openScope Environment.root).bindAll hentries _)).bind fun t s₁ hn₁ hs₁ ht => ?_
  exact unify_mints strict hs₁ ht (hresult.mono hn₁)

/-- **Checking a definition keeps states fresh**, if its declaration mentions what was handed out only. -/
theorem checkDefinition_mints (strict : Bool) {declared : Declared} (hs : s.Fresh)
    (hdeclared : declared.Below s.allocated) :
    Mints s.allocated (fun _ _ => True) (checkDefinition strict declared s) := by
  obtain ⟨definition, declaration⟩ := declared
  cases definition with
  | type _ => exact .ok (Nat.le_refl _) hs trivial
  | function definition =>
    match declaration with
    | none => exact .error (Nat.le_refl _) hs
    | some (.type _) => exact .error (Nat.le_refl _) hs
    | some (.function result params) =>
      have hbelow := hdeclared _ rfl
      by_cases hlength : params.length = definition.params.length
      · simp only [checkDefinition, if_pos hlength]
        exact checkBody_mints strict definition hs hbelow.1 hbelow.2
      · simp only [checkDefinition, if_neg hlength]
        exact .error (Nat.le_refl _) hs

end Infer

/-- A failure that was turned into a value leaves the state that it left. -/
theorem Mints.attempt {x : Run ε TypingState Unit} (h : Mints n (fun _ _ => True) (x s)) :
    Mints n (fun _ _ => True) ((x.attempt : Run Empty TypingState (Except ε Unit)) s) := by
  unfold Run.attempt
  generalize x s = o at h
  cases h with
  | ok hn hs _ => exact .ok hn hs trivial
  | error hn hs => exact .ok hn hs trivial
  | endless => exact .endless

/-- Verdicts keep states fresh if the verdicts on the other definitions do. -/
theorem Mints.andOthers {others : TypingState → Outcome Empty TypingState (List Verdict)} (hs : s.Fresh)
    (h : Mints s.allocated (fun _ _ => True) (others s)) (keepGoing : Bool) (verdict : Verdict) :
    Mints s.allocated (fun _ _ => True) (verdict.andOthers keepGoing others s) := by
  unfold Verdict.andOthers
  split
  · exact h.bind fun vs s₁ _ hs₁ _ => .ok (Nat.le_refl _) hs₁ trivial
  · exact .ok (Nat.le_refl _) hs trivial

/-- **Checking definitions in order keeps states fresh**, failed definitions included. -/
theorem Checker.verdicts_mints (options : Options) {definitions : List Declared} (hs : s.Fresh)
    (hdefinitions : ∀ declared ∈ definitions, declared.Below s.allocated) :
    Mints s.allocated (fun _ _ => True) (verdicts options definitions s) := by
  induction definitions generalizing s with
  | nil => exact .ok (Nat.le_refl _) hs trivial
  | cons declared others ih =>
    rw [List.forall_mem_cons] at hdefinitions
    rw [verdicts_cons]
    refine (Infer.checkDefinition_mints options.occursCheck hs hdefinitions.1).attempt.bind
      fun verdict s₁ hn₁ hs₁ _ => ?_
    have hothers := ih hs₁ fun declared hmem => (hdefinitions.2 declared hmem).mono hn₁
    exact hothers.andOthers hs₁ options.keepGoing verdict

namespace TypingState

theorem Fresh.bindRoot (h : s.Fresh) (ht : t.Below s.allocated) (name : String) :
    (s.bindRoot name t).Fresh := h.bind ht Environment.root name

theorem Fresh.declareConstructors (h : s.Fresh) (type : String) (constructors : List Constructor) :
    (TypingState.declareConstructors type constructors s).2.Fresh := by
  induction constructors generalizing s with
  | nil => exact h
  | cons constructor others ih =>
    have hfields := freshMany_below s constructor.fields.length
    exact ih ((h.allocate _).bindRoot (Ty.below_curried.mpr ⟨hfields, Ty.below_base type⟩) _)

/-- The first pass keeps states fresh: it hands out the variables of a signature before it binds the
name. -/
theorem Fresh.declare (h : s.Fresh) (definition : Definition) : (s.declare definition).2.Fresh := by
  cases definition with
  | type definition => exact h.declareConstructors definition.name definition.constructors
  | function definition =>
    have hparams := freshMany_below { s with allocated := s.allocated + 1 } definition.params.length
    refine ((h.allocate 1).allocate definition.params.length).bindRoot (Ty.below_curried.mpr ?_) _
    refine ⟨hparams, Ty.below_var.mpr ?_⟩
    show s.allocated < s.allocated + 1 + definition.params.length
    omega

/-- The first pass keeps states fresh. -/
theorem Fresh.declareAll (h : s.Fresh) (program : Program) :
    (TypingState.declareAll program s).2.Fresh := by
  induction program generalizing s with
  | nil => exact h
  | cons definition others ih => exact ih (h.declare definition)

end TypingState

/-- **A run of the checker keeps states fresh**, whatever the program and the options, and whether or not
it finds errors. -/
theorem Checker.fresh_of_check {options : Options} {program : Program} {report : Report}
    (hs : s.Fresh) (h : check options program s = .ok report s') : s'.Fresh := by
  have hmints := verdicts_mints options (hs.declareAll program)
    (TypingState.below_of_mem_declareAll program s)
  rw [check_eq] at h
  obtain ⟨vs, s₁, hvs, hok⟩ := Outcome.bind_eq_ok_iff.mp h
  cases hok
  exact (hmints.of_state? (by rw [hvs]; rfl)).2

end Monotype
