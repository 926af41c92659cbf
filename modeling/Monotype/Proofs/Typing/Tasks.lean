import Monotype.Proofs.Typing.Fresh
import Monotype.Proofs.Typing.Places

/-!
# `Monotype.Proofs.Typing.Tasks` — what inference passes through

Inference begins in a state and leaves another one. In between it passes through more of them: in the middle
of a unification that will fail, or in the scope of a branch that binds some of its names so far. Which
states these are is told by what inference is doing. It is busy with one of its functions, as a task
(`Infer.Task`), and a task starts others before it is done (`Infer.Starts`). The moments of a task are its
begin and its end, and all moments of what it starts.

The types that a task is about mention only variables that were handed out, and so does the state. What a
task starts it starts with such types, in such a state (`Infer.Starts.ready`); so that is the case at every
moment (`Infer.Moment.later`), however the task ends, or if it never does.

## Contents
- **`Infer.Task`**, **`Infer.Task.Leaves`**, **`Infer.Starts`**, **`Infer.Moment`**.
- **`Infer.Later`**: a fresh state with no fewer variables.
- **`Infer.Task.Leaves.later`**, **`Infer.Starts.ready`**, **`Infer.Moment.later`**.
-/

namespace Monotype

variable {strict : Bool} {s s' s₁ s₂ : TypingState} {n : Nat}

namespace Infer

/-! ## What inference is doing -/

/-- One of the functions of inference, with what it is applied to. -/
inductive Task where
  | unify (left right : Ty)
  | bindFields (scope : Nat) (constructor : String) (whole ty : Ty) (params : List String)
  | matchPattern (scope : Nat) (pattern : Pattern) (scrutinee : Ty)
  | infer (scope : Nat) (e : Expr)
  | inferBranches (scope : Nat) (scrutinee result : Ty) (branches : List Branch)
  | bindNames (scope : Nat) (names : List (String × Ty))
  | checkDefinition (declared : Declared)

/-- A task that begins in the first state is done in the second one, with a value or with an error. -/
def Task.Leaves (strict : Bool) (s s' : TypingState) : Task → Prop
  | .unify left right => ∃ o b, Unifier.Derives strict left right s.bindings o ∧ o.state? = some b ∧
      s' = { s with bindings := b }
  | .bindFields scope constructor whole ty params =>
    (Infer.bindFields scope constructor whole ty params s).state? = some s'
  | .matchPattern scope pattern scrutinee =>
    (Infer.matchPattern strict scope pattern scrutinee s).state? = some s'
  | .infer scope e => (Infer.infer strict scope e s).state? = some s'
  | .inferBranches scope scrutinee result branches =>
    (Infer.inferBranches strict scope scrutinee result branches s).state? = some s'
  | .bindNames scope names => (Infer.bindNames scope names s).state? = some s'
  | .checkDefinition declared => (Infer.checkDefinition strict declared s).state? = some s'

/-- A task that begins in a state starts another task in a state. What the task does before that succeeds. -/
inductive Starts (strict : Bool) : Task → TypingState → Task → TypingState → Prop
  | domain {left right a c a' c' : Ty} {s : TypingState} (hl : s.bindings.Resolves left (.arrow a c))
      (hr : s.bindings.Resolves right (.arrow a' c')) :
      Starts strict (.unify left right) s (.unify a a') s
  | codomain {left right a c a' c' : Ty} {s : TypingState} {b : Bindings}
      (hl : s.bindings.Resolves left (.arrow a c)) (hr : s.bindings.Resolves right (.arrow a' c'))
      (ha : Unifier.Derives strict a a' s.bindings (.ok () b)) :
      Starts strict (.unify left right) s (.unify c c') { s with bindings := b }
  | field {scope : Nat} {constructor param : String} {whole domain codomain : Ty} {others : List String}
      {s : TypingState} :
      Starts strict (.bindFields scope constructor whole (.arrow domain codomain) (param :: others)) s
        (.bindFields scope constructor whole codomain others)
        { s with environment := s.environment.bind scope param domain }
  | fields {scope : Nat} {name : String} {params : List String} {scrutinee whole : Ty}
      {s s₁ : TypingState} (hwhole : lookup scope name (.undefinedConstructor name) s = .ok whole s₁) :
      Starts strict (.matchPattern scope (.constructor name params) scrutinee) s
        (.bindFields scope name whole whole params) s₁
  | made {scope : Nat} {name type : String} {params : List String} {scrutinee whole : Ty}
      {s s₁ s₂ : TypingState} (hwhole : lookup scope name (.undefinedConstructor name) s = .ok whole s₁)
      (hfields : bindFields scope name whole whole params s₁ = .ok (.base type) s₂) :
      Starts strict (.matchPattern scope (.constructor name params) scrutinee) s
        (.unify (.base type) scrutinee) s₂
  | part {place next : Place} {step : Expr.Step} (hcalls : Calls strict place step next) :
      Starts strict (.infer place.scope place.expr) place.state (.infer next.scope next.expr) next.state
  | binary {scope : Nat} {op : BinaryOperator} {left right : Expr} {a c operatorTy result : Ty}
      {s s₁ s₂ s₃ s₄ : TypingState} (hleft : infer strict scope left s = .ok a s₁)
      (hright : infer strict scope right s₁ = .ok c s₂)
      (hoperator : operator scope op.name s₂ = .ok operatorTy s₃) (hfresh : fresh s₃ = .ok result s₄) :
      Starts strict (.infer scope (.binary op left right)) s
        (.unify (.arrow a (.arrow c result)) operatorTy) s₄
  | unary {scope : Nat} {op : UnaryOperator} {operand : Expr} {a operatorTy result : Ty}
      {s s₁ s₂ s₃ : TypingState} (hoperand : infer strict scope operand s = .ok a s₁)
      (hoperator : operator scope op.name s₁ = .ok operatorTy s₂) (hfresh : fresh s₂ = .ok result s₃) :
      Starts strict (.infer scope (.unary op operand)) s (.unify (.arrow a result) operatorTy) s₃
  | apply {scope : Nat} {function argument : Expr} {f a result : Ty} {s s₁ s₂ s₃ : TypingState}
      (hfunction : infer strict scope function s = .ok f s₁)
      (hargument : infer strict scope argument s₁ = .ok a s₂) (hfresh : fresh s₂ = .ok result s₃) :
      Starts strict (.infer scope (.apply function argument)) s (.unify (.arrow a result) f) s₃
  | branches {scope : Nat} {scrutinee : Expr} {branches : List Branch} {a result : Ty}
      {s s₁ s₂ : TypingState} (hscrutinee : infer strict scope scrutinee s = .ok a s₁)
      (hfresh : fresh s₁ = .ok result s₂) :
      Starts strict (.infer scope (.case scrutinee branches)) s (.inferBranches scope a result branches) s₂
  | pattern {scope inner : Nat} {scrutinee result : Ty} {branch : Branch} {others : List Branch}
      {s s₁ : TypingState} (hopen : openScope scope s = .ok inner s₁) :
      Starts strict (.inferBranches scope scrutinee result (branch :: others)) s
        (.matchPattern inner branch.pattern scrutinee) s₁
  | body {scope inner : Nat} {scrutinee result : Ty} {branch : Branch} {others : List Branch}
      {s s₁ s₂ : TypingState} (hopen : openScope scope s = .ok inner s₁)
      (hpattern : matchPattern strict inner branch.pattern scrutinee s₁ = .ok () s₂) :
      Starts strict (.inferBranches scope scrutinee result (branch :: others)) s
        (.infer inner branch.body) s₂
  | agree {scope inner : Nat} {scrutinee result t : Ty} {branch : Branch} {others : List Branch}
      {s s₁ s₂ s₃ : TypingState} (hopen : openScope scope s = .ok inner s₁)
      (hpattern : matchPattern strict inner branch.pattern scrutinee s₁ = .ok () s₂)
      (hbody : infer strict inner branch.body s₂ = .ok t s₃) :
      Starts strict (.inferBranches scope scrutinee result (branch :: others)) s (.unify result t) s₃
  | others {scope inner : Nat} {scrutinee result t : Ty} {branch : Branch} {others : List Branch}
      {s s₁ s₂ s₃ s₄ : TypingState} (hopen : openScope scope s = .ok inner s₁)
      (hpattern : matchPattern strict inner branch.pattern scrutinee s₁ = .ok () s₂)
      (hbody : infer strict inner branch.body s₂ = .ok t s₃)
      (hagree : unify strict result t s₃ = .ok () s₄) :
      Starts strict (.inferBranches scope scrutinee result (branch :: others)) s
        (.inferBranches scope scrutinee result others) s₄
  | name {scope : Nat} {entry : String × Ty} {others : List (String × Ty)} {s : TypingState} :
      Starts strict (.bindNames scope (entry :: others)) s (.bindNames scope others)
        { s with environment := s.environment.bind scope entry.1 entry.2 }
  | params {scope : Nat} {definition : FunctionDefinition} {result : Ty} {params : List Ty}
      {s s₁ : TypingState} (hlength : params.length = definition.params.length)
      (hopen : openScope Environment.root s = .ok scope s₁) :
      Starts strict (.checkDefinition ⟨.function definition, some (.function result params)⟩) s
        (.bindNames scope (definition.params.zip params)) s₁
  | functionBody {scope : Nat} {definition : FunctionDefinition} {result : Ty} {params : List Ty}
      {s s₁ s₂ : TypingState} (hlength : params.length = definition.params.length)
      (hopen : openScope Environment.root s = .ok scope s₁)
      (hparams : bindNames scope (definition.params.zip params) s₁ = .ok () s₂) :
      Starts strict (.checkDefinition ⟨.function definition, some (.function result params)⟩) s
        (.infer scope definition.body) s₂
  | result {scope : Nat} {definition : FunctionDefinition} {result t : Ty} {params : List Ty}
      {s s₁ s₂ s₃ : TypingState} (hlength : params.length = definition.params.length)
      (hopen : openScope Environment.root s = .ok scope s₁)
      (hparams : bindNames scope (definition.params.zip params) s₁ = .ok () s₂)
      (hbody : infer strict scope definition.body s₂ = .ok t s₃) :
      Starts strict (.checkDefinition ⟨.function definition, some (.function result params)⟩) s
        (.unify t result) s₃

/-- A task that begins in the first state passes through the second one: it begins or is done there, or
something that it starts passes through it. -/
inductive Moment (strict : Bool) : Task → TypingState → TypingState → Prop
  | begins {task : Task} {s : TypingState} : Moment strict task s s
  | leaves {task : Task} {s s' : TypingState} (h : task.Leaves strict s s') : Moment strict task s s'
  | within {task task' : Task} {s s₁ s' : TypingState} (hstarts : Starts strict task s task' s₁)
      (h : Moment strict task' s₁ s') : Moment strict task s s'

/-! ## Inference keeps states fresh at every moment -/

/-- The types at hand mention only variables below a count. -/
def Task.Below (n : Nat) : Task → Prop
  | .unify left right => left.Below n ∧ right.Below n
  | .bindFields _ _ _ ty _ => ty.Below n
  | .matchPattern _ _ scrutinee => scrutinee.Below n
  | .infer _ _ => True
  | .inferBranches _ scrutinee result _ => scrutinee.Below n ∧ result.Below n
  | .bindNames _ names => ∀ entry ∈ names, entry.2.Below n
  | .checkDefinition declared => declared.Below n

/-- A later state is fresh, and no fewer variables were handed out. -/
structure Later (s s' : TypingState) : Prop where
  fresh : s'.Fresh
  allocated : s.allocated ≤ s'.allocated

theorem Later.refl (hs : s.Fresh) : Later s s := ⟨hs, Nat.le_refl _⟩

theorem Later.trans (h : Later s s₁) (h' : Later s₁ s') : Later s s' :=
  ⟨h'.fresh, Nat.le_trans h.allocated h'.allocated⟩

variable {task task' : Task} {left right : Ty} {ε α : Type} {P : Nat → α → Prop}
  {o : Outcome ε TypingState α}

/-- What inference comes to if it succeeds is later, and its value was handed out by then. -/
theorem later_of_ok {a : α} (h : Mints s.allocated P o) (ho : o = .ok a s') :
    Later s s' ∧ P s'.allocated a := by
  subst ho
  cases h with
  | ok hn hs' ha => exact ⟨⟨hs', hn⟩, ha⟩

theorem later_of_state? (h : Mints s.allocated P o) (ho : o.state? = some s') : Later s s' :=
  ⟨(h.of_state? ho).2, (h.of_state? ho).1⟩

/-- Unification leaves a later state at every one of its ends. -/
theorem later_of_derives {o : Outcome UnifyError Bindings Unit} {b : Bindings} (hs : s.Fresh)
    (hleft : left.Below s.allocated) (hright : right.Below s.allocated)
    (h : Unifier.Derives strict left right s.bindings o) (ho : o.state? = some b) :
    Later s { s with bindings := b } :=
  ⟨⟨h.within (Ty.partClosed_below _) ho hs.bindings hleft hright, hs.names⟩, Nat.le_refl _⟩

theorem later_of_openScope {parent scope : Nat} (hs : s.Fresh) (h : openScope parent s = .ok scope s') :
    Later s s' := by
  cases h
  exact ⟨hs.openScope parent, Nat.le_refl _⟩

/-- Names are bound to types that were handed out. -/
theorem later_of_bindNames {scope : Nat} {names : List (String × Ty)} (hs : s.Fresh)
    (hnames : ∀ entry ∈ names, entry.2.Below s.allocated) (h : bindNames scope names s = .ok () s') :
    Later s s' := by
  cases h
  exact ⟨hs.bindAll hnames scope, Nat.le_refl _⟩

/-- The types declared for the parameters of a function, with their names. -/
theorem below_params {definition : FunctionDefinition} {result : Ty} {params : List Ty}
    (h : Declared.Below n ⟨.function definition, some (.function result params)⟩) :
    ∀ entry ∈ definition.params.zip params, entry.2.Below n :=
  fun _ hentry => (h _ rfl).2 _ (List.of_mem_zip hentry).2

/-- The scope of a branch is open, and its pattern has bound names there. -/
theorem later_of_matched {scope inner : Nat} {pattern : Pattern} {scrutinee : Ty} (hs : s.Fresh)
    (hscrutinee : scrutinee.Below s.allocated) (hopen : openScope scope s = .ok inner s₁)
    (hpattern : matchPattern strict inner pattern scrutinee s₁ = .ok () s₂) : Later s s₂ := by
  have h₁ := later_of_openScope hs hopen
  have hmatched := matchPattern_mints strict inner pattern h₁.fresh (hscrutinee.mono h₁.allocated)
  exact h₁.trans (later_of_ok hmatched hpattern).1

/-- The scope of a function is open, and its parameters are bound there. -/
theorem later_of_params {scope : Nat} {definition : FunctionDefinition} {result : Ty} {params : List Ty}
    (hs : s.Fresh) (h : Declared.Below s.allocated ⟨.function definition, some (.function result params)⟩)
    (hopen : openScope Environment.root s = .ok scope s₁)
    (hparams : bindNames scope (definition.params.zip params) s₁ = .ok () s₂) : Later s s₂ := by
  have h₁ := later_of_openScope hs hopen
  exact h₁.trans (later_of_bindNames h₁.fresh (below_params (h.mono h₁.allocated)) hparams)

/-- **A task leaves a later state**, with a value or with an error. -/
theorem Task.Leaves.later (h : task.Leaves strict s s') (hs : s.Fresh) (ht : task.Below s.allocated) :
    Later s s' := by
  cases task with
  | unify left right =>
    obtain ⟨o, b, hder, ho, rfl⟩ := h
    exact later_of_derives hs ht.1 ht.2 hder ho
  | bindFields scope constructor whole ty params =>
    exact later_of_state? (bindFields_mints scope constructor whole params hs ht) h
  | matchPattern scope pattern scrutinee =>
    exact later_of_state? (matchPattern_mints strict scope pattern hs ht) h
  | infer scope e => exact later_of_state? (infer_mints strict e scope hs) h
  | inferBranches scope scrutinee result branches =>
    exact later_of_state? (inferBranches_mints strict branches scope hs ht.1 ht.2) h
  | bindNames scope names =>
    obtain rfl := Option.some.inj h
    exact later_of_bindNames hs ht rfl
  | checkDefinition declared => exact later_of_state? (checkDefinition_mints strict hs ht) h

/-- Inference comes to a part of an expression in a later state. -/
theorem Calls.later {place next : Place} {step : Expr.Step} (h : Calls strict place step next)
    (hs : place.state.Fresh) : Later place.state next.state := by
  cases h with
  | left | operand | function | scrutinee => exact .refl hs
  | right hleft => exact (later_of_ok (infer_mints strict _ _ hs) hleft).1
  | argument hfunction => exact (later_of_ok (infer_mints strict _ _ hs) hfunction).1
  | branch hscrutinee hfresh hbefore hbranch hopen hpattern =>
    obtain ⟨h₁, ha⟩ := later_of_ok (infer_mints strict _ _ hs) hscrutinee
    obtain ⟨h₂, hresult⟩ := later_of_ok (fresh_mints h₁.fresh) hfresh
    have ha₂ := ha.mono h₂.allocated
    obtain ⟨h₃, -⟩ := later_of_ok (inferBranches_mints strict _ _ h₂.fresh ha₂ hresult) hbefore
    have h₄ := later_of_matched h₃.fresh (ha₂.mono h₃.allocated) hopen hpattern
    exact ((h₁.trans h₂).trans h₃).trans h₄

/-- **What a task starts keeps states fresh as it does**: it starts in a later state, with types of
variables that were handed out. -/
theorem Starts.ready (h : Starts strict task s task' s') (hs : s.Fresh)
    (ht : task.Below s.allocated) : Later s s' ∧ task'.Below s'.allocated := by
  cases h with
  | domain hl hr =>
    -- what a type resolves to was handed out before, and so were both ends of an arrow
    have hleft := Ty.below_arrow.mp (hs.bindings.resolves ht.1 hl)
    have hright := Ty.below_arrow.mp (hs.bindings.resolves ht.2 hr)
    exact ⟨.refl hs, hleft.1, hright.1⟩
  | codomain hl hr ha =>
    have hleft := Ty.below_arrow.mp (hs.bindings.resolves ht.1 hl)
    have hright := Ty.below_arrow.mp (hs.bindings.resolves ht.2 hr)
    exact ⟨later_of_derives hs hleft.1 hright.1 ha rfl, hleft.2, hright.2⟩
  | field =>
    have hparts := Ty.below_arrow.mp ht
    exact ⟨⟨hs.bind hparts.1 _ _, Nat.le_refl _⟩, hparts.2⟩
  | fields hwhole =>
    obtain ⟨h₁, hwhole⟩ := later_of_ok (lookup_mints hs _ _ _) hwhole
    exact ⟨h₁, hwhole⟩
  | made hwhole hfields =>
    obtain ⟨h₁, hwhole⟩ := later_of_ok (lookup_mints hs _ _ _) hwhole
    obtain ⟨h₂, hmade⟩ := later_of_ok (bindFields_mints _ _ _ _ h₁.fresh hwhole) hfields
    have hafter := h₁.trans h₂
    exact ⟨hafter, hmade, Ty.Below.mono hafter.allocated ht⟩
  | part hcalls => exact ⟨hcalls.later hs, trivial⟩
  | binary hleft hright hoperator hfresh =>
    obtain ⟨h₁, ha⟩ := later_of_ok (infer_mints strict _ _ hs) hleft
    obtain ⟨h₂, hc⟩ := later_of_ok (infer_mints strict _ _ h₁.fresh) hright
    obtain ⟨h₃, ho⟩ := later_of_ok (lookup_mints h₂.fresh _ _ _) hoperator
    obtain ⟨h₄, hresult⟩ := later_of_ok (fresh_mints h₃.fresh) hfresh
    have hlater := h₃.trans h₄
    refine ⟨(h₁.trans h₂).trans hlater, ?_, ho.mono h₄.allocated⟩
    exact Ty.below_arrow.mpr ⟨ha.mono (h₂.trans hlater).allocated,
      Ty.below_arrow.mpr ⟨hc.mono hlater.allocated, hresult⟩⟩
  | unary hoperand hoperator hfresh =>
    obtain ⟨h₁, ha⟩ := later_of_ok (infer_mints strict _ _ hs) hoperand
    obtain ⟨h₂, ho⟩ := later_of_ok (lookup_mints h₁.fresh _ _ _) hoperator
    obtain ⟨h₃, hresult⟩ := later_of_ok (fresh_mints h₂.fresh) hfresh
    have hlater := h₂.trans h₃
    exact ⟨h₁.trans hlater, Ty.below_arrow.mpr ⟨ha.mono hlater.allocated, hresult⟩,
      ho.mono h₃.allocated⟩
  | apply hfunction hargument hfresh =>
    obtain ⟨h₁, hf⟩ := later_of_ok (infer_mints strict _ _ hs) hfunction
    obtain ⟨h₂, ha⟩ := later_of_ok (infer_mints strict _ _ h₁.fresh) hargument
    obtain ⟨h₃, hresult⟩ := later_of_ok (fresh_mints h₂.fresh) hfresh
    exact ⟨(h₁.trans h₂).trans h₃, Ty.below_arrow.mpr ⟨ha.mono h₃.allocated, hresult⟩,
      hf.mono (h₂.trans h₃).allocated⟩
  | branches hscrutinee hfresh =>
    obtain ⟨h₁, ha⟩ := later_of_ok (infer_mints strict _ _ hs) hscrutinee
    obtain ⟨h₂, hresult⟩ := later_of_ok (fresh_mints h₁.fresh) hfresh
    exact ⟨h₁.trans h₂, ha.mono h₂.allocated, hresult⟩
  | pattern hopen =>
    have h₁ := later_of_openScope hs hopen
    exact ⟨h₁, ht.1.mono h₁.allocated⟩
  | body hopen hpattern =>
    exact ⟨later_of_matched hs ht.1 hopen hpattern, trivial⟩
  | agree hopen hpattern hbody =>
    have h₁ := later_of_matched hs ht.1 hopen hpattern
    obtain ⟨h₂, hbody⟩ := later_of_ok (infer_mints strict _ _ h₁.fresh) hbody
    have hlater := h₁.trans h₂
    exact ⟨hlater, ht.2.mono hlater.allocated, hbody⟩
  | others hopen hpattern hbody hagree =>
    have h₁ := later_of_matched hs ht.1 hopen hpattern
    obtain ⟨h₂, hbody⟩ := later_of_ok (infer_mints strict _ _ h₁.fresh) hbody
    have hlater := h₁.trans h₂
    obtain ⟨h₃, -⟩ :=
      later_of_ok (unify_mints strict h₂.fresh (ht.2.mono hlater.allocated) hbody) hagree
    have hafter := hlater.trans h₃
    exact ⟨hafter, ht.1.mono hafter.allocated, ht.2.mono hafter.allocated⟩
  | name =>
    have hnames := List.forall_mem_cons.mp ht
    exact ⟨⟨hs.bind hnames.1 _ _, Nat.le_refl _⟩, hnames.2⟩
  | params _ hopen =>
    have h₁ := later_of_openScope hs hopen
    exact ⟨h₁, below_params (ht.mono h₁.allocated)⟩
  | functionBody _ hopen hparams =>
    exact ⟨later_of_params hs ht hopen hparams, trivial⟩
  | result _ hopen hparams hbody =>
    have h₁ := later_of_params hs ht hopen hparams
    obtain ⟨h₂, hbody⟩ := later_of_ok (infer_mints strict _ _ h₁.fresh) hbody
    have hlater := h₁.trans h₂
    exact ⟨hlater, hbody, (ht _ rfl).1.mono hlater.allocated⟩

/-- **Whatever inference passes through is a later state.** -/
theorem Moment.later (h : Moment strict task s s') (hs : s.Fresh) (ht : task.Below s.allocated) :
    Later s s' := by
  induction h with
  | begins => exact .refl hs
  | leaves h => exact h.later hs ht
  | within hstarts _ ih =>
    obtain ⟨hlater, ht'⟩ := hstarts.ready hs ht
    exact hlater.trans (ih hlater.fresh ht')

end Infer

end Monotype
