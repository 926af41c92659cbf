import Monotype.Proofs.Typing.Tasks

/-!
# `Monotype.Proofs.Typing.Writes` — from moment to moment, one write at a time

The moments of a task were told by what inference is doing. That none is left out is told by what is written.
A state is written in four ways: a variable is handed out, a variable is bound, a scope is opened, or a name
is bound in one. Whenever inference has written once, that is a moment of what it is doing; so the way from
the begin of a task to its end leads through moments only, from each to the next by a single write.

## Contents
- **`TypingState.Write`**, **`TypingState.Through`**: writes, and ways of them.
- **`Goes`**: a computation goes to its end through moments. **`Goes.bind`**: so does a sequence.
- **`Infer.goes_unify`**, **`Infer.goes_infer`**, **`Infer.goes_checkDefinition`**.
-/

namespace Monotype

/-- A single write to a state. -/
inductive TypingState.Write : TypingState → TypingState → Prop
  | allocate {s : TypingState} : Write s { s with allocated := s.allocated + 1 }
  | bind {s : TypingState} (v : Nat) (t : Ty) : Write s { s with bindings := s.bindings.bind v t }
  | openScope {s : TypingState} (parent : Nat) :
      Write s { s with environment := s.environment.openScope parent }
  | name {s : TypingState} (scope : Nat) (name : String) (t : Ty) :
      Write s { s with environment := s.environment.bind scope name t }

/-- Single writes lead from one state to another, each of them to a moment. -/
def TypingState.Through (M : TypingState → Prop) : TypingState → TypingState → Prop :=
  Relation.ReflTransGen fun s s' => Write s s' ∧ M s'

/-- However it ends, an outcome leaves a state to which writes lead through moments. -/
def Goes {ε α : Type} (M : TypingState → Prop) (s : TypingState) (o : Outcome ε TypingState α) : Prop :=
  ∀ s', o.state? = some s' → s.Through M s'

variable {ε α β : Type} {strict : Bool} {s s' s₁ : TypingState} {M M' : TypingState → Prop}

/-- Moments of what was started are moments of what has started it. -/
theorem TypingState.Through.mono (h : s.Through M s') (hM : ∀ s, M s → M' s) : s.Through M' s' :=
  Relation.ReflTransGen.mono (fun _ _ hstep => ⟨hstep.1, hM _ hstep.2⟩) _ _ h

theorem TypingState.Through.trans (h : s.Through M s₁) (h' : s₁.Through M s') : s.Through M s' :=
  Relation.ReflTransGen.trans h h'

namespace Goes

variable {o : Outcome ε TypingState α} {next : α → TypingState → Outcome ε TypingState β}

theorem mono (h : Goes M s o) (hM : ∀ s, M s → M' s) : Goes M' s o := fun s' hs' => (h s' hs').mono hM

/-- What leaves the state as it was needs no writes. -/
theorem same (h : ∀ s', o.state? = some s' → s' = s) : Goes M s o := by
  intro s' hs'
  obtain rfl := h s' hs'
  exact .refl

theorem ok (a : α) : Goes M s (.ok a s : Outcome ε TypingState α) := same fun _ h => (Option.some.inj h).symm

theorem write {a : α} (h : s.Write s') (hM : M s') : Goes M s (.ok a s' : Outcome ε TypingState α) := by
  rintro _ ⟨⟩
  exact .single ⟨h, hM⟩

/-- **Sequences go through moments** if both parts do. What the second part starts from is where the
first one ended. -/
theorem bind (h : Goes M s o) (hnext : ∀ a s₁, o = .ok a s₁ → Goes M s₁ (next a s₁)) :
    Goes M s (o.bind next) := by
  intro s' hs'
  rcases Outcome.state?_bind_eq_some_iff.mp hs' with ⟨a, s₁, ho, hsecond⟩ | ⟨e, ho⟩
  · exact (h s₁ (by rw [ho]; rfl)).trans (hnext a s₁ ho s' hsecond)
  · exact h s' (by rw [ho]; rfl)

end Goes

namespace Infer

variable {task task' : Task}

/-- What a task starts goes through moments of the task. -/
theorem Starts.goes {o : Outcome ε TypingState α} (h : Starts strict task s task' s₁)
    (hgoes : Goes (Moment strict task' s₁) s₁ o) : Goes (Moment strict task s) s₁ o :=
  hgoes.mono fun _ => .within h

theorem goes_lookup (scope : Nat) (name : String) (missing : TypeError) :
    Goes M s (lookup scope name missing s) := by
  refine .same fun s' hs' => ?_
  unfold lookup at hs'
  simp only [Run.run_bind, Run.run_get, Outcome.bind_ok] at hs'
  cases hlookup : s.environment.lookup? scope name with
  | none =>
    rw [hlookup] at hs'
    exact (Option.some.inj hs').symm
  | some t =>
    rw [hlookup] at hs'
    exact (Option.some.inj hs').symm

theorem goes_failWith (error : Ty → BindingError) (t : Ty) :
    Goes M s (failWith error t s : Outcome TypeError TypingState α) :=
  .same fun _ h => (Option.some.inj h).symm

/-- A task hands out a variable right before it starts another task. -/
theorem goes_fresh
    (hstarts : ∀ result s₂, fresh s₁ = .ok result s₂ → ∃ task', Starts strict task s task' s₂) :
    Goes (Moment strict task s) s₁ (fresh s₁) := by
  obtain ⟨task', hstart⟩ := hstarts _ _ rfl
  exact .write .allocate (.within hstart .begins)

/-- Unification binds one variable after the other. -/
theorem through_derives {left right : Ty} {b b' : Bindings} {o : Outcome UnifyError Bindings Unit}
    (h : Unifier.Derives strict left right b o) (ho : o.state? = some b') (hs : s.bindings = b) :
    s.Through (Moment strict (.unify left right) s) { s with bindings := b' } := by
  induction h generalizing s b' with
  | bind hflex hocc =>
    subst hs
    cases ho
    exact .single ⟨.bind _ _, .leaves ⟨_, _, .bind hflex hocc, rfl, rfl⟩⟩
  | infinite | base | mismatch =>
    subst hs
    cases ho
    exact .refl
  | domain hl hr _ iha =>
    -- what the domains have bound before they failed stays bound
    subst hs
    exact (iha ho rfl).mono fun _ => .within (.domain hl hr)
  | arrow hl hr ha _ iha ihc =>
    subst hs
    have hdomain := (iha rfl rfl).mono fun _ => Moment.within (.domain hl hr)
    have hcodomain := (ihc ho rfl).mono fun _ => Moment.within (.codomain hl hr ha)
    exact hdomain.trans hcodomain

/-- **Unification goes through moments**, from one bound variable to the next. -/
theorem goes_unify (left right : Ty) :
    Goes (Moment strict (.unify left right) s) s (unify strict left right s) := by
  intro s' hs'
  rw [unify, Outcome.state?_mapState, Outcome.state?_mapError, Option.map_eq_some_iff] at hs'
  obtain ⟨b, hb, rfl⟩ := hs'
  exact through_derives (Unifier.derives_unify rfl (Outcome.ends_of_state? hb)) hb rfl

/-- The parameters of a pattern are bound one by one, and each leaves a moment at which the next one is
started. -/
theorem goes_bindFields (scope : Nat) (constructor : String) (whole : Ty) (params : List String) (t : Ty)
    (s : TypingState) : Goes (Moment strict (.bindFields scope constructor whole t params) s) s
      (bindFields scope constructor whole t params s) := by
  induction params generalizing s t with
  | nil =>
    rw [bindFields]
    exact .ok t
  | cons param others ih =>
    cases t with
    | var v => exact goes_failWith _ _
    | base name => exact goes_failWith _ _
    | arrow domain codomain =>
      have hbound : Goes (Moment strict (.bindFields scope constructor whole (.arrow domain codomain)
          (param :: others)) s) s (bindName scope param domain s) :=
        .write (.name scope param domain) (.within .field .begins)
      rw [bindFields, Run.run_bind]
      refine hbound.bind fun _ s₁ h₁ => ?_
      cases h₁
      exact Starts.field.goes (ih codomain _)

/-- A pattern binds its names, and then unifies. -/
theorem goes_matchPattern (scope : Nat) (pattern : Pattern) (scrutinee : Ty) (s : TypingState) :
    Goes (Moment strict (.matchPattern scope pattern scrutinee) s) s
      (matchPattern strict scope pattern scrutinee s) := by
  cases pattern with
  | var name => exact .write (.name scope name scrutinee) (.leaves rfl)
  | constructor name params =>
    simp only [matchPattern, Run.run_bind]
    refine (goes_lookup scope name _).bind fun whole s₁ hwhole => ?_
    refine ((Starts.fields hwhole).goes (goes_bindFields _ _ _ _ _ _)).bind fun made s₂ hfields => ?_
    cases made with
    | var v => exact goes_failWith _ _
    | arrow domain codomain => exact goes_failWith _ _
    | base type => exact (Starts.made hwhole hfields).goes (goes_unify _ _)

/-- The result of an operation is a new variable, and then two types are unified. -/
theorem goes_result (expected : Ty → Ty) (actual : Ty)
    (hstarts : ∀ result s₂, fresh s₁ = .ok result s₂ →
      Starts strict task s (.unify (expected result) actual) s₂) :
    Goes (Moment strict task s) s₁
      ((do let result ← fresh; unify strict (expected result) actual; return result) s₁) := by
  simp only [Run.run_bind]
  refine (goes_fresh fun result s₂ h => ⟨_, hstarts result s₂ h⟩).bind fun result s₂ hfresh => ?_
  exact ((hstarts result s₂ hfresh).goes (goes_unify _ _)).bind fun _ _ _ => .ok result

mutual

/-- **Inference goes through moments**, from each to the next by a single write. -/
theorem goes_infer : ∀ (e : Expr) (scope : Nat) (s : TypingState),
    Goes (Moment strict (.infer scope e) s) s (infer strict scope e s)
  | .int _, _, _ => .ok _
  | .str _, _, _ => .ok _
  | .lower name, scope, s => by
    unfold infer
    exact goes_lookup scope name _
  | .upper name, scope, s => by
    unfold infer
    exact goes_lookup scope name _
  | .binary op left right, scope, s => by
    simp only [infer, Run.run_bind]
    -- each part is a task that starts where the part before it is done
    refine ((Starts.part .left).goes (goes_infer left scope s)).bind fun a s₁ hleft => ?_
    refine ((Starts.part (.right hleft)).goes (goes_infer right scope s₁)).bind fun c s₂ hright => ?_
    refine (goes_lookup scope op.name _).bind fun operatorTy s₃ hoperator => ?_
    exact goes_result (fun result => .arrow a (.arrow c result)) operatorTy
      fun _ _ hfresh => .binary hleft hright hoperator hfresh
  | .unary op operand, scope, s => by
    simp only [infer, Run.run_bind]
    refine ((Starts.part .operand).goes (goes_infer operand scope s)).bind fun a s₁ hoperand => ?_
    refine (goes_lookup scope op.name _).bind fun operatorTy s₂ hoperator => ?_
    exact goes_result (fun result => .arrow a result) operatorTy
      fun _ _ hfresh => .unary hoperand hoperator hfresh
  | .apply function argument, scope, s => by
    simp only [infer, Run.run_bind]
    refine ((Starts.part .function).goes (goes_infer function scope s)).bind fun f s₁ hfunction => ?_
    refine ((Starts.part (.argument hfunction)).goes (goes_infer argument scope s₁)).bind
      fun a s₂ hargument => ?_
    exact goes_result (fun result => .arrow a result) f
      fun _ _ hfresh => .apply hfunction hargument hfresh
  | .case scrutinee branches, scope, s => by
    simp only [infer, Run.run_bind]
    refine ((Starts.part .scrutinee).goes (goes_infer scrutinee scope s)).bind fun a s₁ hscrutinee => ?_
    refine (goes_fresh fun result s₂ hfresh => ⟨_, .branches hscrutinee hfresh⟩).bind
      fun result s₂ hfresh => ?_
    refine ((Starts.branches hscrutinee hfresh).goes
      (goes_inferBranches branches scope a result s₂)).bind ?_
    exact fun _ _ _ => .ok result

/-- A branch opens a scope, and that is the moment at which its pattern starts. -/
theorem goes_inferBranches : ∀ (branches : List Branch) (scope : Nat) (scrutinee result : Ty)
    (s : TypingState), Goes (Moment strict (.inferBranches scope scrutinee result branches) s) s
      (inferBranches strict scope scrutinee result branches s)
  | [], _, _, _, _ => .ok ()
  | ⟨pattern, body⟩ :: others, scope, scrutinee, result, s => by
    -- what a branch does are tasks, each started where the one before it is done
    simp only [inferBranches, Run.run_bind]
    refine (Goes.write (.openScope scope) (.within (.pattern rfl) .begins) :
      Goes _ s (openScope scope s)).bind fun inner s₁ hopen => ?_
    refine ((Starts.pattern hopen).goes (goes_matchPattern inner pattern scrutinee s₁)).bind
      fun _ s₂ hpattern => ?_
    refine ((Starts.body hopen hpattern).goes (goes_infer body inner s₂)).bind fun t s₃ hbody => ?_
    refine ((Starts.agree hopen hpattern hbody).goes (goes_unify result t)).bind fun _ s₄ hagree => ?_
    exact (Starts.others hopen hpattern hbody hagree).goes
      (goes_inferBranches others scope scrutinee result s₄)

end

theorem goes_bindNames (scope : Nat) (names : List (String × Ty)) (s : TypingState) :
    Goes (Moment strict (.bindNames scope names) s) s (bindNames scope names s) := by
  induction names generalizing s with
  | nil => exact .ok ()
  | cons entry others ih =>
    have hbound : s.Through (Moment strict (.bindNames scope (entry :: others)) s)
        { s with environment := s.environment.bind scope entry.1 entry.2 } :=
      .single ⟨.name scope entry.1 entry.2, .within .name .begins⟩
    exact fun s' hs' => hbound.trans (Starts.name.goes (ih _) s' hs')

/-- **Checking a definition goes through moments**, whatever becomes of it. -/
theorem goes_checkDefinition (declared : Declared) (s : TypingState) :
    Goes (Moment strict (.checkDefinition declared) s) s (checkDefinition strict declared s) := by
  obtain ⟨definition, declaration⟩ := declared
  have hfail : ∀ M (error : TypeError), Goes M s ((Run.fail error : Infer Unit) s) :=
    fun _ _ => .same fun _ h => (Option.some.inj h).symm
  cases definition with
  | type _ => exact .ok ()
  | function definition =>
    match declaration with
    | none => exact hfail _ _
    | some (.type _) => exact hfail _ _
    | some (.function result params) =>
      by_cases hlength : params.length = definition.params.length
      · simp only [checkDefinition, if_pos hlength, checkBody, Run.run_bind]
        refine (Goes.write (.openScope Environment.root) (.within (.params hlength rfl) .begins) :
          Goes _ s (openScope Environment.root s)).bind fun scope s₁ hopen => ?_
        refine ((Starts.params hlength hopen).goes (goes_bindNames scope _ s₁)).bind
          fun _ s₂ hparams => ?_
        refine ((Starts.functionBody hlength hopen hparams).goes
          (goes_infer definition.body scope s₂)).bind fun t s₃ hbody => ?_
        exact (Starts.result hlength hopen hparams hbody).goes (goes_unify t result)
      · simp only [checkDefinition, if_neg hlength]
        exact hfail _ _

end Infer

end Monotype
