import Monotype.Proofs.Typing.Lexical

/-!
# `Monotype.Proofs.Typing.Scopes` — inference is lexically scoped

A scope sees its own frame and the frames of the scopes around it, all of which are older. So frames
that are opened later do not change what a scope sees, and a branch that binds its names in a frame of
its own changes nothing for anyone else. Inference from a scope is then inference over the context that
the scope sees (`infer_agrees`), and it leaves every frame that was there as it was, on success and on
failure alike.

## Contents
- **`Environment.lookup?_of_suffix`**, **`lookup?_bind`**, **`lookup?_openScope`**: what a scope sees.
- **`Agrees`**: two outcomes with the same answer and the same store, with all earlier frames kept.
- **`infer_agrees`**, **`infer_lexicallyScoped`**, **`verdicts_agrees`**.
-/

namespace Monotype

/-! ## What a scope sees -/

namespace Environment

variable {env env' : Environment} {older : List Frame} {scope : Nat}

/-- A scope that was there before newer ones were opened sees no frame of these. -/
theorem lookupIn_append (newer : List Frame) (h : scope < older.length) (name : String) :
    lookupIn (newer ++ older) scope name = lookupIn older scope name := by
  induction newer with
  | nil => rfl
  | cons frame newer ih =>
    have hne : scope ≠ (newer ++ older).length := by rw [List.length_append]; omega
    rw [List.cons_append, lookupIn, if_neg hne, ih]

/-- Frames that are opened later do not change what a scope sees. -/
theorem lookup?_of_suffix (h : env.frames <:+ env'.frames) (hscope : scope < env.frames.length) :
    env'.lookup? scope = env.lookup? scope := by
  obtain ⟨newer, hnewer⟩ := h
  funext name
  rw [lookup?, lookup?, ← hnewer, lookupIn_append newer hscope]

/-- The frame of the scope of that number: its own names, and the scope around it. -/
def frame? (env : Environment) (scope : Nat) : Option Frame := env.frames.reverse[scope]?

/-- Frames that are opened later leave the numbers of the frames that were there. -/
theorem frame?_of_suffix (h : env.frames <:+ env'.frames) (hscope : scope < env.frames.length) :
    env'.frame? scope = env.frame? scope := by
  obtain ⟨newer, hnewer⟩ := h
  rw [frame?, frame?, ← hnewer, List.reverse_append, List.getElem?_append_left]
  rwa [List.length_reverse]

/-- A scope that was just opened sees what its parent sees. -/
theorem lookup?_openScope (env : Environment) (parent : Nat) :
    (env.openScope parent).lookup? env.nextScope = env.lookup? parent := by
  funext name
  simp [lookup?, openScope, nextScope, lookupIn]

theorem length_bindIn (frames : List Frame) (scope : Nat) (name : String) (ty : Ty) :
    (bindIn frames scope name ty).length = frames.length := by
  induction frames with
  | nil => rfl
  | cons frame older ih =>
    rw [bindIn]
    split
    · rfl
    · rw [List.length_cons, ih, List.length_cons]

theorem length_bind (env : Environment) (scope : Nat) (name : String) (ty : Ty) :
    (env.bind scope name ty).frames.length = env.frames.length := length_bindIn _ _ _ _

/-- **What a scope says after a name was bound in it**: the new type of that name, and of others what it
said before. -/
theorem lookupIn_bindIn {frames : List Frame} (h : scope < frames.length) (name other : String)
    (ty : Ty) : lookupIn (bindIn frames scope name ty) scope other =
      if other = name then some ty else lookupIn frames scope other := by
  induction frames with
  | nil => exact absurd h (by simp)
  | cons frame older ih =>
    by_cases hscope : scope = older.length
    · rw [bindIn, if_pos hscope, lookupIn, lookupIn, if_pos hscope, if_pos hscope,
        List.lookup_cons]
      by_cases hname : other = name
      · simp [hname]
      · simp [hname, beq_eq_false_iff_ne.mpr hname]
    · have hlt : scope < older.length := by rw [List.length_cons] at h; omega
      rw [bindIn, if_neg hscope, lookupIn, length_bindIn, if_neg hscope, ih hlt, lookupIn,
        if_neg hscope]

/-- A scope sees the name that was bound in it. -/
theorem lookup?_bind (h : scope < env.frames.length) (name : String) (ty : Ty) :
    (env.bind scope name ty).lookup? scope = Context.bind (env.lookup? scope) name ty := by
  funext other
  exact lookupIn_bindIn h name other ty

theorem bindIn_of_length_le {frames : List Frame} (h : frames.length ≤ scope) (name : String)
    (ty : Ty) : bindIn frames scope name ty = frames := by
  induction frames with
  | nil => rfl
  | cons frame older ih =>
    rw [List.length_cons] at h
    have hne : scope ≠ older.length := by omega
    rw [bindIn, if_neg hne, ih (by omega)]

/-- Binding in a newer scope leaves the older frames as they are. -/
theorem suffix_bindIn (newer : List Frame) (hscope : older.length ≤ scope) (name : String)
    (ty : Ty) : older <:+ bindIn (newer ++ older) scope name ty := by
  induction newer with
  | nil => exact ⟨[], (bindIn_of_length_le hscope name ty).symm⟩
  | cons frame newer ih =>
    rw [List.cons_append, bindIn]
    split
    · exact ⟨_ :: newer, rfl⟩
    · exact ih.trans (List.suffix_cons _ _)

/-- Binding a name in a newer frame keeps all older ones. -/
theorem suffix_bind (h : older <:+ env.frames) (hscope : older.length ≤ scope) (name : String)
    (ty : Ty) : older <:+ (env.bind scope name ty).frames := by
  obtain ⟨newer, hnewer⟩ := h
  rw [bind, ← hnewer]
  exact suffix_bindIn newer hscope name ty

theorem suffix_bindAll (h : older <:+ env.frames) (hscope : older.length ≤ scope)
    (names : List (String × Ty)) : older <:+ (env.bindAll scope names).frames := by
  induction names generalizing env with
  | nil => exact h
  | cons entry names ih => exact ih (suffix_bind h hscope entry.1 entry.2)

/-- A scope that is open, and all that it sees. -/
def Sees (env : Environment) (scope : Nat) (Γ : Context) : Prop :=
  scope < env.frames.length ∧ env.lookup? scope = Γ

variable {Γ : Context}

/-- What a scope sees stays what it sees while only newer frames change. -/
theorem Sees.later (h : env.Sees scope Γ) (hframes : env.frames <:+ env'.frames) :
    env'.Sees scope Γ :=
  ⟨Nat.lt_of_lt_of_le h.1 hframes.length_le, (lookup?_of_suffix hframes h.1).trans h.2⟩

/-- A scope that was just opened sees what the scope around it sees. -/
theorem Sees.openScope (h : env.Sees scope Γ) : (env.openScope scope).Sees env.nextScope Γ :=
  ⟨Nat.lt_succ_self _, (lookup?_openScope env scope).trans h.2⟩

theorem Sees.bind (h : env.Sees scope Γ) (name : String) (ty : Ty) :
    (env.bind scope name ty).Sees scope (Γ.bind name ty) := by
  refine ⟨by rw [length_bind]; exact h.1, ?_⟩
  rw [lookup?_bind h.1, h.2]

theorem Sees.bindAll (h : env.Sees scope Γ) (names : List (String × Ty)) :
    (env.bindAll scope names).Sees scope (Γ.bindAll names) := by
  induction names generalizing env Γ with
  | nil => exact h
  | cons entry names ih => exact ih (h.bind entry.1 entry.2)

end Environment

/-! ## Agreement -/

variable {ε α β γ δ : Type} {frames older : List Frame}

/-- Two outcomes end in the same way, with the same store. Related values come with a state, and all
frames of a list are still there. -/
inductive Agrees (frames : List Frame) (P : α → TypingState → β → Prop) :
    Outcome ε TypingState α → Outcome ε Store β → Prop
  | ok {a : α} {b : β} {s : TypingState} (hframes : frames <:+ s.environment.frames)
      (hP : P a s b) : Agrees frames P (.ok a s) (.ok b s.store)
  | error {e : ε} {s : TypingState} (hframes : frames <:+ s.environment.frames) :
      Agrees frames P (.error e s) (.error e s.store)
  | endless : Agrees frames P .endless .endless

theorem Agrees.mono {P : α → TypingState → β → Prop} {o : Outcome ε TypingState α}
    {o' : Outcome ε Store β} (hframes : older <:+ frames) (h : Agrees frames P o o') :
    Agrees older P o o' := by
  cases h with
  | ok h hP => exact .ok (hframes.trans h) hP
  | error h => exact .error (hframes.trans h)
  | endless => exact .endless

/-- Where the lexical computation ends with a value, so does the other one. -/
theorem Agrees.exists_eq_ok {P : α → TypingState → β → Prop} {o : Outcome ε TypingState α} {b : β}
    {store : Store} (h : Agrees frames P o (.ok b store)) :
    ∃ a s, o = .ok a s ∧ s.store = store ∧ P a s b := by
  cases h with
  | ok _ hP => exact ⟨_, _, rfl, rfl, hP⟩

/-- Where the computation over an environment ends with a value, so does the lexical one. -/
theorem Agrees.of_ok {P : α → TypingState → β → Prop} {a : α} {s : TypingState}
    {o : Outcome ε Store β} (h : Agrees frames P (.ok a s) o) :
    frames <:+ s.environment.frames ∧ ∃ b, o = .ok b s.store ∧ P a s b := by
  cases h with
  | ok hframes hP => exact ⟨hframes, _, rfl, hP⟩

/-- All frames are still there, with a value or an error. -/
theorem Agrees.suffix_of_state? {P : α → TypingState → β → Prop} {o : Outcome ε TypingState α}
    {o' : Outcome ε Store β} {s : TypingState} (h : Agrees frames P o o')
    (hs : o.state? = some s) : frames <:+ s.environment.frames := by
  cases h with
  | ok hframes _ => cases hs; exact hframes
  | error hframes => cases hs; exact hframes
  | endless => exact absurd hs (by simp [Outcome.state?])

/-- Outcomes that agree on equal values are the same, but for the scopes. -/
theorem Agrees.mapState_store {P : α → TypingState → α → Prop} {o : Outcome ε TypingState α}
    {o' : Outcome ε Store α} (h : Agrees frames P o o') (hP : ∀ a s b, P a s b → a = b) :
    o.mapState TypingState.store = o' := by
  cases h with
  | ok _ hab => rw [Outcome.mapState, hP _ _ _ hab]
  | error _ => rfl
  | endless => rfl

/-- **Agreement passes through sequences.** Both go on with values that are related, from states with
the same store. -/
theorem Agrees.bind {P : α → TypingState → β → Prop} {Q : γ → TypingState → δ → Prop}
    {o : Outcome ε TypingState α} {o' : Outcome ε Store β}
    {next : α → TypingState → Outcome ε TypingState γ} {next' : β → Store → Outcome ε Store δ}
    (h : Agrees frames P o o')
    (hnext : ∀ a s b, frames <:+ s.environment.frames → P a s b →
      Agrees frames Q (next a s) (next' b s.store)) :
    Agrees frames Q (o.bind next) (o'.bind next') := by
  cases h with
  | ok hframes hP => exact hnext _ _ _ hframes hP
  | error hframes => exact .error hframes
  | endless => exact .endless

theorem Agrees.imp {P Q : α → TypingState → β → Prop} {o : Outcome ε TypingState α}
    {o' : Outcome ε Store β} (h : Agrees frames P o o') (hPQ : ∀ a s b, P a s b → Q a s b) :
    Agrees frames Q o o' := by
  cases h with
  | ok hframes hP => exact .ok hframes (hPQ _ _ _ hP)
  | error hframes => exact .error hframes
  | endless => exact .endless

/-- The value on the right may be replaced, if the state tells enough about the new one. -/
theorem Agrees.map {P : α → TypingState → β → Prop} {Q : α → TypingState → γ → Prop}
    {o : Outcome ε TypingState α} {o' : Outcome ε Store β} {f : β → γ}
    (h : Agrees frames P o o') (hf : ∀ a s b, P a s b → Q a s (f b)) :
    Agrees frames Q o (o'.bind fun b s => .ok (f b) s) := by
  cases h with
  | ok hframes hP => exact .ok hframes (hf _ _ _ hP)
  | error hframes => exact .error hframes
  | endless => exact .endless

/-! ## Steps -/

variable {s : TypingState} {scope : Nat} {Γ : Context}

theorem fresh_agrees (h : frames <:+ s.environment.frames) :
    Agrees frames (fun t s' t' => t = t' ∧ s'.environment = s.environment) (Infer.fresh s)
      (Lexical.fresh s.store) :=
  .ok (s := { s with allocated := s.allocated + 1 }) h ⟨rfl, rfl⟩

theorem unify_agrees (strict : Bool) (left right : Ty) (h : frames <:+ s.environment.frames) :
    Agrees frames (fun _ s' _ => s'.environment = s.environment)
      (Infer.unify strict left right s) (Lexical.unify strict left right s.store) := by
  unfold Infer.unify Lexical.unify TypingState.store
  cases Unifier.unify strict left right s.bindings with
  | ok _ b => exact .ok (s := { s with bindings := b }) h rfl
  | error e b => exact .error (s := { s with bindings := b }) h
  | endless => exact .endless

theorem lookup_agrees (name : String) (missing : TypeError) (h : frames <:+ s.environment.frames)
    (hΓ : s.environment.Sees scope Γ) :
    Agrees frames (fun t s' t' => t = t' ∧ s'.environment = s.environment)
      (Infer.lookup scope name missing s) (Lexical.lookup Γ name missing s.store) := by
  unfold Infer.lookup Lexical.lookup
  simp only [Run.run_bind, Run.run_get, Outcome.bind_ok, hΓ.2]
  cases Γ name with
  | none => exact .error h
  | some t => exact .ok h ⟨rfl, rfl⟩

theorem failWith_agrees {P : α → TypingState → β → Prop} (error : Ty → BindingError) (t : Ty)
    (h : frames <:+ s.environment.frames) :
    Agrees frames P (Infer.failWith error t s) (Lexical.failWith error t s.store) :=
  .error h

/-- The names of a pattern are bound in the scope of the branch, and only there. -/
theorem bindFields_agrees (constructor : String) (whole : Ty) (params : List String) {t : Ty}
    (h : frames <:+ s.environment.frames) (hnew : frames.length ≤ scope)
    (hΓ : s.environment.Sees scope Γ) :
    Agrees frames (fun made s' out => out.2 = made ∧ s'.environment.Sees scope out.1)
      (Infer.bindFields scope constructor whole t params s)
      (Lexical.bindFields constructor whole Γ t params s.store) := by
  induction params generalizing t s Γ with
  | nil =>
    simp only [Infer.bindFields, Lexical.bindFields, Run.run_pure]
    exact .ok h ⟨rfl, hΓ⟩
  | cons param others ih =>
    cases t with
    | var v => exact failWith_agrees _ _ h
    | base n => exact failWith_agrees _ _ h
    | arrow domain codomain =>
      simp only [Infer.bindFields, Lexical.bindFields, Infer.bindName, Run.run_bind, Run.run_modify,
        Outcome.bind_ok]
      exact ih (s := { s with environment := s.environment.bind scope param domain })
        (Environment.suffix_bind h hnew param domain) (hΓ.bind param domain)

/-- A pattern binds its names in the new scope, which then sees the context of the branch. -/
theorem matchPattern_agrees (strict : Bool) (pattern : Pattern) (scrutinee : Ty)
    (h : frames <:+ s.environment.frames) (hnew : frames.length ≤ scope)
    (hΓ : s.environment.Sees scope Γ) :
    Agrees frames (fun _ s' inner => s'.environment.Sees scope inner)
      (Infer.matchPattern strict scope pattern scrutinee s)
      (Lexical.matchPattern strict Γ pattern scrutinee s.store) := by
  cases pattern with
  | var name =>
    simp only [Infer.matchPattern, Lexical.matchPattern, Infer.bindName, Run.run_modify,
      Run.run_pure]
    exact .ok (s := { s with environment := s.environment.bind scope name scrutinee })
      (Environment.suffix_bind h hnew name scrutinee) (hΓ.bind name scrutinee)
  | constructor name params =>
    simp only [Infer.matchPattern, Lexical.matchPattern, Run.run_bind]
    refine (lookup_agrees name _ h hΓ).bind ?_
    rintro whole s₁ _ h₁ ⟨rfl, henv₁⟩
    refine (bindFields_agrees name whole params h₁ hnew (henv₁ ▸ hΓ)).bind ?_
    rintro _ s₂ ⟨inner, made⟩ h₂ ⟨rfl, hinner⟩
    cases made with
    | var v => exact failWith_agrees _ _ h₂
    | arrow domain codomain => exact failWith_agrees _ _ h₂
    | base n =>
      -- unifying the scrutinee leaves the scope of the branch as the fields have made it
      refine (unify_agrees strict (.base n) scrutinee h₂).map ?_
      intro _ s₃ _ henv₃
      exact henv₃ ▸ hinner

/-! ## Expressions -/

/-- The same value, in a state where a scope still sees what it saw. -/
def SameIn (scope : Nat) (Γ : Context) (a : α) (s : TypingState) (b : α) : Prop :=
  a = b ∧ s.environment.Sees scope Γ

/-- Give an operation its result type: a fresh variable, which the type of the operator must yield. -/
theorem result_agrees (strict : Bool) (expected : Ty → Ty) (actual : Ty)
    (h : frames <:+ s.environment.frames) (hΓ : s.environment.Sees scope Γ) :
    Agrees frames (SameIn scope Γ)
      ((do let result ← Infer.fresh; Infer.unify strict (expected result) actual; return result) s)
      ((do let result ← Lexical.fresh; Lexical.unify strict (expected result) actual; return result)
        s.store) := by
  simp only [Run.run_bind]
  refine (fresh_agrees h).bind ?_
  rintro result s₁ _ h₁ ⟨rfl, henv₁⟩
  refine (unify_agrees strict (expected result) actual h₁).bind ?_
  intro _ s₂ _ h₂ henv₂
  exact .ok h₂ ⟨rfl, by rw [henv₂, henv₁]; exact hΓ⟩

mutual

/-- **Inference is lexically scoped.** From a scope it is inference over what the scope sees, and no
frame that was there is changed. -/
theorem infer_agrees (strict : Bool) : ∀ (e : Expr) {frames : List Frame} {s : TypingState}
    {scope : Nat} {Γ : Context}, frames <:+ s.environment.frames → s.environment.Sees scope Γ →
    Agrees frames (SameIn scope Γ) (Infer.infer strict scope e s) (Lexical.infer strict Γ e s.store)
  | .int _, _, _, _, _, h, hΓ => .ok h ⟨rfl, hΓ⟩
  | .str _, _, _, _, _, h, hΓ => .ok h ⟨rfl, hΓ⟩
  | .lower name, _, s, scope, Γ, h, hΓ => by
    unfold Infer.infer Lexical.infer
    refine (lookup_agrees name _ h hΓ).imp ?_
    rintro t s₁ _ ⟨rfl, henv₁⟩
    exact ⟨rfl, henv₁ ▸ hΓ⟩
  | .upper name, _, s, scope, Γ, h, hΓ => by
    unfold Infer.infer Lexical.infer
    refine (lookup_agrees name _ h hΓ).imp ?_
    rintro t s₁ _ ⟨rfl, henv₁⟩
    exact ⟨rfl, henv₁ ▸ hΓ⟩
  | .binary op left right, _, s, scope, Γ, h, hΓ => by
    simp only [Infer.infer, Lexical.infer, Run.run_bind]
    refine (infer_agrees strict left h hΓ).bind ?_
    -- the scope sees after the left operand what it saw before it
    rintro a s₁ _ h₁ ⟨rfl, hΓ₁⟩
    refine (infer_agrees strict right h₁ hΓ₁).bind ?_
    rintro b s₂ _ h₂ ⟨rfl, hΓ₂⟩
    refine (lookup_agrees op.name _ h₂ hΓ₂).bind ?_
    rintro operator s₃ _ h₃ ⟨rfl, henv₃⟩
    exact result_agrees strict (fun result => .arrow a (.arrow b result)) operator h₃ (henv₃ ▸ hΓ₂)
  | .unary op operand, _, s, scope, Γ, h, hΓ => by
    simp only [Infer.infer, Lexical.infer, Run.run_bind]
    refine (infer_agrees strict operand h hΓ).bind ?_
    rintro a s₁ _ h₁ ⟨rfl, hΓ₁⟩
    refine (lookup_agrees op.name _ h₁ hΓ₁).bind ?_
    rintro operator s₂ _ h₂ ⟨rfl, henv₂⟩
    exact result_agrees strict (fun result => .arrow a result) operator h₂ (henv₂ ▸ hΓ₁)
  | .apply function argument, _, s, scope, Γ, h, hΓ => by
    simp only [Infer.infer, Lexical.infer, Run.run_bind]
    refine (infer_agrees strict function h hΓ).bind ?_
    rintro f s₁ _ h₁ ⟨rfl, hΓ₁⟩
    refine (infer_agrees strict argument h₁ hΓ₁).bind ?_
    rintro a s₂ _ h₂ ⟨rfl, hΓ₂⟩
    exact result_agrees strict (fun result => .arrow a result) f h₂ hΓ₂
  | .case scrutinee branches, _, s, scope, Γ, h, hΓ => by
    simp only [Infer.infer, Lexical.infer, Run.run_bind]
    refine (infer_agrees strict scrutinee h hΓ).bind ?_
    rintro a s₁ _ h₁ ⟨rfl, hΓ₁⟩
    refine (fresh_agrees h₁).bind ?_
    rintro result s₂ _ h₂ ⟨rfl, henv₂⟩
    refine (inferBranches_agrees strict branches a result h₂ (henv₂ ▸ hΓ₁)).bind ?_
    rintro _ s₃ _ h₃ ⟨_, hΓ₃⟩
    exact .ok h₃ ⟨rfl, hΓ₃⟩

/-- The scope of a branch is opened, and not looked at again after the branch. -/
theorem inferBranches_agrees (strict : Bool) : ∀ (branches : List Branch) {frames : List Frame}
    {s : TypingState} {scope : Nat} {Γ : Context} (scrutinee result : Ty),
    frames <:+ s.environment.frames → s.environment.Sees scope Γ →
    Agrees frames (SameIn scope Γ)
      (Infer.inferBranches strict scope scrutinee result branches s)
      (Lexical.inferBranches strict Γ scrutinee result branches s.store)
  | [], _, _, _, _, _, _, h, hΓ => .ok h ⟨rfl, hΓ⟩
  | ⟨pattern, body⟩ :: others, frames, s, scope, Γ, scrutinee, result, h, hΓ => by
    simp only [Infer.inferBranches, Lexical.inferBranches, Run.run_bind, Infer.openScope,
      Outcome.bind_ok]
    -- the frame of the branch is newer than all frames that are to be kept
    refine Agrees.mono h ?_
    refine (matchPattern_agrees strict pattern scrutinee (List.suffix_cons _ _) (Nat.le_refl _)
      hΓ.openScope).bind ?_
    intro _ s₁ inner h₁ hinner
    refine (infer_agrees strict body h₁ hinner).bind ?_
    rintro t s₂ _ h₂ ⟨rfl, _⟩
    refine (unify_agrees strict result t h₂).bind ?_
    intro _ s₃ _ h₃ _
    exact inferBranches_agrees strict others scrutinee result h₃ (hΓ.later h₃)

end

/-- **Inference is lexically scoped.** From a scope it ends as inference over what that scope sees, with
the same bindings and the same number of variables. It opens frames and binds names in them, but all
frames that were there stay as they were, however it ends, so every old scope sees what it saw. -/
theorem infer_lexicallyScoped (strict : Bool) (e : Expr) (h : scope < s.environment.frames.length) :
    (Infer.infer strict scope e s).mapState TypingState.store =
        Lexical.infer strict (s.environment.lookup? scope) e s.store ∧
      ∀ s', (Infer.infer strict scope e s).state? = some s' →
        ∀ old, old < s.environment.frames.length →
          s'.environment.frame? old = s.environment.frame? old ∧
            s'.environment.lookup? old = s.environment.lookup? old := by
  have hagrees := infer_agrees strict e (List.suffix_refl _) ⟨h, rfl⟩
  refine ⟨hagrees.mapState_store fun _ _ _ hsame => hsame.1, fun s' hs' old hold => ?_⟩
  have hframes := hagrees.suffix_of_state? hs'
  exact ⟨Environment.frame?_of_suffix hframes hold, Environment.lookup?_of_suffix hframes hold⟩

/-- The second branch refers to a name of the first one. Three scopes were opened by then, and one of
them hides a name of the scope that all of it stands in. -/
theorem infer_lexicallyScoped_despite_failure :
    let s : TypingState := ⟨1, .empty, ⟨[{ parent := some 0, names := [("x", .var 0)] },
      { names := [("x", .string), ("Wrap", .arrow .int (.base "Box"))] }]⟩⟩
    let e : Expr := .case (.lower "x")
      [⟨.constructor "Wrap" ["first"], .case (.lower "first") [⟨.var "x", .lower "x"⟩]⟩,
        ⟨.var "second", .lower "first"⟩]
    ∃ s', Infer.infer false 1 e s = .error (.undefinedVariable "first") s' ∧
      Lexical.infer false (s.environment.lookup? 1) e s.store =
        .error (.undefinedVariable "first") s'.store ∧
      s'.environment.frames.length = 5 ∧
      ∀ old, old < 2 → s'.environment.frame? old = s.environment.frame? old ∧
        s'.environment.lookup? old = s.environment.lookup? old := by
  intro s e
  have hscope : 1 < s.environment.frames.length := by decide
  obtain ⟨hlexical, hkept⟩ := infer_lexicallyScoped false e hscope
  obtain ⟨s', hrun⟩ : ∃ s', Infer.infer false 1 e s = .error (.undefinedVariable "first") s' :=
    ⟨_, rfl⟩
  have hlength : (Infer.infer false 1 e s).state?.map (·.environment.frames.length) = some 5 := by
    decide
  rw [hrun] at hlexical hlength
  refine ⟨s', hrun, hlexical.symm, Option.some.inj hlength, fun old hold => hkept s' ?_ old hold⟩
  rw [hrun]
  rfl

/-! ## Definitions and programs -/

theorem checkBody_agrees (strict : Bool) (definition : FunctionDefinition) (result : Ty)
    (params : List Ty) (h : frames <:+ s.environment.frames)
    (hΓ : s.environment.Sees Environment.root Γ) :
    Agrees frames (fun _ _ _ => True) (Infer.checkBody strict definition result params s)
      (Lexical.checkBody strict Γ definition result params s.store) := by
  simp only [Infer.checkBody, Lexical.checkBody, Infer.openScope, Infer.bindNames, Run.run_bind,
    Run.run_modify, Outcome.bind_ok]
  refine Agrees.mono h ?_
  have hbody := hΓ.openScope.bindAll (definition.params.zip params)
  refine (infer_agrees strict definition.body
    (Environment.suffix_bindAll (List.suffix_cons _ _) (Nat.le_refl _) _) hbody).bind ?_
  rintro t s₁ _ h₁ ⟨rfl, _⟩
  exact (unify_agrees strict t result h₁).imp fun _ _ _ _ => trivial

/-- **Checking a definition agrees**, where the context is what the root sees. -/
theorem checkDefinition_agrees (strict : Bool) (declared : Declared)
    (h : frames <:+ s.environment.frames) (hΓ : s.environment.Sees Environment.root Γ) :
    Agrees frames (fun _ _ _ => True) (Infer.checkDefinition strict declared s)
      (Lexical.checkDefinition strict Γ declared s.store) := by
  obtain ⟨definition, declaration⟩ := declared
  cases definition with
  | type _ => exact .ok h trivial
  | function definition =>
    match declaration with
    | none => exact .error h
    | some (.type _) => exact .error h
    | some (.function result params) =>
      by_cases hlength : params.length = definition.params.length
      · simp only [Infer.checkDefinition, Lexical.checkDefinition, if_pos hlength]
        exact checkBody_agrees strict definition result params h hΓ
      · simp only [Infer.checkDefinition, Lexical.checkDefinition, if_neg hlength]
        exact .error h

/-- A failure that was turned into a value is the same value on both sides. -/
theorem attempt_agrees {x : Run ε TypingState Unit} {x' : Run ε Store Unit}
    (h : Agrees frames (fun _ _ _ => True) (x s) (x' s.store)) :
    Agrees frames (fun v _ v' => v = v') ((x.attempt : Run γ TypingState (Except ε Unit)) s)
      (x'.attempt s.store) := by
  unfold Run.attempt
  generalize x s = o, x' s.store = o' at h
  cases h with
  | ok hframes _ => exact .ok hframes rfl
  | error hframes => exact .ok hframes rfl
  | endless => exact .endless

/-- **Verdicts on definitions in order agree**: a definition leaves the root as it was. -/
theorem verdicts_agrees (options : Options) (definitions : List Declared)
    (h : frames <:+ s.environment.frames) (hΓ : s.environment.Sees Environment.root Γ) :
    Agrees frames (fun vs _ vs' => vs = vs') (Checker.verdicts options definitions s)
      (Lexical.verdicts options Γ definitions s.store) := by
  induction definitions generalizing s frames with
  | nil => exact .ok h rfl
  | cons declared others ih =>
    simp only [Checker.verdicts, Lexical.verdicts, Run.run_bind]
    refine Agrees.mono h ?_
    refine (attempt_agrees (checkDefinition_agrees options.occursCheck declared
      (List.suffix_refl _) hΓ)).bind ?_
    rintro verdict s₁ _ h₁ rfl
    have hrest : Agrees s.environment.frames (fun vs _ vs' => vs = vs')
        ((do return verdict :: (← Checker.verdicts options others) : Checker (List Verdict)) s₁)
        ((do return verdict :: (← Lexical.verdicts options Γ others)) s₁.store) := by
      simp only [Run.run_bind]
      refine ((ih (List.suffix_refl _) (hΓ.later h₁)).mono h₁).bind ?_
      rintro vs s₂ _ h₂ rfl
      exact .ok h₂ rfl
    cases verdict with
    | ok _ => exact hrest
    | error e =>
      cases hgoing : options.keepGoing with
      | true => simpa only [hgoing] using hrest
      | false => exact .ok h₁ rfl

end Monotype
