import Monotype.Proofs.Typing.Names

/-!
# `Monotype.Proofs.Typing.Places` — inference at every place of an expression

Inference of an expression calls itself on the parts of it, and so comes to every place in it: each time
from a state that the calls before have left, and in a branch of a case in a scope of its own. What it finds
at a place is told by following these calls down a path. If a type was inferred for the whole, it was for
every part, and what was bound by then is bound at the end. A part sees what the whole sees, but for the
names that the patterns on the way to it bind.

## Contents
- **`Expr.Step`**, **`Expr.Part`**, **`Expr.Within`**: paths into an expression.
- **`Infer.Place`**, **`Infer.Calls`**, **`Infer.CallsAt`**: the calls of inference along a path, which
  leads to one place (`Infer.CallsAt.unique`).
- **`Infer.Place.Infers`**, **`Infer.Place.Infers.exists_calls`**, **`Infer.Place.Infers.exists_callsAt`**.
- **`Infer.CallsAt.sees`**, **`Infer.CallsAt.keeps`**: the places of a run that may fail later.
-/

namespace Monotype

/-! ## Paths into an expression -/

/-- A step from an expression to one of its parts. -/
inductive Expr.Step where
  | left
  | right
  | operand
  | function
  | argument
  | scrutinee
  | branch (index : Nat)
deriving DecidableEq, Repr

/-- One step into an expression leads to a part, with the names that a pattern binds there. -/
inductive Expr.Part : Expr → Step → List String → Expr → Prop
  | left {op : BinaryOperator} {left right : Expr} : Part (.binary op left right) .left [] left
  | right {op : BinaryOperator} {left right : Expr} : Part (.binary op left right) .right [] right
  | operand {op : UnaryOperator} {operand : Expr} : Part (.unary op operand) .operand [] operand
  | function {function argument : Expr} : Part (.apply function argument) .function [] function
  | argument {function argument : Expr} : Part (.apply function argument) .argument [] argument
  | scrutinee {scrutinee : Expr} {branches : List Branch} :
      Part (.case scrutinee branches) .scrutinee [] scrutinee
  | branch {scrutinee : Expr} {branches : List Branch} {i : Nat} {pattern : Pattern} {body : Expr}
      (hbranch : branches[i]? = some ⟨pattern, body⟩) :
      Part (.case scrutinee branches) (.branch i) pattern.binds body

/-- A path into an expression leads to an expression within, with the names that patterns bind on the way. -/
inductive Expr.Within : Expr → List Step → List String → Expr → Prop
  | here {e : Expr} : Within e [] [] e
  | part {e part e' : Expr} {step : Step} {path : List Step} {names others : List String}
      (hpart : e.Part step names part) (hwithin : part.Within path others e') :
      Within e (step :: path) (names ++ others) e'

/-! ## Calls -/

namespace Infer

/-- A call of inference: in which scope, for which expression, and from which state. -/
structure Place where
  scope : Nat
  expr : Expr
  state : TypingState

/-- Inference at the first place calls itself on a part of the expression, which is the second place. The
steps that inference takes before the call succeed. -/
inductive Calls (strict : Bool) : Place → Expr.Step → Place → Prop
  | left {scope : Nat} {op : BinaryOperator} {left right : Expr} {s : TypingState} :
      Calls strict ⟨scope, .binary op left right, s⟩ .left ⟨scope, left, s⟩
  | right {scope : Nat} {op : BinaryOperator} {left right : Expr} {a : Ty} {s s₁ : TypingState}
      (hleft : infer strict scope left s = .ok a s₁) :
      Calls strict ⟨scope, .binary op left right, s⟩ .right ⟨scope, right, s₁⟩
  | operand {scope : Nat} {op : UnaryOperator} {operand : Expr} {s : TypingState} :
      Calls strict ⟨scope, .unary op operand, s⟩ .operand ⟨scope, operand, s⟩
  | function {scope : Nat} {function argument : Expr} {s : TypingState} :
      Calls strict ⟨scope, .apply function argument, s⟩ .function ⟨scope, function, s⟩
  | argument {scope : Nat} {function argument : Expr} {f : Ty} {s s₁ : TypingState}
      (hfunction : infer strict scope function s = .ok f s₁) :
      Calls strict ⟨scope, .apply function argument, s⟩ .argument ⟨scope, argument, s₁⟩
  | scrutinee {scope : Nat} {scrutinee : Expr} {branches : List Branch} {s : TypingState} :
      Calls strict ⟨scope, .case scrutinee branches, s⟩ .scrutinee ⟨scope, scrutinee, s⟩
  | branch {scope inner i : Nat} {scrutinee body : Expr} {pattern : Pattern} {branches : List Branch}
      {a result : Ty} {s s₁ s₂ s₃ s₄ s₅ : TypingState}
      (hscrutinee : infer strict scope scrutinee s = .ok a s₁) (hfresh : fresh s₁ = .ok result s₂)
      (hbefore : inferBranches strict scope a result (branches.take i) s₂ = .ok () s₃)
      (hbranch : branches[i]? = some ⟨pattern, body⟩) (hopen : openScope scope s₃ = .ok inner s₄)
      (hpattern : matchPattern strict inner pattern a s₄ = .ok () s₅) :
      Calls strict ⟨scope, .case scrutinee branches, s⟩ (.branch i) ⟨inner, body, s₅⟩

/-- Inference at the first place comes to the second one by the calls along a path. -/
inductive CallsAt (strict : Bool) : Place → List Expr.Step → Place → Prop
  | here {place : Place} : CallsAt strict place [] place
  | part {place next last : Place} {step : Expr.Step} {path : List Expr.Step}
      (hcalls : Calls strict place step next) (hlast : CallsAt strict next path last) :
      CallsAt strict place (step :: path) last

/-- A step leads to one place. -/
theorem Calls.unique {strict : Bool} {place next next' : Place} {step : Expr.Step}
    (h : Calls strict place step next) (h' : Calls strict place step next') : next = next' := by
  cases h with
  | left | operand | function | scrutinee =>
    cases h'
    rfl
  | right hleft =>
    cases h' with
    | right hleft' =>
      cases hleft.symm.trans hleft'
      rfl
  | argument hfunction =>
    cases h' with
    | argument hfunction' =>
      cases hfunction.symm.trans hfunction'
      rfl
  | branch hscrutinee hfresh hbefore hbranch hopen hpattern =>
    cases h' with
    | branch hscrutinee' hfresh' hbefore' hbranch' hopen' hpattern' =>
      cases hscrutinee.symm.trans hscrutinee'
      cases hfresh.symm.trans hfresh'
      cases hbefore.symm.trans hbefore'
      cases hbranch.symm.trans hbranch'
      cases hopen.symm.trans hopen'
      cases hpattern.symm.trans hpattern'
      rfl

/-- A path leads to one place. -/
theorem CallsAt.unique {strict : Bool} {place last last' : Place} {path : List Expr.Step}
    (h : CallsAt strict place path last) (h' : CallsAt strict place path last') : last = last' := by
  induction h with
  | here =>
    cases h'
    rfl
  | part hcalls _ ih =>
    cases h' with
    | part hcalls' hlast' =>
      cases hcalls.unique hcalls'
      exact ih hlast'

/-! ## What inference does with the parts of an expression -/

/-- Give an operation its result type: a fresh variable, where the operator's type takes the operands to
it. -/
def operation (strict : Bool) (scope : Nat) (name : String) (operands : List Ty) : Infer Ty := do
  let operator ← operator scope name
  let result ← fresh
  unify strict (.curried operands result) operator
  return result

variable {strict : Bool} {scope : Nat} {Γ : Context} {b : Bindings} {s s' : TypingState} {t : Ty}

/-- A binary operation infers its operands in order, and then operates on their types. -/
theorem infer_binary_eq_ok {op : BinaryOperator} {left right : Expr}
    (h : infer strict scope (.binary op left right) s = .ok t s') :
    ∃ a s₁ c s₂, infer strict scope left s = .ok a s₁ ∧ infer strict scope right s₁ = .ok c s₂ ∧
      operation strict scope op.name [a, c] s₂ = .ok t s' := by
  unfold infer at h
  obtain ⟨a, s₁, hleft, h⟩ := Outcome.bind_eq_ok_iff.mp h
  obtain ⟨c, s₂, hright, h⟩ := Outcome.bind_eq_ok_iff.mp h
  exact ⟨a, s₁, c, s₂, hleft, hright, h⟩

theorem infer_unary_eq_ok {op : UnaryOperator} {operand : Expr}
    (h : infer strict scope (.unary op operand) s = .ok t s') :
    ∃ a s₁, infer strict scope operand s = .ok a s₁ ∧
      operation strict scope op.name [a] s₁ = .ok t s' := by
  unfold infer at h
  obtain ⟨a, s₁, hoperand, h⟩ := Outcome.bind_eq_ok_iff.mp h
  exact ⟨a, s₁, hoperand, h⟩

theorem infer_apply_eq_ok {function argument : Expr}
    (h : infer strict scope (.apply function argument) s = .ok t s') :
    ∃ f s₁ a s₂, infer strict scope function s = .ok f s₁ ∧ infer strict scope argument s₁ = .ok a s₂ ∧
      (do let result ← fresh; unify strict (.arrow a result) f; return result : Infer Ty) s₂ =
        .ok t s' := by
  unfold infer at h
  obtain ⟨f, s₁, hfunction, h⟩ := Outcome.bind_eq_ok_iff.mp h
  obtain ⟨a, s₂, hargument, h⟩ := Outcome.bind_eq_ok_iff.mp h
  exact ⟨f, s₁, a, s₂, hfunction, hargument, h⟩

/-- A case infers its scrutinee before its branches. -/
theorem infer_case_eq_ok {scrutinee : Expr} {branches : List Branch}
    (h : infer strict scope (.case scrutinee branches) s = .ok t s') :
    ∃ a s₁ result s₂, infer strict scope scrutinee s = .ok a s₁ ∧ fresh s₁ = .ok result s₂ ∧
      inferBranches strict scope a result branches s₂ = .ok () s' := by
  unfold infer at h
  obtain ⟨a, s₁, hscrutinee, h⟩ := Outcome.bind_eq_ok_iff.mp h
  obtain ⟨result, s₂, hfresh, h⟩ := Outcome.bind_eq_ok_iff.mp h
  obtain ⟨_, s₃, hbranches, hok⟩ := Outcome.bind_eq_ok_iff.mp h
  obtain ⟨_, rfl⟩ := Outcome.ok.inj hok
  exact ⟨a, s₁, result, s₂, hscrutinee, hfresh, hbranches⟩

theorem extends_of_infer {e : Expr} (h : infer strict scope e s = .ok t s') :
    s.bindings.Extends s'.bindings :=
  ((congruence_extends strict).infer e scope).of_ok h

theorem extends_of_result (expected : Ty → Ty) {actual : Ty}
    (h : (do let result ← fresh; unify strict (expected result) actual; return result : Infer Ty) s
      = .ok t s') : s.bindings.Extends s'.bindings := by
  have hsteps := congruence_extends strict
  obtain ⟨result, s₁, hfresh, h⟩ := Outcome.bind_eq_ok_iff.mp h
  obtain ⟨_, s₂, hunify, hok⟩ := Outcome.bind_eq_ok_iff.mp h
  cases hok
  exact (hsteps.fresh.of_ok hfresh).trans ((hsteps.unify (expected t) actual).of_ok hunify)

/-- An operation keeps all bindings. -/
theorem extends_of_operation {name : String} {operands : List Ty}
    (h : operation strict scope name operands s = .ok t s') : s.bindings.Extends s'.bindings := by
  obtain ⟨operator, s₁, hoperator, hresult⟩ := Outcome.bind_eq_ok_iff.mp h
  have hbefore := ((congruence_extends strict).operator scope name).of_ok hoperator
  exact hbefore.trans (extends_of_result (fun result => .curried operands result) hresult)

/-- The branches of a case are inferred one after the other. What is bound after the body of one is bound
after all of them. -/
theorem inferBranches_getElem? {branches : List Branch} {scrutinee result : Ty} {i : Nat}
    {pattern : Pattern} {body : Expr} (hbranch : branches[i]? = some ⟨pattern, body⟩)
    (h : inferBranches strict scope scrutinee result branches s = .ok () s') :
    ∃ s₁ inner s₂ s₃ t s₄, inferBranches strict scope scrutinee result (branches.take i) s = .ok () s₁ ∧
      openScope scope s₁ = .ok inner s₂ ∧ matchPattern strict inner pattern scrutinee s₂ = .ok () s₃ ∧
      infer strict inner body s₃ = .ok t s₄ ∧ s₄.bindings.Extends s'.bindings := by
  induction branches generalizing s i with
  | nil => exact absurd hbranch (by simp)
  | cons branch others ih =>
    obtain ⟨first, firstBody⟩ := branch
    unfold inferBranches at h
    obtain ⟨inner, s₁, hopen, h⟩ := Outcome.bind_eq_ok_iff.mp h
    obtain ⟨_, s₂, hpattern, h⟩ := Outcome.bind_eq_ok_iff.mp h
    obtain ⟨t, s₃, hbody, h⟩ := Outcome.bind_eq_ok_iff.mp h
    obtain ⟨_, s₄, hunify, hothers⟩ := Outcome.bind_eq_ok_iff.mp h
    cases i with
    | zero =>
      cases hbranch
      have hsteps := congruence_extends strict
      have hafter := (hsteps.unify result t).of_ok hunify
      have hrest := (hsteps.inferBranches others scope scrutinee result).of_ok hothers
      exact ⟨s, inner, s₁, s₂, t, s₃, rfl, hopen, hpattern, hbody, hafter.trans hrest⟩
    | succ i =>
      obtain ⟨s₅, inner', s₆, s₇, u, s₈, hbefore, hrest⟩ := ih hbranch hothers
      refine ⟨s₅, inner', s₆, s₇, u, s₈, ?_, hrest⟩
      rw [List.take_succ_cons]
      unfold inferBranches
      simp only [Run.run_bind, hopen, hpattern, hbody, hunify, Outcome.bind_ok, hbefore]

/-! ## What a part sees -/

/-- An expression leaves what its scope sees. -/
theorem sees_of_infer {e : Expr} (h : infer strict scope e s = .ok t s')
    (hΓ : s.environment.Sees scope Γ) : s'.environment.Sees scope Γ := by
  have hagrees := infer_agrees strict e (List.suffix_refl _) hΓ
  rw [h] at hagrees
  obtain ⟨_, _, _, hsame⟩ := hagrees.of_ok
  exact hsame.2

theorem sees_of_inferBranches {branches : List Branch} {scrutinee result : Ty}
    (h : inferBranches strict scope scrutinee result branches s = .ok () s')
    (hΓ : s.environment.Sees scope Γ) : s'.environment.Sees scope Γ := by
  have hagrees := inferBranches_agrees strict branches scrutinee result (List.suffix_refl _) hΓ
  rw [h] at hagrees
  obtain ⟨_, _, _, hsame⟩ := hagrees.of_ok
  exact hsame.2

/-- Matching in the scope of a branch is lexical matching in the scope around it. -/
theorem exists_lexical_of_matchPattern {inner : Nat} {pattern : Pattern} {scrutinee : Ty}
    {s₁ : TypingState} (hΓ : s.environment.Sees scope Γ) (hopen : openScope scope s = .ok inner s₁)
    (h : matchPattern strict inner pattern scrutinee s₁ = .ok () s') :
    ∃ Γ', Lexical.matchPattern strict Γ pattern scrutinee s.store = .ok Γ' s'.store ∧
      s'.environment.Sees inner Γ' := by
  cases hopen
  have hagrees := matchPattern_agrees strict pattern scrutinee
    (s := { s with environment := s.environment.openScope scope }) (List.suffix_cons _ _)
    (Nat.le_refl s.environment.nextScope) hΓ.openScope
  rw [h] at hagrees
  exact hagrees.of_ok.2

/-- The scope of a branch sees what the scope around it sees, but for the names of the pattern. -/
theorem exists_sees_of_matchPattern {inner : Nat} {pattern : Pattern} {scrutinee : Ty}
    {s₁ : TypingState} (hΓ : s.environment.Sees scope Γ) (hopen : openScope scope s = .ok inner s₁)
    (h : matchPattern strict inner pattern scrutinee s₁ = .ok () s') :
    ∃ Γ', s'.environment.Sees inner Γ' ∧ ∀ name ∉ pattern.binds, Γ' name = Γ name := by
  obtain ⟨Γ', hlexical, hsees⟩ := exists_lexical_of_matchPattern hΓ hopen h
  refine ⟨Γ', hsees, fun other hother => ?_⟩
  rcases Lexical.matchPattern_eq_ok hlexical with
    ⟨name, rfl, rfl⟩ | ⟨_, params, _, fields, rfl, _, hlength, rfl, _⟩
  · rw [Context.bind_apply, if_neg (List.mem_singleton.not.mp hother)]
  · refine Context.bindAll_of_not_mem ?_
    rwa [List.map_fst_zip hlength.ge]

/-! ## Paths -/

/-- From the place a type is inferred, in a scope that sees `Γ`, and what is bound by then is bound in
`b`. -/
structure Place.Infers (strict : Bool) (place : Place) (Γ : Context) (b : Bindings) : Prop where
  sees : place.state.environment.Sees place.scope Γ
  ends : ∃ t s, infer strict place.scope place.expr place.state = .ok t s ∧ s.bindings.Extends b

variable {place : Place} {names : List String}

/-- What was inferred at a place stays inferred there under more bindings. -/
theorem Place.Infers.of_extends {b' : Bindings} (h : place.Infers strict Γ b) (hb : b.Extends b') :
    place.Infers strict Γ b' := by
  obtain ⟨hΓ, t, s, hinfer, hs⟩ := h
  exact ⟨hΓ, t, s, hinfer, hs.trans hb⟩

/-- **A type is inferred for each part**, in a scope that sees what the whole sees, but for the names that
are bound there. -/
theorem Place.Infers.exists_calls (h : place.Infers strict Γ b) {step : Expr.Step} {part : Expr}
    (hpart : place.expr.Part step names part) :
    ∃ next Γ', Calls strict place step next ∧ next.expr = part ∧ next.Infers strict Γ' b ∧
      ∀ name ∉ names, Γ' name = Γ name := by
  obtain ⟨scope, e, s⟩ := place
  obtain ⟨hΓ, t, s', h, hb⟩ := h
  have hsteps := congruence_extends strict
  cases hpart with
  | left =>
    obtain ⟨a, s₁, c, s₂, hleft, hright, hresult⟩ := infer_binary_eq_ok h
    have hafter := (extends_of_infer hright).trans ((extends_of_operation hresult).trans hb)
    exact ⟨_, Γ, .left, rfl, ⟨hΓ, a, s₁, hleft, hafter⟩, fun _ _ => rfl⟩
  | right =>
    obtain ⟨a, s₁, c, s₂, hleft, hright, hresult⟩ := infer_binary_eq_ok h
    have hafter := (extends_of_operation hresult).trans hb
    exact ⟨_, Γ, .right hleft, rfl, ⟨sees_of_infer hleft hΓ, c, s₂, hright, hafter⟩, fun _ _ => rfl⟩
  | operand =>
    obtain ⟨a, s₁, hoperand, hresult⟩ := infer_unary_eq_ok h
    have hafter := (extends_of_operation hresult).trans hb
    exact ⟨_, Γ, .operand, rfl, ⟨hΓ, a, s₁, hoperand, hafter⟩, fun _ _ => rfl⟩
  | function =>
    obtain ⟨f, s₁, a, s₂, hfunction, hargument, hresult⟩ := infer_apply_eq_ok h
    have hafter := (extends_of_infer hargument).trans
      ((extends_of_result (fun result => .arrow a result) hresult).trans hb)
    exact ⟨_, Γ, .function, rfl, ⟨hΓ, f, s₁, hfunction, hafter⟩, fun _ _ => rfl⟩
  | argument =>
    obtain ⟨f, s₁, a, s₂, hfunction, hargument, hresult⟩ := infer_apply_eq_ok h
    have hafter := (extends_of_result (fun result => .arrow a result) hresult).trans hb
    exact ⟨_, Γ, .argument hfunction, rfl, ⟨sees_of_infer hfunction hΓ, a, s₂, hargument, hafter⟩,
      fun _ _ => rfl⟩
  | scrutinee =>
    obtain ⟨a, s₁, result, s₂, hscrutinee, hfresh, hbranches⟩ := infer_case_eq_ok h
    have hafter := (hsteps.fresh.of_ok hfresh).trans
      (((hsteps.inferBranches _ scope a result).of_ok hbranches).trans hb)
    exact ⟨_, Γ, .scrutinee, rfl, ⟨hΓ, a, s₁, hscrutinee, hafter⟩, fun _ _ => rfl⟩
  | branch hbranch =>
    obtain ⟨a, s₁, result, s₂, hscrutinee, hfresh, hbranches⟩ := infer_case_eq_ok h
    obtain ⟨s₄, inner, s₅, s₆, u, s₇, hbefore, hopen, hpattern, hbody, hafter⟩ :=
      inferBranches_getElem? hbranch hbranches
    -- the branches before this one have left the scope around it as it was
    have hΓ₁ := sees_of_infer hscrutinee hΓ
    have hΓ₂ : s₂.environment.Sees scope Γ := by
      cases hfresh
      exact hΓ₁
    obtain ⟨Γ', hΓ', hsame⟩ :=
      exists_sees_of_matchPattern (sees_of_inferBranches hbefore hΓ₂) hopen hpattern
    exact ⟨_, Γ', .branch hscrutinee hfresh hbefore hbranch hopen hpattern, rfl,
      ⟨hΓ', u, s₇, hbody, hafter.trans hb⟩, hsame⟩

/-- **A type is inferred at each place within**, in a scope that sees what the whole sees, but for the names
that are bound on the way. -/
theorem Place.Infers.exists_callsAt (h : place.Infers strict Γ b) {path : List Expr.Step} {e : Expr}
    (hwithin : place.expr.Within path names e) :
    ∃ last Γ', CallsAt strict place path last ∧ last.expr = e ∧ last.Infers strict Γ' b ∧
      ∀ name ∉ names, Γ' name = Γ name := by
  generalize hwhole : place.expr = whole at hwithin
  induction hwithin generalizing place Γ with
  | here => exact ⟨place, Γ, .here, hwhole, h, fun _ _ => rfl⟩
  | part hpart _ ih =>
    subst hwhole
    obtain ⟨next, Γ₁, hcalls, hnext, hinfers, hsame₁⟩ := h.exists_calls hpart
    obtain ⟨last, Γ₂, hcallsAt, hlast, hinfers, hsame₂⟩ := ih hinfers hnext
    refine ⟨last, Γ₂, .part hcalls hcallsAt, hlast, hinfers, fun name hname => ?_⟩
    rw [List.mem_append, not_or] at hname
    rw [hsame₂ name hname.2, hsame₁ name hname.1]

/-! ## Following calls -/

variable {R : Bindings → Bindings → Prop} {next last : Place} {step : Expr.Step} {path : List Expr.Step}

/-- A call is about a part of the expression. It is made in a scope that sees what the whole sees, but for
the names that are bound there, whether inference of the whole then succeeds or not. -/
theorem Calls.sees (h : Calls strict place step next)
    (hΓ : place.state.environment.Sees place.scope Γ) :
    ∃ names Γ', place.expr.Part step names next.expr ∧ next.state.environment.Sees next.scope Γ' ∧
      ∀ name ∉ names, Γ' name = Γ name := by
  cases h with
  | left => exact ⟨[], Γ, .left, hΓ, fun _ _ => rfl⟩
  | right hleft => exact ⟨[], Γ, .right, sees_of_infer hleft hΓ, fun _ _ => rfl⟩
  | operand => exact ⟨[], Γ, .operand, hΓ, fun _ _ => rfl⟩
  | function => exact ⟨[], Γ, .function, hΓ, fun _ _ => rfl⟩
  | argument hfunction => exact ⟨[], Γ, .argument, sees_of_infer hfunction hΓ, fun _ _ => rfl⟩
  | scrutinee => exact ⟨[], Γ, .scrutinee, hΓ, fun _ _ => rfl⟩
  | branch hscrutinee hfresh hbefore hbranch hopen hpattern =>
    have hΓ₁ := sees_of_infer hscrutinee hΓ
    cases hfresh
    obtain ⟨Γ', hΓ', hsame⟩ :=
      exists_sees_of_matchPattern (sees_of_inferBranches hbefore hΓ₁) hopen hpattern
    exact ⟨_, Γ', .branch hbranch, hΓ', hsame⟩

/-- What unification keeps of bindings is kept up to each call. -/
theorem Calls.keeps (hR : Unifier.Kept strict R) (h : Calls strict place step next) :
    R place.state.bindings next.state.bindings := by
  have hsteps := congruence_of_kept hR
  cases h with
  | left | operand | function | scrutinee => exact hR.refl _
  | right hleft => exact (hsteps.infer _ _).of_ok hleft
  | argument hfunction => exact (hsteps.infer _ _).of_ok hfunction
  | branch hscrutinee hfresh hbefore hbranch hopen hpattern =>
    cases hfresh
    cases hopen
    have hbranches := (hsteps.inferBranches _ _ _ _).of_ok hbefore
    have hmatch := (hsteps.matchPattern _ _ _).of_ok hpattern
    exact hR.trans ((hsteps.infer _ _).of_ok hscrutinee) (hR.trans hbranches hmatch)

/-- **Wherever the calls along a path lead** is a place within the expression. The scope there sees what the
whole sees, but for the names that are bound on the way. -/
theorem CallsAt.sees (h : CallsAt strict place path last)
    (hΓ : place.state.environment.Sees place.scope Γ) :
    ∃ names Γ', place.expr.Within path names last.expr ∧ last.state.environment.Sees last.scope Γ' ∧
      ∀ name ∉ names, Γ' name = Γ name := by
  induction h generalizing Γ with
  | here => exact ⟨[], Γ, .here, hΓ, fun _ _ => rfl⟩
  | part hcalls _ ih =>
    obtain ⟨names, Γ₁, hpart, hΓ₁, hsame₁⟩ := hcalls.sees hΓ
    obtain ⟨others, Γ₂, hwithin, hΓ₂, hsame₂⟩ := ih hΓ₁
    refine ⟨names ++ others, Γ₂, .part hpart hwithin, hΓ₂, fun name hname => ?_⟩
    rw [List.mem_append, not_or] at hname
    rw [hsame₂ name hname.2, hsame₁ name hname.1]

/-- What unification keeps of bindings is kept along every path. -/
theorem CallsAt.keeps (hR : Unifier.Kept strict R) (h : CallsAt strict place path last) :
    R place.state.bindings last.state.bindings := by
  induction h with
  | here => exact hR.refl _
  | part hcalls _ ih => exact hR.trans (hcalls.keeps hR) ih

end Infer

end Monotype
