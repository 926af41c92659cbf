import Monotype.Proofs.Typing.Places

/-!
# `Monotype.Proofs.Typing.Operators` — what operators accept

The type of an operator is looked up by the operator's name, like that of any other name, in the scope of
the place where the operator stands. So operands and result have the types that the nearest binding of that
name says. That is the type which a new checker starts with, integers throughout, wherever nothing else is
bound to the name: neither by a definition of the program, nor by a parameter of the function, nor by a
pattern around the place. A program that does bind the name gives the operator another type.

## Contents
- **`Expr.operator?`**, **`Infer.Operates`**: operations, and the types that inference finds there.
- **`Infer.checkAll_getElem?`**, **`Infer.ChecksBody`**: checking comes to every body.
- **`Checker.exists_infers_of_accepted`**: all places of an accepted program.
- **`Checker.operators_accept_integers`**.
-/

namespace Monotype

/-! ## Operations -/

/-- The name of the operator, if the expression is an operation. -/
def Expr.operator? : Expr → Option String
  | .binary op _ _ => some op.name
  | .unary op _ => some op.name
  | _ => none

variable {strict : Bool} {scope : Nat} {Γ : Context} {b : Bindings} {s s' : TypingState}
  {θ : Nat → Ty}

namespace Infer

variable {place : Place} {operator : String} {operands : List Ty} {result : Ty}

/-- What inference finds at an operation: the types of the operands, and that of the whole. -/
inductive Operates (strict : Bool) : Place → String → List Ty → Ty → Prop
  | binary {scope : Nat} {op : BinaryOperator} {left right : Expr} {a c t : Ty} {s s₁ s₂ s₃ : TypingState}
      (hleft : infer strict scope left s = .ok a s₁) (hright : infer strict scope right s₁ = .ok c s₂)
      (hwhole : infer strict scope (.binary op left right) s = .ok t s₃) :
      Operates strict ⟨scope, .binary op left right, s⟩ op.name [a, c] t
  | unary {scope : Nat} {op : UnaryOperator} {operand : Expr} {a t : Ty} {s s₁ s₂ : TypingState}
      (hoperand : infer strict scope operand s = .ok a s₁)
      (hwhole : infer strict scope (.unary op operand) s = .ok t s₂) :
      Operates strict ⟨scope, .unary op operand, s⟩ op.name [a] t

/-- Inference finds one type for each operand, and one for the whole. -/
theorem Operates.unique {operands' : List Ty} {result' : Ty}
    (h : Operates strict place operator operands result)
    (h' : Operates strict place operator operands' result') : operands = operands' ∧ result = result' := by
  -- which operator it is can be told from the place alone
  generalize operator = name at h'
  cases h with
  | binary hleft hright hwhole =>
    cases h' with
    | binary hleft' hright' hwhole' =>
      cases hleft.symm.trans hleft'
      cases hright.symm.trans hright'
      cases hwhole.symm.trans hwhole'
      exact ⟨rfl, rfl⟩
  | unary hoperand hwhole =>
    cases h' with
    | unary hoperand' hwhole' =>
      cases hoperand.symm.trans hoperand'
      cases hwhole.symm.trans hwhole'
      exact ⟨rfl, rfl⟩

/-- A new checker says that operators take integers to integers. -/
theorem Operates.operators_eq (h : Operates strict place operator operands result) :
    Context.operators operator = some (.curried (operands.map fun _ => .int) .int) := by
  cases h with
  | @binary _ op => cases op <;> rfl
  | @unary _ op =>
    cases op
    rfl

/-- The type that the scope has for an operator takes the operands to the result. -/
theorem operation_sound {t : Ty} (hΓ : s.environment.Sees scope Γ)
    (h : operation strict scope operator operands s = .ok t s') (hθ : s'.bindings.SolvedBy θ) :
    ∃ ty, Γ operator = some ty ∧ (Ty.curried operands t).subst θ = ty.subst θ := by
  obtain ⟨ty, s₁, hlookup, hresult⟩ := Outcome.bind_eq_ok_iff.mp h
  have hagrees := lookup_agrees operator (.binding (.unboundOperator operator)) (List.suffix_refl _) hΓ
  rw [show lookup scope operator _ s = .ok ty s₁ from hlookup] at hagrees
  obtain ⟨_, _, hlexical, rfl, henv⟩ := hagrees.of_ok
  obtain ⟨hname, _⟩ := Lexical.lookup_eq_ok hlexical
  have hagrees := result_agrees strict (fun result => .curried operands result) ty (List.suffix_refl _)
    (henv ▸ hΓ : s₁.environment.Sees scope Γ)
  rw [show (do let result ← fresh; unify strict (.curried operands result) ty; return result : Infer Ty)
    s₁ = .ok t s' from hresult] at hagrees
  obtain ⟨_, _, hlexical, rfl, _⟩ := hagrees.of_ok
  exact ⟨ty, hname, Lexical.result_sound (fun result => .curried operands result) hlexical hθ⟩

/-- **What the scope says of an operator decides what the operator accepts.** -/
theorem Place.Infers.exists_operates (h : place.Infers strict Γ b)
    (hoperator : place.expr.operator? = some operator) (hθ : b.SolvedBy θ) :
    ∃ operands result ty, Operates strict place operator operands result ∧
      Γ operator = some ty ∧ (Ty.curried operands result).subst θ = ty.subst θ := by
  obtain ⟨scope, e, s⟩ := place
  obtain ⟨hΓ, t, s', hinfer, hb⟩ := h
  cases e with
  | binary op left right =>
    cases hoperator
    obtain ⟨a, s₁, c, s₂, hleft, hright, hresult⟩ := infer_binary_eq_ok hinfer
    have hΓ₂ := sees_of_infer hright (sees_of_infer hleft hΓ)
    obtain ⟨ty, hname, hty⟩ := operation_sound hΓ₂ hresult (hθ.anti hb)
    exact ⟨[a, c], t, ty, .binary hleft hright hinfer, hname, hty⟩
  | unary op operand =>
    cases hoperator
    obtain ⟨a, s₁, hoperand, hresult⟩ := infer_unary_eq_ok hinfer
    obtain ⟨ty, hname, hty⟩ := operation_sound (sees_of_infer hoperand hΓ) hresult (hθ.anti hb)
    exact ⟨[a], t, ty, .unary hoperand hinfer, hname, hty⟩
  | int _ | str _ | lower _ | upper _ | apply _ _ | case _ _ => cases hoperator

/-! ## Bodies -/

/-- Definitions are checked one after the other. What is bound after one is bound after all of them. -/
theorem checkAll_getElem? {definitions : List Declared} {declared : Declared} {i : Nat}
    (hi : definitions[i]? = some declared) (h : checkAll strict definitions s = .ok () s') :
    ∃ s₁ s₂, checkAll strict (definitions.take i) s = .ok () s₁ ∧
      checkDefinition strict declared s₁ = .ok () s₂ ∧ s₂.bindings.Extends s'.bindings := by
  induction definitions generalizing s i with
  | nil => exact absurd hi (by simp)
  | cons first others ih =>
    unfold checkAll at h
    obtain ⟨_, s₁, hfirst, hothers⟩ := Outcome.bind_eq_ok_iff.mp h
    cases i with
    | zero =>
      cases hi
      exact ⟨s, s₁, rfl, hfirst, ((congruence_extends strict).checkAll others).of_ok hothers⟩
    | succ i =>
      obtain ⟨s₂, s₃, hbefore, hrest⟩ := ih hi hothers
      refine ⟨s₂, s₃, ?_, hrest⟩
      rw [List.take_succ_cons]
      unfold checkAll
      simp only [Run.run_bind, hfirst, Outcome.bind_ok, hbefore]

/-- The root sees after checking what it saw before. -/
theorem sees_of_checkAll {definitions : List Declared} (h : checkAll strict definitions s = .ok () s')
    (hΓ : s.environment.Sees Environment.root Γ) : s'.environment.Sees Environment.root Γ := by
  induction definitions generalizing s with
  | nil =>
    cases h
    exact hΓ
  | cons declared others ih =>
    unfold checkAll at h
    obtain ⟨_, s₁, hfirst, hothers⟩ := Outcome.bind_eq_ok_iff.mp h
    have hagrees := checkDefinition_agrees strict declared (List.suffix_refl _) hΓ
    rw [hfirst] at hagrees
    exact ih hothers (hΓ.later hagrees.of_ok.1)

/-- A scope that was opened in the root for the parameters of a function. -/
theorem sees_of_bindNames {entries : List (String × Ty)} {s₁ : TypingState}
    (hΓ : s.environment.Sees Environment.root Γ) (hopen : openScope Environment.root s = .ok scope s₁)
    (hnames : bindNames scope entries s₁ = .ok () s') :
    s'.environment.Sees scope (Γ.bindAll entries) := by
  cases hopen
  cases hnames
  exact hΓ.openScope.bindAll entries

/-- Checking a function infers a type for its body, with the parameters bound in a scope of their own. -/
theorem exists_infers_of_checkDefinition {definition : FunctionDefinition} {result : Ty}
    {params : List Ty} (hlength : params.length = definition.params.length)
    (hΓ : s.environment.Sees Environment.root Γ)
    (h : checkDefinition strict ⟨.function definition, some (.function result params)⟩ s = .ok () s') :
    ∃ scope s₁ s₂, openScope Environment.root s = .ok scope s₁ ∧
      bindNames scope (definition.params.zip params) s₁ = .ok () s₂ ∧
      Place.Infers strict ⟨scope, definition.body, s₂⟩ (Γ.bindAll (definition.params.zip params))
        s'.bindings := by
  simp only [checkDefinition, if_pos hlength] at h
  unfold checkBody at h
  obtain ⟨scope, s₁, hopen, h⟩ := Outcome.bind_eq_ok_iff.mp h
  obtain ⟨_, s₂, hparams, h⟩ := Outcome.bind_eq_ok_iff.mp h
  obtain ⟨t, s₃, hinfer, hunify⟩ := Outcome.bind_eq_ok_iff.mp h
  have hafter := ((congruence_extends strict).unify t result).of_ok hunify
  exact ⟨scope, s₁, s₂, hopen, hparams, sees_of_bindNames hΓ hopen hparams, t, s₃, hinfer, hafter⟩

/-- Checking a program with a new checker comes to the body of the function at this place in it: all
definitions before it are accepted, and its parameters are bound in a scope of its own. -/
inductive ChecksBody (strict : Bool) (program : Program) (i : Nat) : Place → Prop
  | intro {definition : FunctionDefinition} {result : Ty} {params : List Ty} {scope : Nat}
      {s s₁ s₂ : TypingState}
      (hdeclared : (TypingState.declareAll program .initial).1[i]? =
        some ⟨.function definition, some (.function result params)⟩)
      (hbefore : checkAll strict ((TypingState.declareAll program .initial).1.take i)
        (TypingState.declareAll program .initial).2 = .ok () s)
      (hopen : openScope Environment.root s = .ok scope s₁)
      (hparams : bindNames scope (definition.params.zip params) s₁ = .ok () s₂) :
      ChecksBody strict program i ⟨scope, definition.body, s₂⟩

/-- Checking comes to one body at a place of the program. -/
theorem ChecksBody.unique {program : Program} {i : Nat} {start start' : Place}
    (h : ChecksBody strict program i start) (h' : ChecksBody strict program i start') :
    start = start' := by
  cases h with
  | intro hdeclared hbefore hopen hparams =>
    cases h' with
    | intro hdeclared' hbefore' hopen' hparams' =>
      cases hdeclared.symm.trans hdeclared'
      cases hbefore.symm.trans hbefore'
      cases hopen.symm.trans hopen'
      cases hparams.symm.trans hparams'
      rfl

end Infer

namespace Checker

variable {keepGoing : Bool} {program : Program} {report : Report} {final : TypingState} {i : Nat}
  {definition : FunctionDefinition} {path : List Expr.Step} {names : List String} {e : Expr}

/-- Where all is accepted, there is nothing to recover from. -/
theorem checkAll_of_accepted {definitions : List Declared} {vs : List Verdict}
    (h : verdicts ⟨strict, keepGoing⟩ definitions s = .ok vs s')
    (haccepted : Report.accepted ⟨definitions, vs⟩ = true) :
    Infer.checkAll strict definitions s = .ok () s' := by
  induction definitions generalizing s vs with
  | nil =>
    cases h
    rfl
  | cons declared others ih =>
    rw [verdicts_cons] at h
    obtain ⟨verdict, s₁, hverdict, h⟩ := Outcome.bind_eq_ok_iff.mp h
    obtain ⟨vs', rfl, _⟩ := Verdict.andOthers_eq_ok h
    obtain ⟨rfl, hothers⟩ := Report.accepted_cons.mp haccepted
    -- after a success checking goes on
    obtain ⟨_, s₂, hrest, hok⟩ := Outcome.bind_eq_ok_iff.mp h
    cases hok
    unfold Infer.checkAll
    simp only [Run.run_bind, Run.attempt_eq_ok_ok hverdict, Outcome.bind_ok, ih hrest hothers]

/-- **Inference comes to every place of an accepted program**, from the body of the function on. Of a name
that no definition declares, no parameter is, and no pattern on the way binds, the scope there says what a
new checker says. -/
theorem exists_infers_of_accepted (h : check ⟨strict, keepGoing⟩ program .initial = .ok report final)
    (haccepted : report.accepted = true) (hi : program[i]? = some (.function definition))
    (hwithin : definition.body.Within path names e) :
    ∃ start place Γ, Infer.ChecksBody strict program i start ∧ Infer.CallsAt strict start path place ∧
      place.expr = e ∧ place.Infers strict Γ final.bindings ∧
      ∀ name, name ∉ program.declares → name ∉ definition.params → name ∉ names →
        Γ name = Context.operators name := by
  have hroot := (TypingState.declares_declareAll program .initial).sees TypingState.sees_initial
  obtain ⟨result, params, hlength, hdeclared⟩ :=
    TypingState.declareAll_of_function (s := .initial) hi
  rw [check_eq] at h
  obtain ⟨vs, s, hverdicts, hok⟩ := Outcome.bind_eq_ok_iff.mp h
  cases hok
  obtain ⟨s₁, s₂, hbefore, hbody, hafter⟩ :=
    Infer.checkAll_getElem? hdeclared (checkAll_of_accepted hverdicts haccepted)
  obtain ⟨scope, s₃, s₄, hopen, hparams, hinfers⟩ :=
    Infer.exists_infers_of_checkDefinition hlength (Infer.sees_of_checkAll hbefore hroot) hbody
  obtain ⟨place, Γ, hcalls, he, hplace, hsame⟩ := (hinfers.of_extends hafter).exists_callsAt hwithin
  refine ⟨_, place, Γ, .intro hdeclared hbefore hopen hparams, hcalls, he, hplace, ?_⟩
  intro name hdeclares hparam hname
  rw [hsame name hname, Context.bindAll_of_not_mem, Context.bindAll_of_not_mem]
  · rwa [Declared.map_fst_entries (TypingState.shaped_of_mem_declareAll program .initial),
      TypingState.definitions_declareAll]
  · rwa [List.map_fst_zip hlength.ge]

/-- **Operators take integers to integers** in every accepted program, wherever nothing else is bound to the
operator's name. With the occurs check, inference comes to every operation of every function. The types that
it finds there for the operands and for the whole are all the integers in the end, unless a definition of
the program, a parameter of the function or a pattern around the operation has the name of the operator. -/
theorem operators_accept_integers (h : check ⟨true, keepGoing⟩ program .initial = .ok report final)
    (haccepted : report.accepted = true) (hi : program[i]? = some (.function definition))
    (hwithin : definition.body.Within path names e) {operator : String}
    (hoperator : e.operator? = some operator) (hdeclares : operator ∉ program.declares)
    (hparams : operator ∉ definition.params) (hnames : operator ∉ names) :
    (∃ start place operands result, Infer.ChecksBody true program i start ∧
      Infer.CallsAt true start path place ∧ place.expr = e ∧
      Infer.Operates true place operator operands result) ∧
    ∀ start place operands result, Infer.ChecksBody true program i start →
      Infer.CallsAt true start path place → Infer.Operates true place operator operands result →
      ∀ t ∈ result :: operands, final.bindings.zonk t = .int := by
  obtain ⟨start, place, Γ, hstart, hcalls, rfl, hinfers, hΓ⟩ :=
    exists_infers_of_accepted h haccepted hi hwithin
  obtain ⟨_, _, hcheck, hacyclic⟩ :=
    exists_check_eq_ok (s := .initial) Bindings.acyclic_empty keepGoing program
  obtain ⟨rfl, rfl⟩ := Outcome.ok.inj (h.symm.trans hcheck)
  obtain ⟨operands, result, ty, hoperates, hty, htypes⟩ :=
    hinfers.exists_operates hoperator hacyclic.solvedBy_zonk
  refine ⟨⟨start, place, operands, result, hstart, hcalls, rfl, hoperates⟩, ?_⟩
  intro start' place' operands' result' hstart' hcalls' hoperates' t ht
  -- there is one such place, and inference finds one type there for each operand
  cases hstart.unique hstart'
  cases hcalls.unique hcalls'
  obtain ⟨rfl, rfl⟩ := hoperates.unique hoperates'
  -- the type of the operator is that which a new checker has for it
  rw [hΓ operator hdeclares hparams hnames, hoperates.operators_eq] at hty
  cases hty
  rw [Ty.subst_curried, Ty.subst_curried] at htypes
  obtain ⟨hoperands, hresult⟩ := Lexical.curried_inj (by simp) htypes
  rw [List.map_map, List.map_inj_left] at hoperands
  rw [Bindings.zonk_eq_subst]
  rcases List.mem_cons.mp ht with rfl | ht
  · exact hresult
  · exact hoperands t ht

/-- An operation in a branch, on the length of a list that the pattern of the branch binds. -/
theorem operators_accept_integers_in_branch :
    let length : FunctionDefinition := ⟨"Length", ["l"], .case (.lower "l")
      [⟨.constructor "Nil" [], .int 0⟩, ⟨.constructor "Cons" ["head", "tail"],
        .binary .plus (.int 1) (.apply (.upper "Length") (.lower "tail"))⟩]⟩
    let program : Program := [.type ⟨"List", [⟨"Cons", ["Int", "List"]⟩, ⟨"Nil", []⟩]⟩,
      .function length]
    ∃ report final, check ⟨true, false⟩ program .initial = .ok report final ∧
      report.accepted = true ∧ ∃ start place operands result,
      Infer.ChecksBody true program 1 start ∧ Infer.CallsAt true start [.branch 1] place ∧
      Infer.Operates true place "PLUS" operands result ∧
      ∀ t ∈ result :: operands, final.bindings.zonk t = .int := by
  intro length program
  obtain ⟨report, final, hcheck, _⟩ :=
    exists_check_eq_ok (s := .initial) Bindings.acyclic_empty false program
  have haccepted : (match check ⟨true, false⟩ program .initial with
      | .ok report _ => report.accepted
      | _ => false) = true := by decide +kernel
  rw [hcheck] at haccepted
  have hbranch : length.body.Part (.branch 1) ["head", "tail"]
      (.binary .plus (.int 1) (.apply (.upper "Length") (.lower "tail"))) :=
    show length.body.Part _ (Pattern.constructor "Cons" ["head", "tail"]).binds _ from .branch rfl
  obtain ⟨⟨start, place, operands, result, hstart, hcalls, _, hoperates⟩, htypes⟩ :=
    operators_accept_integers (i := 1) hcheck haccepted rfl (.part hbranch .here) rfl (by decide) (by decide)
      (by decide)
  exact ⟨report, final, hcheck, haccepted, start, place, operands, result, hstart, hcalls, hoperates,
    htypes start place operands result hstart hcalls hoperates⟩

/-- A function that has the name of an operator gives the operator its own type. So a string with an integer
added to it is accepted. -/
theorem declared_operator_accepts_strings :
    let program : Program := [.function ⟨"PLUS", ["a", "b"], .lower "a"⟩,
      .function ⟨"Main", [], .binary .plus (.str "x") (.int 1)⟩]
    ∃ report final, check ⟨true, false⟩ program .initial = .ok report final ∧
      report.accepted = true ∧ ∃ start operands result, Infer.ChecksBody true program 1 start ∧
      Infer.Operates true start "PLUS" operands result ∧
      ∃ t ∈ operands, final.bindings.zonk t ≠ .int := by
  intro program
  obtain ⟨report, final, hcheck, hacyclic⟩ :=
    exists_check_eq_ok (s := .initial) Bindings.acyclic_empty false program
  have haccepted : (match check ⟨true, false⟩ program .initial with
      | .ok report _ => report.accepted
      | _ => false) = true := by decide +kernel
  rw [hcheck] at haccepted
  obtain ⟨start, place, Γ, hstart, hcalls, he, hinfers, _⟩ :=
    exists_infers_of_accepted (i := 1) hcheck haccepted rfl .here
  cases hcalls
  have hplus : start.expr.operator? = some "PLUS" := by
    rw [he]
    rfl
  obtain ⟨operands, result, ty, hoperates, _⟩ := hinfers.exists_operates hplus hacyclic.solvedBy_zonk
  refine ⟨report, final, hcheck, haccepted, start, operands, result, hstart, hoperates, ?_⟩
  obtain ⟨scope, e, s⟩ := start
  obtain rfl : e = .binary .plus (.str "x") (.int 1) := he
  generalize "PLUS" = operator at hoperates
  cases hoperates with
  | binary hleft _ _ =>
    cases hleft
    exact ⟨.string, List.mem_cons_self, by simp [Bindings.zonk_eq_subst, Ty.string, Ty.int, Ty.subst]⟩

end Checker

end Monotype
