import Monotype.Parser.Grammar

/-!
# `Monotype.Proofs.Parsing.Termination` — reading always ends

A repetition would go on for ever only by an item that takes no token, and an expression would be nested
without end only if one of them could begin where the one around it does. Neither happens: every item
takes a token, and every expression inside another one stands behind a token. So the budgets that the
definitions carry are never used up.

The statement is about cursors that have at most some number of tokens left (`Progresses n least p`): on
them the parser ends, and if it succeeds it has taken at least so many tokens. What comes after a first
token has fewer left, which is where the hypothesis about the expressions inside applies.

## Contents
- **`Progresses`**: a parser ends and takes tokens.
- **`Progresses.first`**, **`Progresses.andThen`**, **`Progresses.many`**, **`Progresses.chain`**.
- **`progresses_expressionWithin`**, **`progresses_program`**.
- **`Program.ofTokens_ends`**: reading a program ends.
-/

namespace Monotype

namespace Parser

/-- The outcome is an error, or a value after at least some number of tokens. -/
def Advances {α : Type} (least : Nat) (c : Cursor) : Outcome ParseError Cursor α → Prop
  | .ok _ c' => c'.remaining + least ≤ c.remaining
  | .error _ _ => True
  | .endless => False

/-- Wherever there are at most `n` tokens left, a parser ends, and takes some of them if it succeeds. -/
def Progresses {α : Type} (n least : Nat) (p : Parser α) : Prop :=
  ∀ c : Cursor, c.remaining ≤ n → Advances least c (p c)

section Combinators

variable {α β : Type} {n m k least least' : Nat} {p : Parser α} {f : α → Parser β}
  {starts : Kind → Bool} {item : Parser α} {c c' : Cursor} {o : Outcome ParseError Cursor α}
  {next : α → Cursor → Outcome ParseError Cursor β}

/-- What is taken after a place is taken after an earlier one, with what lies between them. -/
theorem Advances.later (h : Advances least c' o) (hc : c'.remaining + k ≤ c.remaining + least) :
    Advances k c o := by
  cases o with
  | ok a c₁ =>
    have hleast : c₁.remaining + least ≤ c'.remaining := h
    show c₁.remaining + k ≤ c.remaining
    omega
  | error e c₁ => trivial
  | endless => exact h

/-- A sequence takes what its second part takes, counted from where the first one began. -/
theorem Advances.bind (h : Advances least c o)
    (hnext : ∀ a c', c'.remaining + least ≤ c.remaining → Advances k c (next a c')) :
    Advances k c (o.bind next) := by
  cases o with
  | ok a c₁ => exact hnext a c₁ h
  | error e c₁ => trivial
  | endless => exact h

theorem Advances.ends (h : Advances least c o) : o.Ends := by
  cases o with
  | ok a c' => exact Outcome.ends_ok
  | error e c' => exact Outcome.ends_error
  | endless => exact h.elim

theorem Progresses.ends (h : Progresses n least p) (hc : c.remaining ≤ n) : (p c).Ends := (h c hc).ends

theorem Progresses.mono (h : Progresses n least p) (hm : m ≤ n) : Progresses m least p :=
  fun c hc => h c (Nat.le_trans hc hm)

/-- Taking a token is more than taking none. -/
theorem Progresses.weaken (h : Progresses n least p) : Progresses n 0 p :=
  fun c hc => (h c hc).later (by omega)

theorem progresses_pure (a : α) : Progresses n 0 (pure a : Parser α) :=
  fun _ _ => Nat.le_refl _

/-- **A token is taken where one is expected**, or none is and the parser fails. -/
theorem progresses_expect (kind : Kind) : Progresses n 1 (expect kind) := by
  intro c _
  obtain ⟨position, rest⟩ := c
  cases rest with
  | nil => trivial
  | cons token rest =>
    by_cases hkind : token.kind = kind
    · have hrun : expect kind ⟨position, token :: rest⟩ = .ok token ⟨position + 1, rest⟩ := by
        simp [expect, hkind]
      rw [hrun]
      exact Nat.le_refl _
    · have hrun : expect kind ⟨position, token :: rest⟩ =
          unexpected kind.name ⟨position, token :: rest⟩ := by
        simp [expect, hkind]
      rw [hrun]
      trivial

/-- A first part that takes a token; what follows has fewer of them left. -/
theorem Progresses.first (hp : Progresses n 1 p)
    (hf : ∀ a m, m < n → Progresses m least (f a)) : Progresses n 1 (p >>= f) := by
  intro c hc
  refine (hp c hc).bind fun a c₁ hfewer => ?_
  have hsecond := hf a c₁.remaining (by omega) c₁ (Nat.le_refl _)
  exact hsecond.later (by omega)

/-- One part after the other. -/
theorem Progresses.andThen (hp : Progresses n least p) (hf : ∀ a, Progresses n least' (f a)) :
    Progresses n 0 (p >>= f) := by
  intro c hc
  refine (hp c hc).bind fun a c₁ hle => ?_
  have hsecond := hf a c₁ (by omega)
  exact hsecond.later (by omega)

theorem progresses_expectText (kind : Kind) : Progresses n 1 (expectText kind) :=
  (progresses_expect kind).first fun _ _ _ => progresses_pure _

/-- A choice by the next token takes no token itself, so it does as well as each of the parsers to
choose from. -/
theorem Progresses.predict {expected : String} {select : Kind → Option (Parser α)}
    (hselect : ∀ kind chosen, select kind = some chosen → Progresses n least chosen) :
    Progresses n least (Parser.predict expected select) := by
  intro c hc
  rw [predict_apply]
  cases hchosen : c.peekKind?.bind select with
  | none => trivial
  | some chosen =>
    obtain ⟨kind, _, hkind⟩ := Option.bind_eq_some_iff.mp hchosen
    exact hselect kind chosen hkind c hc

/-- There are never more items than tokens. -/
theorem Progresses.manyWithin (hitem : Progresses n 1 item) {budget : Nat} (hm : m ≤ n)
    (hbudget : m < budget) : Progresses m 0 (Parser.manyWithin starts item budget) := by
  induction budget generalizing m with
  | zero => exact absurd hbudget (Nat.not_lt_zero m)
  | succ budget ih =>
    intro c hc
    rw [manyWithin_succ]
    by_cases hstarts : c.peekKind?.any starts
    · rw [if_pos hstarts]
      -- the item takes a token, and so what is left of the budget is enough for the tokens left
      have hmore : Progresses m 1 (item >>= fun a => Parser.manyWithin starts item budget >>=
          fun others => pure (a :: others)) :=
        (hitem.mono hm).first fun _ k hk =>
          (ih (by omega) (by omega)).andThen fun _ => progresses_pure _
      exact hmore.weaken c hc
    · rw [if_neg hstarts]
      exact Nat.le_refl _

/-- **A repetition ends if each of its items takes a token.** It may have no items, and so it need not
take any. -/
theorem Progresses.many (hitem : Progresses n 1 item) : Progresses n 0 (Parser.many starts item) :=
  fun c hc => hitem.manyWithin hc (Nat.lt_succ_self _) c (Nat.le_refl _)

end Combinators

/-! ## Names, constructors and patterns -/

section Productions

variable {n least : Nat}

theorem progresses_names (kind : Kind) : Progresses n 0 (names kind) :=
  (progresses_expectText kind).many

/-- A constructor starts with its own name, which takes a token. -/
theorem progresses_constructor (kind : Kind) : Progresses n 1 (constructor kind) :=
  (progresses_expectText .upperName).first fun _ _ _ =>
    (progresses_names kind).andThen fun _ => progresses_pure _

/-- A pattern is a name, or starts with one. -/
theorem progresses_pattern : Progresses n 1 pattern := by
  refine .predict ?_
  intro kind chosen hkind
  match kind, hkind with
  | .lowerName, rfl => exact (progresses_expectText .lowerName).first fun _ _ _ => progresses_pure _
  | .upperName, rfl =>
    exact (progresses_constructor .lowerName).first fun _ _ _ => progresses_pure _

/-! ## Expressions over a parser for the expressions inside -/

variable {nested : Parser Expr} (hnested : ∀ m, m < n → Progresses m 1 nested)

include hnested

/-- A branch starts with its bar; the body stands behind it, and so has fewer tokens. -/
theorem progresses_branchOver : Progresses n 1 (branchOver nested) :=
  (progresses_expect .pattern).first fun _ m hm =>
    progresses_pattern.andThen fun _ =>
    (progresses_expect .arrow).andThen fun _ =>
    (progresses_expect .openCurly).andThen fun _ =>
    (hnested m hm).andThen fun _ =>
    (progresses_expect .closeCurly).andThen fun _ => progresses_pure _

theorem progresses_branchesOver : Progresses n 1 (branchesOver nested) := by
  have hbranch : Progresses n 1 (branchOver nested) := progresses_branchOver hnested
  exact hbranch.first fun _ _ hm =>
    (hbranch.mono (Nat.le_of_lt hm)).many.andThen fun _ => progresses_pure _

theorem progresses_caseOver : Progresses n 1 (caseOver nested) := by
  have hbranches : Progresses n 1 (branchesOver nested) := progresses_branchesOver hnested
  exact (progresses_expect .case).first fun _ m hm => (hnested m hm).andThen fun _ =>
    (hbranches.mono (Nat.le_of_lt hm)).andThen fun _ => progresses_pure _

theorem progresses_groupOver : Progresses n 1 (groupOver nested) :=
  (progresses_expect .openParen).first fun _ m hm => (hnested m hm).andThen fun _ =>
    (progresses_expect .closeParen).andThen fun _ => progresses_pure _

/-- **An atom takes a token before it comes to an expression inside of it**, whichever kind of atom it
is. -/
theorem progresses_atomOver : Progresses n 1 (atomOver nested) := by
  refine .predict ?_
  intro kind chosen hkind
  match kind, hkind with
  | .int, rfl =>
    have hint : Progresses n 1 expectInt := (progresses_expect .int).first fun _ _ _ => progresses_pure _
    exact hint.first fun _ _ _ => progresses_pure _
  | .literal, rfl => exact (progresses_expectText .literal).first fun _ _ _ => progresses_pure _
  | .lowerName, rfl => exact (progresses_expectText .lowerName).first fun _ _ _ => progresses_pure _
  | .upperName, rfl => exact (progresses_expectText .upperName).first fun _ _ _ => progresses_pure _
  | .case, rfl => exact progresses_caseOver hnested
  | .openParen, rfl => exact progresses_groupOver hnested

/-- An application starts with an atom, and each argument is one. -/
theorem progresses_applicationOver : Progresses n 1 (applicationOver nested) := by
  have hatom : Progresses n 1 (atomOver nested) := progresses_atomOver hnested
  exact hatom.first fun _ _ hm =>
    (hatom.mono (Nat.le_of_lt hm)).many.andThen fun _ => progresses_pure _

/-- A negation takes its operator first; without one this is an application. -/
theorem progresses_unaryOver : Progresses n 1 (unaryOver nested) := by
  intro c hc
  rw [unaryOver_apply]
  by_cases hnot : c.peekKind? = some .not
  · rw [if_pos hnot]
    have hnegated : Progresses n 1 (expect .not >>= fun _ => applicationOver nested >>= fun e =>
        pure (Expr.unary .not e)) :=
      (progresses_expect .not).first fun _ _ hm =>
        ((progresses_applicationOver hnested).mono (Nat.le_of_lt hm)).andThen fun _ => progresses_pure _
    exact hnegated c hc
  · rw [if_neg hnot]
    exact progresses_applicationOver hnested c hc

end Productions

/-! ## Levels -/

section Levels

variable {n m level : Nat} {operand : Parser Expr}

/-- What comes after a left operand is nothing, or an operator and then a right operand with fewer
tokens. -/
theorem Progresses.afterOperand {right : Parser Expr}
    (hright : ∀ m, m < n → Progresses m 1 right) (left : Expr) :
    Progresses n 0 (Parser.afterOperand level right left) := by
  intro c hc
  unfold Parser.afterOperand
  cases c.peekKind?.bind (BinaryOperator.atLevel? level) with
  | none => exact Nat.le_refl _
  | some op =>
    have hoperator : Progresses n 1 (expect op.kind >>= fun _ => right >>= fun e =>
        pure (Expr.binary op left e)) :=
      (progresses_expect op.kind).first fun _ m hm => (hright m hm).andThen fun _ => progresses_pure _
    exact hoperator.weaken c hc

/-- There are never more operands than tokens. -/
theorem Progresses.chainWithin (hoperand : Progresses n 1 operand) {budget : Nat} (hm : m ≤ n)
    (hbudget : m < budget) :
    Progresses m 1 (Parser.chainWithin (BinaryOperator.atLevel? level) operand budget) := by
  induction budget generalizing m with
  | zero => exact absurd hbudget (Nat.not_lt_zero m)
  | succ budget ih =>
    rw [chainWithin_succ]
    exact (hoperand.mono hm).first fun left k hk =>
      Progresses.afterOperand (fun j hj => ih (by omega) (by omega)) left

theorem Progresses.chain (hoperand : Progresses n 1 operand) :
    Progresses n 1 (Parser.chain (BinaryOperator.atLevel? level) operand) :=
  fun c hc => hoperand.chainWithin hc (Nat.lt_succ_self _) c (Nat.le_refl _)

/-- The levels of operators over operands that take a token: induction on the levels, none of which
takes a token before its operand does. -/
theorem Progresses.levelsOver (hoperand : Progresses n 1 operand) (levels : List Nat) :
    Progresses n 1 (Parser.levelsOver operand levels) := by
  induction levels with
  | nil => exact hoperand
  | cons level levels ih => exact ih.chain

end Levels

/-! ## Expressions, definitions and programs -/

/-- Expressions are never nested deeper than there are tokens. -/
theorem progresses_expressionWithin {n depth : Nat} (hdepth : n < depth) :
    Progresses n 1 (expressionWithin depth) := by
  induction depth generalizing n with
  | zero => exact absurd hdepth (Nat.not_lt_zero n)
  | succ depth ih =>
    have hunary : Progresses n 1 (unaryOver (expressionWithin depth)) :=
      progresses_unaryOver fun m hm => ih (by omega)
    exact hunary.levelsOver levels

/-- **Every expression takes a token, and ends.** The depth that it may have is that of the tokens left. -/
theorem progresses_expression {n : Nat} : Progresses n 1 expression :=
  fun c _ => progresses_expressionWithin (Nat.lt_succ_self _) c (Nat.le_refl _)

theorem progresses_function {n : Nat} : Progresses n 1 function :=
  (progresses_expectText .upperName).first fun _ _ _ =>
    (progresses_names .lowerName).andThen fun _ =>
    (progresses_expect .openCurly).andThen fun _ =>
    progresses_expression.andThen fun _ =>
    (progresses_expect .closeCurly).andThen fun _ => progresses_pure _

theorem progresses_member {n : Nat} : Progresses n 1 member :=
  (progresses_constructor .upperName).first fun _ _ _ => progresses_pure _

/-- A type starts with its name; each member after the first one stands behind a comma. -/
theorem progresses_type {n : Nat} : Progresses n 1 type := by
  have hnext : ∀ {m}, Progresses m 1 (expect .comma *> member) :=
    (progresses_expect .comma).first fun _ _ _ => progresses_member
  have hmembers : ∀ {m}, Progresses m 1 (separated1 member .comma) :=
    progresses_member.first fun _ _ _ => hnext.many.andThen fun _ => progresses_pure _
  exact (progresses_expectText .upperName).first fun _ _ _ =>
    (progresses_expect .assign).andThen fun _ => hmembers.andThen fun _ => progresses_pure _

/-- A definition is known by its keyword, which is taken before the definition is read. -/
theorem progresses_definition {n : Nat} : Progresses n 1 definition := by
  refine .predict ?_
  intro kind chosen hkind
  match kind, hkind with
  | .fn, rfl => exact (progresses_expect .fn).first fun _ _ _ => progresses_function
  | .type, rfl => exact (progresses_expect .type).first fun _ _ _ => progresses_type

/-- A program is any number of definitions, and each of them takes a token. -/
theorem progresses_program {n : Nat} : Progresses n 0 program := progresses_definition.many

theorem program_ends (c : Cursor) : (program c).Ends := progresses_program.ends (Nat.le_refl _)

end Parser

/-- Reading a program is reading definitions, and then seeing that nothing is left. -/
theorem Program.ofTokens_eq (tokens : List Token) :
    ofTokens tokens = (Parser.program (.ofTokens tokens)).bind fun definitions c =>
      match c.peek? with
      | some token => .error (.leftover token c.remaining) c
      | none => .ok definitions c := by
  simp only [ofTokens, Parser.wholeProgram, Run.run_bind, Run.run_get, Outcome.bind_ok]
  congr 1
  funext definitions c
  cases c.peek? <;> rfl

/-- **Reading a program ends**, whatever the tokens are. -/
theorem Program.ofTokens_ends (tokens : List Token) : (ofTokens tokens).Ends := by
  have hends := Parser.program_ends (.ofTokens tokens)
  rw [Outcome.ends_iff] at hends
  rw [ofTokens_eq]
  cases hprogram : Parser.program (.ofTokens tokens) with
  | ok definitions c =>
    rw [Outcome.bind_ok]
    cases c.peek? with
    | none => exact Outcome.ends_ok
    | some token => exact Outcome.ends_error
  | error e c => exact Outcome.ends_error
  | endless => exact absurd hprogram hends

end Monotype
