import Monotype.Proofs.Parsing.Lookahead
import Monotype.Proofs.Parsing.Termination

/-!
# `Monotype.Proofs.Parsing.Productions` — the productions of the grammar

The productions, as parsers that stand for themselves: the expressions inside a branch, a case or an atom are
expressions, and the levels are those that `expression` goes through. What is true of every one of them is
collected here.

The two bounds that tie the knot, on the depth of nesting and on the length of a chain, are large enough
and so make no difference. The levels therefore satisfy the equations by which the grammar defines them:
the loosest one is an expression (`expression_eq`), and each one is a tighter operand, with what comes
after it (`level_eq`).

## Contents
- **`level`**, **`Production`**: the productions.
- **`Production.predictive`**, **`Production.ends`**: all of them look one token ahead and end.
- **`expression_eq`**, **`level_eq`**: the levels.
-/

namespace Monotype

namespace Parser

/-! ## Levels -/

/-- The expressions of one level and the tighter ones: from 1, for all expressions, to 6, for what stands
between binary operators. -/
def level (n : Nat) : Parser Expr := levelsOver unary (levels.drop (n - 1))

variable {n : Nat}

theorem level_eq_chain (hn : n ∈ levels) :
    level n = chain (BinaryOperator.atLevel? n) (level (n + 1)) := by
  simp only [levels, List.mem_cons, List.not_mem_nil, or_false] at hn
  rcases hn with rfl | rfl | rfl | rfl | rfl <;> rfl

theorem predictive_level (n : Nat) : Predictive (level n) (level n) :=
  (predictive_unaryOver predictive_expression).levelsOver _

theorem progresses_level {bound : Nat} (n : Nat) : Progresses bound 1 (level n) := by
  have hunary : Progresses bound 1 unary := progresses_unaryOver fun _ _ => progresses_expression
  exact hunary.levelsOver _

/-- Every expression within a bound on its depth is one without it. -/
theorem predictive_expressionWithin_level (depth : Nat) :
    Predictive (expressionWithin depth) (level 1) := by
  cases depth with
  | zero => exact .endless _
  | succ depth =>
    have hnested : Predictive (expressionWithin depth) expression :=
      .budgets (fun _ => predictive_expressionWithin depth) (fun _ => 0) fun c => c.remaining + 1
    exact (predictive_unaryOver hnested).levelsOver levels

/-- The loosest level is that of all expressions. -/
theorem expression_eq : expression = level 1 := by
  funext c
  have hlevel : Predictive (expressionWithin (c.remaining + 1)) (level 1) :=
    predictive_expressionWithin_level _
  exact (hlevel.eq_of_ends (progresses_expression.ends (Nat.le_refl _))
    ((progresses_level 1).ends (Nat.le_refl _))).symm

/-- What comes after a left operand is decided by the next token. -/
theorem afterOperand_eq (n : Nat) (right : Parser Expr) (left : Expr) :
    afterOperand n right left = peekKind? >>= fun next =>
      match next.bind (BinaryOperator.atLevel? n) with
      | none => pure left
      | some op => expect op.kind >>= fun _ => right >>= fun e => pure (.binary op left e) := by
  funext c
  simp only [afterOperand, peekKind?, Run.run_bind, Run.run_get, Outcome.bind_ok, Run.run_pure]
  cases c.peekKind?.bind (BinaryOperator.atLevel? n) <;> rfl

theorem predictive_afterOperand {right right' : Parser Expr} (h : Predictive right right') (n : Nat)
    (left : Expr) : Predictive (afterOperand n right left) (afterOperand n right' left) := by
  rw [afterOperand_eq, afterOperand_eq]
  refine predictive_peekKind?.bind fun next => ?_
  cases next.bind (BinaryOperator.atLevel? n) with
  | none => exact predictive_pure left
  | some op => exact (predictive_expect op.kind).bind fun _ => h.map _

/-- An expression of a level is a tighter one, and an operator of the level with a right operand of the
same level after it, if there is one. -/
theorem level_eq (hn : n ∈ levels) : level n = level (n + 1) >>= afterOperand n (level n) := by
  funext c
  have hchain : ∀ budget, Predictive (chainWithin (BinaryOperator.atLevel? n) (level (n + 1)) budget)
      (level n) := by
    intro budget
    rw [level_eq_chain hn]
    exact .budgets (fun _ => (predictive_level (n + 1)).chainWithin budget) (fun _ => 0)
      fun c => c.remaining + 1
  have hunfold : level n c = chainWithin (BinaryOperator.atLevel? n) (level (n + 1)) (c.remaining + 1) c := by
    rw [level_eq_chain hn]
    rfl
  have hstep : Progresses c.remaining 0 (level (n + 1) >>= afterOperand n (level n)) :=
    (progresses_level (n + 1)).andThen fun left =>
      Progresses.afterOperand (fun _ _ => progresses_level n) left
  have hpredictive := (predictive_level (n + 1)).bind fun left =>
    predictive_afterOperand (hchain c.remaining) n left
  have hends : (level n c).Ends := (progresses_level n).ends (Nat.le_refl _)
  rw [hunfold, chainWithin_succ] at hends ⊢
  exact (hpredictive.eq_of_ends hends (hstep.ends (Nat.le_refl _))).symm

/-! ## Productions -/

/-- The productions of the grammar. -/
inductive Production : {α : Type} → Parser α → Prop
  | names (kind : Kind) : Production (names kind)
  | constructor (kind : Kind) : Production (constructor kind)
  | pattern : Production pattern
  | branch : Production branch
  | branches : Production (branchesOver expression)
  | case : Production (caseOver expression)
  | group : Production (groupOver expression)
  | atom : Production (atomOver expression)
  | application : Production (applicationOver expression)
  | level (n : Nat) : Production (level n)
  | expression : Production expression
  | function : Production function
  | member : Production member
  | type : Production type
  | definition : Production definition
  | program : Production program

variable {α : Type} {p : Parser α}

/-- **Every production looks one token ahead.** -/
theorem Production.predictive (h : Production p) : Predictive p p := by
  have hnested := predictive_expression
  cases h with
  | names kind => exact predictive_names kind
  | constructor kind => exact predictive_constructor kind
  | pattern => exact predictive_pattern
  | branch => exact predictive_branchOver hnested
  | branches => exact predictive_branchesOver hnested
  | case => exact predictive_caseOver hnested
  | group => exact predictive_groupOver hnested
  | atom => exact predictive_atomOver hnested
  | application => exact predictive_applicationOver hnested
  | level n => exact predictive_level n
  | expression => exact hnested
  | function => exact predictive_function
  | member => exact predictive_member
  | type => exact predictive_type
  | definition => exact predictive_definition
  | program => exact predictive_program

/-- Every production ends, and most of them take a token. -/
theorem Production.progresses (h : Production p) {bound : Nat} : Progresses bound 0 p := by
  have hnested : ∀ m, m < bound → Progresses m 1 Parser.expression := fun _ _ => progresses_expression
  cases h with
  | names kind => exact progresses_names kind
  | constructor kind => exact (progresses_constructor kind).weaken
  | pattern => exact progresses_pattern.weaken
  | branch => exact (progresses_branchOver hnested).weaken
  | branches => exact (progresses_branchesOver hnested).weaken
  | case => exact (progresses_caseOver hnested).weaken
  | group => exact (progresses_groupOver hnested).weaken
  | atom => exact (progresses_atomOver hnested).weaken
  | application => exact (progresses_applicationOver hnested).weaken
  | level n => exact (progresses_level n).weaken
  | expression => exact progresses_expression.weaken
  | function => exact progresses_function.weaken
  | member => exact progresses_member.weaken
  | type => exact progresses_type.weaken
  | definition => exact progresses_definition.weaken
  | program => exact progresses_program

/-- **Every production ends**, wherever it starts. -/
theorem Production.ends (h : Production p) (c : Cursor) : (p c).Ends :=
  h.progresses.ends (Nat.le_refl _)

end Parser

end Monotype
