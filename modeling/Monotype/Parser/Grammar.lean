import Monotype.Parser.Combinators
import Monotype.Program.Definition

/-!
# `Monotype.Parser.Grammar` — the grammar

```text
program     := definition*
definition  := FN function | TYPE type
function    := UID LID* OCURLY expression CCURLY
type        := UID ASSIGN constructor (COMMA constructor)*
constructor := UID UID*
expression  := level 1
level n     := level (n + 1) (operator-n level n)?      for n = 1 … 5
level 6     := NOT application | application
application := atom atom*
atom        := INT | LITERAL | LID | UID | case | OPAR expression CPAR
case        := CASE expression branch branch*
branch      := PATTERN pattern ARROW OCURLY expression CCURLY
pattern     := LID | UID LID*
```

All binary operators group to the right and application to the left. A case takes every branch that
follows it.

An expression inside another one always stands after a token that the outer one has taken. So the
productions are written over a parser for the expressions inside (`nested`), and the knot is tied by
a depth that the number of tokens bounds.

## Contents
- **`names`**, **`constructor`**, **`pattern`**, **`branch`**, **`branches`**.
- **`atomOver`**, **`applicationOver`**, **`unaryOver`**, **`levelsOver`**, **`expression`**, **`unary`**.
- **`function`**, **`type`**, **`definition`**, **`program`**.
- **`Program.ofCursor`**, **`Program.ofTokens`**: whole programs.
-/

namespace Monotype

namespace Parser

/-! ## Names, constructors and patterns -/

/-- The names that follow, of one kind. -/
def names (kind : Kind) : Parser (List String) := many (· = kind) (expectText kind)

/-- A name that starts upper, and the names of one kind that follow it. -/
def constructor (kind : Kind) : Parser (String × List String) :=
  pair (expectText .upperName) (names kind)

/-- A pattern. -/
def pattern : Parser Pattern :=
  predict "a pattern" fun
    | .lowerName => some do return .var (← expectText .lowerName)
    | .upperName => some do
      let (name, params) ← constructor .lowerName
      return .constructor name params
    | _ => none

/-! ## Expressions over a parser for the expressions inside -/

/-- A branch of a case. -/
def branchOver (nested : Parser Expr) : Parser Branch := do
  let _ ← expect .pattern
  let pattern ← pattern
  let _ ← expect .arrow
  let _ ← expect .openCurly
  let body ← nested
  let _ ← expect .closeCurly
  return ⟨pattern, body⟩

/-- The branches of a case: at least one. -/
def branchesOver (nested : Parser Expr) : Parser (List Branch) :=
  many1 (· = .pattern) (branchOver nested)

/-- A case. -/
def caseOver (nested : Parser Expr) : Parser Expr := do
  let _ ← expect .case
  let scrutinee ← nested
  let branches ← branchesOver nested
  return .case scrutinee branches

/-- An expression in parentheses. -/
def groupOver (nested : Parser Expr) : Parser Expr := do
  let _ ← expect .openParen
  let inner ← nested
  let _ ← expect .closeParen
  return inner

/-- The kinds of token that start an atom. -/
def startsAtom : Kind → Bool
  | .int | .literal | .lowerName | .upperName | .case | .openParen => true
  | _ => false

/-- A literal, a name, a case or an expression in parentheses. -/
def atomOver (nested : Parser Expr) : Parser Expr :=
  predict "a function or a value" fun
    | .int => some do return .int (← expectInt)
    | .literal => some do return .str (← expectText .literal)
    | .lowerName => some do return .lower (← expectText .lowerName)
    | .upperName => some do return .upper (← expectText .upperName)
    | .case => some (caseOver nested)
    | .openParen => some (groupOver nested)
    | _ => none

/-- An atom applied to the atoms that follow. -/
def applicationOver (nested : Parser Expr) : Parser Expr := do
  let function ← atomOver nested
  let arguments ← many startsAtom (atomOver nested)
  return function.applyAll arguments

/-- An application, or the negation of one. -/
def unaryOver (nested : Parser Expr) : Parser Expr := do
  if (← peekKind?) = some .not then
    skipToken
    return .unary .not (← applicationOver nested)
  else
    applicationOver nested

/-- Operands with operators of one level between them, but no more than a number of operands. -/
def chainWithin (operator : Kind → Option BinaryOperator) (operand : Parser Expr) :
    Nat → Parser Expr
  | 0 => Run.endless
  | budget + 1 => do
    let left ← operand
    match (← peekKind?).bind operator with
    | none => return left
    | some op =>
      skipToken
      let right ← chainWithin operator operand budget
      return .binary op left right

/-- Operands with operators of one level between them, grouped to the right. -/
def chain (operator : Kind → Option BinaryOperator) (operand : Parser Expr) : Parser Expr :=
  fun cursor => chainWithin operator operand (cursor.remaining + 1) cursor

/-- The levels of the binary operators, loosest first. -/
def levels : List Nat := [1, 2, 3, 4, 5]

/-- An expression whose operators are of the given levels, over tighter operands. -/
def levelsOver (operand : Parser Expr) (levels : List Nat) : Parser Expr :=
  levels.foldr (fun level tighter => chain (BinaryOperator.atLevel? level) tighter) operand

theorem unaryOver_apply (nested : Parser Expr) (c : Cursor) :
    unaryOver nested c =
      if c.peekKind? = some .not then
        (expect .not >>= fun _ => applicationOver nested >>= fun e => pure (Expr.unary .not e)) c
      else applicationOver nested c := by
  by_cases hnot : c.peekKind? = some .not
  · rw [if_pos hnot, ← skipToken_eq_expect hnot]
    simp [unaryOver, peekKind?, hnot]
  · rw [if_neg hnot]
    simp [unaryOver, peekKind?, hnot]

/-- What comes after a left operand: nothing, or an operator of a level and a right operand. -/
def afterOperand (level : Nat) (operand : Parser Expr) (left : Expr) : Parser Expr := fun c =>
  match c.peekKind?.bind (BinaryOperator.atLevel? level) with
  | none => .ok left c
  | some op => (expect op.kind >>= fun _ => operand >>= fun right => pure (.binary op left right)) c

theorem chainWithin_succ (level : Nat) (operand : Parser Expr) (budget : Nat) :
    chainWithin (BinaryOperator.atLevel? level) operand (budget + 1) =
      operand >>= afterOperand level (chainWithin (BinaryOperator.atLevel? level) operand budget) := by
  funext c
  simp only [chainWithin, peekKind?, Run.run_bind, Run.run_get, Outcome.bind_ok, Run.run_pure]
  congr 1
  funext left c₁
  cases hop : c₁.peekKind?.bind (BinaryOperator.atLevel? level) with
  | none => simp [afterOperand, hop]
  | some op =>
    obtain ⟨kind, hkind, hatLevel⟩ := Option.bind_eq_some_iff.mp hop
    obtain ⟨rfl, _⟩ := BinaryOperator.atLevel?_eq_some_iff.mp hatLevel
    have hskip : ∀ next : Parser Expr,
        (skipToken >>= fun _ => next) c₁ = (expect op.kind >>= fun _ => next) c₁ :=
      fun _ => skipToken_eq_expect hkind
    simpa [afterOperand, hop] using hskip (chainWithin (BinaryOperator.atLevel? level) operand budget >>=
      fun right => pure (.binary op left right))

/-- What every level inherits from the next tighter one holds of the loosest one. -/
theorem levelsOver_induction {P : Nat → Parser Expr → Prop} {operand : Parser Expr}
    (hoperand : P 6 operand)
    (hchain : ∀ n tighter, n < 6 → P (n + 1) tighter → P n (chain (BinaryOperator.atLevel? n) tighter)) :
    P 1 (levelsOver operand levels) := by
  have h5 := hchain 5 _ (by omega) hoperand
  have h4 := hchain 4 _ (by omega) h5
  have h3 := hchain 3 _ (by omega) h4
  have h2 := hchain 2 _ (by omega) h3
  exact hchain 1 _ (by omega) h2

/-! ## Expressions -/

/-- An expression in which expressions are nested less deep than a bound. -/
def expressionWithin : Nat → Parser Expr
  | 0 => Run.endless
  | depth + 1 => levelsOver (unaryOver (expressionWithin depth)) levels

/-- An expression. -/
def expression : Parser Expr := fun cursor => expressionWithin (cursor.remaining + 1) cursor

/-- An application, or the negation of one: what stands between binary operators. -/
def unary : Parser Expr := unaryOver expression

/-- A branch of a case. -/
def branch : Parser Branch := branchOver expression

/-! ## Definitions -/

/-- A function, after its keyword. -/
def function : Parser Definition := do
  let name ← expectText .upperName
  let params ← names .lowerName
  let _ ← expect .openCurly
  let body ← expression
  let _ ← expect .closeCurly
  return .function ⟨name, params, body⟩

/-- A constructor of a type. -/
def member : Parser Constructor := do
  let (name, fields) ← constructor .upperName
  return ⟨name, fields⟩

/-- A type, after its keyword. -/
def type : Parser Definition := do
  let name ← expectText .upperName
  let _ ← expect .assign
  let constructors ← separated1 member .comma
  return .type ⟨name, constructors⟩

/-- A definition. -/
def definition : Parser Definition :=
  predict "FN or TYPE" fun
    | .fn => some (expect .fn *> function)
    | .type => some (expect .type *> type)
    | _ => none

/-- The kinds of token that start a definition. -/
def startsDefinition : Kind → Bool
  | .fn | .type => true
  | _ => false

/-- The definitions that follow. -/
def program : Parser Program := many startsDefinition definition

/-- A program that takes all tokens. -/
def wholeProgram : Parser Program := do
  let definitions ← program
  let cursor ← get
  match cursor.peek? with
  | some token => Run.fail (.leftover token cursor.remaining)
  | none => return definitions

end Parser

/-- The program that all of the tokens write. -/
def Program.ofTokens (tokens : List Token) : Outcome ParseError Cursor Program :=
  Parser.wholeProgram (.ofTokens tokens)

end Monotype
