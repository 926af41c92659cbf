import Monotype.Token.Kind

/-!
# `Monotype.Program.Operator` — operators

An operator has a name, by which the environment knows its type, a symbol, by which it is written, and
a kind of token. Binary operators come in five levels of precedence; a higher one binds tighter.

## Contents
- **`BinaryOperator`**, **`UnaryOperator`**: the operators and their tables.
- **`BinaryOperator.ofKind?`**: the operator that a kind of token writes.
- **`BinaryOperator.ofLevel`**, **`BinaryOperator.atLevel?`**: the levels of the grammar.
- **`Precedence`**: the levels above those of the binary operators.
-/

namespace Monotype

/-- Operators with two operands. -/
inductive BinaryOperator where
  | plus
  | minus
  | times
  | divide
  | modulo
  | rightShift
  | leftShift
  | and
  | or
  | xor
  | equals
  | notEquals
deriving DecidableEq, Repr

namespace BinaryOperator

/-- Every binary operator once. -/
def all : List BinaryOperator :=
  [plus, minus, times, divide, modulo, rightShift, leftShift, and, or, xor, equals, notEquals]

/-- The name to which the environment binds the operator's type. -/
def name : BinaryOperator → String
  | plus => "PLUS"
  | minus => "MINUS"
  | times => "TIMES"
  | divide => "DIVIDE"
  | modulo => "MODULO"
  | rightShift => "RSHIFT"
  | leftShift => "LSHIFT"
  | and => "AND"
  | or => "OR"
  | xor => "XOR"
  | equals => "EQUALS"
  | notEquals => "NEQUALS"

/-- The symbol by which surface text writes the operator. -/
def symbol : BinaryOperator → String
  | plus => "+"
  | minus => "-"
  | times => "*"
  | divide => "/"
  | modulo => "%"
  | rightShift => ">>"
  | leftShift => "<<"
  | and => "and"
  | or => "or"
  | xor => "xor"
  | equals => "=="
  | notEquals => "!="

/-- How tight the operator binds, from 1 for the loosest to 5. -/
def precedence : BinaryOperator → Nat
  | equals | notEquals => 1
  | plus | minus | rightShift | leftShift => 2
  | times | divide | modulo => 3
  | or => 4
  | and | xor => 5

/-- The kind of token that writes the operator. -/
def kind : BinaryOperator → Kind
  | plus => .plus
  | minus => .minus
  | times => .times
  | divide => .divide
  | modulo => .modulo
  | rightShift => .rightShift
  | leftShift => .leftShift
  | and => .and
  | or => .or
  | xor => .xor
  | equals => .equal
  | notEquals => .notEqual

/-- The operator that a kind of token writes. -/
def ofKind? (kind : Kind) : Option BinaryOperator := all.find? fun op => op.kind == kind

/-- The operators that the grammar has at each of its levels, loosest first. -/
def ofLevel : Nat → List BinaryOperator
  | 1 => [equals, notEquals]
  | 2 => [plus, minus, rightShift, leftShift]
  | 3 => [times, divide, modulo]
  | 4 => [or]
  | 5 => [and, xor]
  | _ => []

/-- The operator of a level of the grammar that a kind of token writes. -/
def atLevel? (level : Nat) (kind : Kind) : Option BinaryOperator :=
  (ofLevel level).find? fun op => op.kind == kind

theorem mem_all (op : BinaryOperator) : op ∈ all := by cases op <;> decide

/-- An operator is told from the kind of token that writes it. -/
@[simp] theorem ofKind?_kind (op : BinaryOperator) : ofKind? op.kind = some op := by
  cases op <;> decide

theorem kind_injective {op op' : BinaryOperator} (h : op.kind = op'.kind) : op = op' :=
  Option.some.inj ((ofKind?_kind op).symm.trans ((congrArg ofKind? h).trans (ofKind?_kind op')))

/-- The levels of the grammar are those of precedence. -/
theorem mem_ofLevel_iff {level : Nat} {op : BinaryOperator} :
    op ∈ ofLevel level ↔ op.precedence = level := by
  constructor
  · intro h
    unfold ofLevel at h
    split at h <;> simp only [List.mem_cons, List.not_mem_nil, or_false] at h
    all_goals rcases h with rfl | rfl | rfl | rfl
    all_goals rfl
  · rintro rfl
    cases op <;> decide

/-- A kind of token writes an operator of a level if it writes it and that is its precedence. -/
theorem atLevel?_eq_some_iff {level : Nat} {kind : Kind} {op : BinaryOperator} :
    atLevel? level kind = some op ↔ op.kind = kind ∧ op.precedence = level := by
  constructor
  · intro h
    exact ⟨by simpa using List.find?_some h, mem_ofLevel_iff.mp (List.mem_of_find?_eq_some h)⟩
  · rintro ⟨rfl, hlevel⟩
    have hfound : ∃ op', atLevel? level op.kind = some op' := by
      rw [← Option.isSome_iff_exists, atLevel?, List.find?_isSome]
      exact ⟨op, mem_ofLevel_iff.mpr hlevel, beq_self_eq_true op.kind⟩
    obtain ⟨op', hop'⟩ := hfound
    have hkind : op'.kind = op.kind := by simpa using List.find?_some hop'
    rw [hop', kind_injective hkind]

/-- No operator is looser than the loosest level of the grammar, and none tighter than the tightest one. -/
theorem precedence_pos (op : BinaryOperator) : 1 ≤ op.precedence := by cases op <;> decide

theorem precedence_le (op : BinaryOperator) : op.precedence ≤ 5 := by cases op <;> decide

end BinaryOperator

/-- Operators with one operand. -/
inductive UnaryOperator where
  | not
deriving DecidableEq, Repr

namespace UnaryOperator

/-- Every unary operator once. -/
def all : List UnaryOperator := [not]

/-- The name to which the environment binds the operator's type. -/
def name : UnaryOperator → String
  | not => "NOT"

/-- The symbol by which surface text writes the operator. -/
def symbol : UnaryOperator → String
  | not => "!"

/-- The kind of token that writes the operator. -/
def kind : UnaryOperator → Kind
  | not => .not

end UnaryOperator

namespace Precedence

/-- A place where anything may stand without parentheses. -/
def body : Nat := 0

/-- The loosest binary operators; also the place of what a case examines. -/
def loosest : Nat := 1

/-- Unary operators. -/
def unary : Nat := 6

/-- Application, and its function. -/
def apply : Nat := 7

/-- What needs no parentheses anywhere; the place of an argument. -/
def atom : Nat := 8

end Precedence

end Monotype
