/-!
# `Monotype.Token.Kind` — the kinds of token

## Contents
- **`Kind`**: the twenty-eight kinds, in the order of `Kind.all`.
- **`Kind.name`** and **`Kind.ofName?`**: the written name of a kind, and the kind of a written name.
- **`Kind.carriesPayload`**: the kinds whose tokens say more than their kind.
-/

namespace Monotype

/-- The kinds of token. -/
inductive Kind where
  | plus
  | minus
  | divide
  | times
  | modulo
  | leftShift
  | rightShift
  | and
  | or
  | xor
  | not
  | int
  | fn
  | type
  | case
  | pattern
  | openCurly
  | closeCurly
  | openParen
  | closeParen
  | comma
  | arrow
  | assign
  | equal
  | notEqual
  | lowerName
  | upperName
  | literal
deriving DecidableEq, Repr

namespace Kind

/-- Every kind once. -/
def all : List Kind :=
  [plus, minus, divide, times, modulo, leftShift, rightShift, and, or, xor, not, int, fn, type,
    case, pattern, openCurly, closeCurly, openParen, closeParen, comma, arrow, assign, equal,
    notEqual, lowerName, upperName, literal]

/-- The name by which records and messages call a kind. -/
def name : Kind → String
  | plus => "PLUS"
  | minus => "MINUS"
  | divide => "DIVIDE"
  | times => "TIMES"
  | modulo => "MODULO"
  | leftShift => "LSHIFT"
  | rightShift => "RSHIFT"
  | and => "AND"
  | or => "OR"
  | xor => "XOR"
  | not => "NOT"
  | int => "INT"
  | fn => "FN"
  | type => "TYPE"
  | case => "CASE"
  | pattern => "PATTERN"
  | openCurly => "OCURLY"
  | closeCurly => "CCURLY"
  | openParen => "OPAR"
  | closeParen => "CPAR"
  | comma => "COMMA"
  | arrow => "ARROW"
  | assign => "ASSIGN"
  | equal => "EQUAL"
  | notEqual => "NEQUAL"
  | lowerName => "LID"
  | upperName => "UID"
  | literal => "LITERAL"

/-- The kind of that name; names are exact. -/
def ofName? (text : String) : Option Kind := all.find? fun kind => kind.name == text

/-- Integers, literals and names carry a payload. -/
def carriesPayload : Kind → Bool
  | int | literal | lowerName | upperName => true
  | _ => false

theorem mem_all (kind : Kind) : kind ∈ all := by cases kind <;> decide

/-- A kind is found by its own name. -/
@[simp] theorem ofName?_name (kind : Kind) : ofName? kind.name = some kind := by
  cases kind <;> decide

/-- What a name finds bears that name. -/
theorem name_of_ofName? {text : String} {kind : Kind} (h : ofName? text = some kind) :
    kind.name = text := by
  simpa using List.find?_some h

end Kind

end Monotype
