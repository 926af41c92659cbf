import Monotype.Token.Kind

/-!
# `Monotype.Token.Basic` — lexemes and tokens

## Contents
- **`Payload`**: what a token says beside its kind.
- **`Lexeme`**: a kind with its payload; `describe` writes it.
- **`Token`**: a lexeme at a position.
-/

namespace Monotype

/-- What a token says beside its kind: an integer, or a text kept as it was written. -/
inductive Payload where
  | int (value : Int)
  | text (value : String)
deriving DecidableEq, Repr

/-- The written form of a payload. -/
def Payload.write : Payload → String
  | int value => toString value
  | text value => value

/-- A kind with the payload that goes with it. -/
structure Lexeme where
  kind : Kind
  payload : Option Payload := none
deriving DecidableEq, Repr

namespace Lexeme

/-- An integer. -/
def int (value : Int) : Lexeme := ⟨.int, some (.int value)⟩

/-- A kind with a text. -/
def text (kind : Kind) (value : String) : Lexeme := ⟨kind, some (.text value)⟩

/-- A lexeme that is nothing but its kind. -/
def bare (kind : Kind) : Lexeme := ⟨kind, none⟩

/-- The text that a lexeme carries, if it carries one. -/
def text? (lexeme : Lexeme) : Option String :=
  match lexeme.payload with
  | some (.text value) => some value
  | _ => none

/-- The integer that a lexeme carries, if it carries one. -/
def int? (lexeme : Lexeme) : Option Int :=
  match lexeme.payload with
  | some (.int value) => some value
  | _ => none

/-- The kind, and the payload in parentheses. -/
def describe (lexeme : Lexeme) : String :=
  match lexeme.payload with
  | some payload => lexeme.kind.name ++ "(" ++ payload.write ++ ")"
  | none => lexeme.kind.name

end Lexeme

/-- A lexeme with its place among the records it was read from. -/
structure Token extends Lexeme where
  position : Nat := 0
deriving DecidableEq, Repr

namespace Token

/-- Lexemes as tokens, each with its index as position. -/
def number (lexemes : List Lexeme) : List Token :=
  lexemes.zipIdx.map fun entry => ⟨entry.1, entry.2⟩

end Token

end Monotype
