import Monotype.Token.Basic

/-!
# `Monotype.Parser.Cursor` — where a parser stands

## Contents
- **`Cursor`**: the tokens that are left, and how many have been taken.
- **`Cursor.peek?`**, **`Cursor.advance`**: looking at the next token, and taking it.
-/

namespace Monotype

/-- Where a parser stands: the number of tokens it has taken, and those that are left. -/
structure Cursor where
  position : Nat := 0
  rest : List Token
deriving DecidableEq, Repr

namespace Cursor

/-- At the start of a list of tokens. -/
def ofTokens (tokens : List Token) : Cursor := ⟨0, tokens⟩

/-- The next token. -/
def peek? (cursor : Cursor) : Option Token := cursor.rest.head?

/-- The kind of the next token. -/
def peekKind? (cursor : Cursor) : Option Kind := cursor.peek?.map fun token => token.kind

/-- The next token is of that kind. -/
def nextIs (cursor : Cursor) (kind : Kind) : Bool := cursor.peekKind? == some kind

/-- The number of tokens that are left. -/
def remaining (cursor : Cursor) : Nat := cursor.rest.length

/-- There is a next token. -/
def hasNext (cursor : Cursor) : Bool := !cursor.rest.isEmpty

/-- Past the next token, if there is one. -/
def advance (cursor : Cursor) : Cursor :=
  match cursor.rest with
  | [] => cursor
  | _ :: rest => ⟨cursor.position + 1, rest⟩

@[simp] theorem peek?_nil {position : Nat} : peek? ⟨position, []⟩ = none := rfl

@[simp] theorem peek?_cons {position : Nat} {token : Token} {rest : List Token} :
    peek? ⟨position, token :: rest⟩ = some token := rfl

@[simp] theorem peekKind?_nil {position : Nat} : peekKind? ⟨position, []⟩ = none := rfl

@[simp] theorem peekKind?_cons {position : Nat} {token : Token} {rest : List Token} :
    peekKind? ⟨position, token :: rest⟩ = some token.kind := rfl

@[simp] theorem advance_nil {position : Nat} : advance ⟨position, []⟩ = ⟨position, []⟩ := rfl

@[simp] theorem advance_cons {position : Nat} {token : Token} {rest : List Token} :
    advance ⟨position, token :: rest⟩ = ⟨position + 1, rest⟩ := rfl

end Cursor

end Monotype
