import Monotype.Parser.Cursor

/-!
# `Monotype.Parser.Error` — why a parser stops

## Contents
- **`ParseError`**: the three reasons, with their words.
- **`Cursor.unexpected`**: the error of a place where something else was expected.
-/

namespace Monotype

/-- Why a parser stops. -/
inductive ParseError where
  | endOfInput (expected : String)
  | unexpectedToken (expected : String) (found : Token)
  | leftover (found : Token) (remaining : Nat)
deriving DecidableEq, Repr

namespace ParseError

/-- The name of the kind of error. -/
def kind : ParseError → String
  | endOfInput _ => "InvalidEOFError"
  | unexpectedToken _ _ => "InvalidTokenError"
  | leftover _ _ => "TokensNotExhaustedError"

/-- A token and its position, as messages name them. -/
def place (found : Token) : String :=
  "unexpected token " ++ found.describe ++ " at record " ++ toString found.position

/-- The error in words. -/
def message : ParseError → String
  | endOfInput expected => "unexpected end of input: expected " ++ expected
  | unexpectedToken expected found => place found ++ ": expected " ++ expected
  | leftover found remaining =>
    place found ++ ": expected FN or TYPE (" ++ toString remaining ++ " tokens left over)"

end ParseError

/-- The error of a place where something else was expected. -/
def Cursor.unexpected (cursor : Cursor) (expected : String) : ParseError :=
  match cursor.peek? with
  | some token => .unexpectedToken expected token
  | none => .endOfInput expected

end Monotype
