import Monotype.Text.Blank
import Monotype.Text.Integer
import Monotype.Token.Basic

/-!
# `Monotype.Token.Record` — reading token records

A record is one line that writes one token: the name of its kind, and for the kinds that carry a
payload the payload in parentheses. Blanks around a record, around its kind and around an integer
are ignored; every other payload is kept as it stands.

## Contents
- **`RecordFault`** and **`RecordError`**: what is wrong with a record, and with which one.
- **`Record.lexeme`**: the lexeme that a record writes.
- **`Record.tokens`**: the tokens of a text of records.
-/

namespace Monotype

/-- What is wrong with a record. -/
inductive RecordFault where
  | unknownKind (text : String)
  | unterminated (record : String)
  | missingPayload (kind : Kind)
  | unexpectedPayload (kind : Kind)
  | invalidInteger (text : String)
deriving DecidableEq, Repr

/-- The fault in words. -/
def RecordFault.message : RecordFault → String
  | unknownKind text => "unknown token kind '" ++ text ++ "'"
  | unterminated record => "'" ++ record ++ "' is missing its closing ')'"
  | missingPayload kind => kind.name ++ " requires a payload"
  | unexpectedPayload kind => kind.name ++ " does not take a payload"
  | invalidInteger text => "'" ++ text ++ "' is not a valid integer"

/-- A fault, and the position of the record that has it. -/
structure RecordError where
  position : Nat
  fault : RecordFault
deriving DecidableEq, Repr

/-- The error in words. -/
def RecordError.message (error : RecordError) : String :=
  "record " ++ toString error.position ++ ": " ++ error.fault.message

namespace Record

open Text (trim)

/-- The kind of that exact name. -/
def kind (text : String) : Except RecordFault Kind :=
  match Kind.ofName? text with
  | some kind => .ok kind
  | none => .error (.unknownKind text)

/-- The payload that a kind takes from the text between the parentheses. -/
def payload (kind : Kind) (inner : List Char) : Except RecordFault Payload :=
  if kind = .int then
    match Text.Integer.parse? (trim inner) with
    | some value => .ok (.int value)
    | none => .error (.invalidInteger (String.ofList inner))
  else if kind.carriesPayload then .ok (.text (String.ofList inner))
  else .error (.unexpectedPayload kind)

/-- A text that ends in a closing parenthesis, without it. -/
def dropClosing? (text : List Char) : Option (List Char) :=
  if text.getLast? = some ')' then some text.dropLast else none

/-- The lexeme of a record without blanks around it. The first opening parenthesis ends the kind. -/
def trimmedLexeme (record : List Char) : Except RecordFault Lexeme :=
  match record.dropWhile (· ≠ '(') with
  | [] => do
    let kind ← kind (String.ofList record)
    if kind.carriesPayload then .error (.missingPayload kind) else .ok (.bare kind)
  | _ :: inside => do
    let kind ← kind (String.ofList (trim (record.takeWhile (· ≠ '('))))
    match dropClosing? inside with
    | none => .error (.unterminated (String.ofList record))
    | some inner => do
      let payload ← payload kind inner
      .ok ⟨kind, some payload⟩

/-- The lexeme that a record writes. -/
def lexeme (record : String) : Except RecordFault Lexeme := trimmedLexeme (trim record.toList)

/-- The token that the record at a position writes. -/
def token (record : String) (position : Nat) : Except RecordError Token :=
  match lexeme record with
  | .ok lexeme => .ok ⟨lexeme, position⟩
  | .error fault => .error ⟨position, fault⟩

/-- The records of a text: its lines, but for those that are blank. -/
def records (text : String) : List String :=
  ((Text.lines text.toList).filter fun line => !Text.allBlank line).map String.ofList

/-- The tokens of a text of records; the first record with a fault stops the reading. -/
def tokens (text : String) : Except RecordError (List Token) :=
  (records text).zipIdx.mapM fun entry => token entry.1 entry.2

end Record

end Monotype
