import Monotype.Outcome
import Monotype.Parser.Error

/-!
# `Monotype.Parser.Combinators` — parsers and their combination

A parser decides by the kind of the next token alone, takes tokens from the front and never gives one
back: when it fails, the tokens it took stay taken.

A repetition goes on for as long as the next token starts another item. It could go on for ever only
by an item that takes no token, and each item that takes one leaves fewer; so a repetition that is
still going on after more items than there were tokens never ends.

## Contents
- **`Parser`**, **`peekKind?`**, **`unexpected`**.
- **`expect`**, **`expectText`**, **`expectInt`**: one token.
- **`pair`**, **`predict`**, **`many`**, **`many1`**, **`separated1`**.
- **Equations.** What choices and repetitions do where they stand.
-/

namespace Monotype

/-- A parser takes tokens from where it stands. -/
abbrev Parser (α : Type) : Type := Run ParseError Cursor α

namespace Parser

variable {α β : Type}

/-- The kind of the next token. -/
def peekKind? : Parser (Option Kind) := do return (← get).peekKind?

/-- Fail, in view of what stands next. -/
def unexpected (expected : String) : Parser α := fun cursor =>
  .error (cursor.unexpected expected) cursor

/-- Take the next token, whatever it is. -/
def skipToken : Parser Unit := modify Cursor.advance

/-- One token of a kind. -/
def expect (kind : Kind) : Parser Token := fun cursor =>
  match cursor.peek? with
  | some token =>
    if token.kind = kind then .ok token cursor.advance else unexpected kind.name cursor
  | none => unexpected kind.name cursor

/-- The text of one token of a kind; the empty text if it carries none. -/
def expectText (kind : Kind) : Parser String := do
  let token ← expect kind
  return token.text?.getD ""

/-- The value of one integer; zero if it carries none. -/
def expectInt : Parser Int := do
  let token ← expect .int
  return token.int?.getD 0

/-- One parser after the other, with both values. -/
def pair (first : Parser α) (second : Parser β) : Parser (α × β) := do
  let a ← first
  let b ← second
  return (a, b)

/-- The parser that the kind of the next token selects. -/
def predict (expected : String) (select : Kind → Option (Parser α)) : Parser α := do
  match (← peekKind?).bind select with
  | some chosen => chosen
  | none => unexpected expected

/-- Items for as long as the next token starts one, but no more than a number of them. -/
def manyWithin (starts : Kind → Bool) (item : Parser α) : Nat → Parser (List α)
  | 0 => Run.endless
  | budget + 1 => do
    if (← peekKind?).any starts then
      let first ← item
      let others ← manyWithin starts item budget
      return first :: others
    else
      return []

/-- Items for as long as the next token starts one. -/
def many (starts : Kind → Bool) (item : Parser α) : Parser (List α) := fun cursor =>
  manyWithin starts item (cursor.remaining + 1) cursor

/-- One item, and more for as long as the next token starts one. -/
def many1 (starts : Kind → Bool) (item : Parser α) : Parser (List α) := do
  let first ← item
  let others ← many starts item
  return first :: others

/-- One item, and another one after each separator. -/
def separated1 (item : Parser α) (separator : Kind) : Parser (List α) := do
  let first ← item
  let others ← many (· = separator) (expect separator *> item)
  return first :: others

/-! ## Equations -/

theorem predict_apply (expected : String) (select : Kind → Option (Parser α)) (c : Cursor) :
    predict expected select c = match c.peekKind?.bind select with
      | some chosen => chosen c
      | none => unexpected expected c := by
  simp only [predict, peekKind?, Run.run_bind, Run.run_get, Outcome.bind_ok, Run.run_pure]
  cases c.peekKind?.bind select <;> rfl

theorem manyWithin_succ (starts : Kind → Bool) (item : Parser α) (budget : Nat) (c : Cursor) :
    manyWithin starts item (budget + 1) c =
      if c.peekKind?.any starts then
        (item >>= fun a => manyWithin starts item budget >>= fun others => pure (a :: others)) c
      else .ok [] c := by
  simp only [manyWithin, peekKind?, Run.run_bind, Run.run_get, Outcome.bind_ok, Run.run_pure]
  split <;> rfl

/-- A token that is seen to be of a kind can be taken as one. -/
theorem skipToken_eq_expect {next : Parser β} {kind : Kind} {c : Cursor}
    (h : c.peekKind? = some kind) :
    (skipToken >>= fun _ => next) c = (expect kind >>= fun _ => next) c := by
  obtain ⟨position, rest⟩ := c
  cases rest with
  | nil => exact absurd h (by simp)
  | cons token rest =>
    obtain rfl : token.kind = kind := Option.some.inj h
    simp [skipToken, expect]

end Parser

end Monotype
