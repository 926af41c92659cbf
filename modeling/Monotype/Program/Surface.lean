import Monotype.Program.Definition
import Monotype.Token.Basic

/-!
# `Monotype.Program.Surface` — surface notation

Surface notation is the text in which programs are written. It is produced as a list of pieces:
lexemes, and the blanks and line ends between them. The text is the concatenation of the pieces; the
lexemes alone are what a scanner would find in it.

Parentheses stand where an expression is looser than its place allows. Binary operators group to the
right, so only a left operand of the same precedence needs them. A case takes all branches that
follow it, so it stands without them only where nothing can follow.

## Contents
- **`Lexeme.spelling`**: the text that writes a lexeme.
- **`Piece`**: a lexeme or a blank.
- **`Expr.pieces`**, **`Definition.pieces`**, **`Program.pieces`**.
- **`Definition.surface`**, **`Program.surface`**: the text. **`Program.lexemes`**: the lexemes.
-/

namespace Monotype

/-- The text that writes a kind; nothing for the kinds that are written by their payload. -/
def Kind.spelling : Kind → String
  | plus => "+"
  | minus => "-"
  | divide => "/"
  | times => "*"
  | modulo => "%"
  | leftShift => "<<"
  | rightShift => ">>"
  | and => "and"
  | or => "or"
  | xor => "xor"
  | not => "!"
  | fn => "fn"
  | type => "type"
  | case => "case"
  | pattern => "|"
  | openCurly => "\x7b"
  | closeCurly => "\x7d"
  | openParen => "("
  | closeParen => ")"
  | comma => ","
  | arrow => "=>"
  | assign => "="
  | equal => "=="
  | notEqual => "!="
  | int | lowerName | upperName | literal => ""

/-- The text that writes a lexeme: its payload, or else the spelling of its kind. -/
def Lexeme.spelling (lexeme : Lexeme) : String :=
  match lexeme.payload with
  | some payload => payload.write
  | none => lexeme.kind.spelling

/-- A binary operator is written as the token of its kind is. -/
theorem BinaryOperator.spelling_kind (op : BinaryOperator) : op.kind.spelling = op.symbol := by
  cases op <;> rfl

/-- A unary operator is written as the token of its kind is. -/
theorem UnaryOperator.spelling_kind (op : UnaryOperator) : op.kind.spelling = op.symbol := by
  cases op; rfl

/-- What surface text is made of. -/
inductive Piece where
  | lexeme (value : Lexeme)
  | blank (text : String)
deriving DecidableEq, Repr

namespace Piece

/-- The text of a piece. -/
def text : Piece → String
  | lexeme l => l.spelling
  | blank text => text

/-- The lexeme of a piece. -/
def lexeme? : Piece → Option Lexeme
  | lexeme l => some l
  | blank _ => none

/-- One blank. -/
def space : Piece := blank " "

/-- A line end, and the indentation of the next line: two blanks for each level. -/
def newline (indent : Nat) : Piece := blank ("\n" ++ "".pushn ' ' (2 * indent))

/-- A lexeme that is nothing but its kind. -/
def bare (kind : Kind) : Piece := lexeme (.bare kind)

/-- A name that starts lower. -/
def lower (name : String) : Piece := lexeme (.text .lowerName name)

/-- A name that starts upper. -/
def upper (name : String) : Piece := lexeme (.text .upperName name)

/-- The pieces one after the other, each after one blank. -/
def spaced (pieces : List Piece) : List Piece := pieces.flatMap fun piece => [space, piece]

/-- Pieces, in parentheses where they are needed. -/
def parenthesized (needed : Bool) (pieces : List Piece) : List Piece :=
  if needed then bare .openParen :: pieces ++ [bare .closeParen] else pieces

/-- The text of pieces. -/
def textOf (pieces : List Piece) : String := String.join (pieces.map text)

/-- The lexemes among pieces. -/
def lexemesOf (pieces : List Piece) : List Lexeme := pieces.filterMap lexeme?

@[simp] theorem lexemesOf_nil : lexemesOf [] = [] := rfl

@[simp] theorem lexemesOf_append (left right : List Piece) :
    lexemesOf (left ++ right) = lexemesOf left ++ lexemesOf right := List.filterMap_append

@[simp] theorem lexemesOf_cons_lexeme (l : Lexeme) (others : List Piece) :
    lexemesOf (lexeme l :: others) = l :: lexemesOf others := rfl

@[simp] theorem lexemesOf_cons_blank (text : String) (others : List Piece) :
    lexemesOf (blank text :: others) = lexemesOf others := rfl

end Piece

/-- A pattern in surface notation. -/
def Pattern.pieces : Pattern → List Piece
  | var name => [.lower name]
  | constructor name params => .upper name :: Piece.spaced (params.map .lower)

mutual

/-- An expression in surface notation, in a place of some precedence on a line of some indentation. -/
def Expr.pieces (indent place : Nat) : Expr → List Piece
  | .int value => [.lexeme (.int value)]
  | .str text => [.lexeme (.text .literal text)]
  | .lower name => [.lower name]
  | .upper name => [.upper name]
  | .binary op left right =>
    Piece.parenthesized (op.precedence < place)
      (left.pieces indent (op.precedence + 1) ++ [.space, .bare op.kind, .space] ++
        right.pieces indent op.precedence)
  | .unary op operand =>
    Piece.parenthesized (Precedence.unary < place)
      (.bare op.kind :: operand.pieces indent Precedence.apply)
  | .apply function argument =>
    Piece.parenthesized (Precedence.apply < place)
      (function.pieces indent Precedence.apply ++ .space :: argument.pieces indent Precedence.atom)
  | .case scrutinee branches =>
    Piece.parenthesized (Precedence.body < place)
      (.bare .case :: .space :: scrutinee.pieces indent Precedence.loosest ++
        Branch.pieces (indent + 1) branches)

/-- Branches in surface notation, each on a line of its own. -/
def Branch.pieces (indent : Nat) : List Branch → List Piece
  | [] => []
  | ⟨pattern, body⟩ :: others =>
    (.newline indent :: .bare .pattern :: .space :: pattern.pieces) ++
      [.space, .bare .arrow, .space, .bare .openCurly, .space] ++
      body.pieces indent Precedence.body ++ [.space, .bare .closeCurly] ++
      Branch.pieces indent others

end

/-- A function in surface notation; a case as its body gets lines of its own. -/
def FunctionDefinition.pieces (definition : FunctionDefinition) : List Piece :=
  let header := .bare .fn :: .space :: .upper definition.name ::
    Piece.spaced (definition.params.map .lower) ++ [.space, .bare .openCurly]
  if definition.body.isCase then
    header ++ .newline 1 :: definition.body.pieces 1 Precedence.body ++
      [.newline 0, .bare .closeCurly]
  else
    header ++ .space :: definition.body.pieces 0 Precedence.body ++ [.space, .bare .closeCurly]

/-- A constructor in surface notation. -/
def Constructor.pieces (constructor : Constructor) : List Piece :=
  .upper constructor.name :: Piece.spaced (constructor.fields.map .upper)

/-- A type in surface notation. -/
def TypeDefinition.pieces (definition : TypeDefinition) : List Piece :=
  .bare .type :: .space :: .upper definition.name :: .space :: .bare .assign :: .space ::
    [.bare .comma, .space].intercalate (definition.constructors.map Constructor.pieces)

/-- A definition in surface notation. -/
def Definition.pieces : Definition → List Piece
  | function definition => definition.pieces
  | type definition => definition.pieces

namespace Program

/-- A program in surface notation, each definition from the start of a line. -/
def pieces (program : Program) : List Piece :=
  [.newline 0].intercalate (program.map Definition.pieces)

/-- The surface text of a program. -/
def surface (program : Program) : String := Piece.textOf (pieces program)

/-- The lexemes of a program's surface text. -/
def lexemes (program : Program) : List Lexeme := Piece.lexemesOf (pieces program)

end Program

/-- The surface text of a definition. -/
def Definition.surface (definition : Definition) : String := Piece.textOf definition.pieces

end Monotype
