import Monotype.Program.Surface
import Monotype.Proofs.Parsing.Acceptance

/-!
# `Monotype.Proofs.Parsing.Printing` — surface notation reads back

The lexemes of a program's surface notation are that program in the sense of the grammar. The places of
surface notation are parts of speech (`Phrase.inPlace`), and an expression of some precedence is a phrase
of every looser place; in a tighter one it stands in parentheses, which make an atom of it. A case is the
one expression that minds what follows it. It stands bare only where a closing brace does.

What cannot be written is a case without branches and a type without constructors. Nothing of the kind
is ever read.

## Contents
- **`Program.isWritable`**: every case has a branch and every type a constructor.
- **`Phrase.inPlace`**, **`Spans.loosenPlace`**, **`spans_parenthesized`**: places and parentheses.
- **`Expr.spans_pieces`**, **`Definition.spans_pieces`**, **`Program.spans_lexemes`**.
- **`Spans.isWritable`**: what can be read can be written.
- **`Program.readFrom_surface`**: writing and then reading changes nothing.
-/

namespace Monotype

/-! ## What can be written -/

mutual

/-- Every case in the expression has a branch. -/
def Expr.isWritable : Expr → Bool
  | .int _ | .str _ | .lower _ | .upper _ => true
  | .binary _ left right => left.isWritable && right.isWritable
  | .unary _ operand => operand.isWritable
  | .apply function argument => function.isWritable && argument.isWritable
  | .case scrutinee branches =>
    scrutinee.isWritable && (!branches.isEmpty && Branch.areWritable branches)

/-- Every case in the bodies has a branch. -/
def Branch.areWritable : List Branch → Bool
  | [] => true
  | ⟨_, body⟩ :: others => body.isWritable && Branch.areWritable others

end

theorem Branch.areWritable_cons (b : Branch) (bs : List Branch) :
    Branch.areWritable (b :: bs) = (b.body.isWritable && Branch.areWritable bs) := by
  cases b
  rfl

/-- Every case in a function has a branch; a type has a constructor. -/
def Definition.isWritable : Definition → Bool
  | function definition => definition.body.isWritable
  | type definition => !definition.constructors.isEmpty

/-- Every case has a branch and every type a constructor. -/
def Program.isWritable (program : Program) : Bool := program.all Definition.isWritable

namespace Phrase

/-! ## Places -/

/-- What an expression has to be in a place of some precedence. -/
def inPlace : Nat → Expr → Phrase
  | 0, e => level 1 e
  | 7, e => application e
  | 8, e => atom e
  | n, e => level n e

variable {k place : Nat} {e : Expr} {pieces : List Piece} {ts rest : List Lexeme}

/-- A place from the loosest one to that of a negation is a level. -/
theorem inPlace_level (hloosest : Precedence.loosest ≤ place) (hunary : place ≤ Precedence.unary) :
    inPlace place e = level place e := by
  unfold Precedence.loosest at hloosest
  unfold Precedence.unary at hunary
  unfold inPlace
  split
  · omega
  · omega
  · omega
  · rfl

namespace Spans

/-- What fits a place fits the next looser one. -/
theorem loosenStep (h : (inPlace (place + 1) e).Spans ts rest) (hplace : place + 1 ≤ Precedence.atom) :
    (inPlace place e).Spans ts rest := by
  match place, hplace with
  | 0, _ => exact h
  | 1, _ | 2, _ | 3, _ | 4, _ | 5, _ => exact .operand (by omega) h
  | 6, _ => exact .applied h
  | 7, _ =>
    have happlication : (Phrase.application (e.applyAll [])).Spans ts rest := .application h .noArgument
    exact happlication

/-- What fits a place fits every looser one. -/
theorem loosenPlace (h : (inPlace k e).Spans ts rest) (hplace : place ≤ k) (hk : k ≤ Precedence.atom) :
    (inPlace place e).Spans ts rest := by
  induction k with
  | zero =>
    obtain rfl : place = 0 := by omega
    exact h
  | succ k ih =>
    by_cases heq : place = k + 1
    · rw [heq]
      exact h
    · exact ih (h.loosenStep hk) (by omega) (by omega)

end Spans

/-- **Parentheses stand where they have to.** An expression of some precedence, in parentheses if its
place is tighter, fits the place. Only where it stands bare in a loosest place does it matter whether a
branch follows. -/
theorem spans_parenthesized (hk : k ≤ Precedence.atom) (hplace : place ≤ Precedence.atom)
    (hpieces : ∀ rest, (k = Precedence.body → nextKind? rest ≠ some .pattern) →
      (inPlace k e).Spans (Piece.lexemesOf pieces ++ rest) rest)
    (hrest : place = Precedence.body → nextKind? rest ≠ some .pattern) :
    (inPlace place e).Spans (Piece.lexemesOf (Piece.parenthesized (k < place) pieces) ++ rest) rest := by
  by_cases hneeded : k < place
  · have hclosing : nextKind? (Lexeme.bare .closeParen :: rest) ≠ some .pattern := by
      simp [Lexeme.bare]
    have hinner : (inPlace 0 e).Spans (Piece.lexemesOf pieces ++ .bare .closeParen :: rest)
        (.bare .closeParen :: rest) :=
      (hpieces _ fun _ => hclosing).loosenPlace (Nat.zero_le k) hk
    have hgroup : (inPlace Precedence.atom e).Spans (.bare .openParen ::
        (Piece.lexemesOf pieces ++ .bare .closeParen :: rest)) rest := .group rfl hinner rfl
    have hlexemes : Piece.lexemesOf (Piece.parenthesized (k < place) pieces) ++ rest =
        .bare .openParen :: (Piece.lexemesOf pieces ++ .bare .closeParen :: rest) := by
      simp [Piece.parenthesized, hneeded, Piece.bare]
    rw [hlexemes]
    exact hgroup.loosenPlace hplace (Nat.le_refl _)
  · have hlexemes : Piece.parenthesized (k < place) pieces = pieces := by
      simp [Piece.parenthesized, hneeded]
    rw [hlexemes]
    refine (hpieces rest fun hbody => hrest ?_).loosenPlace (Nat.le_of_not_lt hneeded) hk
    unfold Precedence.body at hbody ⊢
    omega

end Phrase

/-! ## Names and patterns -/

open Phrase

theorem Phrase.spans_names (kind : Kind) (ns : List String) (rest : List Lexeme) :
    (names kind ns).Spans (ns.map (Lexeme.text kind) ++ rest) rest := by
  induction ns with
  | nil => exact .noName
  | cons name ns ih => exact @Spans.name kind (.text kind name) ns _ rest rfl ih

@[simp] theorem Piece.lexemesOf_spaced (kind : Kind) (ns : List String) :
    lexemesOf (spaced (ns.map fun name => lexeme (.text kind name))) = ns.map (Lexeme.text kind) := by
  induction ns with
  | nil => rfl
  | cons name ns ih =>
    rw [List.map_cons, List.map_cons, ← ih]
    rfl

/-- **A pattern is printed as the grammar writes it.** -/
theorem Pattern.spans_pieces (p : Pattern) (rest : List Lexeme) :
    (Phrase.pattern p).Spans (Piece.lexemesOf p.pieces ++ rest) rest := by
  cases p with
  | var name => exact @Spans.var (.text .lowerName name) rest rfl
  | constructor name params =>
    have hlexemes : Piece.lexemesOf (Pattern.constructor name params).pieces =
        .text .upperName name :: params.map (Lexeme.text .lowerName) := by
      rw [← Piece.lexemesOf_spaced]
      rfl
    rw [hlexemes]
    exact @Spans.construct (.text .upperName name) params _ rest rfl (spans_names .lowerName params rest)

/-! ## Expressions -/

mutual

/-- **An expression fits the place for which it is written.** -/
theorem Expr.spans_pieces (indent place : Nat) (hplace : place ≤ Precedence.atom) (rest : List Lexeme)
    (hrest : place = Precedence.body → nextKind? rest ≠ some .pattern) :
    (e : Expr) → e.isWritable → (inPlace place e).Spans (Piece.lexemesOf (e.pieces indent place) ++ rest) rest
  | .int value, _ => by
    have hatom : (inPlace Precedence.atom (.int value)).Spans (.int value :: rest) rest :=
      @Spans.int (.int value) rest rfl
    exact hatom.loosenPlace hplace (Nat.le_refl _)
  | .str text, _ => by
    have hatom : (inPlace Precedence.atom (.str text)).Spans (.text .literal text :: rest) rest :=
      @Spans.str (.text .literal text) rest rfl
    exact hatom.loosenPlace hplace (Nat.le_refl _)
  | .lower name, _ => by
    have hatom : (inPlace Precedence.atom (.lower name)).Spans (.text .lowerName name :: rest) rest :=
      @Spans.lower (.text .lowerName name) rest rfl
    exact hatom.loosenPlace hplace (Nat.le_refl _)
  | .upper name, _ => by
    have hatom : (inPlace Precedence.atom (.upper name)).Spans (.text .upperName name :: rest) rest :=
      @Spans.upper (.text .upperName name) rest rfl
    exact hatom.loosenPlace hplace (Nat.le_refl _)
  | .binary op left right, h => by
    obtain ⟨hleft, hright⟩ := (Bool.and_eq_true _ _).mp h
    have hloosest : Precedence.loosest ≤ op.precedence := op.precedence_pos
    have htightest : op.precedence < Precedence.unary := Nat.lt_succ_of_le op.precedence_le
    have hatom : Precedence.unary ≤ Precedence.atom := by decide
    refine spans_parenthesized (by omega) hplace (fun rest _ => ?_) hrest
    -- a left operand of the same precedence would need parentheses, a right one does not
    have hspansRight := right.spans_pieces indent op.precedence (by omega) rest
      (fun hbody => absurd hloosest (by rw [hbody]; decide)) hright
    have hspansLeft := left.spans_pieces indent (op.precedence + 1) (by omega)
      (.bare op.kind :: (Piece.lexemesOf (right.pieces indent op.precedence) ++ rest))
      (fun hbody => absurd hbody (Nat.succ_ne_zero _)) hleft
    rw [inPlace_level hloosest (Nat.le_of_lt htightest)] at hspansRight ⊢
    rw [inPlace_level (Nat.le_succ_of_le hloosest) htightest] at hspansLeft
    simpa [Piece.bare, Piece.space] using Spans.binary rfl hspansLeft rfl hspansRight
  | .unary .not operand, h => by
    refine spans_parenthesized (by decide) hplace (fun rest _ => ?_) hrest
    have hoperand : (Phrase.application operand).Spans
        (Piece.lexemesOf (operand.pieces indent Precedence.apply) ++ rest) rest :=
      operand.spans_pieces indent Precedence.apply (by decide) rest (fun hbody => absurd hbody (by decide)) h
    exact @Spans.not (.bare .not) operand _ rest rfl hoperand
  | .apply function argument, h => by
    obtain ⟨hfunction, hargument⟩ := (Bool.and_eq_true _ _).mp h
    refine spans_parenthesized (by decide) hplace (fun rest _ => ?_) hrest
    have hspansArgument : (atom argument).Spans
        (Piece.lexemesOf (argument.pieces indent Precedence.atom) ++ rest) rest :=
      argument.spans_pieces indent Precedence.atom (by decide) rest (fun hbody => absurd hbody (by decide))
        hargument
    have hspansFunction : (Phrase.application function).Spans
        (Piece.lexemesOf (function.pieces indent Precedence.apply) ++
          (Piece.lexemesOf (argument.pieces indent Precedence.atom) ++ rest))
        (Piece.lexemesOf (argument.pieces indent Precedence.atom) ++ rest) :=
      function.spans_pieces indent Precedence.apply (by decide) _ (fun hbody => absurd hbody (by decide))
        hfunction
    show (Phrase.application (.apply function argument)).Spans _ rest
    simpa [Piece.space] using hspansFunction.apply hspansArgument
  | .case scrutinee bs, h => by
    obtain ⟨hscrutinee, hbranches⟩ := (Bool.and_eq_true _ _).mp h
    obtain ⟨hsome, hbodies⟩ := (Bool.and_eq_true _ _).mp hbranches
    have hnonempty : bs ≠ [] := by
      intro hnil
      rw [hnil] at hsome
      exact absurd hsome (by simp)
    refine spans_parenthesized (by decide) hplace (fun rest hlast => ?_) hrest
    have hspansBranches := Branch.spans_pieces (indent + 1) rest bs hbodies hnonempty
    have hspansScrutinee : (level 1 scrutinee).Spans
        (Piece.lexemesOf (scrutinee.pieces indent Precedence.loosest) ++
          (Piece.lexemesOf (Branch.pieces (indent + 1) bs) ++ rest))
        (Piece.lexemesOf (Branch.pieces (indent + 1) bs) ++ rest) :=
      scrutinee.spans_pieces indent Precedence.loosest (by decide) _ (fun hbody => absurd hbody (by decide))
        hscrutinee
    have hcase : (inPlace Precedence.atom (.case scrutinee bs)).Spans
        (.bare .case :: (Piece.lexemesOf (scrutinee.pieces indent Precedence.loosest) ++
          (Piece.lexemesOf (Branch.pieces (indent + 1) bs) ++ rest))) rest :=
      .case rfl hspansScrutinee hspansBranches (hlast rfl)
    have hbody : (inPlace Precedence.body (.case scrutinee bs)).Spans _ rest :=
      hcase.loosenPlace (by decide) (Nat.le_refl _)
    simpa [Piece.bare, Piece.space] using hbody

/-- Branches, each with a body in braces. -/
theorem Branch.spans_pieces (indent : Nat) (rest : List Lexeme) : (bs : List Branch) →
    Branch.areWritable bs → bs ≠ [] →
    (branches bs).Spans (Piece.lexemesOf (Branch.pieces indent bs) ++ rest) rest
  | [], _, hnonempty => absurd rfl hnonempty
  | ⟨p, body⟩ :: others, h, _ => by
    obtain ⟨hbody, hothers⟩ := (Bool.and_eq_true _ _).mp h
    have hbranch : ∀ mid, (branch ⟨p, body⟩).Spans (.bare .pattern :: (Piece.lexemesOf p.pieces ++
        .bare .arrow :: .bare .openCurly :: (Piece.lexemesOf (body.pieces indent Precedence.body) ++
          .bare .closeCurly :: mid))) mid := by
      intro mid
      have hspansBody : (level 1 body).Spans (Piece.lexemesOf (body.pieces indent Precedence.body) ++
          .bare .closeCurly :: mid) (.bare .closeCurly :: mid) :=
        body.spans_pieces indent Precedence.body (by decide) _ (fun _ => by simp [Lexeme.bare]) hbody
      exact .branch rfl (p.spans_pieces _) rfl rfl hspansBody rfl
    cases others with
    | nil => simpa [Branch.pieces, Piece.bare, Piece.space, Piece.newline] using
        Spans.lastBranch (hbranch rest)
    | cons b others =>
      have hmore := Branch.spans_pieces indent rest (b :: others) hothers (by simp)
      have hall := Spans.moreBranches (hbranch _) hmore
      rw [Branch.pieces]
      simpa [Piece.bare, Piece.space, Piece.newline] using hall

end

/-! ## Definitions and programs -/

theorem FunctionDefinition.spans_pieces (d : FunctionDefinition) (h : d.body.isWritable)
    (rest : List Lexeme) :
    (definition (.function d)).Spans (Piece.lexemesOf d.pieces ++ rest) rest := by
  -- the two layouts differ in blanks and in the indentation of the body
  have hspans : ∀ indent, (definition (.function d)).Spans
      (.bare .fn :: .text .upperName d.name :: (d.params.map (Lexeme.text .lowerName) ++
        .bare .openCurly :: (Piece.lexemesOf (d.body.pieces indent Precedence.body) ++
          .bare .closeCurly :: rest))) rest := by
    intro indent
    have hbody : (level 1 d.body).Spans (Piece.lexemesOf (d.body.pieces indent Precedence.body) ++
        .bare .closeCurly :: rest) (.bare .closeCurly :: rest) :=
      d.body.spans_pieces indent Precedence.body (by decide) _ (fun _ => by simp [Lexeme.bare]) h
    exact @Spans.function (.bare .fn) (.text .upperName d.name) (.bare .openCurly) (.bare .closeCurly)
      d.params d.body _ _ rest rfl rfl (spans_names .lowerName d.params _) rfl hbody rfl
  have hparams : Piece.lexemesOf (Piece.spaced (d.params.map .lower)) =
      d.params.map (Lexeme.text .lowerName) := Piece.lexemesOf_spaced .lowerName d.params
  unfold pieces
  by_cases hcase : d.body.isCase
  · rw [if_pos hcase]
    simpa [Piece.bare, Piece.space, Piece.newline, Piece.upper, hparams] using hspans 1
  · rw [if_neg hcase]
    simpa [Piece.bare, Piece.space, Piece.newline, Piece.upper, hparams] using hspans 0

theorem Constructor.spans_pieces (c : Constructor) (rest : List Lexeme) :
    (Phrase.constructor c).Spans (Piece.lexemesOf c.pieces ++ rest) rest := by
  have hfields : Piece.lexemesOf (Piece.spaced (c.fields.map .upper)) =
      c.fields.map (Lexeme.text .upperName) := Piece.lexemesOf_spaced .upperName c.fields
  have hspans : (Phrase.constructor c).Spans
      (.text .upperName c.name :: (c.fields.map (Lexeme.text .upperName) ++ rest)) rest :=
    @Spans.constructor (.text .upperName c.name) c.fields _ rest rfl (spans_names .upperName c.fields rest)
  simpa [pieces, Piece.upper, hfields] using hspans

/-- Constructors with commas between them. -/
theorem Constructor.spans_intercalate (c : Constructor) (cs : List Constructor) (rest : List Lexeme) :
    ∃ mid, (Phrase.constructor c).Spans (Piece.lexemesOf ([Piece.bare .comma, .space].intercalate
      ((c :: cs).map pieces)) ++ rest) mid ∧ (otherConstructors cs).Spans mid rest := by
  induction cs generalizing c with
  | nil => exact ⟨rest, by simpa using c.spans_pieces rest, .noConstructor⟩
  | cons c' cs ih =>
    obtain ⟨mid, hfirst, hothers⟩ := ih c'
    refine ⟨_, ?_, @Spans.nextConstructor (.bare .comma) c' cs _ mid rest rfl hfirst hothers⟩
    simpa [List.intercalate_cons_cons, Piece.bare, Piece.space] using c.spans_pieces (.bare .comma ::
      (Piece.lexemesOf ([Piece.bare .comma, .space].intercalate ((c' :: cs).map pieces)) ++ rest))

theorem TypeDefinition.spans_pieces (d : TypeDefinition) (h : d.constructors ≠ [])
    (rest : List Lexeme) :
    (definition (.type d)).Spans (Piece.lexemesOf d.pieces ++ rest) rest := by
  obtain ⟨name, cs⟩ := d
  cases cs with
  | nil => exact absurd rfl h
  | cons c cs =>
    obtain ⟨mid, hfirst, hothers⟩ := Constructor.spans_intercalate c cs rest
    have hspans : (definition (.type ⟨name, c :: cs⟩)).Spans
        (.bare .type :: .text .upperName name :: .bare .assign :: _) rest :=
      @Spans.type (.bare .type) (.text .upperName name) (.bare .assign) c cs _ mid rest rfl rfl rfl
        hfirst hothers
    simpa [pieces, Piece.bare, Piece.space, Piece.upper] using hspans

theorem Definition.spans_pieces (d : Definition) (h : d.isWritable) (rest : List Lexeme) :
    (Phrase.definition d).Spans (Piece.lexemesOf d.pieces ++ rest) rest := by
  cases d with
  | function d => exact d.spans_pieces h rest
  | type d =>
    refine d.spans_pieces (fun hnil => ?_) rest
    rw [Definition.isWritable, hnil] at h
    exact absurd h (by simp)

/-- **A program's surface notation is that program in the grammar.** -/
theorem Program.spans_lexemes (program : Program) (h : program.isWritable) (rest : List Lexeme) :
    (Phrase.program program).Spans (program.lexemes ++ rest) rest := by
  induction program with
  | nil => exact .noDefinition
  | cons d ds ih =>
    obtain ⟨hd, hds⟩ := (Bool.and_eq_true _ _).mp h
    have hspans := Spans.define (d.spans_pieces hd (Program.lexemes ds ++ rest)) (ih hds)
    cases ds with
    | nil => simpa [lexemes, pieces] using hspans
    | cons d' ds => simpa [lexemes, pieces, List.intercalate_cons_cons, Piece.newline] using hspans

/-! ## What is read can be written -/

/-- Every case in what a phrase says has a branch, and every type a constructor. -/
def Phrase.isWritable : Phrase → Bool
  | names _ _ | pattern _ | constructor _ | otherConstructors _ => true
  | branch b => b.body.isWritable
  | branches bs => !bs.isEmpty && Branch.areWritable bs
  | atom e | application e | level _ e => e.isWritable
  | arguments es => es.all Expr.isWritable
  | definition d => d.isWritable
  | program p => p.isWritable

theorem Expr.isWritable_applyAll {f : Expr} {es : List Expr} (hf : f.isWritable)
    (hes : es.all Expr.isWritable) : (f.applyAll es).isWritable := by
  induction es generalizing f with
  | nil => exact hf
  | cons e es ih =>
    obtain ⟨he, hes⟩ := (Bool.and_eq_true _ _).mp hes
    rw [applyAll_cons]
    exact ih ((Bool.and_eq_true _ _).mpr ⟨hf, he⟩) hes

/-- **What the grammar says can be written.** -/
theorem Phrase.Spans.isWritable {φ : Phrase} {ts rest : List Lexeme} (h : φ.Spans ts rest) :
    φ.isWritable := by
  induction h with
  | noName | name | var | construct | int | str | lower | upper | noArgument | constructor
  | noConstructor | nextConstructor | type | noDefinition => rfl
  | branch _ _ _ _ _ _ _ ih => exact ih
  | @lastBranch b _ _ _ ih =>
    have hbranch : b.body.isWritable = true := ih
    simp [Phrase.isWritable, Branch.areWritable_cons, Branch.areWritable, hbranch]
  | @moreBranches b bs _ _ _ _ _ ih ihs =>
    have hbranch : b.body.isWritable = true := ih
    have hothers : Branch.areWritable bs = true := ((Bool.and_eq_true _ _).mp ihs).2
    simp [Phrase.isWritable, Branch.areWritable_cons, hbranch, hothers]
  | case _ _ _ _ ihe ihs => exact (Bool.and_eq_true _ _).mpr ⟨ihe, ihs⟩
  | group _ _ _ ih => exact ih
  | argument _ _ ih ihs => exact (Bool.and_eq_true _ _).mpr ⟨ih, ihs⟩
  | application _ _ ih ihs => exact Expr.isWritable_applyAll ih ihs
  | not _ _ ih => exact ih
  | applied _ ih => exact ih
  | operand _ _ ih => exact ih
  | binary _ _ _ _ ihl ihr => exact (Bool.and_eq_true _ _).mpr ⟨ihl, ihr⟩
  | function _ _ _ _ _ _ _ ih => exact ih
  | define _ _ ih ihs => exact (Bool.and_eq_true _ _).mpr ⟨ih, ihs⟩

/-! ## Writing and reading -/

namespace Program

/-- **What is printed for a program is read as the program.** -/
theorem readFrom_lexemes {program : Program} (h : program.isWritable) {tokens : List Token}
    (htokens : tokens.map Token.toLexeme = program.lexemes) : ReadFrom program tokens := by
  have hspans := program.spans_lexemes h []
  rw [List.append_nil, ← htokens] at hspans
  exact readFrom_of_spans hspans

/-- Whatever is read can be written. -/
theorem isWritable_of_readFrom {program : Program} {tokens : List Token}
    (h : ReadFrom program tokens) : program.isWritable :=
  (spans_of_readFrom h).isWritable

/-- Programs that can be written are told apart by their surface notation. -/
theorem lexemes_injective {p p' : Program} (h : p.isWritable) (h' : p'.isWritable)
    (heq : p.lexemes = p'.lexemes) : p = p' := by
  have htokens : (Token.number p.lexemes).map Token.toLexeme = p.lexemes := by
    simp [Token.number, List.map_map, Function.comp_def]
  obtain ⟨c, hread⟩ := readFrom_lexemes h htokens
  obtain ⟨c', hread'⟩ := readFrom_lexemes h' (htokens.trans heq)
  rw [hread] at hread'
  cases hread'
  rfl

/-- **Surface notation reads back.** A program in which every case has a branch and every type a
constructor is read from the tokens of its surface notation, and only such programs are read from any
tokens. So writing what was read and reading it again changes nothing. -/
theorem readFrom_surface (program : Program) :
    (program.isWritable → ∀ tokens, tokens.map Token.toLexeme = program.lexemes →
      ReadFrom program tokens) ∧
    (∀ tokens, ReadFrom program tokens → program.isWritable) :=
  ⟨fun h _ htokens => readFrom_lexemes h htokens, fun _ h => isWritable_of_readFrom h⟩

/-- A case as a left operand, inside a branch of another case. -/
theorem readFrom_surface_nested_case :
    let program : Program :=
      [.type ⟨"Nat", [⟨"Zero", []⟩, ⟨"Succ", ["Nat"]⟩]⟩,
        .function ⟨"Size", ["x"], .case (.lower "x")
          [⟨.constructor "Zero" [], .int 0⟩,
            ⟨.constructor "Succ" ["y"], .binary .minus
              (.case (.lower "y") [⟨.var "z", .apply (.upper "Size") (.lower "z")⟩]) (.int (-1))⟩]⟩]
    let tokens := Token.number program.lexemes
    ReadFrom program tokens ∧ program.isWritable := by
  intro program tokens
  have hread : ReadFrom program tokens := (readFrom_surface program).1 rfl tokens rfl
  exact ⟨hread, (readFrom_surface program).2 tokens hread⟩

end Program

end Monotype
