import Mathlib.Algebra.Ring.Nat
import Mathlib.Order.Bounds.Defs
import Monotype.Proofs.Parsing.Printing

/-!
# `Monotype.Proofs.Parsing.Parentheses` — no needless parentheses

Surface notation puts an expression in parentheses where its place is too tight for it. Each of these pairs
is needed: whatever tokens are read as a program, they contain at least as many opening parentheses.

How many pairs an expression needs in a place can be counted on the expression alone (`Expr.pairs`). A
phrase of the grammar has at least the pairs that what it says needs, by induction on the grammar: a pair
pays for a place that is looser inside than outside, and no other rule makes a place looser
(`Spans.pairs_le`). Surface notation has exactly as many, but for a case that does not stand alone. Such a
case always gets a pair, and sometimes another way of writing does without, since the grammar lets a case
stand as an atom; a case that is all of a body needs none.

## Contents
- **`openings`**: the opening parentheses among lexemes.
- **`Expr.pairs`**: the pairs that an expression needs in a place.
- **`Phrase.pairs`**, **`Spans.pairs_le`**: every way to write a phrase has the pairs that it needs.
- **`Expr.hasNoCase`**, **`Program.casesAreBodies`**: where cases stand.
- **`Expr.openings_pieces`**, **`Program.openings_lexemes`**: surface notation has no more.
- **`Program.openings_lexemes_isLeast`**: the two together.
-/

namespace Monotype

/-! ## Counting -/

/-- The number of opening parentheses among lexemes. -/
def openings (ts : List Lexeme) : Nat := ts.countP fun l => l.kind = .openParen

section Openings

variable {l : Lexeme} {kind : Kind} {ts us : List Lexeme}

@[simp] theorem openings_append : openings (ts ++ us) = openings ts + openings us := List.countP_append

/-- A lexeme that opens nothing adds nothing. -/
theorem openings_cons (hl : l.kind ≠ .openParen) : openings (l :: ts) = openings ts :=
  List.countP_cons_of_neg (by simpa using hl)

theorem openings_bare (hkind : kind ≠ .openParen) : openings (.bare kind :: ts) = openings ts :=
  openings_cons hkind

theorem openings_text (hkind : kind ≠ .openParen) (text : String) :
    openings (.text kind text :: ts) = openings ts := openings_cons hkind

theorem openings_cons_openParen (hl : l.kind = .openParen) : openings (l :: ts) = openings ts + 1 :=
  List.countP_cons_of_pos (by simpa using hl)

theorem openings_le_cons : openings ts ≤ openings (l :: ts) :=
  (List.sublist_cons_self l ts).countP_le

end Openings

/-- One pair, if what is of some precedence stands in a tighter place. -/
def pairIn (place precedence : Nat) : Nat := if precedence < place then 1 else 0

/-- A tighter place needs no fewer parentheses. -/
theorem pairIn_mono {place place' : Nat} (h : place ≤ place') (precedence : Nat) :
    pairIn place precedence ≤ pairIn place' precedence := by
  unfold pairIn
  by_cases hneeded : precedence < place
  · have htighter : precedence < place' := Nat.lt_of_lt_of_le hneeded h
    simp [hneeded, htighter]
  · simp [hneeded]

/-- No place needs more than one pair. -/
theorem pairIn_le_one (place precedence : Nat) : pairIn place precedence ≤ 1 := by
  unfold pairIn
  split <;> decide

@[simp] theorem pairIn_self (place : Nat) : pairIn place place = 0 := if_neg (Nat.lt_irrefl place)

mutual

/-- The number of pairs of parentheses that an expression needs in a place of some precedence: one for
each place that is too tight for what stands there. A case needs none anywhere. -/
def Expr.pairs (place : Nat) : Expr → Nat
  | .int _ | .str _ | .lower _ | .upper _ => 0
  | .binary op left right =>
    pairIn place op.precedence + (left.pairs (op.precedence + 1) + right.pairs op.precedence)
  | .unary _ operand => pairIn place Precedence.unary + operand.pairs Precedence.apply
  | .apply function argument =>
    pairIn place Precedence.apply + (function.pairs Precedence.apply + argument.pairs Precedence.atom)
  | .case scrutinee branches => scrutinee.pairs Precedence.loosest + Branch.pairs branches

/-- The number of pairs that the bodies of branches need. -/
def Branch.pairs : List Branch → Nat
  | [] => 0
  | ⟨_, body⟩ :: others => body.pairs Precedence.body + Branch.pairs others

end

theorem Branch.pairs_cons (b : Branch) (bs : List Branch) :
    Branch.pairs (b :: bs) = b.body.pairs Precedence.body + Branch.pairs bs := by
  cases b
  rfl

namespace Expr

variable {e f : Expr} {es : List Expr} {place place' : Nat}

/-- A tighter place needs no fewer pairs. -/
theorem pairs_mono (h : place ≤ place') : e.pairs place ≤ e.pairs place' := by
  cases e with
  | int | str | lower | upper | case => exact Nat.le_refl _
  | binary | unary | apply => exact Nat.add_le_add_right (pairIn_mono h _) _

/-- One pair makes room for the expression in any place. -/
theorem pairs_le_succ (place place' : Nat) : e.pairs place ≤ e.pairs place' + 1 := by
  have hone : ∀ precedence inner,
      pairIn place precedence + inner ≤ pairIn place' precedence + inner + 1 := by
    intro precedence inner
    have hpair := pairIn_le_one place precedence
    omega
  cases e with
  | int | str | lower | upper | case => exact Nat.le_succ _
  | binary | unary | apply => exact hone _ _

/-- Each argument needs its own pairs, and those of the function are needed in its place. -/
theorem pairs_applyAll_le :
    (f.applyAll es).pairs Precedence.apply ≤
      f.pairs Precedence.apply + (es.map (pairs Precedence.atom)).sum := by
  induction es generalizing f with
  | nil => simp
  | cons e es ih =>
    have hothers := ih (f := .apply f e)
    have happly : (Expr.apply f e).pairs Precedence.apply =
        f.pairs Precedence.apply + e.pairs Precedence.atom := by
      simp [pairs]
    rw [applyAll_cons, List.map_cons, List.sum_cons]
    omega

end Expr

/-- The number of pairs that the bodies of a definition need. -/
def Definition.pairs : Definition → Nat
  | function definition => definition.body.pairs Precedence.body
  | type _ => 0

/-- The number of pairs that the bodies of a program need. -/
def Program.pairs (program : Program) : Nat := (program.map Definition.pairs).sum

/-! ## Every way to write a phrase -/

/-- The number of pairs that what a phrase says needs in the place of the phrase. -/
def Phrase.pairs : Phrase → Nat
  | names _ _ | pattern _ | constructor _ | otherConstructors _ => 0
  | branch b => b.body.pairs Precedence.body
  | branches bs => Branch.pairs bs
  | atom e => e.pairs Precedence.atom
  | arguments es => (es.map (Expr.pairs Precedence.atom)).sum
  | application e => e.pairs Precedence.apply
  | level n e => e.pairs n
  | definition d => d.pairs
  | program p => p.pairs

/-- **No way of writing does with fewer pairs.** What a phrase takes has at least the opening parentheses
that are needed. -/
theorem Phrase.Spans.pairs_le {φ : Phrase} {ts rest : List Lexeme} (h : φ.Spans ts rest) :
    φ.pairs + openings rest ≤ openings ts := by
  induction h with
  | noName | noArgument | noConstructor | noDefinition => simp [Phrase.pairs, Program.pairs]
  | name _ _ ih | construct _ _ ih | constructor _ _ ih => exact Nat.le_trans ih openings_le_cons
  | var | int | str | lower | upper =>
    simp only [Phrase.pairs, Expr.pairs, Nat.zero_add]
    exact openings_le_cons
  | @branch bar arrow opening closing p e ts body rest _ _ _ _ _ _ ihp ihe =>
    simp only [Phrase.pairs, Nat.zero_add] at ihp ihe ⊢
    calc e.pairs Precedence.body + openings rest
        ≤ e.pairs 1 + openings (closing :: rest) :=
          Nat.add_le_add (Expr.pairs_mono (Nat.zero_le _)) openings_le_cons
      _ ≤ openings body := ihe
      _ ≤ openings (arrow :: opening :: body) := Nat.le_trans openings_le_cons openings_le_cons
      _ ≤ openings (bar :: ts) := Nat.le_trans ihp openings_le_cons
  | lastBranch _ ih => simpa [Phrase.pairs, Branch.pairs_cons, Branch.pairs] using ih
  | moreBranches _ _ ih ihs =>
    simp only [Phrase.pairs, Branch.pairs_cons] at ih ihs ⊢
    omega
  | @case l e bs ts mid rest _ _ _ _ ihe ihs =>
    have hkeyword : openings ts ≤ openings (l :: ts) := openings_le_cons
    simp only [Phrase.pairs, Expr.pairs, Precedence.loosest] at ihe ihs ⊢
    omega
  | @group opening closing e ts rest hopening _ _ ih =>
    -- the pair pays for the place that is looser inside
    have hpair : e.pairs Precedence.atom ≤ e.pairs 1 + 1 := Expr.pairs_le_succ _ _
    have hclosing : openings rest ≤ openings (closing :: rest) := openings_le_cons
    rw [openings_cons_openParen hopening]
    simp only [Phrase.pairs] at ih ⊢
    omega
  | argument _ _ ih ihs =>
    simp only [Phrase.pairs, List.map_cons, List.sum_cons] at ih ihs ⊢
    omega
  | @application e es ts mid rest _ _ ih ihs =>
    have hall : (e.applyAll es).pairs Precedence.apply ≤ _ := Expr.pairs_applyAll_le
    have hfunction : e.pairs Precedence.apply ≤ e.pairs Precedence.atom := Expr.pairs_mono (by decide)
    simp only [Phrase.pairs] at ih ihs ⊢
    omega
  | @not l e ts rest _ _ ih =>
    have hunary : (Expr.unary .not e).pairs 6 = e.pairs Precedence.apply := by
      simp [Expr.pairs, Precedence.unary]
    simp only [Phrase.pairs] at ih ⊢
    rw [hunary]
    exact Nat.le_trans ih openings_le_cons
  | @applied e ts rest _ ih =>
    have hlooser : e.pairs 6 ≤ e.pairs Precedence.apply := Expr.pairs_mono (by decide)
    exact Nat.le_trans (Nat.add_le_add_right hlooser _) ih
  | @operand n e ts rest _ _ ih =>
    have hlooser : e.pairs n ≤ e.pairs (n + 1) := Expr.pairs_mono (Nat.le_succ n)
    exact Nat.le_trans (Nat.add_le_add_right hlooser _) ih
  | @binary n op l left right ts mid rest hop _ _ _ ihl ihr =>
    subst hop
    have hoperator : openings mid ≤ openings (l :: mid) := openings_le_cons
    simp only [Phrase.pairs, Expr.pairs, pairIn_self, Nat.zero_add] at ihl ihr ⊢
    omega
  | @nextConstructor comma c cs ts mid rest _ _ _ ih ihs =>
    simp only [Phrase.pairs, Nat.zero_add] at ih ihs ⊢
    exact Nat.le_trans ihs (Nat.le_trans ih openings_le_cons)
  | @function keyword name opening closing params e ts body rest _ _ _ _ _ _ ihp ihe =>
    simp only [Phrase.pairs, Definition.pairs, Nat.zero_add] at ihp ihe ⊢
    calc e.pairs Precedence.body + openings rest
        ≤ e.pairs 1 + openings (closing :: rest) :=
          Nat.add_le_add (Expr.pairs_mono (Nat.zero_le _)) openings_le_cons
      _ ≤ openings body := ihe
      _ ≤ openings (opening :: body) := openings_le_cons
      _ ≤ openings (keyword :: name :: ts) :=
          Nat.le_trans ihp (Nat.le_trans openings_le_cons openings_le_cons)
  | @type keyword name assign c cs ts mid rest _ _ _ _ _ ih ihs =>
    simp only [Phrase.pairs, Definition.pairs, Nat.zero_add] at ih ihs ⊢
    calc openings rest ≤ openings mid := ihs
      _ ≤ openings ts := ih
      _ ≤ openings (assign :: ts) := openings_le_cons
      _ ≤ openings (keyword :: name :: assign :: ts) := Nat.le_trans openings_le_cons openings_le_cons
  | define _ _ ih ihs =>
    simp only [Phrase.pairs, Program.pairs, List.map_cons, List.sum_cons] at ih ihs ⊢
    omega

/-! ## Where cases stand -/

/-- No case occurs in the expression. -/
def Expr.hasNoCase : Expr → Bool
  | .int _ | .str _ | .lower _ | .upper _ => true
  | .binary _ left right => left.hasNoCase && right.hasNoCase
  | .unary _ operand => operand.hasNoCase
  | .apply function argument => function.hasNoCase && argument.hasNoCase
  | .case _ _ => false

mutual

/-- In a body, a case occurs only as all of it, or as all of the body of a branch. -/
def Expr.casesAreBodies : Expr → Bool
  | .case scrutinee branches => scrutinee.hasNoCase && Branch.casesAreBodies branches
  | .int _ | .str _ | .lower _ | .upper _ => true
  | .binary op left right => (Expr.binary op left right).hasNoCase
  | .unary op operand => (Expr.unary op operand).hasNoCase
  | .apply function argument => (Expr.apply function argument).hasNoCase

/-- A case occurs only as all of the body of a branch. -/
def Branch.casesAreBodies : List Branch → Bool
  | [] => true
  | ⟨_, body⟩ :: others => body.casesAreBodies && Branch.casesAreBodies others

end

/-- A case occurs only as all of the body of the function, or of a branch. -/
def Definition.casesAreBodies : Definition → Bool
  | function definition => definition.body.casesAreBodies
  | type _ => true

/-- A case occurs only as all of the body of a function or of a branch. -/
def Program.casesAreBodies (program : Program) : Bool := program.all Definition.casesAreBodies

/-! ## Surface notation -/

open Piece

/-- **Surface notation writes one pair where one is needed**, and none elsewhere. -/
theorem openings_parenthesized (place precedence : Nat) (pieces : List Piece) :
    openings (lexemesOf (parenthesized (precedence < place) pieces)) =
      pairIn place precedence + openings (lexemesOf pieces) := by
  unfold pairIn parenthesized
  by_cases hneeded : precedence < place
  · have hopening : ∀ ts, openings (.bare .openParen :: ts) = 1 + openings ts := by
      intro ts
      rw [openings_cons_openParen rfl, Nat.add_comm]
    have hclosing : openings [.bare .closeParen] = 0 := rfl
    simp [hneeded, Piece.bare, hopening, hclosing]
  · simp [hneeded]

/-- Names have no parentheses. -/
theorem openings_spaced {kind : Kind} (hkind : kind ≠ .openParen) (ns : List String) :
    openings (lexemesOf (spaced (ns.map fun name => .lexeme (.text kind name)))) = 0 := by
  rw [lexemesOf_spaced]
  refine List.countP_eq_zero.mpr fun l hl => ?_
  obtain ⟨name, _, rfl⟩ := List.mem_map.mp hl
  exact fun hopening => hkind (of_decide_eq_true hopening)

/-- A pattern is written without parentheses. -/
theorem Pattern.openings_pieces (p : Pattern) : openings (lexemesOf p.pieces) = 0 := by
  cases p with
  | var name => rfl
  | constructor name params =>
    have hparams : openings (lexemesOf (spaced (params.map .lower))) = 0 :=
      openings_spaced (by decide) params
    simp [pieces, Piece.upper, openings_text, hparams]

theorem Constructor.openings_pieces (c : Constructor) : openings (lexemesOf c.pieces) = 0 := by
  have hfields : openings (lexemesOf (spaced (c.fields.map .upper))) = 0 :=
    openings_spaced (by decide) c.fields
  simp [pieces, Piece.upper, openings_text, hfields]

/-- An expression without a case has no more pairs than it needs. -/
theorem Expr.openings_pieces (indent place : Nat) : (e : Expr) → e.hasNoCase →
    openings (lexemesOf (e.pieces indent place)) = e.pairs place
  | .int _, _ | .str _, _ | .lower _, _ | .upper _, _ => rfl
  | .binary op left right, h => by
    obtain ⟨hleft, hright⟩ := (Bool.and_eq_true _ _).mp h
    have hkind : op.kind ≠ .openParen := by cases op <;> decide
    have hleft := left.openings_pieces indent (op.precedence + 1) hleft
    have hright := right.openings_pieces indent op.precedence hright
    rw [pieces, openings_parenthesized, pairs]
    simp [Piece.bare, Piece.space, openings_bare hkind, hleft, hright]
  | .unary op operand, h => by
    have hoperand := operand.openings_pieces indent Precedence.apply h
    rw [pieces, openings_parenthesized, pairs, ← hoperand]
    cases op
    rfl
  | .apply function argument, h => by
    obtain ⟨hfunction, hargument⟩ := (Bool.and_eq_true _ _).mp h
    have hfunction := function.openings_pieces indent Precedence.apply hfunction
    have hargument := argument.openings_pieces indent Precedence.atom hargument
    rw [pieces, openings_parenthesized, pairs]
    simp [Piece.space, hfunction, hargument]
  | .case _ _, h => absurd h Bool.false_ne_true

mutual

/-- A body in which cases are bodies has no more pairs than it needs. -/
theorem Expr.openings_pieces_body (indent : Nat) : (e : Expr) → e.casesAreBodies →
    openings (lexemesOf (e.pieces indent Precedence.body)) = e.pairs Precedence.body
  | .case scrutinee branches, h => by
    obtain ⟨hscrutinee, hbranches⟩ := (Bool.and_eq_true _ _).mp h
    have hscrutinee := scrutinee.openings_pieces indent Precedence.loosest hscrutinee
    have hbranches := Branch.openings_pieces (indent + 1) branches hbranches
    rw [Expr.pieces, openings_parenthesized, Expr.pairs, pairIn_self, Nat.zero_add]
    simp [Piece.bare, Piece.space, openings_bare, hscrutinee, hbranches]
  | .int _, _ | .str _, _ | .lower _, _ | .upper _, _ => rfl
  | .binary op left right, h => (Expr.binary op left right).openings_pieces indent Precedence.body h
  | .unary op operand, h => (Expr.unary op operand).openings_pieces indent Precedence.body h
  | .apply function argument, h =>
    (Expr.apply function argument).openings_pieces indent Precedence.body h

/-- The bodies of branches stand in braces, and need parentheses only inside. -/
theorem Branch.openings_pieces (indent : Nat) : (bs : List Branch) → Branch.casesAreBodies bs →
    openings (lexemesOf (Branch.pieces indent bs)) = Branch.pairs bs
  | [], _ => rfl
  | ⟨p, body⟩ :: others, h => by
    obtain ⟨hbody, hothers⟩ := (Bool.and_eq_true _ _).mp h
    have hpattern := p.openings_pieces
    have hbody := body.openings_pieces_body indent hbody
    have hothers := Branch.openings_pieces indent others hothers
    rw [Branch.pieces, Branch.pairs]
    simp [Piece.bare, Piece.space, Piece.newline, openings_bare, hpattern, hbody, hothers]

end

/-! ## Definitions and programs -/

theorem FunctionDefinition.openings_pieces (d : FunctionDefinition) (h : d.body.casesAreBodies) :
    openings (lexemesOf d.pieces) = d.body.pairs Precedence.body := by
  have hparams : openings (lexemesOf (spaced (d.params.map .lower))) = 0 :=
    openings_spaced (by decide) d.params
  have hbody : ∀ indent, openings (lexemesOf (d.body.pieces indent Precedence.body)) = _ :=
    fun indent => d.body.openings_pieces_body indent h
  have hbrace : openings [.bare .closeCurly] = 0 := rfl
  unfold pieces
  by_cases hcase : d.body.isCase
  · rw [if_pos hcase]
    simp [Piece.bare, Piece.space, Piece.newline, Piece.upper, openings_bare, openings_text, hparams,
      hbody, hbrace]
  · rw [if_neg hcase]
    simp [Piece.bare, Piece.space, Piece.upper, openings_bare, openings_text, hparams, hbody, hbrace]

/-- What is put between pieces adds its own parentheses only. -/
theorem openings_intercalate {separator : List Piece} (hseparator : openings (lexemesOf separator) = 0)
    (parts : List (List Piece)) :
    openings (lexemesOf (separator.intercalate parts)) =
      (parts.map fun part => openings (lexemesOf part)).sum := by
  induction parts with
  | nil => rfl
  | cons part parts ih =>
    cases parts with
    | nil => simp
    | cons next parts =>
      rw [List.intercalate_cons_cons, lexemesOf_append, lexemesOf_append, openings_append,
        openings_append, hseparator, ih]
      simp

/-- A type is written without parentheses. -/
theorem TypeDefinition.openings_pieces (d : TypeDefinition) : openings (lexemesOf d.pieces) = 0 := by
  have hseparator : openings (lexemesOf [Piece.bare .comma, .space]) = 0 := rfl
  have hconstructors := openings_intercalate hseparator (d.constructors.map Constructor.pieces)
  simp only [List.map_map, Function.comp_def, Constructor.openings_pieces, List.map_const',
    List.sum_replicate_nat, Nat.mul_zero] at hconstructors
  simpa [pieces, Piece.bare, Piece.space, Piece.upper, openings_bare, openings_text] using hconstructors

theorem Definition.openings_pieces (d : Definition) (h : d.casesAreBodies) :
    openings (lexemesOf d.pieces) = d.pairs := by
  cases d with
  | function d => exact d.openings_pieces h
  | type d => exact d.openings_pieces

namespace Program

/-- Surface notation has no more pairs than the program needs. -/
theorem openings_lexemes (program : Program) (h : program.casesAreBodies) :
    openings program.lexemes = program.pairs := by
  have hseparator : openings (lexemesOf [Piece.newline 0]) = 0 := rfl
  unfold lexemes pieces pairs
  rw [openings_intercalate hseparator, List.map_map]
  refine congrArg List.sum (List.map_congr_left fun d hd => ?_)
  exact d.openings_pieces (List.all_eq_true.mp h d hd)

/-- **No needless parentheses.** Among all tokens that are read as a program in which a case occurs only as
all of a body, none have fewer opening parentheses than its surface notation. -/
theorem openings_lexemes_isLeast {program : Program} (h : program.isWritable)
    (hcases : program.casesAreBodies) :
    IsLeast {n | ∃ tokens, ReadFrom program tokens ∧ openings (tokens.map Token.toLexeme) = n}
      (openings program.lexemes) := by
  constructor
  · have htokens : (Token.number program.lexemes).map Token.toLexeme = program.lexemes := by
      simp [Token.number, List.map_map, Function.comp_def]
    exact ⟨Token.number program.lexemes, readFrom_lexemes h htokens, congrArg openings htokens⟩
  · rintro n ⟨tokens, hread, rfl⟩
    have hneeded := (spans_of_readFrom hread).pairs_le
    rw [openings_lexemes program hcases]
    exact hneeded

/-- The body of a branch with two pairs: of a difference to the left of another one, and of an argument. -/
theorem openings_lexemes_isLeast_difference :
    let body : Expr := .binary .minus (.binary .minus (.int 1) (.lower "y"))
      (.apply (.upper "Main") (.binary .times (.lower "y") (.int 2)))
    let program : Program := [.function ⟨"Main", ["x"], .case (.lower "x") [⟨.var "y", body⟩]⟩]
    IsLeast {n | ∃ tokens, ReadFrom program tokens ∧ openings (tokens.map Token.toLexeme) = n} 2 := by
  intro body program
  exact @openings_lexemes_isLeast program rfl rfl

/-- A case as a right operand is read without the pair that surface notation gives it. -/
example :
    let program : Program := [.function ⟨"Main", ["x"],
      .binary .minus (.int 1) (.case (.lower "x") [⟨.var "y", .lower "y"⟩])⟩]
    let tokens := Token.number [.bare .fn, .text .upperName "Main", .text .lowerName "x", .bare .openCurly,
      .int 1, .bare .minus, .bare .case, .text .lowerName "x", .bare .pattern, .text .lowerName "y",
      .bare .arrow, .bare .openCurly, .text .lowerName "y", .bare .closeCurly, .bare .closeCurly]
    ReadFrom program tokens ∧ openings (tokens.map Token.toLexeme) = 0 ∧ openings program.lexemes = 1 :=
  ⟨⟨_, rfl⟩, rfl, rfl⟩

end Program

end Monotype
