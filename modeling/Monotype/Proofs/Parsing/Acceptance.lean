import Monotype.Proofs.Parsing.Recognition
import Monotype.Proofs.Parsing.Termination

/-!
# `Monotype.Proofs.Parsing.Acceptance` — the parser reads exactly the grammar

The parser is greedy: a repetition goes on for as long as the next token starts another item. It never
takes too much by that, because what may stand after a phrase never continues it. That is a matter of
one token (`Phrase.continues`), with one exception, the branches of a case, and there the grammar
itself says that no branch is left over.

So by induction on the grammar, every phrase before lexemes that do not continue it is read as what it
is, unless the reading never ends (`Spans.accepted`). It does end, and what is read is a phrase; hence
the two agree.

## Contents
- **`Accepts`**: what a parser does with given lexemes.
- **`Phrase.continues`**, **`Stops`**: what may stand after a phrase.
- **`Spans.accepted`**: every phrase is read.
- **`Program.ReadFrom`**, **`Program.readFrom_iff`**: the parser reads the programs of the grammar.
-/

namespace Monotype

namespace Parser

/-! ## What a parser does with given lexemes -/

/-- A parser takes lexemes up to a rest and returns a value, unless it never ends. -/
def Accepts {α : Type} (p : Parser α) (ts : List Lexeme) (a : α) (rest : List Lexeme) : Prop :=
  ∀ c : Cursor, c.lexemes = ts → p c = .endless ∨ ∃ c', p c = .ok a c' ∧ c'.lexemes = rest

section Combinators

variable {α β : Type} {p : Parser α} {f : α → Parser β} {a : α} {b : β} {others : List α}
  {ts mid rest : List Lexeme} {l : Lexeme} {kind : Kind} {starts : Kind → Bool} {item : Parser α}

theorem accepts_pure (a : α) (rest : List Lexeme) : Accepts (pure a) rest a rest :=
  fun c hc => .inr ⟨c, rfl, hc⟩

/-- **One part after the other**: the second one starts with the lexemes that the first one has left. -/
theorem Accepts.bind (hp : Accepts p ts a mid) (hf : Accepts (f a) mid b rest) :
    Accepts (p >>= f) ts b rest := by
  intro c hc
  rw [Run.run_bind]
  rcases hp c hc with hendless | ⟨c₁, hrun, hc₁⟩
  · rw [hendless]
    exact .inl rfl
  · rw [hrun]
    exact hf c₁ hc₁

theorem Accepts.map (hp : Accepts p ts a rest) (g : α → β) :
    Accepts (p >>= fun a => pure (g a)) ts (g a) rest :=
  hp.bind (accepts_pure _ _)

theorem Accepts.expect {f : Token → Parser β} (hl : l.kind = kind)
    (hf : ∀ token : Token, token.toLexeme = l → Accepts (f token) ts b rest) :
    Accepts (Parser.expect kind >>= f) (l :: ts) b rest := by
  intro c hc
  obtain ⟨position, tokens⟩ := c
  cases tokens with
  | nil => exact absurd hc (by simp)
  | cons token tokens =>
    obtain ⟨hlexeme, htokens⟩ := List.cons.inj hc
    have hkind : token.kind = kind := by
      rw [← hl, ← hlexeme]
    have hrun : Parser.expect kind ⟨position, token :: tokens⟩ = .ok token ⟨position + 1, tokens⟩ := by
      simp [Parser.expect, hkind]
    rw [Run.run_bind, hrun]
    exact hf token hlexeme ⟨position + 1, tokens⟩ htokens

theorem accepts_expectText (hl : l.kind = kind) :
    Accepts (Parser.expectText kind) (l :: rest) l.textD rest := by
  refine .expect hl fun token hlexeme => ?_
  rw [← hlexeme]
  exact accepts_pure _ _

theorem accepts_expectInt (hl : l.kind = .int) : Accepts expectInt (l :: rest) l.intD rest := by
  refine .expect hl fun token hlexeme => ?_
  rw [← hlexeme]
  exact accepts_pure _ _

/-- A choice falls on the parser for the kind of the next lexeme. -/
theorem Accepts.predict {expected : String} {select : Kind → Option (Parser α)} {chosen : Parser α}
    (hkind : nextKind? ts = some kind) (hselect : select kind = some chosen)
    (h : Accepts chosen ts a rest) : Accepts (Parser.predict expected select) ts a rest := by
  intro c hc
  have hchosen : c.peekKind?.bind select = some chosen := by
    rw [Cursor.peekKind?_eq, hc, hkind]
    exact hselect
  rw [predict_apply, hchosen]
  exact h c hc

/-- No item: the next lexeme starts none. -/
theorem accepts_nil (hstop : (nextKind? rest).any starts = false) (budget : Nat) :
    Accepts (manyWithin starts item budget) rest [] rest := by
  intro c hc
  cases budget with
  | zero => exact .inl rfl
  | succ budget =>
    rw [manyWithin_succ, Cursor.peekKind?_eq, hc, hstop]
    exact .inr ⟨c, rfl, hc⟩

/-- One item, and then the others. -/
theorem accepts_cons (hstarts : (nextKind? ts).any starts = true) (hitem : Accepts item ts a mid)
    (hothers : ∀ budget, Accepts (manyWithin starts item budget) mid others rest) (budget : Nat) :
    Accepts (manyWithin starts item budget) ts (a :: others) rest := by
  intro c hc
  cases budget with
  | zero => exact .inl rfl
  | succ budget =>
    rw [manyWithin_succ, Cursor.peekKind?_eq, hc, if_pos hstarts]
    exact hitem.bind ((hothers budget).map _) c hc

theorem accepts_many (h : ∀ budget, Accepts (manyWithin starts item budget) ts others rest) :
    Accepts (many starts item) ts others rest :=
  fun c hc => h (c.remaining + 1) c hc

/-- Where an item starts, at least one of them is what any number of them is. -/
theorem accepts_many1 (hstarts : (nextKind? ts).any starts = true)
    (h : ∀ budget, Accepts (manyWithin starts item budget) ts others rest) :
    Accepts (many1 starts item) ts others rest := by
  intro c hc
  -- the budget of the repetition that the first item leaves to do
  have hmany : ∀ budget, (item >>= fun a => manyWithin starts item budget >>= fun others =>
      pure (a :: others)) c = .endless ∨ ∃ c', (item >>= fun a => manyWithin starts item budget >>=
      fun others => pure (a :: others)) c = .ok others c' ∧ c'.lexemes = rest := by
    intro budget
    have hrun := h (budget + 1) c hc
    rw [manyWithin_succ, Cursor.peekKind?_eq, hc, if_pos hstarts] at hrun
    exact hrun
  unfold many1
  simp only [Run.run_bind] at hmany ⊢
  cases hitem : item c with
  | ok a c₁ =>
    have hrun := hmany (c₁.remaining + 1)
    rw [hitem] at hrun
    exact hrun
  | error e c₁ =>
    have hrun := hmany 0
    rw [hitem] at hrun
    simp at hrun
  | endless => exact .inl rfl

end Combinators

/-! ## Levels -/

/-- The parsers of a level of expressions, over a parser for the expressions inside; whatever number of
operands they allow for. -/
inductive IsLevel (nested : Parser Expr) : Nat → Parser Expr → Prop
  | unary : IsLevel nested 6 (unaryOver nested)
  | chain {n : Nat} {operand p : Parser Expr} (hn : n < 6) (hoperand : IsLevel nested (n + 1) operand)
      (hp : ∀ c, ∃ budget, p c = chainWithin (BinaryOperator.atLevel? n) operand budget c) :
      IsLevel nested n p

theorem isLevel_levelsOver (nested : Parser Expr) :
    IsLevel nested 1 (levelsOver (unaryOver nested) levels) := by
  refine levelsOver_induction .unary fun n operand hn hoperand => ?_
  exact .chain hn hoperand fun c => ⟨c.remaining + 1, rfl⟩

section Levels

variable {nested operand p right : Parser Expr} {n : Nat} {e left : Expr} {op : BinaryOperator}
  {l : Lexeme} {ts mid rest : List Lexeme}

/-- A chain takes an operand and what comes after it, however many operands it allows for. -/
theorem accepts_of_chain (hp : ∀ c, ∃ budget, p c = chainWithin (BinaryOperator.atLevel? n) operand budget c)
    (h : ∀ budget, Accepts (operand >>= afterOperand n
      (chainWithin (BinaryOperator.atLevel? n) operand budget)) ts e rest) : Accepts p ts e rest := by
  intro c hc
  obtain ⟨budget, hrun⟩ := hp c
  rw [hrun]
  cases budget with
  | zero => exact .inl rfl
  | succ budget =>
    rw [chainWithin_succ]
    exact h budget c hc

/-- Without an operator of the level there is nothing after an operand. -/
theorem accepts_afterOperand_none (h : (nextKind? rest).bind (BinaryOperator.atLevel? n) = none) :
    Accepts (afterOperand n right left) rest left rest := by
  intro c hc
  unfold afterOperand
  rw [Cursor.peekKind?_eq, hc, h]
  exact .inr ⟨c, rfl, hc⟩

/-- An operator of the level, and a right operand. -/
theorem accepts_afterOperand_some (hop : op.precedence = n) (hl : l.kind = op.kind)
    (hright : Accepts right mid e rest) :
    Accepts (afterOperand n right left) (l :: mid) (.binary op left e) rest := by
  intro c hc
  have hatLevel : c.peekKind?.bind (BinaryOperator.atLevel? n) = some op := by
    rw [Cursor.peekKind?_eq, hc]
    exact BinaryOperator.atLevel?_eq_some_iff.mpr ⟨hl.symm, hop⟩
  unfold afterOperand
  rw [hatLevel]
  have hoperator : Accepts (expect op.kind >>= fun _ => right >>= fun right =>
      pure (Expr.binary op left right)) (l :: mid) (.binary op left e) rest :=
    .expect hl fun _ _ => hright.map _
  exact hoperator c hc

end Levels

end Parser

/-! ## What may stand after a phrase -/

/-- A lexeme of that kind could belong to the phrase that it stands after. -/
def Phrase.continues : Phrase → Kind → Bool
  | names kind _, next => next = kind
  | pattern _, next => next = .lowerName
  | branch _, _ | atom _, _ => false
  | branches _, next => next = .pattern
  | arguments _, next | application _, next => Parser.startsAtom next
  | level n _, next =>
    Parser.startsAtom next || (BinaryOperator.ofKind? next).any fun op => n ≤ op.precedence
  | constructor _, next => next = .upperName
  | otherConstructors _, next | definition _, next => next = .upperName || next = .comma
  | program _, next => next = .upperName || next = .comma || Parser.startsDefinition next

/-- What is left does not continue the phrase before it. -/
def Stops (φ : Phrase) (rest : List Lexeme) : Prop := (nextKind? rest).any φ.continues = false

namespace Stops

variable {φ ψ : Phrase} {l : Lexeme} {kind : Kind} {rest : List Lexeme}

theorem nil (φ : Phrase) : Stops φ [] := rfl

theorem of_next (hnext : nextKind? rest = some kind) (h : φ.continues kind = false) :
    Stops φ rest := by
  unfold Stops
  rw [hnext]
  exact h

theorem cons (hl : l.kind = kind) (h : φ.continues kind = false) : Stops φ (l :: rest) :=
  of_next (by rw [nextKind?_cons, hl]) h

/-- Nothing continues a phrase that ends in a lexeme of its own. -/
theorem of_never (h : ∀ kind, φ.continues kind = false) : Stops φ rest := by
  unfold Stops
  cases nextKind? rest with
  | none => rfl
  | some kind => exact h kind

/-- The next lexeme does not continue the phrase before it. -/
theorem not_continues (h : Stops φ rest) (hnext : nextKind? rest = some kind) :
    φ.continues kind = false := by
  unfold Stops at h
  rw [hnext] at h
  exact h

/-- What starts nothing but continuations does not stand where a phrase stops. -/
theorem any_eq_false {starts : Kind → Bool} (h : Stops φ rest)
    (hstarts : ∀ kind, starts kind = true → φ.continues kind = true) :
    (nextKind? rest).any starts = false := by
  cases hnext : nextKind? rest with
  | none => rfl
  | some kind =>
    have hstop : ¬ φ.continues kind = true := Bool.eq_false_iff.mp (h.not_continues hnext)
    exact Bool.eq_false_iff.mpr fun hkind => hstop (hstarts kind hkind)

/-- A phrase that is continued by less stops wherever one that is continued by more does. -/
theorem mono (h : Stops φ rest) (hφ : ∀ kind, ψ.continues kind = true → φ.continues kind = true) :
    Stops ψ rest :=
  h.any_eq_false hφ

end Stops

namespace Phrase

open Monotype.Parser

/-- A phrase is read as what it is, by the parser for its part of speech. -/
def Accepted (ts rest : List Lexeme) : Phrase → Prop
  | names kind ns => ∀ budget, Accepts (manyWithin (· = kind) (expectText kind) budget) ts ns rest
  | pattern p => Accepts Parser.pattern ts p rest
  | branch b => ∀ depth, Accepts (branchOver (expressionWithin depth)) ts b rest
  | branches bs => ∀ depth budget,
    Accepts (manyWithin (· = .pattern) (branchOver (expressionWithin depth)) budget) ts bs rest
  | atom e => ∀ depth, Accepts (atomOver (expressionWithin depth)) ts e rest
  | arguments es => ∀ depth budget,
    Accepts (manyWithin startsAtom (atomOver (expressionWithin depth)) budget) ts es rest
  | application e => ∀ depth, Accepts (applicationOver (expressionWithin depth)) ts e rest
  | level n e => ∀ depth p, IsLevel (expressionWithin depth) n p → Accepts p ts e rest
  | constructor c => Accepts member ts c rest
  | otherConstructors cs => ∀ budget,
    Accepts (manyWithin (· = .comma) (expect .comma *> member) budget) ts cs rest
  | definition d => Accepts Parser.definition ts d rest
  | program p => ∀ budget, Accepts (manyWithin startsDefinition Parser.definition budget) ts p rest

namespace Spans

variable {φ : Phrase} {e : Expr} {es : List Expr} {b : Branch} {bs : List Branch} {d : Definition}
  {p : Program} {kind : Kind} {ns : List String} {c : Constructor} {ts mid rest : List Lexeme}

/-! ## What a phrase starts with -/

/-- **What starts an atom is what the repetition of arguments looks for.** -/
theorem starts_atom (h : (atom e).Spans ts rest) : (nextKind? ts).any startsAtom = true := by
  cases h with
  | int hl | str hl | lower hl | upper hl | case hl | group hl =>
    rw [nextKind?_cons, hl]
    rfl

theorem starts_application (h : (Phrase.application e).Spans ts rest) :
    (nextKind? ts).any startsAtom = true := by
  cases h with
  | application hfunction => exact hfunction.starts_atom

theorem starts_branch (h : (Phrase.branch b).Spans ts rest) : nextKind? ts = some .pattern := by
  cases h with
  | branch hbar => rw [nextKind?_cons, hbar]

theorem starts_branches (h : (branches bs).Spans ts rest) : nextKind? ts = some .pattern := by
  cases h with
  | lastBranch hbranch => exact hbranch.starts_branch
  | moreBranches hbranch => exact hbranch.starts_branch

/-- A definition starts with its keyword, which is what the repetition of definitions looks for. -/
theorem starts_definition (h : (definition d).Spans ts rest) :
    nextKind? ts = some .fn ∨ nextKind? ts = some .type := by
  cases h with
  | function hkeyword => exact .inl (by rw [nextKind?_cons, hkeyword])
  | type hkeyword => exact .inr (by rw [nextKind?_cons, hkeyword])

/-! ## What stands after a phrase -/

/-- Only a bar continues the branches of a case. -/
theorem stops_of_pattern (h : nextKind? rest ≠ some .pattern) : Stops (branches bs) rest := by
  unfold Stops
  cases hnext : nextKind? rest with
  | none => rfl
  | some kind =>
    rw [hnext] at h
    have hkind : kind ≠ .pattern := fun hkind => h (by rw [hkind])
    exact decide_eq_false hkind

/-- A tighter level is continued by less. -/
theorem stops_tighter {n : Nat} {e' : Expr} (h : Stops (level n e) rest) :
    Stops (level (n + 1) e') rest := by
  refine h.mono fun kind hcontinues => ?_
  simp only [Phrase.continues, Bool.or_eq_true, Option.any_eq_true, decide_eq_true_eq] at hcontinues ⊢
  rcases hcontinues with hatom | ⟨op, hop, hlevel⟩
  · exact .inl hatom
  · exact .inr ⟨op, hop, Nat.le_of_succ_le hlevel⟩

/-- Whatever continues an application continues every level. -/
theorem stops_application {n : Nat} {e' : Expr} (h : Stops (level n e) rest) :
    Stops (Phrase.application e') rest := by
  refine h.mono fun kind hcontinues => ?_
  show (startsAtom kind || _) = true
  rw [show startsAtom kind = true from hcontinues, Bool.true_or]

/-- An operator of a level ends an operand of the next one. -/
theorem stops_of_operator {n : Nat} {op : BinaryOperator} {l : Lexeme} (hop : op.precedence = n)
    (hl : l.kind = op.kind) : Stops (level (n + 1) e) (l :: rest) := by
  refine .cons hl ?_
  have hatom : startsAtom op.kind = false := by cases op <;> rfl
  have hlevel : ¬ n + 1 ≤ op.precedence := by omega
  show (startsAtom op.kind || (BinaryOperator.ofKind? op.kind).any fun op => n + 1 ≤ op.precedence) = false
  rw [hatom, Bool.false_or, BinaryOperator.ofKind?_kind]
  exact decide_eq_false hlevel

/-- An operator of a level does not stand where an expression of that level stops. -/
theorem atLevel?_of_stops {n : Nat} (h : Stops (level n e) rest) :
    (nextKind? rest).bind (BinaryOperator.atLevel? n) = none := by
  cases hnext : nextKind? rest with
  | none => rfl
  | some kind =>
    have hcontinues := h.not_continues hnext
    show BinaryOperator.atLevel? n kind = none
    cases hop : BinaryOperator.atLevel? n kind with
    | none => rfl
    | some op =>
      obtain ⟨rfl, hlevel⟩ := BinaryOperator.atLevel?_eq_some_iff.mp hop
      simp [Phrase.continues, hlevel] at hcontinues

/-- After one constructor comes a comma, or what comes after all of them. -/
theorem stops_constructor {cs cs' : List Constructor} (h : (otherConstructors cs).Spans mid rest)
    (hstops : Stops (otherConstructors cs') rest) : Stops (Phrase.constructor c) mid := by
  cases h with
  | noConstructor =>
    refine hstops.mono fun kind hcontinues => ?_
    show (_ || _) = true
    rw [show decide (kind = Kind.upperName) = true from hcontinues, Bool.true_or]
  | nextConstructor hcomma => exact .cons hcomma rfl

/-- After one definition comes the keyword of another one, or what comes after all of them. -/
theorem stops_definition {p' : Program} (h : (program p).Spans mid rest)
    (hstops : Stops (program p') rest) : Stops (Phrase.definition d) mid := by
  cases h with
  | noDefinition =>
    refine hstops.mono fun kind hcontinues => ?_
    show (_ || startsDefinition kind) = true
    rw [show (decide (kind = Kind.upperName) || decide (kind = Kind.comma)) = true from hcontinues,
      Bool.true_or]
  | define hfirst =>
    rcases hfirst.starts_definition with hfn | htype
    · exact .of_next hfn rfl
    · exact .of_next htype rfl

/-! ## Every phrase is read -/

/-- An expression is read in every depth that is enough for the reading to end. -/
theorem accepts_expressionWithin (h : (level 1 e).Accepted ts rest) (depth : Nat) :
    Accepts (expressionWithin depth) ts e rest := by
  cases depth with
  | zero => exact fun _ _ => .inl rfl
  | succ depth => exact h depth _ (isLevel_levelsOver _)

theorem accepts_expression (h : (level 1 e).Accepted ts rest) : Accepts Parser.expression ts e rest :=
  fun c hc => accepts_expressionWithin h (c.remaining + 1) c hc

theorem accepts_constructor {l : Lexeme} (hl : l.kind = .upperName)
    (h : (names kind ns).Accepted ts rest) :
    Accepts (Parser.constructor kind) (l :: ts) (l.textD, ns) rest :=
  (accepts_expectText hl).bind ((accepts_many h).map _)

/-- **Every phrase is read as what it is**, before anything that does not continue it. -/
theorem accepted (h : φ.Spans ts rest) (hstops : Stops φ rest) : φ.Accepted ts rest := by
  -- what stands after a part of a phrase is the rest of the phrase, or what stands after all of it
  induction h with
  | noName => exact accepts_nil hstops
  | name hl _ ih =>
    refine accepts_cons ?_ (accepts_expectText hl) (ih hstops)
    rw [nextKind?_cons, hl]
    exact decide_eq_true rfl
  | var hl => exact .predict (by rw [nextKind?_cons, hl]) rfl ((accepts_expectText hl).map _)
  | @construct l params ts rest hl _ ih =>
    have hconstructor : Accepts (Parser.constructor .lowerName) (l :: ts) (l.textD, params) rest :=
      accepts_constructor hl (ih hstops)
    exact .predict (by rw [nextKind?_cons, hl]) rfl
      (hconstructor.map fun entry => Pattern.constructor entry.1 entry.2)
  | branch hbar _ harrow hopening _ hclosing ihp ihe =>
    intro depth
    have hp := ihp (.cons harrow rfl)
    have he := accepts_expressionWithin (ihe (.cons hclosing rfl)) depth
    exact .expect hbar fun _ _ => hp.bind <| .expect harrow fun _ _ => .expect hopening fun _ _ =>
      he.bind <| .expect hclosing fun _ _ => accepts_pure _ _
  | lastBranch hbranch ih =>
    intro depth
    refine accepts_cons ?_ (ih (.of_never fun _ => rfl) depth) (accepts_nil hstops)
    rw [hbranch.starts_branch]
    rfl
  | moreBranches hbranch _ ih ihs =>
    intro depth
    refine accepts_cons ?_ (ih (.of_never fun _ => rfl) depth) (ihs hstops depth)
    rw [hbranch.starts_branch]
    rfl
  | int hl =>
    intro depth
    exact .predict (by rw [nextKind?_cons, hl]) rfl ((accepts_expectInt hl).map _)
  | str hl | lower hl | upper hl =>
    intro depth
    exact .predict (by rw [nextKind?_cons, hl]) rfl ((accepts_expectText hl).map _)
  | case hl _ hbranches hlast ihe ihs =>
    intro depth
    have hstart := hbranches.starts_branches
    have he := accepts_expressionWithin (ihe (.of_next hstart rfl)) depth
    have hbs : Accepts (branchesOver (expressionWithin depth)) _ _ _ :=
      accepts_many1 (by rw [hstart]; rfl) (ihs (stops_of_pattern hlast) depth)
    exact .predict (by rw [nextKind?_cons, hl]) rfl (.expect hl fun _ _ => he.bind (hbs.map _))
  | group hopening _ hclosing ih =>
    intro depth
    have he := accepts_expressionWithin (ih (.cons hclosing rfl)) depth
    exact .predict (by rw [nextKind?_cons, hopening]) rfl <| .expect hopening fun _ _ =>
      he.bind <| .expect hclosing fun _ _ => accepts_pure _ _
  | noArgument => exact fun _ => accepts_nil hstops
  | argument hatom _ ih ihs =>
    exact fun depth => accepts_cons hatom.starts_atom (ih (.of_never fun _ => rfl) depth)
      (ihs hstops depth)
  | application _ _ ih ihs =>
    intro depth
    have hfunction := ih (.of_never fun _ => rfl) depth
    have harguments := accepts_many (ihs hstops depth)
    exact hfunction.bind (harguments.map _)
  | @not l e ts rest hl _ ih =>
    intro depth p hp
    have hoperand := ih (stops_application hstops) depth
    cases hp with
    | unary =>
      intro c hc
      rw [unaryOver_apply, Cursor.peekKind?_eq, hc, if_pos (by rw [nextKind?_cons, hl])]
      have hnegated : Accepts (expect .not >>= fun _ => applicationOver (expressionWithin depth) >>=
          fun e => pure (Expr.unary .not e)) (l :: ts) (.unary .not e) rest :=
        .expect hl fun _ _ => hoperand.map _
      exact hnegated c hc
    | chain hn => exact absurd hn (by omega)
  | applied h ih =>
    intro depth p hp
    have happlication := ih (stops_application hstops) depth
    cases hp with
    | unary =>
      intro c hc
      have hnot : ¬ c.peekKind? = some .not := by
        rw [Cursor.peekKind?_eq, hc]
        intro hnext
        have hstart := h.starts_application
        rw [hnext] at hstart
        exact absurd hstart (by decide)
      rw [unaryOver_apply, if_neg hnot]
      exact happlication c hc
    | chain hn => exact absurd hn (by omega)
  | operand hn _ ih =>
    intro depth p hp
    cases hp with
    | unary => exact absurd hn (by omega)
    | chain _ hoperand hp =>
      have hleft := ih (stops_tighter hstops) depth _ hoperand
      exact accepts_of_chain hp fun _ =>
        hleft.bind (accepts_afterOperand_none (atLevel?_of_stops hstops))
  | @binary n op _ _ _ _ _ _ hop _ hl _ ihl ihr =>
    intro depth p hp
    cases hp with
    | unary => exact absurd hop (by have := op.precedence_le; omega)
    | chain hn hoperand hp =>
      have hleft := ihl (stops_of_operator hop hl) depth _ hoperand
      have hright := fun budget => ihr hstops depth _ (.chain hn hoperand fun _ => ⟨budget, rfl⟩)
      exact accepts_of_chain hp fun budget =>
        hleft.bind (accepts_afterOperand_some hop hl (hright budget))
  | @constructor l fields ts rest hl _ ih =>
    have hconstructor : Accepts (Parser.constructor .upperName) (l :: ts) (l.textD, fields) rest :=
      accepts_constructor hl (ih hstops)
    exact hconstructor.map fun entry => (⟨entry.1, entry.2⟩ : Constructor)
  | noConstructor =>
    refine accepts_nil (hstops.any_eq_false fun kind hkind => ?_)
    show (_ || decide (kind = Kind.comma)) = true
    rw [hkind, Bool.or_true]
  | nextConstructor hcomma _ hothers ih ihs =>
    have hitem : Accepts (expect .comma *> member) _ _ _ :=
      .expect hcomma fun _ _ => ih (stops_constructor hothers hstops)
    refine accepts_cons ?_ hitem (ihs hstops)
    rw [nextKind?_cons, hcomma]
    rfl
  | function hkeyword hname _ hopening _ hclosing ihp ihe =>
    have hparams := accepts_many (ihp (.cons hopening rfl))
    have he := accepts_expression (ihe (.cons hclosing rfl))
    exact .predict (by rw [nextKind?_cons, hkeyword]) rfl <| .expect hkeyword fun _ _ =>
      (accepts_expectText hname).bind <| hparams.bind <| .expect hopening fun _ _ =>
      he.bind <| .expect hclosing fun _ _ => accepts_pure _ _
  | @type _ _ _ _ cs _ _ rest hkeyword hname hassign _ hothers ih ihs =>
    have hlast : Stops (otherConstructors cs) rest := hstops
    have hfirst := ih (stops_constructor hothers hlast)
    have hmembers : Accepts (separated1 member .comma) _ _ _ :=
      hfirst.bind ((accepts_many (ihs hlast)).map _)
    exact .predict (by rw [nextKind?_cons, hkeyword]) rfl <| .expect hkeyword fun _ _ =>
      (accepts_expectText hname).bind <| .expect hassign fun _ _ => hmembers.map _
  | noDefinition =>
    refine accepts_nil (hstops.any_eq_false fun kind hkind => ?_)
    show (_ || startsDefinition kind) = true
    rw [hkind, Bool.or_true]
  | define hfirst hothers ih ihs =>
    refine accepts_cons ?_ (ih (stops_definition hothers hstops)) (ihs hstops)
    rcases hfirst.starts_definition with hfn | htype
    · rw [hfn]
      rfl
    · rw [htype]
      rfl

end Spans

end Phrase

/-! ## Programs -/

namespace Program

open Monotype.Parser

variable {program : Program} {tokens : List Token}

/-- The program is what reading the tokens returns. -/
def ReadFrom (program : Program) (tokens : List Token) : Prop :=
  ∃ cursor, ofTokens tokens = .ok program cursor

/-- A program is read if its definitions are, and no token is left. -/
theorem readFrom_iff_run : ReadFrom program tokens ↔
    ∃ cursor, Parser.program (.ofTokens tokens) = .ok program cursor ∧ cursor.rest = [] := by
  unfold ReadFrom
  rw [ofTokens_eq]
  constructor
  · rintro ⟨cursor, hrun⟩
    obtain ⟨definitions, c, hprogram, hlast⟩ := Outcome.bind_eq_ok_iff.mp hrun
    obtain ⟨position, rest⟩ := c
    cases rest with
    | nil =>
      cases hlast
      exact ⟨_, hprogram, rfl⟩
    | cons token rest => exact absurd hlast (by simp)
  · rintro ⟨⟨position, rest⟩, hprogram, rfl⟩
    exact ⟨⟨position, []⟩, by rw [hprogram]; rfl⟩

/-- What the grammar calls a program is read as that program. -/
theorem readFrom_of_spans
    (h : (Phrase.program program).Spans (tokens.map Token.toLexeme) []) : ReadFrom program tokens := by
  have hread : Accepts Parser.program (tokens.map Token.toLexeme) program [] :=
    accepts_many (h.accepted (.nil _))
  rw [readFrom_iff_run]
  rcases hread (.ofTokens tokens) rfl with hendless | ⟨cursor, hrun, hrest⟩
  · have hends := program_ends (.ofTokens tokens)
    rw [hendless] at hends
    exact absurd hends Outcome.not_ends_endless
  · exact ⟨cursor, hrun, List.map_eq_nil_iff.mp hrest⟩

/-- What is read as a program is what the grammar calls that program. -/
theorem spans_of_readFrom (h : ReadFrom program tokens) :
    (Phrase.program program).Spans (tokens.map Token.toLexeme) [] := by
  obtain ⟨cursor, hrun, hrest⟩ := readFrom_iff_run.mp h
  have hspans := (reads_program.reads (.ofTokens tokens)).sound hrun
  have hnil : cursor.lexemes = [] := by
    rw [Cursor.lexemes, hrest]
    rfl
  rw [hnil] at hspans
  exact hspans

/-- **The parser reads exactly its grammar.** Reading tokens returns a program if and only if their
lexemes are that program, where a case takes all branches that follow it. -/
theorem readFrom_iff :
    ReadFrom program tokens ↔ (Phrase.program program).Spans (tokens.map Token.toLexeme) [] :=
  ⟨spans_of_readFrom, readFrom_of_spans⟩

end Program

end Monotype
