import Monotype.Program.Definition
import Monotype.Token.Basic

/-!
# `Monotype.Proofs.Parsing.Grammar` — the grammar as a relation

What it is to be a program, said without a parser. A phrase is a part of speech together with what it
says, such as a pattern or an expression of some level. It *spans* lexemes if they are that phrase from
the first one on; some of them may be left after it.

```text
program     := definition*
definition  := FN UID LID* OCURLY expression CCURLY | TYPE UID ASSIGN constructor (COMMA constructor)*
constructor := UID UID*
expression  := level 1
level n     := level (n + 1) (operator-n level n)?      for n = 1 … 5
level 6     := NOT application | application
application := atom atom*
atom        := INT | LITERAL | LID | UID | case | OPAR expression CPAR
case        := CASE expression branch branch*           no PATTERN follows
branch      := PATTERN pattern ARROW OCURLY expression CCURLY
pattern     := LID | UID LID*
```

The grammar leaves open at which point a repetition ends, and a case that is the last thing in what
another case examines could share the branches that follow with it in many ways. One rule decides that:
a case takes every branch that follows it. It is the only rule that looks at what is left, so the rest
can be exchanged for another one that starts no branch (`Phrase.Spans.exists_taken`).

## Contents
- **`Phrase`**, **`Phrase.Spans`**: the grammar.
- **`Spans.exists_taken`**: what a phrase spans, and what may follow it.
- **`Spans.apply`**, **`Spans.loosen`**: one argument more; looser levels.
-/

namespace Monotype

namespace Lexeme

/-- The text that a lexeme carries; the empty text if it carries none. -/
def textD (l : Lexeme) : String := l.text?.getD ""

/-- The integer that a lexeme carries; zero if it carries none. -/
def intD (l : Lexeme) : Int := l.int?.getD 0

end Lexeme

/-- The kind of the first lexeme. -/
def nextKind? (ts : List Lexeme) : Option Kind := ts.head?.map Lexeme.kind

@[simp] theorem nextKind?_nil : nextKind? [] = none := rfl

@[simp] theorem nextKind?_cons (l : Lexeme) (ts : List Lexeme) :
    nextKind? (l :: ts) = some l.kind := rfl

/-- A part of speech, with what it says. -/
inductive Phrase where
  | names (kind : Kind) (names : List String)
  | pattern (pattern : Pattern)
  | branch (branch : Branch)
  | branches (branches : List Branch)
  | atom (e : Expr)
  | arguments (es : List Expr)
  | application (e : Expr)
  | level (n : Nat) (e : Expr)
  | constructor (constructor : Constructor)
  | otherConstructors (constructors : List Constructor)
  | definition (definition : Definition)
  | program (program : Program)

namespace Phrase

/-- Lexemes are a phrase, up to a rest. -/
inductive Spans : Phrase → List Lexeme → List Lexeme → Prop
  | noName {kind : Kind} {rest : List Lexeme} : Spans (names kind []) rest rest
  | name {kind : Kind} {l : Lexeme} {others : List String} {ts rest : List Lexeme}
      (hl : l.kind = kind) (hothers : Spans (names kind others) ts rest) :
      Spans (names kind (l.textD :: others)) (l :: ts) rest
  | var {l : Lexeme} {rest : List Lexeme} (hl : l.kind = .lowerName) :
      Spans (pattern (.var l.textD)) (l :: rest) rest
  | construct {l : Lexeme} {params : List String} {ts rest : List Lexeme}
      (hl : l.kind = .upperName) (hparams : Spans (names .lowerName params) ts rest) :
      Spans (pattern (.constructor l.textD params)) (l :: ts) rest
  | branch {bar arrow opening closing : Lexeme} {p : Pattern} {e : Expr}
      {ts body rest : List Lexeme} (hbar : bar.kind = .pattern)
      (hpattern : Spans (pattern p) ts (arrow :: opening :: body)) (harrow : arrow.kind = .arrow)
      (hopening : opening.kind = .openCurly) (hbody : Spans (level 1 e) body (closing :: rest))
      (hclosing : closing.kind = .closeCurly) : Spans (branch ⟨p, e⟩) (bar :: ts) rest
  | lastBranch {b : Branch} {ts rest : List Lexeme} (hbranch : Spans (branch b) ts rest) :
      Spans (branches [b]) ts rest
  | moreBranches {b : Branch} {bs : List Branch} {ts mid rest : List Lexeme}
      (hbranch : Spans (branch b) ts mid) (hothers : Spans (branches bs) mid rest) :
      Spans (branches (b :: bs)) ts rest
  | int {l : Lexeme} {rest : List Lexeme} (hl : l.kind = .int) :
      Spans (atom (.int l.intD)) (l :: rest) rest
  | str {l : Lexeme} {rest : List Lexeme} (hl : l.kind = .literal) :
      Spans (atom (.str l.textD)) (l :: rest) rest
  | lower {l : Lexeme} {rest : List Lexeme} (hl : l.kind = .lowerName) :
      Spans (atom (.lower l.textD)) (l :: rest) rest
  | upper {l : Lexeme} {rest : List Lexeme} (hl : l.kind = .upperName) :
      Spans (atom (.upper l.textD)) (l :: rest) rest
  | case {l : Lexeme} {e : Expr} {bs : List Branch} {ts mid rest : List Lexeme}
      (hl : l.kind = .case) (hscrutinee : Spans (level 1 e) ts mid)
      (hbranches : Spans (branches bs) mid rest) (hlast : nextKind? rest ≠ some .pattern) :
      Spans (atom (.case e bs)) (l :: ts) rest
  | group {opening closing : Lexeme} {e : Expr} {ts rest : List Lexeme}
      (hopening : opening.kind = .openParen) (hinner : Spans (level 1 e) ts (closing :: rest))
      (hclosing : closing.kind = .closeParen) : Spans (atom e) (opening :: ts) rest
  | noArgument {rest : List Lexeme} : Spans (arguments []) rest rest
  | argument {e : Expr} {es : List Expr} {ts mid rest : List Lexeme} (hatom : Spans (atom e) ts mid)
      (hothers : Spans (arguments es) mid rest) : Spans (arguments (e :: es)) ts rest
  | application {e : Expr} {es : List Expr} {ts mid rest : List Lexeme}
      (hfunction : Spans (atom e) ts mid) (harguments : Spans (arguments es) mid rest) :
      Spans (application (e.applyAll es)) ts rest
  | not {l : Lexeme} {e : Expr} {ts rest : List Lexeme} (hl : l.kind = .not)
      (hoperand : Spans (application e) ts rest) : Spans (level 6 (.unary .not e)) (l :: ts) rest
  | applied {e : Expr} {ts rest : List Lexeme} (h : Spans (application e) ts rest) :
      Spans (level 6 e) ts rest
  | operand {n : Nat} {e : Expr} {ts rest : List Lexeme} (hn : n < 6)
      (h : Spans (level (n + 1) e) ts rest) : Spans (level n e) ts rest
  | binary {n : Nat} {op : BinaryOperator} {l : Lexeme} {left right : Expr}
      {ts mid rest : List Lexeme} (hn : op.precedence = n)
      (hleft : Spans (level (n + 1) left) ts (l :: mid)) (hl : l.kind = op.kind)
      (hright : Spans (level n right) mid rest) : Spans (level n (.binary op left right)) ts rest
  | constructor {l : Lexeme} {fields : List String} {ts rest : List Lexeme}
      (hl : l.kind = .upperName) (hfields : Spans (names .upperName fields) ts rest) :
      Spans (constructor ⟨l.textD, fields⟩) (l :: ts) rest
  | noConstructor {rest : List Lexeme} : Spans (otherConstructors []) rest rest
  | nextConstructor {comma : Lexeme} {c : Constructor} {cs : List Constructor}
      {ts mid rest : List Lexeme} (hcomma : comma.kind = .comma)
      (hconstructor : Spans (constructor c) ts mid) (hothers : Spans (otherConstructors cs) mid rest) :
      Spans (otherConstructors (c :: cs)) (comma :: ts) rest
  | function {keyword name opening closing : Lexeme} {params : List String} {e : Expr}
      {ts body rest : List Lexeme} (hkeyword : keyword.kind = .fn) (hname : name.kind = .upperName)
      (hparams : Spans (names .lowerName params) ts (opening :: body))
      (hopening : opening.kind = .openCurly) (hbody : Spans (level 1 e) body (closing :: rest))
      (hclosing : closing.kind = .closeCurly) :
      Spans (definition (.function ⟨name.textD, params, e⟩)) (keyword :: name :: ts) rest
  | type {keyword name assign : Lexeme} {c : Constructor} {cs : List Constructor}
      {ts mid rest : List Lexeme} (hkeyword : keyword.kind = .type) (hname : name.kind = .upperName)
      (hassign : assign.kind = .assign) (hfirst : Spans (constructor c) ts mid)
      (hothers : Spans (otherConstructors cs) mid rest) :
      Spans (definition (.type ⟨name.textD, c :: cs⟩)) (keyword :: name :: assign :: ts) rest
  | noDefinition {rest : List Lexeme} : Spans (program []) rest rest
  | define {d : Definition} {ds : Program} {ts mid rest : List Lexeme}
      (hfirst : Spans (definition d) ts mid) (hothers : Spans (program ds) mid rest) :
      Spans (program (d :: ds)) ts rest

namespace Spans

variable {φ : Phrase} {n m : Nat} {e a : Expr} {es : List Expr} {ts mid rest rest' : List Lexeme}

/-! ## What a phrase takes -/

/-- The second rest starts a branch only where the first one does. -/
def NoNewBranch (rest rest' : List Lexeme) : Prop :=
  nextKind? rest' = some .pattern → nextKind? rest = some .pattern

/-- A rest that starts as the other one does starts no new branch. -/
theorem NoNewBranch.of_head (h : nextKind? rest' = nextKind? rest) : NoNewBranch rest rest' :=
  fun hbranch => h ▸ hbranch

theorem NoNewBranch.of_ne (h : nextKind? rest' ≠ some .pattern) : NoNewBranch rest rest' :=
  fun hbranch => absurd hbranch h

/-- Behind the same lexemes, a rest starts no new branch if it starts none by itself. -/
theorem NoNewBranch.append (taken : List Lexeme) (h : NoNewBranch rest rest') :
    NoNewBranch (taken ++ rest) (taken ++ rest') := by
  cases taken with
  | nil => exact h
  | cons l others => exact .of_head rfl

/-- A phrase takes lexemes from the front. It would take the same before any other rest that does not
start a new branch. -/
theorem exists_taken (h : φ.Spans ts rest) :
    ∃ taken, ts = taken ++ rest ∧ ∀ rest', NoNewBranch rest rest' → φ.Spans (taken ++ rest') rest' := by
  induction h with
  | noName => exact ⟨[], rfl, fun _ _ => .noName⟩
  | @name kind l others ts rest hl _ ih =>
    obtain ⟨taken, rfl, ih⟩ := ih
    exact ⟨l :: taken, rfl, fun rest' h => .name hl (ih rest' h)⟩
  | @var l rest hl => exact ⟨[l], rfl, fun _ _ => .var hl⟩
  | @construct l params ts rest hl _ ih =>
    obtain ⟨taken, rfl, ih⟩ := ih
    exact ⟨l :: taken, rfl, fun rest' h => .construct hl (ih rest' h)⟩
  | @branch bar arrow opening closing p e ts body rest hbar _ harrow hopening _ hclosing ihp ihb =>
    obtain ⟨header, rfl, ihp⟩ := ihp
    obtain ⟨inner, rfl, ihb⟩ := ihb
    refine ⟨bar :: header ++ arrow :: opening :: inner ++ [closing], by simp, fun rest' _ => ?_⟩
    -- after the pattern there is an arrow, and after the body a brace: neither starts a branch
    have hp := ihp (arrow :: opening :: (inner ++ closing :: rest')) (.of_head rfl)
    have hb := ihb (closing :: rest') (.of_head rfl)
    simpa using Spans.branch hbar hp harrow hopening hb hclosing
  | lastBranch _ ih =>
    obtain ⟨taken, rfl, ih⟩ := ih
    exact ⟨taken, rfl, fun rest' h => .lastBranch (ih rest' h)⟩
  | moreBranches _ _ ih ihs =>
    obtain ⟨others, rfl, ihs⟩ := ihs
    obtain ⟨first, rfl, ih⟩ := ih
    refine ⟨first ++ others, by simp, fun rest' h => ?_⟩
    rw [List.append_assoc]
    exact .moreBranches (ih _ (h.append others)) (ihs rest' h)
  | @int l rest hl => exact ⟨[l], rfl, fun _ _ => .int hl⟩
  | @str l rest hl => exact ⟨[l], rfl, fun _ _ => .str hl⟩
  | @lower l rest hl => exact ⟨[l], rfl, fun _ _ => .lower hl⟩
  | @upper l rest hl => exact ⟨[l], rfl, fun _ _ => .upper hl⟩
  | @case l e bs ts mid rest hl _ _ hlast ihe ihs =>
    obtain ⟨branches, rfl, ihs⟩ := ihs
    obtain ⟨scrutinee, rfl, ihe⟩ := ihe
    refine ⟨l :: scrutinee ++ branches, by simp, fun rest' h => ?_⟩
    -- a new rest that starts a branch would be a branch of this case, as the old one would
    have hspans := Spans.case hl (ihe _ (h.append branches)) (ihs rest' h) fun hnext => hlast (h hnext)
    simpa using hspans
  | @group opening closing e ts rest hopening _ hclosing ih =>
    obtain ⟨inner, rfl, ih⟩ := ih
    refine ⟨opening :: inner ++ [closing], by simp, fun rest' _ => ?_⟩
    simpa using Spans.group hopening (ih (closing :: rest') (.of_head rfl)) hclosing
  | noArgument => exact ⟨[], rfl, fun _ _ => .noArgument⟩
  | argument _ _ ih ihs =>
    obtain ⟨others, rfl, ihs⟩ := ihs
    obtain ⟨first, rfl, ih⟩ := ih
    refine ⟨first ++ others, by simp, fun rest' h => ?_⟩
    rw [List.append_assoc]
    exact .argument (ih _ (h.append others)) (ihs rest' h)
  | application _ _ ih ihs =>
    obtain ⟨arguments, rfl, ihs⟩ := ihs
    obtain ⟨function, rfl, ih⟩ := ih
    refine ⟨function ++ arguments, by simp, fun rest' h => ?_⟩
    rw [List.append_assoc]
    exact .application (ih _ (h.append arguments)) (ihs rest' h)
  | @not l e ts rest hl _ ih =>
    obtain ⟨taken, rfl, ih⟩ := ih
    exact ⟨l :: taken, rfl, fun rest' h => .not hl (ih rest' h)⟩
  | applied _ ih =>
    obtain ⟨taken, rfl, ih⟩ := ih
    exact ⟨taken, rfl, fun rest' h => .applied (ih rest' h)⟩
  | operand hn _ ih =>
    obtain ⟨taken, rfl, ih⟩ := ih
    exact ⟨taken, rfl, fun rest' h => .operand hn (ih rest' h)⟩
  | @binary n op l left right ts mid rest hn _ hl _ ihl ihr =>
    obtain ⟨second, rfl, ihr⟩ := ihr
    obtain ⟨first, rfl, ihl⟩ := ihl
    refine ⟨first ++ l :: second, by simp, fun rest' h => ?_⟩
    rw [List.append_assoc, List.cons_append]
    exact .binary hn (ihl _ (.of_head rfl)) hl (ihr rest' h)
  | @constructor l fields ts rest hl _ ih =>
    obtain ⟨taken, rfl, ih⟩ := ih
    exact ⟨l :: taken, rfl, fun rest' h => .constructor hl (ih rest' h)⟩
  | noConstructor => exact ⟨[], rfl, fun _ _ => .noConstructor⟩
  | @nextConstructor comma c cs ts mid rest hcomma _ _ ih ihs =>
    obtain ⟨others, rfl, ihs⟩ := ihs
    obtain ⟨first, rfl, ih⟩ := ih
    refine ⟨comma :: first ++ others, by simp, fun rest' h => ?_⟩
    have hspans := Spans.nextConstructor hcomma (ih _ (h.append others)) (ihs rest' h)
    simpa using hspans
  | @function keyword name opening closing params e ts body rest hkeyword hname _ hopening _ hclosing
      ihp ihb =>
    obtain ⟨params', rfl, ihp⟩ := ihp
    obtain ⟨inner, rfl, ihb⟩ := ihb
    refine ⟨keyword :: name :: params' ++ opening :: inner ++ [closing], by simp, fun rest' _ => ?_⟩
    have hp := ihp (opening :: (inner ++ closing :: rest')) (.of_head rfl)
    have hb := ihb (closing :: rest') (.of_head rfl)
    simpa using Spans.function hkeyword hname hp hopening hb hclosing
  | @type keyword name assign c cs ts mid rest hkeyword hname hassign _ _ ih ihs =>
    obtain ⟨others, rfl, ihs⟩ := ihs
    obtain ⟨first, rfl, ih⟩ := ih
    refine ⟨keyword :: name :: assign :: first ++ others, by simp, fun rest' h => ?_⟩
    have hspans := Spans.type hkeyword hname hassign (ih _ (h.append others)) (ihs rest' h)
    simpa using hspans
  | noDefinition => exact ⟨[], rfl, fun _ _ => .noDefinition⟩
  | define _ _ ih ihs =>
    obtain ⟨others, rfl, ihs⟩ := ihs
    obtain ⟨first, rfl, ih⟩ := ih
    refine ⟨first ++ others, by simp, fun rest' h => ?_⟩
    rw [List.append_assoc]
    exact .define (ih _ (h.append others)) (ihs rest' h)

/-- What is a phrase with nothing after it is the same phrase before anything but a branch. -/
theorem before_rest (h : φ.Spans ts []) (hrest : nextKind? rest ≠ some .pattern) :
    φ.Spans (ts ++ rest) rest := by
  obtain ⟨taken, htaken, hexchange⟩ := h.exists_taken
  rw [List.append_nil] at htaken
  rw [htaken]
  exact hexchange rest (.of_ne hrest)

/-! ## Arguments and levels -/

/-- One more argument. -/
theorem append_argument (h : (arguments es).Spans ts mid) (ha : (atom a).Spans mid rest) :
    (arguments (es ++ [a])).Spans ts rest := by
  induction es generalizing ts with
  | nil =>
    cases h
    exact .argument ha .noArgument
  | cons e es ih =>
    cases h with
    | argument he hes => exact .argument he (ih hes)

/-- An application is a function of one more argument. -/
theorem apply (h : (Phrase.application e).Spans ts mid) (ha : (atom a).Spans mid rest) :
    (Phrase.application (.apply e a)).Spans ts rest := by
  cases h with
  | @application f es _ _ _ hf hes =>
    have happly : Expr.apply (f.applyAll es) a = f.applyAll (es ++ [a]) := by
      simp [Expr.applyAll]
    rw [happly]
    exact .application hf (hes.append_argument ha)

/-- What is of a level is of every looser one. -/
theorem loosen (h : (level n e).Spans ts rest) (hm : m ≤ n) (hn : n ≤ 6) :
    (level m e).Spans ts rest := by
  induction hk : n - m generalizing m with
  | zero =>
    obtain rfl : m = n := by omega
    exact h
  | succ k ih => exact .operand (by omega) (ih (by omega) (by omega))

end Spans

end Phrase

end Monotype
