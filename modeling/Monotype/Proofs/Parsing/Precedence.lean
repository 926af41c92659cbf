import Monotype.Proofs.Parsing.Acceptance
import Monotype.Proofs.Parsing.Lookahead

/-!
# `Monotype.Proofs.Parsing.Precedence` — chains of operators

Operands with binary operators between them are a chain. What tree a chain is can be said without the
levels of the grammar: the first of its loosest operators is the root, and what stands before and after
it are chains in their own right. The five levels, each of which decides by the next token alone, come
to the same tree.

The induction follows the splits of the tree. The operators before the split are tighter than the one at
which the chain is split, so they are a left operand of its level; those after it are no looser, so they
are a right operand (`Chain.spans`). The rest is that what the grammar says is read.

## Contents
- **`Link`**, **`Link.loosest`**, **`Expr.ofChain`**: the tree of a chain.
- **`Link.exists_split`**, **`Expr.ofChain_append`**: how a chain is split, and its tree.
- **`Chain`**: the tokens of a chain.
- **`Parser.expression_chain`**: reading a chain returns its tree.
-/

namespace Monotype

/-! ## The tree of a chain -/

/-- A binary operator in a chain, and the operand after it. -/
structure Link where
  op : BinaryOperator
  operand : Expr

namespace Link

/-- How tight the loosest of the operators binds; tighter than any operator if there is none. -/
def loosest (links : List Link) : Nat :=
  links.foldr (fun link tightness => min link.op.precedence tightness) Precedence.unary

/-- The links up to the first of the loosest operators. -/
def beforeLoosest (links : List Link) : List Link :=
  links.takeWhile fun link => link.op.precedence ≠ loosest links

/-- The links from the first of the loosest operators on. -/
def fromLoosest (links : List Link) : List Link :=
  links.dropWhile fun link => link.op.precedence ≠ loosest links

variable {link : Link} {links before after : List Link} {n : Nat}

theorem before_append_from (links : List Link) :
    beforeLoosest links ++ fromLoosest links = links := List.takeWhile_append_dropWhile

theorem length_before_add_from (links : List Link) :
    (beforeLoosest links).length + (fromLoosest links).length = links.length := by
  rw [← List.length_append, before_append_from]

/-- What is as loose as the loosest operator is as loose as each of them. -/
theorem le_loosest_iff :
    n ≤ loosest links ↔ n ≤ Precedence.unary ∧ ∀ link ∈ links, n ≤ link.op.precedence := by
  induction links with
  | nil => simp [loosest]
  | cons link links ih =>
    show n ≤ min link.op.precedence (loosest links) ↔ _
    rw [Nat.le_min, ih, List.forall_mem_cons]
    exact and_left_comm

/-- Where an operator stands after tighter ones and before no looser one, the chain is split there. -/
theorem loosest_append (hbefore : ∀ l ∈ before, link.op.precedence < l.op.precedence)
    (hafter : ∀ l ∈ after, link.op.precedence ≤ l.op.precedence) :
    loosest (before ++ link :: after) = link.op.precedence := by
  apply Nat.le_antisymm
  · exact (le_loosest_iff.mp (Nat.le_refl _)).2 link (by simp)
  · refine le_loosest_iff.mpr ⟨Nat.le_succ_of_le link.op.precedence_le, fun l hl => ?_⟩
    rcases List.mem_append.mp hl with hl | hl
    · exact Nat.le_of_lt (hbefore l hl)
    · rcases List.mem_cons.mp hl with rfl | hl
      · exact Nat.le_refl _
      · exact hafter l hl

/-- Every chain with an operator can be split at the first of its loosest operators. -/
theorem exists_split (h : links ≠ []) : ∃ before link after, links = before ++ link :: after ∧
    (∀ l ∈ before, link.op.precedence < l.op.precedence) ∧
    (∀ l ∈ after, link.op.precedence ≤ l.op.precedence) := by
  induction links with
  | nil => exact absurd rfl h
  | cons first others ih =>
    by_cases hothers : ∀ l ∈ others, first.op.precedence ≤ l.op.precedence
    · exact ⟨[], first, others, rfl, by simp, hothers⟩
    · -- the first operator is not among the loosest, so they are those of the others
      have hnonempty : others ≠ [] := by
        rintro rfl
        exact hothers (by simp)
      obtain ⟨before, link, after, rfl, hbefore, hafter⟩ := ih hnonempty
      refine ⟨first :: before, link, after, rfl, ?_, hafter⟩
      have hloosest : ∀ l ∈ before ++ link :: after, link.op.precedence ≤ l.op.precedence :=
        (le_loosest_iff.mp (Nat.le_of_eq (loosest_append hbefore hafter).symm)).2
      have hfirst : link.op.precedence < first.op.precedence :=
        Nat.lt_of_not_le fun hle => hothers fun l hl => Nat.le_trans hle (hloosest l hl)
      exact List.forall_mem_cons.mpr ⟨hfirst, hbefore⟩

end Link

namespace Expr

/-- The tree of a chain: the first of its loosest operators, over the trees of what stands before and
after it. -/
def ofChain (first : Expr) (links : List Link) : Expr :=
  match _ : Link.fromLoosest links with
  | [] => first
  | link :: after =>
    .binary link.op (ofChain first (Link.beforeLoosest links)) (ofChain link.operand after)
termination_by links.length
decreasing_by
  all_goals
    have hlength := Link.length_before_add_from links
    rw [‹Link.fromLoosest links = _›, List.length_cons] at hlength
    omega

variable {first : Expr} {link : Link} {before after : List Link}

@[simp] theorem ofChain_nil : ofChain first [] = first := by
  rw [ofChain]
  rfl

/-- A chain is split at an operator that stands after tighter ones and before no looser one. -/
theorem ofChain_append (hbefore : ∀ l ∈ before, link.op.precedence < l.op.precedence)
    (hafter : ∀ l ∈ after, link.op.precedence ≤ l.op.precedence) :
    ofChain first (before ++ link :: after) =
      .binary link.op (ofChain first before) (ofChain link.operand after) := by
  have hloosest := Link.loosest_append hbefore hafter
  have htighter : ∀ l ∈ before,
      decide (l.op.precedence ≠ Link.loosest (before ++ link :: after)) = true := by
    intro l hl
    rw [hloosest]
    exact decide_eq_true (Nat.ne_of_gt (hbefore l hl))
  have hsplit : Link.fromLoosest (before ++ link :: after) = link :: after := by
    unfold Link.fromLoosest
    rw [List.dropWhile_append_of_pos htighter, List.dropWhile_cons_of_neg (by simp [hloosest])]
  have hbeforeLoosest : Link.beforeLoosest (before ++ link :: after) = before := by
    unfold Link.beforeLoosest
    rw [List.takeWhile_append_of_pos htighter, List.takeWhile_cons_of_neg (by simp [hloosest]),
      List.append_nil]
  rw [ofChain]
  split
  · rename_i hnil
    rw [hsplit] at hnil
    exact absurd hnil (List.cons_ne_nil _ _)
  · rename_i heq
    rw [hsplit] at heq
    cases heq
    rw [hbeforeLoosest]

end Expr

/-! ## The tokens of a chain -/

/-- The tokens are one operand: it is all that is read of them. -/
def IsOperand (tokens : List Token) (e : Expr) : Prop :=
  ∃ c, Parser.unary (.ofTokens tokens) = .ok e c ∧ c.rest = []

/-- The tokens are an operand, and links that start with one operator each. -/
inductive Chain : List Token → Expr → List Link → Prop
  | operand {tokens : List Token} {e : Expr} (h : IsOperand tokens e) : Chain tokens e []
  | link {tokens others : List Token} {operator : Token} {e next : Expr} {op : BinaryOperator}
      {links : List Link} (hfirst : IsOperand tokens e) (hoperator : operator.kind = op.kind)
      (hothers : Chain others next links) :
      Chain (tokens ++ operator :: others) e (⟨op, next⟩ :: links)

open Phrase Phrase.Spans

theorem IsOperand.spans {tokens : List Token} {e : Expr} (h : IsOperand tokens e) :
    (level 6 e).Spans (tokens.map Token.toLexeme) [] := by
  obtain ⟨c, hrun, hrest⟩ := h
  have hspans := ((Parser.reads_unaryOver Parser.reads_expression).reads (.ofTokens tokens)).sound hrun
  have hnil : c.lexemes = [] := by
    rw [Cursor.lexemes, hrest]
    rfl
  rw [hnil] at hspans
  exact hspans

namespace Chain

variable {tokens : List Token} {first : Expr} {link : Link} {links before after : List Link}
  {rest : List Lexeme} {n : Nat}

/-- Where the links of a chain are split, so are its tokens. -/
theorem split (h : Chain tokens first (before ++ link :: after)) :
    ∃ left operator right, tokens = left ++ operator :: right ∧ operator.kind = link.op.kind ∧
      Chain left first before ∧ Chain right link.operand after := by
  induction before generalizing tokens first with
  | nil =>
    cases h with
    | link hfirst hoperator hothers =>
      exact ⟨_, _, _, rfl, hoperator, .operand hfirst, hothers⟩
  | cons l before ih =>
    cases h with
    | @link tokens _ operator' _ _ _ _ hfirst hoperator' hothers =>
      obtain ⟨left, operator, right, rfl, hoperator, hleft, hright⟩ := ih hothers
      refine ⟨tokens ++ operator' :: left, operator, right, by simp, hoperator, ?_, hright⟩
      exact .link hfirst hoperator' hleft

/-- **A chain is its tree.** In the grammar, a chain whose operators are of some level or tighter is an
expression of that level, and the expression is the tree of the chain. -/
theorem spans (h : Chain tokens first links) (hn : n ≤ Precedence.unary)
    (hlinks : ∀ l ∈ links, n ≤ l.op.precedence) (hrest : nextKind? rest ≠ some .pattern) :
    (level n (Expr.ofChain first links)).Spans (tokens.map Token.toLexeme ++ rest) rest := by
  -- both sides of a split have fewer links
  induction hlength : links.length using Nat.strongRecOn
    generalizing tokens first links rest n with
  | _ length ih =>
    by_cases hnil : links = []
    · subst hnil
      cases h with
      | operand hoperand =>
        rw [Expr.ofChain_nil]
        exact (hoperand.spans.before_rest hrest).loosen hn (Nat.le_refl _)
    · obtain ⟨before, link, after, rfl, hbefore, hafter⟩ := Link.exists_split hnil
      obtain ⟨left, operator, right, rfl, hoperator, hleft, hright⟩ := h.split
      have hlevel : link.op.precedence + 1 ≤ Precedence.unary := Nat.succ_le_succ link.op.precedence_le
      have hkind : operator.kind ≠ .pattern := by
        rw [hoperator]
        cases link.op <;> decide
      rw [List.length_append, List.length_cons] at hlength
      have hspansRight := ih after.length (by omega) hright (Nat.le_of_succ_le hlevel) hafter hrest rfl
      have hoperatorNext : nextKind? (operator.toLexeme :: (right.map Token.toLexeme ++ rest)) ≠
          some .pattern := by simpa using hkind
      have hspansLeft := ih before.length (by omega) hleft hlevel hbefore hoperatorNext rfl
      have hbinary := Spans.binary rfl hspansLeft hoperator hspansRight
      rw [Expr.ofChain_append hbefore hafter]
      have hloosened := hbinary.loosen (hlinks link (by simp)) (Nat.le_of_succ_le hlevel)
      simpa using hloosened

end Chain

namespace Parser

/-! ## Reading a chain -/

/-- A token of that kind could belong to a chain that it stands after. -/
def continuesChain (kind : Kind) : Bool :=
  startsAtom kind || (BinaryOperator.ofKind? kind).isSome || kind = .pattern

variable {tokens follow : List Token} {first : Expr} {links : List Link} {e : Expr} {c : Cursor}
  {ts rest : List Lexeme}

/-- Reading an expression ends, and it takes tokens from the front. -/
theorem exists_skip_of_accepts (h : Accepts expression (c.rest.map Token.toLexeme) e rest) :
    ∃ j ≤ c.remaining, expression c = .ok e (c.skip j) ∧ (c.skip j).lexemes = rest := by
  rcases h c rfl with hendless | ⟨c', hrun, hrest⟩
  · have hadvances := progresses_expression c (Nat.le_refl _)
    rw [hendless] at hadvances
    exact absurd hadvances id
  · have hstate : (expression c).state? = some c' := by
      rw [hrun]
      rfl
    obtain ⟨j, hj, rfl⟩ := predictive_expression.advances hstate
    exact ⟨j, hj, hrun, hrest⟩

theorem stops_of_not_continuesChain (h : (nextKind? rest).any continuesChain = false) :
    Stops (level 1 e) rest ∧ nextKind? rest ≠ some .pattern := by
  have hkind : ∀ kind, nextKind? rest = some kind → startsAtom kind = false ∧
      BinaryOperator.ofKind? kind = none ∧ kind ≠ .pattern := by
    intro kind hnext
    rw [hnext] at h
    simpa [continuesChain, and_assoc] using h
  constructor
  · unfold Stops
    cases hnext : nextKind? rest with
    | none => rfl
    | some kind =>
      obtain ⟨hatom, hoperator, _⟩ := hkind kind hnext
      simp [Phrase.continues, hatom, hoperator]
  · exact fun hnext => (hkind _ hnext).2.2 rfl

/-- **Chains are read by precedence.** Operands with binary operators between them, before the end of the
tokens or a token that continues no chain, are read as the tree of the chain, and they are all that is
taken. -/
theorem expression_chain (h : Chain tokens first links)
    (hfollow : (follow.head?.map fun token => token.kind).any continuesChain = false) (position : Nat) :
    expression ⟨position, tokens ++ follow⟩ =
      .ok (.ofChain first links) ⟨position + tokens.length, follow⟩ := by
  have hnext : nextKind? (follow.map Token.toLexeme) = follow.head?.map fun token => token.kind := by
    cases follow <;> rfl
  rw [← hnext] at hfollow
  obtain ⟨hstops, hbranch⟩ : Stops (level 1 (.ofChain first links)) (follow.map Token.toLexeme) ∧ _ :=
    stops_of_not_continuesChain hfollow
  have hspans : (level 1 (Expr.ofChain first links)).Spans
      ((tokens ++ follow).map Token.toLexeme) (follow.map Token.toLexeme) := by
    rw [List.map_append]
    exact h.spans (by decide) (fun l _ => l.op.precedence_pos) hbranch
  obtain ⟨j, hj, hrun, hrest⟩ := @exists_skip_of_accepts (.ofChain first links) ⟨position, tokens ++ follow⟩
    (follow.map Token.toLexeme) (accepts_expression (hspans.accepted hstops))
  -- as many tokens are left as follow the chain, so it is the chain that was taken
  have hlength : (tokens ++ follow).length - j = follow.length := by
    have hlengths := congrArg List.length hrest
    simpa [Cursor.lexemes, Cursor.skip] using hlengths
  have htaken : j = tokens.length := by
    have hremaining : j ≤ (tokens ++ follow).length := hj
    rw [List.length_append] at hlength hremaining
    omega
  rw [hrun, htaken]
  simp [Cursor.skip]

/-- `x - 1 - y * 2 == !z` before a closing brace: the comparison is the root, and differences group to the
right. -/
theorem expression_chain_comparison :
    let name := fun name => (⟨.text .lowerName name, 0⟩ : Token)
    let number := fun value => (⟨.int value, 0⟩ : Token)
    let bare := fun kind => (⟨.bare kind, 0⟩ : Token)
    expression ⟨0, [name "x", bare .minus, number 1, bare .minus, name "y", bare .times, number 2,
        bare .equal, bare .not, name "z", bare .closeCurly]⟩ =
      .ok (.binary .equals
        (.binary .minus (.lower "x") (.binary .minus (.int 1) (.binary .times (.lower "y") (.int 2))))
        (.unary .not (.lower "z"))) ⟨10, [bare .closeCurly]⟩ := by
  intro name number bare
  have hchain : Chain ([name "x"] ++ bare .minus :: ([number 1] ++ bare .minus :: ([name "y"] ++
      bare .times :: ([number 2] ++ bare .equal :: [bare .not, name "z"])))) (.lower "x")
      ([⟨.minus, .int 1⟩, ⟨.minus, .lower "y"⟩, ⟨.times, .int 2⟩] ++
        ⟨.equals, .unary .not (.lower "z")⟩ :: []) :=
    .link ⟨_, rfl, rfl⟩ rfl <| .link ⟨_, rfl, rfl⟩ rfl <| .link ⟨_, rfl, rfl⟩ rfl <|
      .link ⟨_, rfl, rfl⟩ rfl <| .operand ⟨_, rfl, rfl⟩
  have hdifference : Expr.ofChain (.lower "x") ([] ++ ⟨.minus, .int 1⟩ ::
      [⟨.minus, .lower "y"⟩, ⟨.times, .int 2⟩]) = _ := Expr.ofChain_append (by decide) (by decide)
  have hsubtrahend : Expr.ofChain (.int 1) ([] ++ ⟨.minus, .lower "y"⟩ :: [⟨.times, .int 2⟩]) = _ :=
    Expr.ofChain_append (by decide) (by decide)
  have hproduct : Expr.ofChain (.lower "y") ([] ++ ⟨.times, .int 2⟩ :: []) = _ :=
    Expr.ofChain_append (by decide) (by decide)
  have hread := expression_chain hchain (show ([bare .closeCurly].head?.map fun token => token.kind).any
    continuesChain = false by decide) 0
  rw [Expr.ofChain_append (by decide) (by decide)] at hread
  simp only [List.nil_append, Expr.ofChain_nil] at hdifference hsubtrahend hproduct hread
  rw [hdifference, hsubtrahend, hproduct] at hread
  exact hread

end Parser

end Monotype
