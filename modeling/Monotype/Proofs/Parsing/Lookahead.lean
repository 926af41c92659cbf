import Monotype.Parser.Grammar

/-!
# `Monotype.Proofs.Parsing.Lookahead` — one token ahead

What a parser does is decided by the tokens that it takes and the one after them: before any other
tokens that agree so far, it does the same. The only thing that could make a difference is how many
tokens there are in all, because the budgets of repetitions and of nesting are taken from that number.
So the statement compares two parsers that may have different budgets (`Predictive p q`): where the one
ends, the other does the same, unless its budget is too small.

## Contents
- **`Cursor.skip`**: some tokens further on.
- **`Predictive`**: the relation; **`Predictive.eq_of_ends`**, **`predictive_of_still`**,
  **`Predictive.bind`**, **`Predictive.byBudget`**.
- **`predictive_expressionWithin`**, **`predictive_program`**.
-/

namespace Monotype

namespace Cursor

/-- Some tokens further on. -/
def skip (c : Cursor) (j : Nat) : Cursor := ⟨c.position + j, c.rest.drop j⟩

variable {c d : Cursor} {i j : Nat}

@[simp] theorem skip_zero : c.skip 0 = c := by simp [skip]

theorem skip_skip : (c.skip i).skip j = c.skip (i + j) := by
  simp [skip, Nat.add_assoc]

/-- Two places are as far on as their positions are, also behind the last token. -/
theorem skip_inj (h : c.skip i = c.skip j) : i = j := by
  have hposition : c.position + i = c.position + j := congrArg Cursor.position h
  omega

theorem remaining_skip : (c.skip j).remaining = c.remaining - j := List.length_drop

/-- Places that agree on the tokens before two other places agree on fewer. -/
theorem take_le_of_take (h : d.rest.take j = c.rest.take j) (hi : i ≤ j) :
    d.rest.take i = c.rest.take i := by
  have htake : ∀ tokens : List Token, tokens.take i = (tokens.take j).take i := by
    intro tokens
    rw [List.take_take, Nat.min_eq_left hi]
  rw [htake, h, ← htake]

/-- What agrees up to some token agrees from an earlier one up to there. -/
theorem take_skip_of_take (h : d.rest.take (i + j) = c.rest.take (i + j)) :
    (d.skip i).rest.take j = (c.skip i).rest.take j := by
  show (d.rest.drop i).take j = (c.rest.drop i).take j
  rw [List.take_drop, List.take_drop, h]

/-- Places that agree on a token more than they need show the same next token, or both show the end. -/
theorem peek?_of_take (h : d.rest.take (j + 1) = c.rest.take (j + 1)) : d.peek? = c.peek? := by
  have hone := take_le_of_take h (Nat.le_add_left 1 j)
  have hhead : ∀ tokens : List Token, tokens.head? = (tokens.take 1).head? := by
    intro tokens
    cases tokens <;> rfl
  unfold peek?
  rw [hhead, hone, ← hhead]

end Cursor

namespace Parser

/-- What `p` does is decided by the tokens that it takes and the one after them: before tokens that agree
so far, `q` does the same, unless it never ends. An error is about the token at which `p` stops. -/
structure Predictive {α : Type} (p q : Parser α) : Prop where
  advances : ∀ {c c'}, (p c).state? = some c' → ∃ j ≤ c.remaining, c' = c.skip j
  blames : ∀ {c e c'}, p c = .error e c' → ∃ expected, e = c'.unexpected expected
  same : ∀ {c d j}, (p c).state? = some (c.skip j) → j ≤ c.remaining →
    d.rest.take (j + 1) = c.rest.take (j + 1) → q d = .endless ∨ q d = (p c).mapState fun _ => d.skip j

section Combinators

variable {α β : Type} {p q : Parser α} {f g : α → Parser β} {starts : Kind → Bool}
  {item item' : Parser α}

/-- A parser that never ends predicts anything. -/
theorem Predictive.endless (q : Parser α) : Predictive Run.endless q :=
  ⟨fun h => absurd h (by simp [Outcome.state?]), fun h => absurd h (by simp),
    fun h => absurd h (by simp [Outcome.state?])⟩

/-- Nothing has to be compared with a parser that never ends. -/
theorem Predictive.endless_right (h : Predictive p q) : Predictive p Run.endless :=
  ⟨h.advances, h.blames, fun _ _ _ => .inl rfl⟩

/-- Where both parsers end, they do the same. -/
theorem Predictive.eq_of_ends (h : Predictive p q) {c : Cursor} (hp : (p c).Ends) (hq : (q c).Ends) :
    q c = p c := by
  obtain ⟨c', hstate⟩ := Option.isSome_iff_exists.mp hp
  obtain ⟨j, hj, rfl⟩ := h.advances hstate
  rcases h.same hstate hj rfl with hendless | hsame
  · exact absurd hendless (Outcome.ends_iff.mp hq)
  · rw [hsame]
    generalize p c = o at hstate
    cases o with
    | ok a c₁ => rw [Option.some.inj hstate]; rfl
    | error e c₁ => rw [Option.some.inj hstate]; rfl
    | endless => exact absurd hstate (by simp [Outcome.state?])

/-- A parser that ends stops between where it started and the end of the tokens. -/
theorem Predictive.exists_stop (h : Predictive p q) {tokens : List Token} {i : Nat}
    (hi : i ≤ tokens.length) (hends : (p ((Cursor.ofTokens tokens).skip i)).Ends) :
    ∃ j, i ≤ j ∧ j ≤ tokens.length ∧
      (p ((Cursor.ofTokens tokens).skip i)).state? = some ((Cursor.ofTokens tokens).skip j) := by
  obtain ⟨c', hstate⟩ := Option.isSome_iff_exists.mp hends
  obtain ⟨taken, htaken, rfl⟩ := h.advances hstate
  have hlength : (Cursor.ofTokens tokens).remaining = tokens.length := rfl
  rw [Cursor.remaining_skip] at htaken
  exact ⟨i + taken, by omega, by omega, by rw [hstate, Cursor.skip_skip]⟩

/-- A parser that takes nothing is decided by the next token. -/
theorem predictive_of_still (hstill : ∀ c, (p c).state? = some c)
    (hblames : ∀ c e, p c = .error e c → ∃ expected, e = c.unexpected expected)
    (hsame : ∀ c d, d.peek? = c.peek? → p d = (p c).mapState fun _ => d) : Predictive p p := by
  refine ⟨fun {c c'} h => ?_, fun {c e c'} h => ?_, fun {c d j} h _ htake => ?_⟩
  · obtain rfl : c = c' := Option.some.inj ((hstill c).symm.trans h)
    exact ⟨0, Nat.zero_le _, Cursor.skip_zero.symm⟩
  · have hstate := hstill c
    rw [h] at hstate
    obtain rfl : c' = c := Option.some.inj hstate
    exact hblames c' e h
  · have hj : c.skip 0 = c.skip j := by
      rw [Cursor.skip_zero]
      exact Option.some.inj ((hstill c).symm.trans h)
    obtain rfl : 0 = j := Cursor.skip_inj hj
    rw [Cursor.skip_zero]
    exact .inr (hsame c d (Cursor.peek?_of_take htake))

theorem predictive_pure (a : α) : Predictive (pure a) (pure a) :=
  predictive_of_still (fun _ => rfl) (fun _ _ h => absurd h (by simp)) fun _ _ _ => rfl

/-- An error is about the next token, and so is decided by it. -/
theorem predictive_unexpected (expected : String) :
    Predictive (unexpected expected : Parser α) (unexpected expected) := by
  refine predictive_of_still (fun _ => rfl) (fun c e h => ?_) fun c d hpeek => ?_
  · cases h
    exact ⟨expected, rfl⟩
  · show Outcome.error (d.unexpected expected) d = Outcome.error (c.unexpected expected) d
    unfold Cursor.unexpected
    rw [hpeek]

theorem predictive_peekKind? : Predictive peekKind? peekKind? := by
  refine predictive_of_still (fun _ => rfl) (fun _ _ h => absurd h (by simp [peekKind?])) ?_
  intro c d hpeek
  show Outcome.ok d.peekKind? d = Outcome.ok c.peekKind? d
  unfold Cursor.peekKind?
  rw [hpeek]

/-- **A token that is expected is looked at, and taken if it is the right one.** -/
theorem predictive_expect (kind : Kind) : Predictive (expect kind) (expect kind) := by
  have hfound : ∀ {position token rest}, token.kind = kind →
      expect kind ⟨position, token :: rest⟩ = .ok token (Cursor.skip ⟨position, token :: rest⟩ 1) := by
    intro position token rest hkind
    simp [expect, hkind, Cursor.skip]
  have hnotFound : ∀ {c : Cursor}, c.peekKind? ≠ some kind → expect kind c = unexpected kind.name c := by
    intro c hkind
    obtain ⟨position, rest⟩ := c
    cases rest with
    | nil => rfl
    | cons token rest =>
      have hne : token.kind ≠ kind := fun h => hkind (by rw [Cursor.peekKind?_cons, h])
      simp [expect, hne]
  have hother : Predictive (unexpected kind.name : Parser Token) (unexpected kind.name) :=
    predictive_unexpected kind.name
  -- the kind of the next token decides all three: it is taken, or it is what the error is about
  refine ⟨fun {c c'} h => ?_, fun {c e c'} h => ?_, fun {c d j} h hj htake => ?_⟩
  all_goals by_cases hkind : c.peekKind? = some kind
  · obtain ⟨position, _ | ⟨token, rest⟩⟩ := c
    · exact absurd hkind (by simp)
    · rw [hfound (Option.some.inj hkind)] at h
      cases h
      exact ⟨1, Nat.succ_le_succ (Nat.zero_le _), rfl⟩
  · rw [hnotFound hkind] at h
    exact hother.advances h
  · obtain ⟨position, _ | ⟨token, rest⟩⟩ := c
    · exact absurd hkind (by simp)
    · rw [hfound (Option.some.inj hkind)] at h
      exact absurd h (by simp)
  · rw [hnotFound hkind] at h
    exact hother.blames h
  · obtain ⟨position, _ | ⟨token, rest⟩⟩ := c
    · exact absurd hkind (by simp)
    · have hpeek := Cursor.peek?_of_take htake
      obtain ⟨position', _ | ⟨token', rest'⟩⟩ := d
      · exact absurd hpeek (by simp)
      · obtain rfl : token' = token := Option.some.inj hpeek
        rw [hfound (Option.some.inj hkind)] at h ⊢
        rw [hfound (Option.some.inj hkind)]
        obtain rfl : 1 = j := Cursor.skip_inj (Option.some.inj h)
        exact .inr rfl
  · have hkind' : d.peekKind? ≠ some kind := by
      unfold Cursor.peekKind? at hkind ⊢
      rw [Cursor.peek?_of_take htake]
      exact hkind
    rw [hnotFound hkind] at h ⊢
    rw [hnotFound hkind']
    exact hother.same h hj htake

/-- Passing a token by takes it if there is one. At the end of the tokens the parser stays where it is. -/
theorem predictive_skipToken : Predictive skipToken skipToken := by
  have hcons : ∀ {position token rest}, Cursor.advance ⟨position, token :: rest⟩ =
      Cursor.skip ⟨position, token :: rest⟩ 1 := rfl
  refine ⟨fun {c c'} h => ?_, fun h => absurd h (by simp [skipToken]), fun {c d j} h _ htake => ?_⟩
  · obtain rfl : c.advance = c' := Option.some.inj h
    obtain ⟨position, _ | ⟨token, rest⟩⟩ := c
    · exact ⟨0, Nat.zero_le _, Cursor.skip_zero.symm⟩
    · exact ⟨1, Nat.succ_le_succ (Nat.zero_le _), hcons⟩
  · have hadvance : c.advance = c.skip j := Option.some.inj h
    have hpeek := Cursor.peek?_of_take htake
    refine .inr ?_
    show Outcome.ok () d.advance = Outcome.ok () (d.skip j)
    -- the next tokens agree, and so both places have one to pass by, or neither has
    obtain ⟨position, _ | ⟨token, rest⟩⟩ := c
    · obtain ⟨position', _ | ⟨token', rest'⟩⟩ := d
      · obtain rfl : 0 = j := Cursor.skip_inj (Cursor.skip_zero.trans hadvance)
        rw [Cursor.skip_zero]
        rfl
      · exact absurd hpeek (by simp)
    · obtain rfl : 1 = j := Cursor.skip_inj hadvance
      obtain ⟨position', _ | ⟨token', rest'⟩⟩ := d
      · exact absurd hpeek (by simp)
      · rfl

/-- Where the two parts of a sequence stop. -/
theorem Predictive.exists_parts {r r' : Parser β} {c c₁ : Cursor} {a : α} {j : Nat} (hp : Predictive p q)
    (hr : Predictive r r') (hfirst : p c = .ok a c₁) (hsecond : (r c₁).state? = some (c.skip j)) :
    ∃ i k, i ≤ c.remaining ∧ k ≤ (c.skip i).remaining ∧ c₁ = c.skip i ∧ j = i + k := by
  obtain ⟨i, hi, rfl⟩ := hp.advances (by rw [hfirst]; rfl)
  obtain ⟨k, hk, hskip⟩ := hr.advances hsecond
  rw [Cursor.skip_skip] at hskip
  exact ⟨i, k, hi, hk, rfl, Cursor.skip_inj hskip⟩

/-- **Lookahead passes through sequences**: the second part starts where the first one stopped. -/
theorem Predictive.bind (hp : Predictive p q) (hf : ∀ a, Predictive (f a) (g a)) :
    Predictive (p >>= f) (q >>= g) := by
  refine ⟨fun {c c'} h => ?_, fun {c e c'} h => ?_, fun {c d j} h hj htake => ?_⟩
  · rcases Outcome.state?_bind_eq_some_iff.mp h with ⟨a, c₁, hfirst, hsecond⟩ | ⟨e, hfirst⟩
    · obtain ⟨i, hi, rfl⟩ := hp.advances (by rw [hfirst]; rfl)
      obtain ⟨k, hk, rfl⟩ := (hf a).advances hsecond
      rw [Cursor.remaining_skip] at hk
      exact ⟨i + k, by omega, Cursor.skip_skip⟩
    · exact hp.advances (by rw [hfirst]; rfl)
  · rw [Run.run_bind] at h
    cases hfirst : p c with
    | ok a c₁ =>
      rw [hfirst] at h
      exact (hf a).blames h
    | error e' c₁ =>
      rw [hfirst] at h
      cases h
      exact hp.blames hfirst
    | endless =>
      rw [hfirst] at h
      exact absurd h (by simp)
  · rw [Run.run_bind, Run.run_bind]
    rcases Outcome.state?_bind_eq_some_iff.mp h with ⟨a, c₁, hfirst, hsecond⟩ | ⟨e, hfirst⟩
    · obtain ⟨i, k, hi, hk, rfl, rfl⟩ := hp.exists_parts (hf a) hfirst hsecond
      -- the token after the first part is one of the second part, or the one after it
      have hhere : d.rest.take (i + 1) = c.rest.take (i + 1) :=
        Cursor.take_le_of_take htake (by omega)
      have hthere : (d.skip i).rest.take (k + 1) = (c.skip i).rest.take (k + 1) :=
        Cursor.take_skip_of_take htake
      rcases hp.same (by rw [hfirst]; rfl) hi hhere with hendless | hsame
      · rw [hendless]
        exact .inl rfl
      · rw [hsame, hfirst]
        show g a (d.skip i) = .endless ∨ g a (d.skip i) = (f a (c.skip i)).mapState fun _ => d.skip (i + k)
        rw [← Cursor.skip_skip] at hsecond ⊢
        exact (hf a).same hsecond hk hthere
    · rcases hp.same (by rw [hfirst]; rfl) hj htake with hendless | hsame
      · rw [hendless]
        exact .inl rfl
      · rw [hsame, hfirst]
        exact .inr rfl

theorem Predictive.map (hp : Predictive p q) (g : α → β) :
    Predictive (p >>= fun a => pure (g a)) (q >>= fun a => pure (g a)) :=
  hp.bind fun _ => predictive_pure _

/-- Parsers that never end without a budget are compared under any two budgets, by what is known of
smaller ones. -/
theorem Predictive.byBudget {P Q : Nat → Parser α} (hP : P 0 = Run.endless) (hQ : Q 0 = Run.endless)
    (hstep : ∀ budget, (∀ budget', Predictive (P budget) (Q budget')) →
      ∀ budget', Predictive (P (budget + 1)) (Q (budget' + 1))) (budget budget' : Nat) :
    Predictive (P budget) (Q budget') := by
  induction budget generalizing budget' with
  | zero =>
    rw [hP]
    exact .endless _
  | succ budget ih =>
    cases budget' with
    | zero =>
      rw [hQ]
      exact (hstep budget ih 0).endless_right
    | succ budget' => exact hstep budget ih budget'

/-- Budgets that depend on where a parser starts. -/
theorem Predictive.budgets {P Q : Nat → Parser α} (h : ∀ budget budget', Predictive (P budget) (Q budget'))
    (bound bound' : Cursor → Nat) : Predictive (fun c => P (bound c) c) (fun c => Q (bound' c) c) :=
  ⟨fun hstate => (h _ 0).advances hstate, fun herror => (h _ 0).blames herror,
    fun hstate hj htake => (h _ _).same hstate hj htake⟩

theorem predictive_expectText (kind : Kind) : Predictive (expectText kind) (expectText kind) :=
  (predictive_expect kind).map _

/-- A choice looks at the next token and takes nothing; what is chosen starts at that token. -/
theorem Predictive.predict {expected : String} {select select' : Kind → Option (Parser α)}
    (hselect : ∀ kind, Option.Rel Predictive (select kind) (select' kind)) :
    Predictive (Parser.predict expected select) (Parser.predict expected select') := by
  refine predictive_peekKind?.bind fun next => ?_
  cases next with
  | none => exact predictive_unexpected expected
  | some kind =>
    have hkind := hselect kind
    simp only [Option.bind_some]
    generalize select kind = chosen, select' kind = chosen' at hkind ⊢
    cases hkind with
    | some hchosen => exact hchosen
    | none => exact predictive_unexpected expected

/-- Items under any two budgets. -/
theorem Predictive.manyWithin (hitem : Predictive item item') (budget budget' : Nat) :
    Predictive (Parser.manyWithin starts item budget) (Parser.manyWithin starts item' budget') := by
  refine .byBudget rfl rfl (fun budget ih budget' => ?_) budget budget'
  refine predictive_peekKind?.bind fun next => ?_
  by_cases hstarts : next.any starts
  · rw [if_pos hstarts, if_pos hstarts]
    exact hitem.bind fun a => (ih budget').map _
  · rw [if_neg hstarts, if_neg hstarts]
    exact predictive_pure []

/-- A repetition decides by the next token whether there is another item. -/
theorem Predictive.many (hitem : Predictive item item') :
    Predictive (Parser.many starts item) (Parser.many starts item') :=
  .budgets hitem.manyWithin (fun c => c.remaining + 1) fun c => c.remaining + 1

theorem Predictive.many1 (hitem : Predictive item item') :
    Predictive (Parser.many1 starts item) (Parser.many1 starts item') :=
  hitem.bind fun _ => hitem.many.map _

/-- Operands under any two budgets. -/
theorem Predictive.chainWithin {operator : Kind → Option BinaryOperator} {operand operand' : Parser Expr}
    (hoperand : Predictive operand operand') (budget budget' : Nat) :
    Predictive (Parser.chainWithin operator operand budget)
      (Parser.chainWithin operator operand' budget') := by
  refine .byBudget rfl rfl (fun budget ih budget' => ?_) budget budget'
  refine hoperand.bind fun left => predictive_peekKind?.bind fun next => ?_
  cases next.bind operator with
  | none => exact predictive_pure left
  | some op => exact predictive_skipToken.bind fun _ => (ih budget').map _

/-- A chain decides by the next token whether there is another operand. -/
theorem Predictive.chain {operator : Kind → Option BinaryOperator} {operand operand' : Parser Expr}
    (hoperand : Predictive operand operand') :
    Predictive (Parser.chain operator operand) (Parser.chain operator operand') :=
  .budgets hoperand.chainWithin (fun c => c.remaining + 1) fun c => c.remaining + 1

/-- The levels of operators look one token ahead, each over the next tighter one. -/
theorem Predictive.levelsOver {operand operand' : Parser Expr} (hoperand : Predictive operand operand')
    (levels : List Nat) :
    Predictive (Parser.levelsOver operand levels) (Parser.levelsOver operand' levels) := by
  induction levels with
  | nil => exact hoperand
  | cons level levels ih => exact ih.chain

end Combinators

/-! ## Names, constructors and patterns -/

theorem predictive_names (kind : Kind) : Predictive (names kind) (names kind) :=
  (predictive_expectText kind).many

theorem predictive_constructor (kind : Kind) : Predictive (constructor kind) (constructor kind) :=
  (predictive_expectText .upperName).bind fun _ => (predictive_names kind).map _

/-- A pattern is chosen by its first token. -/
theorem predictive_pattern : Predictive pattern pattern := by
  refine .predict fun kind => ?_
  cases kind
  case lowerName => exact .some ((predictive_expectText .lowerName).map _)
  case upperName => exact .some ((predictive_constructor .lowerName).map _)
  all_goals exact .none

/-! ## Expressions over parsers for the expressions inside -/

section Nested

variable {nested nested' : Parser Expr} (hnested : Predictive nested nested')

include hnested

theorem predictive_branchOver : Predictive (branchOver nested) (branchOver nested') :=
  (predictive_expect .pattern).bind fun _ => predictive_pattern.bind fun _ =>
    (predictive_expect .arrow).bind fun _ => (predictive_expect .openCurly).bind fun _ =>
    hnested.bind fun _ => (predictive_expect .closeCurly).map _

theorem predictive_branchesOver : Predictive (branchesOver nested) (branchesOver nested') :=
  (predictive_branchOver hnested).many1

/-- A case, over a parser for the scrutinee and the bodies. It is as long as there are further bars. -/
theorem predictive_caseOver : Predictive (caseOver nested) (caseOver nested') :=
  (predictive_expect .case).bind fun _ => hnested.bind fun _ =>
    (predictive_branchesOver hnested).map _

theorem predictive_groupOver : Predictive (groupOver nested) (groupOver nested') :=
  (predictive_expect .openParen).bind fun _ => hnested.bind fun _ =>
    (predictive_expect .closeParen).map _

/-- Which kind of atom it is shows in its first token. -/
theorem predictive_atomOver : Predictive (atomOver nested) (atomOver nested') := by
  refine .predict fun kind => ?_
  cases kind
  case int => exact .some (((predictive_expect .int).map _).map _)
  case literal => exact .some ((predictive_expectText .literal).map _)
  case lowerName => exact .some ((predictive_expectText .lowerName).map _)
  case upperName => exact .some ((predictive_expectText .upperName).map _)
  case case => exact .some (predictive_caseOver hnested)
  case openParen => exact .some (predictive_groupOver hnested)
  all_goals exact .none

theorem predictive_applicationOver : Predictive (applicationOver nested) (applicationOver nested') :=
  (predictive_atomOver hnested).bind fun _ => (predictive_atomOver hnested).many.map _

theorem predictive_unaryOver : Predictive (unaryOver nested) (unaryOver nested') := by
  refine predictive_peekKind?.bind fun next => ?_
  by_cases hnot : next = some .not
  · rw [if_pos hnot, if_pos hnot]
    exact predictive_skipToken.bind fun _ => (predictive_applicationOver hnested).map _
  · rw [if_neg hnot, if_neg hnot]
    exact predictive_applicationOver hnested

end Nested

/-! ## Expressions, definitions and programs -/

/-- Expressions under any two bounds on their depth. -/
theorem predictive_expressionWithin (depth depth' : Nat) :
    Predictive (expressionWithin depth) (expressionWithin depth') :=
  .byBudget rfl rfl (fun _ ih depth' => (predictive_unaryOver (ih depth')).levelsOver levels) depth depth'

/-- Expressions are read within the depth of the tokens left, and that depth makes no difference. -/
theorem predictive_expression : Predictive expression expression :=
  .budgets predictive_expressionWithin (fun c => c.remaining + 1) fun c => c.remaining + 1

theorem predictive_function : Predictive function function :=
  (predictive_expectText .upperName).bind fun _ => (predictive_names .lowerName).bind fun _ =>
    (predictive_expect .openCurly).bind fun _ => predictive_expression.bind fun _ =>
    (predictive_expect .closeCurly).map _

theorem predictive_member : Predictive member member := (predictive_constructor .upperName).map _

/-- A further member of a type is told by its comma. -/
theorem predictive_type : Predictive type type := by
  have hnext : Predictive (expect .comma *> member) (expect .comma *> member) :=
    (predictive_expect .comma).bind fun _ => predictive_member
  have hmembers : Predictive (separated1 member .comma) (separated1 member .comma) :=
    predictive_member.bind fun _ => hnext.many.map _
  exact (predictive_expectText .upperName).bind fun _ => (predictive_expect .assign).bind fun _ =>
    hmembers.map _

/-- A definition is chosen by its keyword. -/
theorem predictive_definition : Predictive definition definition := by
  refine .predict fun kind => ?_
  cases kind
  case fn => exact .some ((predictive_expect .fn).bind fun _ => predictive_function)
  case type => exact .some ((predictive_expect .type).bind fun _ => predictive_type)
  all_goals exact .none

/-- **The parser of programs looks one token ahead.** -/
theorem predictive_program : Predictive program program := predictive_definition.many

end Parser

end Monotype
