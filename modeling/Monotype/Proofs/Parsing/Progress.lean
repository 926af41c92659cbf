import Mathlib.Logic.Relation
import Monotype.Proofs.Parsing.Productions

/-!
# `Monotype.Proofs.Parsing.Progress` — reading always makes progress

Nothing in a repetition or in the recursion of the grammar says that it comes to an end. An item of a
repetition could take no token, and then the repetition would go on for ever. A level could be entered from
itself, through tighter levels, before a token was taken, and then it would be entered for ever. Neither
happens, and both for the same reason: `Progresses` holds of every item and of every level, also if all that
is known of a level that is entered is how it does on fewer tokens.

A parser that is run inside another one leaves a trace in it. If it did not end where it is run, nor would
the one around it; so that is how to tell where it is run (`Runs`), whatever the one around it does in between.

## Contents
- **`Loop`**, **`Iteration`**: the repetitions of the grammar. **`Loop.iteration_remaining`**: one round.
- **`MadeOf`**, **`MadeOf.eq`**: what a level is made of.
- **`Runs`**, **`Enters`**: where a level is entered from another one. **`Enters.remaining`**: one entry.
- **`parsing_progresses`**: rounds and nested entries take tokens, and so all productions end.
-/

namespace Monotype

namespace Parser

/-! ## Repetitions -/

/-- The repetitions of the grammar: what starts another item, and the parser of items. -/
inductive Loop : {α : Type} → (Kind → Bool) → Parser α → Prop
  /-- The definitions of a program. -/
  | definitions : Loop startsDefinition definition
  /-- Parameters, the fields of a constructor, or the variables of a pattern. -/
  | names (kind : Kind) : Loop (· = kind) (expectText kind)
  /-- The branches of a case, after the first one. -/
  | branches : Loop (· = .pattern) branch
  /-- The arguments of an application. -/
  | arguments : Loop startsAtom (atomOver expression)
  /-- The constructors of a type, after the first one. -/
  | members : Loop (· = .comma) (expect .comma *> member)

/-- A round of a repetition: another item starts, and it is read. -/
def Iteration {α : Type} (starts : Kind → Bool) (item : Parser α) (c c' : Cursor) : Prop :=
  c.peekKind?.any starts ∧ ∃ a, item c = .ok a c'

section Repetitions

variable {α : Type} {starts : Kind → Bool} {item : Parser α} {c c' : Cursor} {n : Nat}

theorem Loop.progresses (h : Loop starts item) : Progresses n 1 item := by
  cases h with
  | definitions => exact progresses_definition
  | names kind => exact progresses_expectText kind
  | branches => exact progresses_branchOver fun _ _ => progresses_expression
  | arguments => exact progresses_atomOver fun _ _ => progresses_expression
  | members => exact (progresses_expect .comma).first fun _ _ _ => progresses_member

/-- A round leaves fewer tokens than there were before it. -/
theorem Loop.iteration_remaining (h : Loop starts item) (hround : Iteration starts item c c') :
    c'.remaining < c.remaining := by
  obtain ⟨_, a, hitem⟩ := hround
  have hadvances : Advances 1 c (item c) := h.progresses c (Nat.le_refl _)
  rw [hitem] at hadvances
  exact hadvances

/-- No repetition has round after round for ever. -/
theorem Loop.wellFounded_iteration (h : Loop starts item) :
    WellFounded fun c' c => Iteration starts item c c' :=
  Subrelation.wf h.iteration_remaining (measure Cursor.remaining).wf

end Repetitions

/-! ## Entries -/

/-- A parser that does what another one does, but does not end at a place. -/
def without {α : Type} (p : Parser α) (place : Cursor) : Parser α := fun c =>
  if c = place then .endless else p c

theorem without_of_ne {α : Type} {p : Parser α} {place c : Cursor} (h : c ≠ place) :
    p.without place c = p c := if_neg h

/-- A parser that is made of another one runs it at `c'` when it starts at `c`: it would not end if the other
one did not end there. -/
def Runs (production : Parser Expr → Parser Expr) (inner : Parser Expr) (c c' : Cursor) : Prop :=
  production (inner.without c') c = .endless

/-- What a level is made of: the next tighter one for its left operand, itself for its right operand, and the
loosest one for an expression inside of an atom. -/
inductive MadeOf : Nat → (Parser Expr → Parser Expr) → Nat → Prop
  | operand {n : Nat} (hn : n ∈ levels) :
      MadeOf n (fun operand => operand >>= afterOperand n (level n)) (n + 1)
  | right {n : Nat} (hn : n ∈ levels) : MadeOf n (fun right => level (n + 1) >>= afterOperand n right) n
  | nested : MadeOf 6 unaryOver 1

/-- A level that starts at a place enters a level at a place. -/
def Enters (outer inner : Nat × Cursor) : Prop :=
  ∃ production, MadeOf outer.1 production inner.1 ∧ Runs production (level inner.1) outer.2 inner.2

section Entries

variable {n m : Nat} {c c' : Cursor} {p : Parser Expr}

/-- A parser that is made not to end at a place does as before with fewer tokens than there are left at it. -/
theorem Progresses.without (hp : ∀ {bound}, Progresses bound 1 p) (hm : m < c'.remaining) :
    Progresses m 1 (p.without c') := by
  intro c hc
  have hne : c ≠ c' := by
    rintro rfl
    omega
  rw [without_of_ne hne]
  exact hp c (Nat.le_refl _)

/-- A level is what it is made of, applied to the level that it enters. -/
theorem MadeOf.eq {production : Parser Expr → Parser Expr} (h : MadeOf n production m) :
    level n = production (level m) := by
  cases h with
  | operand hn => exact level_eq hn
  | right hn => exact level_eq hn
  | nested => exact congrArg unaryOver expression_eq

/-- What ends also if a parser in it is made not to end at a place does not run it there. -/
theorem Runs.remaining_lt {production : Parser Expr → Parser Expr} (h : Runs production p c c')
    (hends : c.remaining ≤ c'.remaining → Progresses c.remaining 1 (production (p.without c'))) :
    c'.remaining < c.remaining := by
  refine Nat.lt_of_not_le fun hle => ?_
  have hadvances := hends hle c (Nat.le_refl _)
  rw [h] at hadvances
  exact hadvances

/-- A left operand starts where the level starts. -/
theorem Runs.operand_eq (hn : n ∈ levels)
    (h : Runs (fun operand => operand >>= afterOperand n (level n)) (level (n + 1)) c c') : c' = c := by
  refine Decidable.byContradiction fun hne => ?_
  have hsame : (level (n + 1)).without c' c = level (n + 1) c := without_of_ne (Ne.symm hne)
  have hnever : level n c = .endless := by
    rw [(MadeOf.operand hn).eq, Run.run_bind, ← hsame]
    exact h
  exact Outcome.ends_iff.mp ((progresses_level n).ends (Nat.le_refl _)) hnever

/-- A right operand starts after the left one. -/
theorem Runs.right_remaining
    (h : Runs (fun right => level (n + 1) >>= afterOperand n right) (level n) c c') :
    c'.remaining < c.remaining := by
  refine h.remaining_lt fun hle => ?_
  have hafter : ∀ left m, m < c.remaining →
      Progresses m 0 (afterOperand n ((level n).without c') left) := fun left m hm =>
    Progresses.afterOperand (fun k hk => .without (progresses_level n) (by omega)) left
  exact (progresses_level (n + 1)).first hafter

/-- An expression inside of an atom starts after a token. -/
theorem Runs.nested_remaining (h : Runs unaryOver (level 1) c c') : c'.remaining < c.remaining :=
  h.remaining_lt fun hle => progresses_unaryOver fun _ hm =>
    .without (progresses_level 1) (Nat.lt_of_lt_of_le hm hle)

/-- One entry goes to fewer tokens, or to a tighter level before the same ones. -/
theorem Enters.remaining (h : Enters (n, c) (m, c')) :
    c'.remaining < c.remaining ∨ (c'.remaining = c.remaining ∧ n < m ∧ m ≤ 6) := by
  obtain ⟨production, (hmade : MadeOf n production m), (hruns : Runs production (level m) c c')⟩ := h
  cases hmade with
  | operand hn =>
    obtain rfl := hruns.operand_eq hn
    have hle : n ≤ 5 := (by decide : ∀ k ∈ levels, k ≤ 5) n hn
    exact .inr ⟨rfl, Nat.lt_succ_self n, Nat.succ_le_succ hle⟩
  | right hn => exact .inl hruns.right_remaining
  | nested => exact .inl hruns.nested_remaining

/-- Along entries, tokens are taken unless the level gets tighter and tighter. -/
theorem Enters.transGen_remaining {outer inner : Nat × Cursor} (h : Relation.TransGen Enters outer inner) :
    inner.2.remaining < outer.2.remaining ∨
      (inner.2.remaining = outer.2.remaining ∧ outer.1 < inner.1) := by
  induction h with
  | single h =>
    rcases h.remaining with hfewer | ⟨hsame, htighter, _⟩
    · exact .inl hfewer
    · exact .inr ⟨hsame, htighter⟩
  | tail _ h ih =>
    rcases h.remaining with hfewer | ⟨hsame, htighter, _⟩
    · exact .inl (by omega)
    · exact ih.imp (fun hbefore => by omega) fun hbefore => ⟨by omega, by omega⟩

/-- No entries are nested for ever. -/
theorem wellFounded_enters : WellFounded fun inner outer => Enters outer inner := by
  -- there are six levels, and each of them is entered only from a looser one before the same tokens
  refine Subrelation.wf ?_ (measure fun entry : Nat × Cursor => 7 * entry.2.remaining + (6 - entry.1)).wf
  rintro ⟨m, c'⟩ ⟨n, c⟩ h
  show 7 * c'.remaining + (6 - m) < 7 * c.remaining + (6 - n)
  rcases h.remaining with hfewer | ⟨hsame, htighter, hle⟩
  · omega
  · omega

end Entries

/-! ## Progress -/

/-- **Reading always makes progress.** Every round of a repetition leaves fewer tokens than there were before
it. Every path from one entry of a level to an entry of the same or a looser one inside of it takes a
token. So neither goes on for ever, and every production ends wherever it starts, no further than at the
end of the tokens. -/
theorem parsing_progresses :
    (∀ {α : Type} {starts : Kind → Bool} {item : Parser α}, Loop starts item →
      (∀ c c', Iteration starts item c c' → c'.remaining < c.remaining) ∧
        WellFounded fun c' c => Iteration starts item c c') ∧
    (∀ {n m : Nat} {c c' : Cursor}, Relation.TransGen Enters (n, c) (m, c') → m ≤ n →
      c'.remaining < c.remaining) ∧
    (WellFounded fun inner outer => Enters outer inner) ∧
    ∀ {α : Type} {p : Parser α}, Production p → ∀ (tokens : List Token) (i : Nat), i ≤ tokens.length →
      ∃ j, i ≤ j ∧ j ≤ tokens.length ∧
        (p ((Cursor.ofTokens tokens).skip i)).state? = some ((Cursor.ofTokens tokens).skip j) := by
  refine ⟨fun hloop => ⟨fun _ _ => hloop.iteration_remaining, hloop.wellFounded_iteration⟩,
    fun hpath hlevel => ?_, wellFounded_enters, fun hp tokens i hi => ?_⟩
  · rcases Enters.transGen_remaining hpath with hfewer | ⟨_, (htighter : _ < _)⟩
    · exact hfewer
    · exact absurd hlevel (Nat.not_le_of_lt htighter)
  · exact hp.predictive.exists_stop hi (hp.ends _)

/-- In `f x + (y)`: the round for the argument, the entries from the sum through its right operand to the
expression in parentheses, and the end of an expression that starts at that operand. -/
theorem parsing_progresses_to_parentheses :
    let tokens := Token.number [.text .lowerName "f", .text .lowerName "x", .bare .plus, .bare .openParen,
      .text .lowerName "y", .bare .closeParen]
    let place := (Cursor.ofTokens tokens).skip
    (Iteration startsAtom (atomOver expression) (place 1) (place 2) ∧
        (place 2).remaining < (place 1).remaining) ∧
      (Relation.TransGen Enters (2, place 0) (1, place 4) ∧ (place 4).remaining < (place 0).remaining) ∧
      ∃ j, 3 ≤ j ∧ j ≤ tokens.length ∧ (expression (place 3)).state? = some (place j) := by
  intro tokens place
  have hround : Iteration startsAtom (atomOver expression) (place 1) (place 2) := ⟨rfl, .lower "x", rfl⟩
  have hright : Enters (2, place 0) (2, place 3) := ⟨_, .right (by decide), rfl⟩
  have htighter : ∀ n ∈ [2, 3, 4, 5], Enters (n, place 3) (n + 1, place 3) := by
    intro n hn
    simp only [List.mem_cons, List.not_mem_nil, or_false] at hn
    rcases hn with rfl | rfl | rfl | rfl <;> exact ⟨_, .operand (by decide), rfl⟩
  have hnested : Enters (6, place 3) (1, place 4) := ⟨_, .nested, rfl⟩
  have hpath : Relation.TransGen Enters (2, place 0) (1, place 4) :=
    .tail (.tail (.tail (.tail (.tail (.single hright) (htighter 2 (by decide))) (htighter 3 (by decide)))
      (htighter 4 (by decide))) (htighter 5 (by decide))) hnested
  obtain ⟨hloops, hentries, _, hends⟩ := parsing_progresses
  exact ⟨⟨hround, (hloops .arguments).1 _ _ hround⟩, ⟨hpath, hentries hpath (by decide)⟩,
    hends .expression tokens 3 (by decide)⟩

end Parser

end Monotype
