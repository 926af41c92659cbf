import Monotype.Proofs.Parsing.Acceptance

/-!
# `Monotype.Proofs.Parsing.Concatenation` — programs one after the other

Tokens that read as a program, followed by tokens that read as another one, read as the definitions of
both; and wherever the definitions of a program are parted, so are its tokens. The end of a definition is
thus the same whether nothing follows or another definition does. What a definition ends with is a brace,
a constructor or one of its fields, and the keyword of the next definition continues none of them.

In the grammar a program is a list of definitions, so it can be parted anywhere. What is left to show is
that the first part does not mind what follows it. It minds a branch only (`Phrase.Spans.exists_taken`),
and no program starts with one.

## Contents
- **`Phrase.Spans.program_append_iff`**: programs one after the other in the grammar.
- **`Program.readFrom_append_iff`**: programs one after the other in tokens.
-/

namespace Monotype

namespace Phrase.Spans

variable {p q : Program} {ts rest : List Lexeme}

/-- Two programs one after the other are one program. -/
theorem program_append_iff : (program (p ++ q)).Spans ts rest ↔
    ∃ mid, (program p).Spans ts mid ∧ (program q).Spans mid rest := by
  induction p generalizing ts with
  | nil =>
    constructor
    · exact fun h => ⟨ts, .noDefinition, h⟩
    · rintro ⟨mid, hp, hq⟩
      cases hp
      exact hq
  | cons d p ih =>
    constructor
    · intro h
      cases h with
      | define hfirst hothers =>
        obtain ⟨mid, hp, hq⟩ := ih.mp hothers
        exact ⟨mid, .define hfirst hp, hq⟩
    · rintro ⟨mid, hp, hq⟩
      cases hp with
      | define hfirst hothers => exact .define hfirst (ih.mpr ⟨mid, hothers, hq⟩)

/-- A program starts no branch, if what is left after it does not. -/
theorem program_starts_no_branch (h : (program p).Spans ts rest)
    (hrest : nextKind? rest ≠ some .pattern) : nextKind? ts ≠ some .pattern := by
  cases h with
  | noDefinition => exact hrest
  | define hfirst =>
    rcases hfirst.starts_definition with hstart | hstart
    all_goals
      rw [hstart]
      decide

end Phrase.Spans

namespace Program

variable {p q : Program} {tokens : List Token}

/-- **Programs one after the other.** Tokens read as the definitions of two programs if and only if they
are tokens that read as the first one, followed by tokens that read as the second one. -/
theorem readFrom_append_iff : ReadFrom (p ++ q) tokens ↔
    ∃ first second, tokens = first ++ second ∧ ReadFrom p first ∧ ReadFrom q second := by
  constructor
  · intro h
    obtain ⟨mid, hp, hq⟩ := Phrase.Spans.program_append_iff.mp (spans_of_readFrom h)
    obtain ⟨taken, htaken, hexchange⟩ := hp.exists_taken
    obtain ⟨first, second, rfl, rfl, rfl⟩ := List.map_eq_append_iff.mp htaken
    -- what the first program took, it takes with nothing after it
    have halone := hexchange [] (.of_ne (by simp))
    rw [List.append_nil] at halone
    exact ⟨first, second, rfl, readFrom_of_spans halone, readFrom_of_spans hq⟩
  · rintro ⟨first, second, rfl, hp, hq⟩
    have hsecond := spans_of_readFrom hq
    -- nor does it mind that the second program follows
    have hfirst := (spans_of_readFrom hp).before_rest (hsecond.program_starts_no_branch (by simp))
    rw [← List.map_append] at hfirst
    exact readFrom_of_spans (Phrase.Spans.program_append_iff.mpr ⟨_, hfirst, hsecond⟩)

end Program

end Monotype
