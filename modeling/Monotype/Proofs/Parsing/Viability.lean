import Monotype.Proofs.Parsing.Acceptance
import Monotype.Proofs.Parsing.Lookahead
import Monotype.Token.Record

/-!
# `Monotype.Proofs.Parsing.Viability` — where an error points

Some tokens are *viable* if they can be continued to something that reads as a program. An error points
at the first token that does not fit: with it, the tokens before it are no longer viable, and without it
they are.

What was taken before an error begins a program, and whatever begins a program can be completed
(`Parser.reads_program`), so it is viable. And where the parser stops is decided by the tokens up to the
one it stops at (`Parser.predictive_program`). So it stops there with the same error before all other
tokens that agree so far, and with the token that it stopped at no continuation is read.

## Contents
- **`Token.Numbered`**: tokens that carry their index, as those of a text of records do.
- **`Program.Viable`**: tokens that can be continued to a program.
- **`ParseError.FirstMisfit`**, **`Program.ofTokens_error`**: errors point at the first misfit.
-/

namespace Monotype

/-! ## Numbered tokens -/

/-- Each token carries its index as position. -/
def Token.Numbered (tokens : List Token) : Prop :=
  ∀ (i : Nat) (token : Token), tokens[i]? = some token → token.position = i

theorem Token.numbered_number (lexemes : List Lexeme) : Numbered (number lexemes) := by
  intro i token h
  simp only [number, List.getElem?_map, List.getElem?_zipIdx, Option.map_map, Option.map_eq_some_iff,
    Function.comp_apply] at h
  obtain ⟨l, _, rfl⟩ := h
  exact Nat.zero_add i

theorem Record.position_of_token {record : String} {position : Nat} {token : Token}
    (h : Record.token record position = .ok token) : token.position = position := by
  unfold Record.token at h
  cases hlexeme : lexeme record with
  | error fault =>
    rw [hlexeme] at h
    cases h
  | ok l =>
    rw [hlexeme] at h
    cases h
    rfl

/-- Each token comes from the record at its index. -/
theorem Record.exists_record {entries : List (String × Nat)} {tokens : List Token} {i : Nat}
    {token : Token} (h : entries.mapM (fun entry => Record.token entry.1 entry.2) = .ok tokens)
    (htoken : tokens[i]? = some token) :
    ∃ entry, entries[i]? = some entry ∧ Record.token entry.1 entry.2 = .ok token := by
  induction entries generalizing tokens i with
  | nil =>
    cases h
    exact absurd htoken (by simp)
  | cons entry entries ih =>
    rw [List.mapM_cons] at h
    cases hfirst : Record.token entry.1 entry.2 with
    | error fault =>
      rw [hfirst] at h
      cases h
    | ok first =>
      cases hothers : entries.mapM (fun entry => Record.token entry.1 entry.2) with
      | error fault =>
        rw [hfirst, hothers] at h
        cases h
      | ok others =>
        rw [hfirst, hothers] at h
        cases h
        cases i with
        | zero =>
          obtain rfl : first = token := Option.some.inj htoken
          exact ⟨entry, rfl, hfirst⟩
        | succ i => exact ih hothers htoken

/-- The tokens of a text of records are numbered. -/
theorem Record.numbered_tokens {text : String} {tokens : List Token}
    (h : Record.tokens text = .ok tokens) : Token.Numbered tokens := by
  intro i token htoken
  obtain ⟨entry, hentry, hrecord⟩ := exists_record h htoken
  rw [List.getElem?_zipIdx] at hentry
  obtain ⟨record, _, rfl⟩ := Option.map_eq_some_iff.mp hentry
  rw [position_of_token hrecord]
  exact Nat.zero_add i

/-! ## Viable tokens -/

namespace Program

/-- The tokens can be continued, perhaps by none, to tokens that read as a program. -/
def Viable (tokens : List Token) : Prop :=
  ∃ more program, ReadFrom program (tokens ++ more)

end Program

/-- The error points at the first token that does not fit. The tokens before it are viable and those up
to it are not; before tokens left over stands a whole program. If there is no such token, the tokens are
viable and not a program. -/
def ParseError.FirstMisfit (tokens : List Token) : ParseError → Prop
  | unexpectedToken _ found =>
    tokens[found.position]? = some found ∧ Program.Viable (tokens.take found.position) ∧
      ¬ Program.Viable (tokens.take (found.position + 1))
  | leftover found remaining =>
    tokens[found.position]? = some found ∧ Program.Viable (tokens.take found.position) ∧
      ¬ Program.Viable (tokens.take (found.position + 1)) ∧
      (∃ program, Program.ReadFrom program (tokens.take found.position)) ∧
      remaining = tokens.length - found.position
  | endOfInput _ => Program.Viable tokens ∧ ∀ program, ¬ Program.ReadFrom program tokens

namespace Program

open Monotype.Parser

variable {tokens : List Token} {program : Program} {e : ParseError} {c : Cursor} {token : Token} {j : Nat}

theorem ReadFrom.viable (h : ReadFrom program tokens) : Viable tokens :=
  ⟨[], program, by rwa [List.append_nil]⟩

/-- What was taken when the tokens from an index on are left is the tokens before it. -/
theorem taken_eq {taken : List Lexeme}
    (h : tokens.map Token.toLexeme = taken ++ (tokens.drop j).map Token.toLexeme) :
    taken = (tokens.take j).map Token.toLexeme := by
  have hall : tokens.map Token.toLexeme =
      (tokens.take j).map Token.toLexeme ++ (tokens.drop j).map Token.toLexeme := by
    rw [← List.map_append, List.take_append_drop]
  exact (List.append_cancel_right (hall.symm.trans h)).symm

/-- What a parser of programs has taken is viable. -/
theorem viable_take (hstate : (Parser.program (.ofTokens tokens)).state? =
    some (Cursor.skip (.ofTokens tokens) j)) : Viable (tokens.take j) := by
  obtain ⟨taken, htaken, more, program, hbegins⟩ :=
    (reads_program.reads (.ofTokens tokens)).begins hstate
  have htake : taken = (tokens.take j).map Token.toLexeme := taken_eq htaken
  refine ⟨more.map fun l => ⟨l, 0⟩, program, readFrom_of_spans ?_⟩
  have hspans := hbegins [] trivial
  rw [List.append_nil, htake] at hspans
  simpa [List.map_map, Function.comp_def] using hspans

/-- Where a parser of programs stops at a token, it stops before everything that agrees so far. -/
theorem program_same (more : List Token) (hstate : (Parser.program (.ofTokens tokens)).state? =
    some (Cursor.skip (.ofTokens tokens) j)) (hj : j < tokens.length) :
    Parser.program (.ofTokens (tokens.take (j + 1) ++ more)) =
      (Parser.program (.ofTokens tokens)).mapState fun _ =>
        Cursor.skip (.ofTokens (tokens.take (j + 1) ++ more)) j := by
  have hlength : (tokens.take (j + 1)).length = j + 1 := by
    rw [List.length_take]
    omega
  have htake : (tokens.take (j + 1) ++ more).take (j + 1) = tokens.take (j + 1) :=
    List.take_left' hlength
  rcases predictive_program.same (d := .ofTokens (tokens.take (j + 1) ++ more)) hstate
    (Nat.le_of_lt hj) htake with hendless | hsame
  · exact absurd hendless (Outcome.ends_iff.mp (program_ends _))
  · exact hsame

theorem not_viable_of_error (hrun : Parser.program (.ofTokens tokens) =
    .error e (Cursor.skip (.ofTokens tokens) j)) (hj : j < tokens.length) :
    ¬ Viable (tokens.take (j + 1)) := by
  rintro ⟨more, program, hread⟩
  obtain ⟨cursor, hok, _⟩ := readFrom_iff_run.mp hread
  have hsame := program_same more (by rw [hrun]; rfl) hj
  rw [hrun, hok] at hsame
  exact absurd hsame (by simp [Outcome.mapState])

theorem not_viable_of_leftover (hrun : Parser.program (.ofTokens tokens) =
    .ok program (Cursor.skip (.ofTokens tokens) j)) (hj : j < tokens.length) :
    ¬ Viable (tokens.take (j + 1)) := by
  rintro ⟨more, program', hread⟩
  obtain ⟨cursor, hok, hrest⟩ := readFrom_iff_run.mp hread
  have hsame := program_same more (by rw [hrun]; rfl) hj
  rw [hrun, hok] at hsame
  injection hsame with _ hcursor
  rw [hcursor] at hrest
  have hlength : ((tokens.take (j + 1) ++ more).drop j).length = 0 := congrArg List.length hrest
  rw [List.length_drop, List.length_append, List.length_take] at hlength
  omega

/-- What is taken on success is a program by itself. -/
theorem readFrom_take (hrun : Parser.program (.ofTokens tokens) =
    .ok program (Cursor.skip (.ofTokens tokens) j)) : ReadFrom program (tokens.take j) := by
  have hspans := (reads_program.reads (.ofTokens tokens)).sound hrun
  obtain ⟨taken, htaken, hexchange⟩ := hspans.exists_taken
  have htake : taken = (tokens.take j).map Token.toLexeme := taken_eq htaken
  have halone := hexchange [] (.of_ne (by simp))
  rw [List.append_nil, htake] at halone
  exact readFrom_of_spans halone

/-- **Errors point at the first token that does not fit.** -/
theorem ofTokens_error (hnumbered : Token.Numbered tokens) (h : ofTokens tokens = .error e c) :
    e.FirstMisfit tokens := by
  rw [ofTokens_eq] at h
  cases hrun : Parser.program (.ofTokens tokens) with
  | endless =>
    rw [hrun] at h
    exact absurd h (by simp)
  | error e' c' =>
    rw [hrun] at h
    cases h
    -- the parser stops after `j` tokens, which are the start of a program
    obtain ⟨j, hj, rfl⟩ := predictive_program.advances (by rw [hrun]; rfl)
    obtain ⟨expected, rfl⟩ := predictive_program.blames hrun
    have hviable : Viable (tokens.take j) := viable_take (by rw [hrun]; rfl)
    have hpeek : (Cursor.skip (.ofTokens tokens) j).peek? = tokens[j]? := List.head?_drop
    unfold Cursor.unexpected
    rw [hpeek]
    cases htoken : tokens[j]? with
    | none =>
      -- at the end of the tokens they are viable, and not a program yet
      have hlength : tokens.length ≤ j := List.getElem?_eq_none_iff.mp htoken
      rw [List.take_of_length_le hlength] at hviable
      refine ⟨hviable, fun program hread => ?_⟩
      obtain ⟨cursor, hok, _⟩ := readFrom_iff_run.mp hread
      rw [hrun] at hok
      exact absurd hok (by simp)
    | some found =>
      -- the numbering says that the token reported is the one at place `j`
      obtain rfl : found.position = j := hnumbered j found htoken
      have hlt : found.position < tokens.length := (List.getElem?_eq_some_iff.mp htoken).1
      exact ⟨htoken, hviable, not_viable_of_error hrun hlt⟩
  | ok program c' =>
    obtain ⟨j, hj, rfl⟩ := predictive_program.advances (by rw [hrun]; rfl)
    have hpeek : (Cursor.skip (.ofTokens tokens) j).peek? = tokens[j]? := List.head?_drop
    -- a program has been read, and the error is that a token is left over
    rw [hrun, Outcome.bind_ok, hpeek] at h
    cases htoken : tokens[j]? with
    | none =>
      rw [htoken] at h
      exact absurd h (by simp)
    | some found =>
      rw [htoken] at h
      cases h
      obtain rfl : found.position = j := hnumbered j found htoken
      have hlt : found.position < tokens.length := (List.getElem?_eq_some_iff.mp htoken).1
      have hread : ReadFrom program (tokens.take found.position) := readFrom_take hrun
      exact ⟨htoken, hread.viable, not_viable_of_leftover hrun hlt, ⟨program, hread⟩,
        Cursor.remaining_skip⟩

/-- After `fn A { case x | y`, a brace does not fit where the arrow has to be. -/
theorem ofTokens_error_missing_arrow :
    let tokens := Token.number [.bare .fn, .text .upperName "A", .bare .openCurly, .bare .case,
      .text .lowerName "x", .bare .pattern, .text .lowerName "y", .bare .openCurly]
    Token.Numbered tokens ∧
      ofTokens tokens = .error (.unexpectedToken "ARROW" ⟨.bare .openCurly, 7⟩) ⟨7, tokens.drop 7⟩ ∧
      ParseError.FirstMisfit tokens (.unexpectedToken "ARROW" ⟨.bare .openCurly, 7⟩) := by
  intro tokens
  have hnumbered : Token.Numbered tokens := Token.numbered_number _
  have hrun : ofTokens tokens =
      .error (.unexpectedToken "ARROW" ⟨.bare .openCurly, 7⟩) ⟨7, tokens.drop 7⟩ := by rfl
  exact ⟨hnumbered, hrun, ofTokens_error hnumbered hrun⟩

end Program

end Monotype
