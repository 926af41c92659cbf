import Monotype.Proofs.Token.RoundTrip

/-!
# `Monotype.Proofs.Token.Format` — the format of records

Here is what a record may look like, and what may be wrong with it, without a reader: the forms of a record
without blanks around it (`Record.Written`), and its faults (`Record.Faulty`). The faults come in an order.
Which kind it is comes first, then whether there is a payload in parentheses, then what the payload is. So
each fault says that there is none before it.

Every text is one or the other (`Record.written_or_faulty`), and reading agrees with both. That leaves nothing
else for reading to give, so each of the two says exactly when it gives what.

## Contents
- **`Record.Opens`**: the first opening parenthesis of a text, which ends the kind.
- **`Record.Written`**, **`Record.Faulty`**: the format, and what is not of the format.
- **`Record.Written.trimmedLexeme_eq`**, **`Record.Faulty.trimmedLexeme_eq`**: reading agrees.
- **`Record.token_iff`**: which token or error the record at a position gives.
-/

namespace Monotype.Record

open Text (trim)
open Text.Integer (Denotes Fits)

variable {text name inside raw : List Char} {kind : Kind} {l : Lexeme} {fault : RecordFault}

/-! ## The format -/

/-- A text has an opening parenthesis, and this is what stands before and after the first one. -/
structure Opens (text name inside : List Char) : Prop where
  parts : text = name ++ '(' :: inside
  first : '(' ∉ name

/-- What a record without blanks around it writes: nothing but the name of a kind that carries no payload, or
the name and, between the first opening parenthesis and a closing one at the end, the payload. -/
inductive Written (text : List Char) : Lexeme → Prop
  | bare {kind : Kind} (hname : text = kind.name.toList) (hcarries : kind.carriesPayload = false) :
      Written text (.bare kind)
  | text {kind : Kind} {name raw : List Char} (hopens : Opens text name (raw ++ [')']))
      (hname : trim name = kind.name.toList)
      (hkind : kind = .literal ∨ kind = .lowerName ∨ kind = .upperName) :
      Written text (.text kind (String.ofList raw))
  | int {name raw : List Char} {value : Int} (hopens : Opens text name (raw ++ [')']))
      (hname : trim name = Kind.int.name.toList) (hvalue : Denotes (trim raw) value)
      (hfits : Fits value) : Written text (.int value)

/-- The text that is taken for the name of a kind: all that stands before the first opening parenthesis,
without blanks around it. -/
def kindText (text : List Char) : List Char := trim (text.takeWhile (· ≠ '('))

/-- What is wrong with a record without blanks around it. Where its kind is known, a payload may be missing or
not closed, and one that is there may be no integer of 128 bits, or not belong there. -/
inductive Faulty (text : List Char) : RecordFault → Prop
  | unknownKind (hname : ∀ kind : Kind, kindText text ≠ kind.name.toList) :
      Faulty text (.unknownKind (String.ofList (kindText text)))
  | missingPayload {kind : Kind} (hname : text = kind.name.toList)
      (hcarries : kind.carriesPayload = true) : Faulty text (.missingPayload kind)
  | unterminated {kind : Kind} {name inside : List Char} (hopens : Opens text name inside)
      (hname : trim name = kind.name.toList) (hopen : inside.getLast? ≠ some ')') :
      Faulty text (.unterminated (String.ofList text))
  | invalidInteger {name raw : List Char} (hopens : Opens text name (raw ++ [')']))
      (hname : trim name = Kind.int.name.toList)
      (hvalue : ∀ value, Denotes (trim raw) value → ¬ Fits value) :
      Faulty text (.invalidInteger (String.ofList raw))
  | unexpectedPayload {kind : Kind} {name raw : List Char} (hopens : Opens text name (raw ++ [')']))
      (hname : trim name = kind.name.toList) (hcarries : kind.carriesPayload = false) :
      Faulty text (.unexpectedPayload kind)

/-! ## The kind -/

theorem opens_or_not (text : List Char) : '(' ∉ text ∨ ∃ name inside, Opens text name inside := by
  rcases exists_first_paren text with hno | ⟨name, inside, hparts, hfirst⟩
  · exact .inl fun hmem => hno _ hmem rfl
  · exact .inr ⟨name, inside, hparts, fun hmem => hfirst _ hmem rfl⟩

theorem kindText_of_not_mem (h : '(' ∉ text) : kindText text = trim text := by
  have htake : text.takeWhile (· ≠ '(') = text :=
    List.takeWhile_eq_self_iff.mpr fun c hc => decide_eq_true fun heq => h (heq ▸ hc)
  rw [kindText, htake]

theorem Opens.kindText_eq (h : Opens text name inside) : kindText text = trim name := by
  have hname : ∀ c ∈ name, decide (c ≠ '(') = true := fun c hc =>
    decide_eq_true fun heq => h.first (heq ▸ hc)
  rw [kindText, h.parts, List.takeWhile_append_of_pos hname]
  show trim (name ++ []) = trim name
  rw [List.append_nil]

/-- A name of no kind is reported as it stands. -/
theorem kind_eq_error (h : ∀ kind : Kind, text ≠ kind.name.toList) :
    Record.kind (String.ofList text) = .error (.unknownKind (String.ofList text)) := by
  unfold Record.kind
  cases hfound : Kind.ofName? (String.ofList text) with
  | none => rfl
  | some kind =>
    have hname := Kind.name_of_ofName? hfound
    exact absurd (by rw [hname, String.toList_ofList]) (h kind)

/-! ## Reading agrees with the format -/

/-- A record with a first opening parenthesis is read in two parts. -/
theorem Opens.trimmedLexeme_eq (h : Opens text name inside) :
    trimmedLexeme text = (do
      let kind ← Record.kind (String.ofList (trim name))
      match dropClosing? inside with
      | none => .error (.unterminated (String.ofList text))
      | some inner => do
        let payload ← payload kind inner
        .ok ⟨kind, some payload⟩) := by
  rw [h.parts]
  exact trimmedLexeme_of_paren fun c hc heq => h.first (heq ▸ hc)

/-- A payload between parentheses is read on its own. -/
theorem Opens.trimmedLexeme_of_closed (h : Opens text name (raw ++ [')']))
    (hname : trim name = kind.name.toList) :
    trimmedLexeme text = (payload kind raw).map fun p => Lexeme.mk kind (some p) := by
  rw [h.trimmedLexeme_eq, hname, kind_name, dropClosing?_concat]
  show (payload kind raw >>= fun p => .ok (Lexeme.mk kind (some p))) = _
  cases payload kind raw <;> rfl

/-- **What is of the format is read.** -/
theorem Written.trimmedLexeme_eq (h : Written text l) : trimmedLexeme text = .ok l := by
  cases h with
  | bare hname hcarries =>
    rw [hname]
    exact trimmedLexeme_bare hcarries
  | @text kind name raw hopens hname hkind =>
    have hcarries : kind.carriesPayload = true ∧ kind ≠ .int := by
      rcases hkind with rfl | rfl | rfl <;> decide
    rw [hopens.trimmedLexeme_of_closed hname, payload_text hcarries.1 hcarries.2]
    rfl
  | @int name raw value hopens hname hvalue hfits =>
    have hpayload : payload .int raw = .ok (.int value) := by
      unfold payload
      rw [if_pos rfl, Text.Integer.parse?_eq_some_iff.mpr ⟨hvalue, hfits⟩]
    rw [hopens.trimmedLexeme_of_closed hname, hpayload]
    rfl

/-- **What is not of the format is reported**, the first thing that is wrong with it. -/
theorem Faulty.trimmedLexeme_eq (h : Faulty text fault) (htrim : trim text = text) :
    trimmedLexeme text = .error fault := by
  cases h with
  | unknownKind hname =>
    -- the name may stand alone, or before a parenthesis
    rcases opens_or_not text with hno | ⟨name, inside, hopens⟩
    · rw [kindText_of_not_mem hno, htrim] at hname ⊢
      rw [trimmedLexeme_of_no_paren fun c hc heq => hno (heq ▸ hc), kind_eq_error hname]
      rfl
    · rw [hopens.kindText_eq] at hname ⊢
      rw [hopens.trimmedLexeme_eq, kind_eq_error hname]
      rfl
  | @missingPayload kind hname hcarries =>
    rw [hname, trimmedLexeme_of_no_paren kind.name_no_paren, kind_name]
    show (if kind.carriesPayload then _ else _) = _
    rw [if_pos hcarries]
  | @unterminated kind name inside hopens hname hopen =>
    have hclosing : dropClosing? inside = none := if_neg hopen
    rw [hopens.trimmedLexeme_eq, hname, kind_name, hclosing]
    rfl
  | @invalidInteger name raw hopens hname hvalue =>
    -- what the integer parser returns is denoted by the text, and fits
    have hnone : Text.Integer.parse? (trim raw) = none := by
      rw [Option.eq_none_iff_forall_ne_some]
      intro value hparse
      obtain ⟨hdenotes, hfits⟩ := Text.Integer.parse?_eq_some_iff.mp hparse
      exact hvalue value hdenotes hfits
    have hpayload : payload .int raw = .error (.invalidInteger (String.ofList raw)) := by
      unfold payload
      rw [if_pos rfl, hnone]
    rw [hopens.trimmedLexeme_of_closed hname, hpayload]
    rfl
  | @unexpectedPayload kind name raw hopens hname hcarries =>
    have hpayload : payload kind raw = .error (.unexpectedPayload kind) := by
      have hint : kind ≠ .int := by
        rintro rfl
        exact absurd hcarries (by decide)
      unfold payload
      rw [if_neg hint, if_neg (Bool.eq_false_iff.mp hcarries)]
    rw [hopens.trimmedLexeme_of_closed hname, hpayload]
    rfl

/-! ## Every text is one or the other -/

/-- A payload that is closed is one that its kind takes, or one that it does not take. -/
theorem Opens.written_or_faulty (h : Opens text name (raw ++ [')']))
    (hname : trim name = kind.name.toList) : (∃ l, Written text l) ∨ ∃ fault, Faulty text fault := by
  by_cases hint : kind = .int
  · subst hint
    by_cases hvalue : ∃ value, Denotes (trim raw) value ∧ Fits value
    · obtain ⟨value, hdenotes, hfits⟩ := hvalue
      exact .inl ⟨_, .int h hname hdenotes hfits⟩
    · exact .inr ⟨_, .invalidInteger h hname fun value hdenotes hfits => hvalue ⟨value, hdenotes, hfits⟩⟩
  · by_cases hcarries : kind.carriesPayload = true
    · have hkind : kind = .literal ∨ kind = .lowerName ∨ kind = .upperName := by
        revert hint hcarries
        cases kind <;> decide
      exact .inl ⟨_, .text h hname hkind⟩
    · exact .inr ⟨_, .unexpectedPayload h hname (Bool.eq_false_iff.mpr hcarries)⟩

/-- **A text without blanks around it is of the format, or something is wrong with it.** -/
theorem written_or_faulty (htrim : trim text = text) :
    (∃ l, Written text l) ∨ ∃ fault, Faulty text fault := by
  by_cases hknown : ∃ kind : Kind, kindText text = kind.name.toList
  · obtain ⟨kind, hname⟩ := hknown
    rcases opens_or_not text with hno | ⟨name, inside, hopens⟩
    · rw [kindText_of_not_mem hno, htrim] at hname
      cases hcarries : kind.carriesPayload with
      | false => exact .inl ⟨_, .bare hname hcarries⟩
      | true => exact .inr ⟨_, .missingPayload hname hcarries⟩
    · rw [hopens.kindText_eq] at hname
      by_cases hclosed : inside.getLast? = some ')'
      · obtain ⟨raw, rfl⟩ := List.getLast?_eq_some_iff.mp hclosed
        exact hopens.written_or_faulty hname
      · exact .inr ⟨_, .unterminated hopens hname hclosed⟩
  · exact .inr ⟨_, .unknownKind fun kind hname => hknown ⟨kind, hname⟩⟩

theorem trimmedLexeme_eq_ok_iff (htrim : trim text = text) :
    trimmedLexeme text = .ok l ↔ Written text l := by
  refine ⟨fun h => ?_, Written.trimmedLexeme_eq⟩
  rcases written_or_faulty htrim with ⟨l', hwritten⟩ | ⟨fault, hfaulty⟩
  · cases h.symm.trans hwritten.trimmedLexeme_eq
    exact hwritten
  · cases h.symm.trans (hfaulty.trimmedLexeme_eq htrim)

theorem trimmedLexeme_eq_error_iff (htrim : trim text = text) :
    trimmedLexeme text = .error fault ↔ Faulty text fault := by
  refine ⟨fun h => ?_, fun h => h.trimmedLexeme_eq htrim⟩
  rcases written_or_faulty htrim with ⟨l, hwritten⟩ | ⟨fault', hfaulty⟩
  · cases h.symm.trans hwritten.trimmedLexeme_eq
  · cases h.symm.trans (hfaulty.trimmedLexeme_eq htrim)
    exact hfaulty

/-! ## Records -/

theorem token_eq_error_iff {record : String} {position : Nat} {error : RecordError} :
    Record.token record position = .error error ↔
      lexeme record = .error error.fault ∧ error.position = position := by
  unfold Record.token
  cases hlexeme : lexeme record with
  | ok l => simp
  | error fault =>
    obtain ⟨place, fault'⟩ := error
    simp only [Except.error.injEq, RecordError.mk.injEq]
    rw [and_comm, @eq_comm _ position]

/-- **A record gives a token exactly if it is of the format**, and otherwise an error with the first thing
that is wrong with it, in each case at its position. Blanks around the record do not matter. -/
theorem token_iff (record : String) (position : Nat) :
    (∀ token, Record.token record position = .ok token ↔
      Written (trim record.toList) token.toLexeme ∧ token.position = position) ∧
    ∀ error, Record.token record position = .error error ↔
      Faulty (trim record.toList) error.fault ∧ error.position = position := by
  have htrim := Text.trim_trim record.toList
  constructor
  · intro token
    rw [token_eq_ok_iff]
    exact and_congr_left' (trimmedLexeme_eq_ok_iff htrim)
  · intro error
    rw [token_eq_error_iff]
    exact and_congr_left' (trimmedLexeme_eq_error_iff htrim)

/-- The last parenthesis closes a payload, not the first one; and an integer of 128 bits has a sign, so this
one is the first that is too large. -/
example : Record.token " UID ((a)b) " 2 = .ok ⟨.text .upperName "(a)b", 2⟩ ∧
    Record.token "INT( 170141183460469231731687303715884105728)" 3 =
      .error ⟨3, .invalidInteger " 170141183460469231731687303715884105728"⟩ := by decide

end Monotype.Record
