import Monotype.Proofs.Text.Blank
import Monotype.Proofs.Text.Integer
import Monotype.Token.Record

/-!
# `Monotype.Proofs.Token.RoundTrip` — records read back

A lexeme fits if its payload is one that its kind takes. Each lexeme that fits is read back from its
description, and a record gives no others: what is read fits. The name of a kind holds no parenthesis, so
the first one opens the payload, and what closes the payload is the last character of the description.
Neither is a blank, so trimming a record leaves the payload alone.

A text of records is laid out in lines. Blanks may stand around each record and lines of nothing but
blanks anywhere.

## Contents
- **`Lexeme.Fitting`**: the payload is one that the kind takes.
- **`Record.lexeme_describe`**, **`Record.fitting_of_lexeme`**: what a record can write.
- **`Record.Line`**: a line of a text of records, with the blanks in it.
- **`Record.tokens_layout`**, **`Record.tokens_roundTrip`**: a text of records reads as what it lays out.
-/

namespace Monotype

open Text (isBlank trim trimStart allBlank)

/-! ## Fitting payloads -/

/-- The payload is one that the kind takes: an integer of 128 bits, a text, or none. -/
inductive Lexeme.Fitting : Lexeme → Prop
  | int {value : Int} (fits : Text.Integer.Fits value) : Fitting (.int value)
  | text {kind : Kind} {value : String} (carries : kind.carriesPayload = true) (h : kind ≠ .int) :
    Fitting (.text kind value)
  | bare {kind : Kind} (carries : kind.carriesPayload = false) : Fitting (.bare kind)

/-! ## Names of kinds -/

/-- The name of a kind ends where the parenthesis of a payload stands. -/
theorem Kind.name_no_paren (kind : Kind) : ∀ c ∈ kind.name.toList, c ≠ '(' := by
  have h : kind.name.toList.all (· != '(') = true := by cases kind <;> rfl
  simpa only [List.all_eq_true, bne_iff_ne] using h

theorem Kind.isBlank_name (kind : Kind) : ∀ c ∈ kind.name.toList, isBlank c = false := by
  have h : kind.name.toList.all (!isBlank ·) = true := by cases kind <;> rfl
  simpa only [List.all_eq_true, Bool.not_eq_true'] using h

theorem Kind.trim_name (kind : Kind) : trim kind.name.toList = kind.name.toList :=
  Text.trim_eq_self kind.isBlank_name

theorem Kind.allBlank_name (kind : Kind) : allBlank kind.name.toList = false := by
  cases kind <;> decide

theorem Kind.trimStart_name (kind : Kind) : trimStart kind.name.toList = kind.name.toList := by
  cases kind <;> rfl

namespace Record

variable {kind : Kind} {record : String} {position : Nat} {inner : List Char} {l : Lexeme}
  {p : Payload} {token : Token}

/-- **A kind is read back from its name.** -/
@[simp] theorem kind_name (k : Kind) : Record.kind (String.ofList k.name.toList) = .ok k := by
  unfold Record.kind
  rw [String.ofList_toList, Kind.ofName?_name]

/-! ## The two forms of a record -/

/-- Without a parenthesis the whole record is the name of a kind. -/
theorem trimmedLexeme_of_no_paren {text : List Char} (h : ∀ c ∈ text, c ≠ '(') :
    trimmedLexeme text = (do
      let kind ← Record.kind (String.ofList text)
      if kind.carriesPayload then .error (.missingPayload kind) else .ok (.bare kind)) := by
  have hdrop : text.dropWhile (· ≠ '(') = [] :=
    List.dropWhile_eq_nil_iff.mpr fun c hc => decide_eq_true (h c hc)
  unfold trimmedLexeme
  rw [hdrop]

/-- The first opening parenthesis ends the kind. -/
theorem trimmedLexeme_of_paren {name inside : List Char} (h : ∀ c ∈ name, c ≠ '(') :
    trimmedLexeme (name ++ '(' :: inside) = (do
      let kind ← Record.kind (String.ofList (trim name))
      match dropClosing? inside with
      | none => .error (.unterminated (String.ofList (name ++ '(' :: inside)))
      | some inner => do
        let payload ← payload kind inner
        .ok ⟨kind, some payload⟩) := by
  have hname : ∀ c ∈ name, decide (c ≠ '(') = true := fun c hc => decide_eq_true (h c hc)
  have hdrop : (name ++ '(' :: inside).dropWhile (· ≠ '(') = '(' :: inside := by
    rw [List.dropWhile_append_of_pos hname]
    rfl
  have htake : (name ++ '(' :: inside).takeWhile (· ≠ '(') = name := by
    rw [List.takeWhile_append_of_pos hname]
    exact List.append_nil _
  have hlexeme := trimmedLexeme.eq_def (name ++ '(' :: inside)
  rw [hdrop, htake] at hlexeme
  exact hlexeme

/-- A text has no parenthesis or a first one. -/
theorem exists_first_paren (text : List Char) :
    (∀ c ∈ text, c ≠ '(') ∨
      ∃ name inside, text = name ++ '(' :: inside ∧ ∀ c ∈ name, c ≠ '(' := by
  by_cases h : '(' ∈ text
  · obtain ⟨name, inside, rfl, hname⟩ := List.eq_append_cons_of_mem h
    exact .inr ⟨name, inside, rfl, fun c hc hparen => hname (hparen ▸ hc)⟩
  · exact .inl fun c hc hparen => h (hparen ▸ hc)

theorem dropClosing?_concat : dropClosing? (inner ++ [')']) = some inner := by
  unfold dropClosing?
  rw [List.getLast?_concat, if_pos rfl, List.dropLast_concat]

/-! ## Reading descriptions -/

theorem trimmedLexeme_bare (hcarries : kind.carriesPayload = false) :
    trimmedLexeme kind.name.toList = .ok (.bare kind) := by
  rw [trimmedLexeme_of_no_paren kind.name_no_paren, kind_name]
  show (if kind.carriesPayload then _ else _) = _
  rw [hcarries]
  rfl

/-- A record of another kind is its name, and a payload in parentheses. -/
theorem trimmedLexeme_payload (hpayload : payload kind inner = .ok p) :
    trimmedLexeme (kind.name.toList ++ '(' :: (inner ++ [')'])) = .ok ⟨kind, some p⟩ := by
  rw [trimmedLexeme_of_paren kind.name_no_paren, Kind.trim_name, kind_name, dropClosing?_concat]
  show (payload kind inner >>= fun p => _) = _
  rw [hpayload]
  rfl

theorem payload_int {value : Int} (fits : Text.Integer.Fits value) :
    payload .int (toString value).toList = .ok (.int value) := by
  unfold payload
  rw [if_pos rfl, Text.trim_eq_self (Text.Integer.isBlank_toString value),
    Text.Integer.parse?_toString fits]

/-- The payload of every other kind that carries one is the text as it stands. -/
theorem payload_text (carries : kind.carriesPayload = true) (h : kind ≠ .int) :
    payload kind inner = .ok (.text (String.ofList inner)) := by
  unfold payload
  rw [if_neg h, if_pos carries]

/-- The characters of a description with a payload. -/
theorem toList_describe_payload (kind : Kind) (p : Payload) :
    (Lexeme.describe ⟨kind, some p⟩).toList =
      kind.name.toList ++ '(' :: (p.write.toList ++ [')']) := by
  show (kind.name ++ "(" ++ p.write ++ ")").toList = _
  simp only [String.toList_append, List.append_assoc]
  rfl

/-- **A lexeme is read back from its description.** -/
theorem trimmedLexeme_describe (h : l.Fitting) : trimmedLexeme l.describe.toList = .ok l := by
  cases h with
  | int fits =>
    show trimmedLexeme (Lexeme.describe ⟨.int, some (.int _)⟩).toList = _
    rw [toList_describe_payload]
    exact trimmedLexeme_payload (payload_int fits)
  | @text kind value carries h =>
    have hpayload : payload kind value.toList = .ok (.text value) := by
      rw [payload_text carries h, String.ofList_toList]
    show trimmedLexeme (Lexeme.describe ⟨kind, some (.text value)⟩).toList = _
    rw [toList_describe_payload]
    exact trimmedLexeme_payload hpayload
  | bare carries => exact trimmedLexeme_bare carries

/-- A description has no blanks at its ends: it starts with a name and ends in one or in a parenthesis. -/
theorem trim_describe (l : Lexeme) : trim l.describe.toList = l.describe.toList := by
  obtain ⟨kind, p⟩ := l
  cases p with
  | none => exact kind.trim_name
  | some p =>
    have hparen : isBlank ')' = false := by decide
    rw [toList_describe_payload, ← List.cons_append, ← List.append_assoc]
    exact Text.trim_front_concat kind.trimStart_name kind.allBlank_name hparen

/-- A fitting lexeme is read back from its description with blanks around it. -/
theorem lexeme_padded {before after : List Char} (hbefore : allBlank before = true)
    (hafter : allBlank after = true) (h : l.Fitting) :
    lexeme (String.ofList (before ++ l.describe.toList ++ after)) = .ok l := by
  unfold lexeme
  rw [String.toList_ofList, Text.trim_padded hbefore hafter, trim_describe]
  exact trimmedLexeme_describe h

theorem lexeme_describe (h : l.Fitting) : lexeme l.describe = .ok l := by
  unfold lexeme
  rw [trim_describe]
  exact trimmedLexeme_describe h

/-! ## What is read fits -/

theorem fitting_of_payload (h : payload kind inner = .ok p) : Lexeme.Fitting ⟨kind, some p⟩ := by
  unfold payload at h
  split at h
  · rename_i hint
    subst hint
    split at h
    · rename_i hparse
      cases h
      exact .int (Text.Integer.fits_of_parse? hparse)
    · cases h
  · rename_i hint
    split at h
    · rename_i hcarries
      cases h
      exact .text hcarries hint
    · cases h

/-- What a sequence gives comes from its first part and then its second. -/
theorem exists_of_bind_eq_ok {α β : Type} {x : Except RecordFault α} {f : α → Except RecordFault β}
    {b : β} (h : (x >>= f) = .ok b) : ∃ a, x = .ok a ∧ f a = .ok b := by
  cases x with
  | error fault => cases h
  | ok a => exact ⟨a, rfl, h⟩

/-- Whatever was read has a payload if its kind carries one, and else none. -/
theorem fitting_of_trimmedLexeme {text : List Char} (h : trimmedLexeme text = .ok l) :
    l.Fitting := by
  obtain hno | ⟨name, inside, rfl, hname⟩ := exists_first_paren text
  · rw [trimmedLexeme_of_no_paren hno] at h
    obtain ⟨kind, -, h⟩ := exists_of_bind_eq_ok h
    split at h
    · cases h
    · rename_i hcarries
      cases h
      exact .bare (Bool.eq_false_iff.mpr hcarries)
  · rw [trimmedLexeme_of_paren hname] at h
    obtain ⟨kind, -, h⟩ := exists_of_bind_eq_ok h
    split at h
    · cases h
    · obtain ⟨p, hpayload, h⟩ := exists_of_bind_eq_ok h
      cases h
      exact fitting_of_payload hpayload

/-- A record gives only lexemes that fit. -/
theorem fitting_of_lexeme (h : lexeme record = .ok l) : l.Fitting := fitting_of_trimmedLexeme h

theorem token_eq_ok_iff :
    Record.token record position = .ok token ↔
      lexeme record = .ok token.toLexeme ∧ token.position = position := by
  unfold Record.token
  cases hlexeme : lexeme record with
  | error fault => simp
  | ok l =>
    obtain ⟨l', place⟩ := token
    simp only [Except.ok.injEq, Token.mk.injEq]
    exact and_congr_right' eq_comm

/-! ## Texts of records -/

/-- A line of a text of records: only blanks, or a record with blanks around it. -/
inductive Line where
  | blank (text : List Char)
  | record (before : List Char) (lexeme : Lexeme) (after : List Char)

namespace Line

/-- What stands on a line. -/
def chars : Line → List Char
  | .blank text => text
  | .record before l after => before ++ l.describe.toList ++ after

/-- The lexeme on a line, if it has one. -/
def lexeme? : Line → Option Lexeme
  | .blank _ => none
  | .record _ l _ => some l

/-- What is left blank is blank, and the line has no line end in it. -/
inductive Proper : Line → Prop
  | blank {text : List Char} (htext : allBlank text = true) (hends : '\n' ∉ text) : Proper (.blank text)
  | record {before after : List Char} {l : Lexeme} (hbefore : allBlank before = true)
    (hafter : allBlank after = true) (hends : '\n' ∉ before ++ after) (fitting : l.Fitting)
    (htext : ∀ value, l.text? = some value → '\n' ∉ value.toList) : Proper (.record before l after)

end Line

/-- A text of records: its lines one after the other. -/
def layout (lines : List Line) : String :=
  String.ofList (['\n'].intercalate (lines.map Line.chars))

variable {line : Line} {lines : List Line}

/-- The description of a lexeme goes on one line, if its text does. -/
theorem lineEnd_not_mem_describe (h : l.Fitting)
    (htext : ∀ value, l.text? = some value → '\n' ∉ value.toList) : '\n' ∉ l.describe.toList := by
  have hname : ∀ kind : Kind, '\n' ∉ kind.name.toList := fun kind hmem =>
    Text.ne_lineEnd (kind.isBlank_name _ hmem) rfl
  have hpayload : ∀ (kind : Kind) (p : Payload), '\n' ∉ p.write.toList →
      '\n' ∉ (Lexeme.describe ⟨kind, some p⟩).toList := by
    intro kind p hp hmem
    rw [toList_describe_payload] at hmem
    have hparens : '\n' ≠ '(' ∧ '\n' ≠ ')' := by decide
    simp only [List.mem_append, List.mem_cons, List.not_mem_nil, or_false, hname kind, hp,
      hparens.1, hparens.2] at hmem
  cases h with
  | @int value fits =>
    exact hpayload .int (.int value) fun hmem =>
      Text.ne_lineEnd (Text.Integer.isBlank_toString value _ hmem) rfl
  | @text kind value carries h => exact hpayload kind (.text value) (htext value rfl)
  | @bare kind carries => exact hname kind

theorem Line.Proper.lineEnd_not_mem (h : line.Proper) : '\n' ∉ line.chars := by
  cases h with
  | blank htext hends => exact hends
  | record hbefore hafter hends fitting htext =>
    have hdescribe := lineEnd_not_mem_describe fitting htext
    simp only [Line.chars, List.mem_append, not_or] at hends ⊢
    exact ⟨⟨hends.1, hdescribe⟩, hends.2⟩

/-- A line is blank if there is no lexeme on it. -/
theorem Line.Proper.allBlank_chars (h : line.Proper) :
    allBlank line.chars = line.lexeme?.isNone := by
  cases h with
  | blank htext hends => exact htext
  | @record before after l hbefore hafter hends fitting htext =>
    have hdescribe : allBlank l.describe.toList = false := by
      obtain ⟨kind, p⟩ := l
      cases p with
      | none => exact kind.allBlank_name
      | some p => rw [toList_describe_payload, Text.allBlank_append, kind.allBlank_name]; rfl
    show allBlank (before ++ l.describe.toList ++ after) = false
    rw [Text.allBlank_append, Text.allBlank_append, hdescribe, Bool.and_false, Bool.false_and]

/-- The lexeme on a line is what is read of it. -/
theorem Line.Proper.lexeme_chars (h : line.Proper) (hl : line.lexeme? = some l) :
    lexeme (String.ofList line.chars) = .ok l := by
  cases h with
  | blank htext hends => cases hl
  | record hbefore hafter hends fitting htext =>
    cases hl
    exact lexeme_padded hbefore hafter fitting

/-- The records of a layout are the lines that are not left blank. -/
theorem records_layout (h : ∀ line ∈ lines, line.Proper) :
    records (layout lines) =
      (lines.filter fun line => line.lexeme?.isSome).map fun line => String.ofList line.chars := by
  have hfilter : (lines.map Line.chars).filter (fun text => !allBlank text) =
      (lines.filter fun line => line.lexeme?.isSome).map Line.chars := by
    rw [List.filter_map]
    refine congrArg (List.map Line.chars) (List.filter_congr fun line hline => ?_)
    show (!allBlank line.chars) = _
    rw [(h line hline).allBlank_chars, Option.not_isNone]
  unfold records layout
  rw [String.toList_ofList]
  cases lines with
  | nil => rfl
  | cons line lines =>
    have hends : ∀ text ∈ (line :: lines).map Line.chars, '\n' ∉ text := by
      intro text htext
      obtain ⟨line, hline, rfl⟩ := List.mem_map.mp htext
      exact (h line hline).lineEnd_not_mem
    have hne : (line :: lines).map Line.chars ≠ [] := List.cons_ne_nil _ _
    rw [Text.lines_intercalate hne hends, hfilter, List.map_map]
    rfl

/-- The records of a layout are read one after the other, each at its index. -/
theorem mapM_token (first : Nat) (h : ∀ line ∈ lines, line.Proper) :
    (((lines.filter fun line => line.lexeme?.isSome).map fun line =>
        String.ofList line.chars).zipIdx first).mapM (fun entry => Record.token entry.1 entry.2) =
      .ok (((lines.filterMap Line.lexeme?).zipIdx first).map fun entry => ⟨entry.1, entry.2⟩) := by
  induction lines generalizing first with
  | nil => rfl
  | cons line lines ih =>
    have hothers : ∀ line ∈ lines, line.Proper := fun line hline =>
      h line (List.mem_cons_of_mem _ hline)
    rw [List.filter_cons]
    cases hl : line.lexeme? with
    | none =>
      rw [Option.isSome_none, if_neg Bool.false_ne_true, List.filterMap_cons_none hl]
      exact ih first hothers
    | some l =>
      have htoken : Record.token (String.ofList line.chars) first = .ok ⟨l, first⟩ :=
        token_eq_ok_iff.mpr ⟨(h line List.mem_cons_self).lexeme_chars hl, rfl⟩
      rw [Option.isSome_some, if_pos rfl, List.map_cons, List.zipIdx_cons, List.mapM_cons, htoken,
        ih (first + 1) hothers, List.filterMap_cons_some hl, List.zipIdx_cons]
      rfl

/-- The tokens of a text of records are the lexemes that it lays out, numbered. -/
theorem tokens_layout (h : ∀ line ∈ lines, line.Proper) :
    tokens (layout lines) = .ok (Token.number (lines.filterMap Line.lexeme?)) := by
  unfold tokens
  rw [records_layout h]
  exact mapM_token 0 h

/-- Records read back. Lexemes that fit, each described on a line of its own with blanks around it and blank
lines anywhere, are read as these lexemes, numbered. And what a record gives fits and is read back from
its own description. -/
theorem tokens_roundTrip :
    (∀ lines, (∀ line ∈ lines, Line.Proper line) →
      tokens (layout lines) = .ok (Token.number (lines.filterMap Line.lexeme?))) ∧
    ∀ record position token, Record.token record position = .ok token →
      token.toLexeme.Fitting ∧ token.position = position ∧
        Record.token token.describe token.position = .ok token := by
  refine ⟨fun lines h => tokens_layout h, fun record position token h => ?_⟩
  obtain ⟨hlexeme, hposition⟩ := token_eq_ok_iff.mp h
  have hfits := fitting_of_lexeme hlexeme
  exact ⟨hfits, hposition, token_eq_ok_iff.mpr ⟨lexeme_describe hfits, rfl⟩⟩

/-- The least integer, a text that looks like another record and a kind alone, with blanks and a blank line
between them. -/
theorem tokens_roundTrip_layout :
    let lines : List Line :=
      [.record [' '] (.int (-Int.pow 2 127)) ['\r'], .blank ['\t'],
        .record [] (.text .literal "INT(5) ") [' '], .record [] (.bare .comma) []]
    (∀ line ∈ lines, line.Proper) ∧
      tokens (layout lines) = .ok (Token.number
        [.int (-Int.pow 2 127), .text .literal "INT(5) ", .bare .comma]) ∧
      ∃ token, Record.token " UID(a) " 3 = .ok token ∧
        Record.token token.describe token.position = .ok token := by
  intro lines
  have hproper : ∀ line ∈ lines, line.Proper := by
    intro line hline
    simp only [lines, List.mem_cons, List.not_mem_nil, or_false] at hline
    obtain rfl | rfl | rfl | rfl := hline
    · exact .record (by decide) (by decide) (by decide) (.int (by decide)) (fun _ h => by cases h)
    · exact .blank (by decide) (by decide)
    · exact .record (by decide) (by decide) (by decide) (.text rfl (by decide))
        (fun value h => by cases h; decide)
    · exact .record (by decide) (by decide) (by decide) (.bare rfl) (fun _ h => by cases h)
  have hread : Record.token " UID(a) " 3 = .ok ⟨.text .upperName "a", 3⟩ := by decide
  exact ⟨hproper, tokens_roundTrip.1 lines hproper, _, hread, (tokens_roundTrip.2 _ _ _ hread).2.2⟩

end Record

end Monotype
