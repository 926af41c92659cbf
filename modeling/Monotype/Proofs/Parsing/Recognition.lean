import Monotype.Parser.Grammar
import Monotype.Proofs.Parsing.Grammar

/-!
# `Monotype.Proofs.Parsing.Recognition` — what a parser has taken

Wherever a parser stops, it has gone no wrong way. If it succeeds, what it took is what it says (it is
*sound*). And on success and on failure alike, what it took can be completed: some lexemes more, and it
is the beginning of a phrase (`Begins`). Nobody has to know which lexemes these are, but there always
are some, because every part of a phrase can be written at all.

The completion of a phrase may have to mind what follows. An atom that ends in a branch may be followed
by everything but another branch. An application may be followed by anything, since one argument more
can close it off; and so may all phrases made from applications.

## Contents
- **`Begins`**, **`Reads`**: the two properties, for a parser and a language.
- **`Reads.bind`**, **`Reads.many`**, **`Reads.chain`**, …: how they pass through combinations.
- **`reads_pattern`**, …, **`reads_expressionWithin`**, **`reads_program`**: each production.
-/

namespace Monotype

/-- The lexemes that are left. -/
def Cursor.lexemes (c : Cursor) : List Lexeme := c.rest.map Token.toLexeme

@[simp] theorem Cursor.lexemes_mk (position : Nat) (rest : List Token) :
    Cursor.lexemes ⟨position, rest⟩ = rest.map Token.toLexeme := rfl

/-- The parser looks at the kinds of lexemes, and never at where tokens stand. -/
theorem Cursor.peekKind?_eq (c : Cursor) : c.peekKind? = nextKind? c.lexemes := by
  obtain ⟨position, rest⟩ := c
  cases rest <;> rfl

namespace Parser

open Phrase Phrase.Spans

/-! ## Languages -/

/-- Which values are written by which lexemes, up to a rest. -/
abbrev Language (α : Type) : Type := α → List Lexeme → List Lexeme → Prop

section Languages

variable {α β : Type} {F G : List Lexeme → Prop} {L L' : Language α} {M : α → Language β}
  {a : α} {ts taken taken' rest : List Lexeme}

/-- One language after another one, which may depend on the value of the first. -/
def Language.andThen (L : Language α) (M : α → Language β) : Language β :=
  fun b ts rest => ∃ a mid, L a ts mid ∧ M a b mid rest

/-- The rest may be exchanged for one that starts no new branch. -/
def Exchangeable (L : Language α) : Prop :=
  ∀ a ts rest, L a ts rest → ∃ taken, ts = taken ++ rest ∧
    ∀ rest', NoNewBranch rest rest' → L a (taken ++ rest') rest'

theorem exchangeable_spans (φ : α → Phrase) : Exchangeable fun a => (φ a).Spans :=
  fun _ _ _ h => h.exists_taken

/-- Some lexemes more complete what was taken, before everything that may follow. -/
def Begins (F : List Lexeme → Prop) (L : Language α) (taken : List Lexeme) : Prop :=
  ∃ more a, ∀ follow, F follow → L a (taken ++ (more ++ follow)) follow

theorem Begins.mono (h : Begins F L taken) (hL : ∀ a ts rest, L a ts rest → L' a ts rest) :
    Begins F L' taken := by
  obtain ⟨more, a, h⟩ := h
  exact ⟨more, a, fun follow hfollow => hL _ _ _ (h follow hfollow)⟩

/-- What begins the first part begins the whole, if the second part can be written after it. -/
theorem Begins.andThen (h : Begins F L taken)
    (hnext : ∀ a, ∃ more b, ∀ follow, G follow →
      F (more ++ follow) ∧ M a b (more ++ follow) follow) : Begins G (L.andThen M) taken := by
  obtain ⟨first, a, hfirst⟩ := h
  obtain ⟨second, b, hsecond⟩ := hnext a
  refine ⟨first ++ second, b, fun follow hfollow => ⟨a, second ++ follow, ?_, ?_⟩⟩
  · rw [List.append_assoc]
    exact hfirst _ (hsecond follow hfollow).1
  · exact (hsecond follow hfollow).2

/-- The first part, and then something that begins the second part, begin the whole. -/
theorem Begins.after (hL : Exchangeable L) (ha : L a ts (taken' ++ rest)) (hnonempty : taken' ≠ [])
    (h : Begins G (M a) taken') :
    ∃ taken, ts = taken ++ (taken' ++ rest) ∧ Begins G (L.andThen M) (taken ++ taken') := by
  obtain ⟨taken, rfl, hexchange⟩ := hL _ _ _ ha
  obtain ⟨more, b, hmore⟩ := h
  refine ⟨taken, rfl, more, b, fun follow hfollow => ⟨a, taken' ++ (more ++ follow), ?_, ?_⟩⟩
  · rw [List.append_assoc]
    refine hexchange _ (.of_head ?_)
    -- the lexeme after the first part is the same as it was
    cases taken' with
    | nil => exact absurd rfl hnonempty
    | cons l others => rfl
  · exact hmore follow hfollow

end Languages

/-! ## Reading -/

/-- What an outcome says of the place where it began: a value is written there, and what was taken
begins what can be written. -/
structure ReadsAt {α : Type} (F : List Lexeme → Prop) (L : Language α) (c : Cursor)
    (o : Outcome ParseError Cursor α) : Prop where
  sound : ∀ {a c'}, o = .ok a c' → L a c.lexemes c'.lexemes
  begins : ∀ {c'}, o.state? = some c' → ∃ taken, c.lexemes = taken ++ c'.lexemes ∧ Begins F L taken

/-- A parser says what is written, and takes only what begins something that can be written. -/
structure Reads {α : Type} (F : List Lexeme → Prop) (p : Parser α) (L : Language α) : Prop where
  reads : ∀ c, ReadsAt F L c (p c)
  opens : Begins F L []

/-- Anything may follow. -/
def Anything (_ : List Lexeme) : Prop := True

/-- Anything but a branch may follow. -/
def NoBranch (follow : List Lexeme) : Prop := nextKind? follow ≠ some .pattern

section Combinators

variable {α β : Type} {F G : List Lexeme → Prop} {p : Parser α} {f : α → Parser β}
  {L L' : Language α} {M : α → Language β} {c : Cursor} {a : α} {e : ParseError}

/-- Nothing is said of a reading that never ends. -/
theorem ReadsAt.endless : ReadsAt F L c .endless :=
  ⟨fun h => absurd h (by simp), fun h => absurd h (by simp [Outcome.state?])⟩

/-- An error before anything was taken, in a language of which something can be written. -/
theorem ReadsAt.error (hopens : Begins F L []) : ReadsAt F L c (.error e c) := by
  refine ⟨fun h => absurd h (by simp), fun h => ?_⟩
  cases h
  exact ⟨[], rfl, hopens⟩

theorem ReadsAt.ok (ha : L a c.lexemes c.lexemes) (hopens : Begins F L []) :
    ReadsAt F L c (.ok a c) := by
  refine ⟨fun h => ?_, fun h => ?_⟩
  · cases h
    exact ha
  · cases h
    exact ⟨[], rfl, hopens⟩

/-- What is read is of a larger language, and what was taken begins it, before what may follow there. -/
theorem Reads.imp (h : Reads F p L) (hL : ∀ a ts rest, L a ts rest → L' a ts rest)
    (hbegins : ∀ taken, Begins F L taken → Begins G L' taken) : Reads G p L' := by
  refine ⟨fun c => ⟨fun ho => hL _ _ _ ((h.reads c).sound ho), fun ho => ?_⟩, hbegins [] h.opens⟩
  obtain ⟨taken, htaken, h⟩ := (h.reads c).begins ho
  exact ⟨taken, htaken, hbegins taken h⟩

theorem Reads.mono (h : Reads F p L) (hL : ∀ a ts rest, L a ts rest → L' a ts rest) :
    Reads F p L' :=
  h.imp hL fun _ hbegins => hbegins.mono hL

/-- Less may follow. -/
theorem Reads.weaken (h : Reads F p L) (hFG : ∀ follow, G follow → F follow) : Reads G p L := by
  refine h.imp (fun _ _ _ ha => ha) ?_
  rintro taken ⟨more, a, hmore⟩
  exact ⟨more, a, fun follow hfollow => hmore follow (hFG follow hfollow)⟩

/-- **Reading passes through sequences.** Where the second part takes nothing, what the first part took
is completed, and the second part after it; else the first part is already complete. -/
theorem Reads.bind (hp : Reads F p L) (hL : Exchangeable L) (hf : ∀ a, Reads G (f a) (M a))
    (hnext : ∀ a, ∃ more b, ∀ follow, G follow →
      F (more ++ follow) ∧ M a b (more ++ follow) follow) :
    Reads G (p >>= f) (L.andThen M) := by
  refine ⟨fun c => ⟨fun ho => ?_, fun ho => ?_⟩, hp.opens.andThen hnext⟩
  · obtain ⟨a, c₁, hfirst, hsecond⟩ := Outcome.bind_eq_ok_iff.mp ho
    exact ⟨a, c₁.lexemes, (hp.reads c).sound hfirst, ((hf a).reads c₁).sound hsecond⟩
  · rcases Outcome.state?_bind_eq_some_iff.mp ho with ⟨a, c₁, hfirst, hsecond⟩ | ⟨e, hfirst⟩
    · obtain ⟨taken', htaken', hbegins'⟩ := ((hf a).reads c₁).begins hsecond
      have hsound := (hp.reads c).sound hfirst
      by_cases hnil : taken' = []
      · obtain ⟨taken, htaken, hbegins⟩ := (hp.reads c).begins (by rw [hfirst]; rfl)
        refine ⟨taken, ?_, hbegins.andThen hnext⟩
        rw [htaken, htaken', hnil]
        rfl
      · rw [htaken'] at hsound
        obtain ⟨taken, htaken, hbegins⟩ := Begins.after hL hsound hnil hbegins'
        exact ⟨taken ++ taken', by rw [htaken, List.append_assoc], hbegins⟩
    · obtain ⟨taken, htaken, hbegins⟩ := (hp.reads c).begins (by rw [hfirst]; rfl)
      exact ⟨taken, htaken, hbegins.andThen hnext⟩

/-- A first part that anything may follow, and then a second part. -/
theorem Reads.andThen (hp : Reads Anything p L) (hL : Exchangeable L)
    (hf : ∀ a, Reads G (f a) (M a)) : Reads G (p >>= f) (L.andThen M) := by
  refine hp.bind hL hf fun a => ?_
  obtain ⟨more, b, h⟩ := (hf a).opens
  exact ⟨more, b, fun follow hfollow => ⟨trivial, h follow hfollow⟩⟩

/-- A value that is made from what was read. -/
theorem Reads.map (hp : Reads F p L) (g : α → β) :
    Reads F (p >>= fun a => Pure.pure (g a)) fun b ts rest => ∃ a, b = g a ∧ L a ts rest := by
  have hbegins : ∀ {taken}, Begins F L taken →
      Begins F (fun b ts rest => ∃ a, b = g a ∧ L a ts rest) taken := by
    rintro taken ⟨more, a, h⟩
    exact ⟨more, g a, fun follow hfollow => ⟨a, rfl, h follow hfollow⟩⟩
  refine ⟨fun c => ⟨fun ho => ?_, fun ho => ?_⟩, hbegins hp.opens⟩
  · obtain ⟨a, c₁, hfirst, hsecond⟩ := Outcome.bind_eq_ok_iff.mp ho
    cases hsecond
    exact ⟨a, rfl, (hp.reads c).sound hfirst⟩
  · rw [Run.run_bind] at ho
    simp only [Run.run_pure, Outcome.state?_bind_pure] at ho
    obtain ⟨taken, htaken, h⟩ := (hp.reads c).begins ho
    exact ⟨taken, htaken, hbegins h⟩

/-! ## Tokens and choices -/

/-- One token of a kind. -/
theorem reads_expect (kind : Kind) : Reads F (expect kind) fun token ts rest =>
    ts = token.toLexeme :: rest ∧ token.kind = kind := by
  have hopens : Begins F (fun (token : Token) ts rest =>
      ts = token.toLexeme :: rest ∧ token.kind = kind) [] :=
    ⟨[.bare kind], ⟨.bare kind, 0⟩, fun _ _ => ⟨rfl, rfl⟩⟩
  refine ⟨fun c => ?_, hopens⟩
  obtain ⟨position, rest⟩ := c
  cases rest with
  | nil => exact .error hopens
  | cons token rest =>
    by_cases hkind : token.kind = kind
    · have hrun : expect kind ⟨position, token :: rest⟩ = .ok token ⟨position + 1, rest⟩ := by
        simp [expect, hkind]
      rw [hrun]
      refine ⟨fun ho => ?_, fun ho => ?_⟩
      · cases ho
        exact ⟨rfl, hkind⟩
      · cases ho
        exact ⟨[token.toLexeme], rfl, [], token, fun _ _ => ⟨rfl, hkind⟩⟩
    · have hrun : expect kind ⟨position, token :: rest⟩ =
          unexpected kind.name ⟨position, token :: rest⟩ := by
        simp [expect, hkind]
      rw [hrun]
      exact .error hopens

theorem exchangeable_token (kind : Kind) : Exchangeable fun (token : Token) ts rest =>
    ts = token.toLexeme :: rest ∧ token.kind = kind := by
  rintro token _ rest ⟨rfl, hkind⟩
  exact ⟨[token.toLexeme], rfl, fun _ _ => ⟨rfl, hkind⟩⟩

/-- A token of a kind, and then something else. -/
theorem Reads.expect {f : Token → Parser β} {M : Token → Language β} (kind : Kind)
    (hf : ∀ token, Reads G (f token) (M token)) :
    Reads G (Parser.expect kind >>= f) fun b ts rest =>
      ∃ token mid, ts = token.toLexeme :: mid ∧ token.kind = kind ∧ M token b mid rest := by
  refine ((reads_expect kind).andThen (exchangeable_token kind) hf).mono ?_
  rintro b ts rest ⟨token, mid, ⟨rfl, hkind⟩, h⟩
  exact ⟨token, mid, rfl, hkind, h⟩

/-- The text of one token of a kind. -/
theorem reads_expectText (kind : Kind) : Reads F (expectText kind) fun text ts rest =>
    ∃ l, ts = l :: rest ∧ l.kind = kind ∧ text = l.textD := by
  refine ((reads_expect kind).map fun token => token.text?.getD "").mono ?_
  rintro text ts rest ⟨token, rfl, rfl, hkind⟩
  exact ⟨token.toLexeme, rfl, hkind, rfl⟩

theorem exchangeable_text (kind : Kind) : Exchangeable fun text ts rest =>
    ∃ l : Lexeme, ts = l :: rest ∧ l.kind = kind ∧ text = l.textD := by
  rintro text _ rest ⟨l, rfl, hkind, htext⟩
  exact ⟨[l], rfl, fun _ _ => ⟨l, rfl, hkind, htext⟩⟩

/-- The text of a token of a kind, and then something else. -/
theorem Reads.expectText {f : String → Parser β} {M : String → Language β} (kind : Kind)
    (hf : ∀ text, Reads G (f text) (M text)) :
    Reads G (Parser.expectText kind >>= f) fun b ts rest =>
      ∃ l mid, ts = l :: mid ∧ l.kind = kind ∧ M l.textD b mid rest := by
  refine ((reads_expectText kind).andThen (exchangeable_text kind) hf).mono ?_
  rintro b ts rest ⟨text, mid, ⟨l, rfl, hkind, rfl⟩, h⟩
  exact ⟨l, mid, rfl, hkind, h⟩

/-- The parser that the next token selects. -/
theorem Reads.predict {expected : String} {select : Kind → Option (Parser α)}
    (hopens : Begins F L []) (hselect : ∀ kind chosen, select kind = some chosen → Reads F chosen L) :
    Reads F (Parser.predict expected select) L := by
  refine ⟨fun c => ?_, hopens⟩
  rw [predict_apply]
  cases hchosen : c.peekKind?.bind select with
  | none => exact .error hopens
  | some chosen =>
    obtain ⟨kind, _, hkind⟩ := Option.bind_eq_some_iff.mp hchosen
    exact (hselect kind chosen hkind).reads c

/-! ## Repetitions -/

variable {item : Parser α} {starts : Kind → Bool} {N : Language (List α)}

/-- Items of a language that can be continued and ended at will. -/
theorem Reads.manyWithin (hitem : Reads F item L) (hL : Exchangeable L)
    (hstop : ∀ rest, (nextKind? rest).any starts = false → N [] rest rest)
    (hnil : ∀ follow, F follow → N [] follow follow)
    (hcons : ∀ {a others ts mid rest}, L a ts mid → N others mid rest → N (a :: others) ts rest)
    (budget : Nat) : Reads F (Parser.manyWithin starts item budget) N := by
  have hopens : Begins F N [] := ⟨[], [], hnil⟩
  induction budget with
  | zero => exact ⟨fun _ => .endless, hopens⟩
  | succ budget ih =>
    refine ⟨fun c => ?_, hopens⟩
    rw [manyWithin_succ]
    by_cases hstarts : c.peekKind?.any starts
    · rw [if_pos hstarts]
      -- after one item there may be no more of them
      have hmore : Reads F (item >>= fun a => Parser.manyWithin starts item budget >>= fun others =>
          Pure.pure (a :: others)) N := by
        refine (hitem.bind hL (fun a => ih.map (a :: ·)) fun a => ?_).mono ?_
        · exact ⟨[], [a], fun follow hfollow => ⟨hfollow, [], rfl, hnil follow hfollow⟩⟩
        · rintro _ ts rest ⟨a, mid, ha, others, rfl, hothers⟩
          exact hcons ha hothers
      exact hmore.reads c
    · rw [if_neg hstarts]
      refine .ok (hstop _ ?_) hopens
      rw [← Cursor.peekKind?_eq]
      exact Bool.eq_false_iff.mpr hstarts

/-- **Reading passes through repetitions.** The budget makes no difference to what is read. -/
theorem Reads.many (hitem : Reads F item L) (hL : Exchangeable L)
    (hstop : ∀ rest, (nextKind? rest).any starts = false → N [] rest rest)
    (hnil : ∀ follow, F follow → N [] follow follow)
    (hcons : ∀ {a others ts mid rest}, L a ts mid → N others mid rest → N (a :: others) ts rest) :
    Reads F (Parser.many starts item) N :=
  ⟨fun c => (hitem.manyWithin hL hstop hnil hcons (c.remaining + 1)).reads c, ⟨[], [], hnil⟩⟩

end Combinators

/-! ## Names, constructors and patterns -/

theorem reads_names (kind : Kind) :
    Reads Anything (Parser.names kind) fun ns => (Phrase.names kind ns).Spans := by
  refine (reads_expectText kind).many (exchangeable_text kind) (fun _ _ => .noName)
    (fun _ _ => .noName) ?_
  rintro _ others _ mid rest ⟨l, rfl, hl, rfl⟩ hothers
  exact .name hl hothers

/-- A name and further names, of a pattern or of a constructor that is defined. -/
theorem reads_constructor (kind : Kind) :
    Reads Anything (Parser.constructor kind) fun entry ts rest =>
      ∃ l mid, ts = l :: mid ∧ l.kind = .upperName ∧ entry.1 = l.textD ∧
        (Phrase.names kind entry.2).Spans mid rest := by
  refine (Reads.expectText .upperName fun name => (reads_names kind).map (name, ·)).mono ?_
  rintro _ _ rest ⟨l, mid, rfl, hl, ns, rfl, hns⟩
  exact ⟨l, mid, rfl, hl, rfl, hns⟩

/-- A variable, or the name of a constructor with variables. -/
theorem reads_pattern : Reads Anything Parser.pattern fun p => (Phrase.pattern p).Spans := by
  refine .predict ⟨[.bare .lowerName], _, fun _ _ => .var rfl⟩ ?_
  intro kind chosen hkind
  match kind, hkind with
  | .lowerName, rfl =>
    refine ((reads_expectText .lowerName).map Pattern.var).mono ?_
    rintro _ _ rest ⟨_, rfl, l, rfl, hl, rfl⟩
    exact .var hl
  | .upperName, rfl =>
    show Reads Anything (constructor .lowerName >>= fun entry =>
      pure (Pattern.constructor entry.1 entry.2)) _
    refine ((reads_constructor .lowerName).map fun entry =>
      Pattern.constructor entry.1 entry.2).mono ?_
    rintro _ _ rest ⟨⟨_, params⟩, rfl, l, mid, rfl, hl, rfl, hparams⟩
    exact .construct hl hparams

/-! ## Expressions over a parser for the expressions inside -/

section Nested

variable {nested : Parser Expr} (hnested : Reads Anything nested fun e => (Phrase.level 1 e).Spans)

include hnested

theorem reads_branchOver : Reads Anything (branchOver nested) fun b => (Phrase.branch b).Spans := by
  refine (Reads.expect .pattern fun _ => reads_pattern.andThen (exchangeable_spans _) fun p =>
    .expect .arrow fun _ => .expect .openCurly fun _ =>
    hnested.andThen (exchangeable_spans _) fun e => (reads_expect .closeCurly).map fun _ =>
      (⟨p, e⟩ : Branch)).mono ?_
  rintro _ _ rest ⟨bar, _, rfl, hbar, p, _, hp, arrow, _, rfl, harrow, opening, _, rfl, hopening,
    e, _, he, closing, rfl, rfl, hclosing⟩
  exact .branch hbar hp harrow hopening he hclosing

/-- The branches of a case end where no further bar stands. -/
theorem reads_branchesOver : Reads NoBranch (branchesOver nested) fun bs ts rest =>
    (Phrase.branches bs).Spans ts rest ∧ nextKind? rest ≠ some .pattern := by
  have hbranch := reads_branchOver hnested
  have hothers : Reads NoBranch (many (· = .pattern) (branchOver nested)) fun bs ts rest =>
      (bs = [] ∧ ts = rest ∨ (Phrase.branches bs).Spans ts rest) ∧ nextKind? rest ≠ some .pattern := by
    refine (hbranch.weaken fun _ _ => trivial).many (exchangeable_spans _) ?_ ?_ ?_
    · intro rest hstop
      refine ⟨.inl ⟨rfl, rfl⟩, fun hnext => ?_⟩
      rw [hnext] at hstop
      exact absurd hstop (by simp)
    · exact fun follow hfollow => ⟨.inl ⟨rfl, rfl⟩, hfollow⟩
    · rintro b bs ts mid rest hb ⟨⟨rfl, rfl⟩ | hbs, hlast⟩
      · exact ⟨.inr (.lastBranch hb), hlast⟩
      · exact ⟨.inr (.moreBranches hb hbs), hlast⟩
  refine (hbranch.andThen (exchangeable_spans _) fun b => hothers.map (b :: ·)).mono ?_
  rintro _ ts rest ⟨b, mid, hb, bs, rfl, ⟨rfl, rfl⟩ | hbs, hlast⟩
  · exact ⟨.lastBranch hb, hlast⟩
  · exact ⟨.moreBranches hb hbs, hlast⟩

/-- A case may be followed by all but a bar, which would be one of its own. -/
theorem reads_caseOver : Reads NoBranch (caseOver nested) fun e => (Phrase.atom e).Spans := by
  refine (Reads.expect .case fun _ => hnested.andThen (exchangeable_spans _) fun e =>
    (reads_branchesOver hnested).map (Expr.case e)).mono ?_
  rintro _ _ rest ⟨l, _, rfl, hl, e, mid, he, bs, rfl, hbs, hlast⟩
  exact .case hl he hbs hlast

theorem reads_groupOver : Reads Anything (groupOver nested) fun e => (Phrase.atom e).Spans := by
  refine (Reads.expect .openParen fun _ => hnested.andThen (exchangeable_spans _) fun e =>
    (reads_expect .closeParen).map fun _ => e).mono ?_
  rintro _ _ rest ⟨opening, _, rfl, hopening, e, _, he, closing, rfl, rfl, hclosing⟩
  exact .group hopening he hclosing

/-- An atom that is a case may not be followed by a bar. -/
theorem reads_atomOver : Reads NoBranch (atomOver nested) fun e => (Phrase.atom e).Spans := by
  refine .predict ⟨[.bare .int], _, fun _ _ => .int rfl⟩ ?_
  intro kind chosen hkind
  match kind, hkind with
  | .int, rfl =>
    refine (((reads_expect .int).map fun token => token.int?.getD 0).map Expr.int).mono ?_
    rintro _ _ rest ⟨_, rfl, token, rfl, rfl, hl⟩
    exact .int hl
  | .literal, rfl =>
    refine ((reads_expectText .literal).map Expr.str).mono ?_
    rintro _ _ rest ⟨_, rfl, l, rfl, hl, rfl⟩
    exact .str hl
  | .lowerName, rfl =>
    refine ((reads_expectText .lowerName).map Expr.lower).mono ?_
    rintro _ _ rest ⟨_, rfl, l, rfl, hl, rfl⟩
    exact .lower hl
  | .upperName, rfl =>
    refine ((reads_expectText .upperName).map Expr.upper).mono ?_
    rintro _ _ rest ⟨_, rfl, l, rfl, hl, rfl⟩
    exact .upper hl
  | .case, rfl => exact reads_caseOver hnested
  | .openParen, rfl => exact (reads_groupOver hnested).weaken fun _ _ => trivial

/-- Anything may follow an application, since one argument more can close it off. -/
theorem reads_applicationOver :
    Reads Anything (applicationOver nested) fun e => (Phrase.application e).Spans := by
  have hatom := reads_atomOver hnested
  have harguments : Reads NoBranch (many startsAtom (atomOver nested)) fun es =>
      (Phrase.arguments es).Spans :=
    hatom.many (exchangeable_spans _) (fun _ _ => .noArgument) (fun _ _ => .noArgument) .argument
  have happlication : Reads NoBranch (applicationOver nested) fun e =>
      (Phrase.application e).Spans := by
    refine (hatom.bind (exchangeable_spans _) (fun f => harguments.map f.applyAll) fun f => ?_).mono ?_
    · exact ⟨[], f.applyAll [], fun follow hfollow => ⟨hfollow, [], rfl, .noArgument⟩⟩
    · rintro _ ts rest ⟨f, mid, hf, es, rfl, hes⟩
      exact .application hf hes
  -- one argument more closes off what was taken, whatever follows
  refine happlication.imp (fun _ _ _ he => he) ?_
  rintro taken ⟨more, e, h⟩
  refine ⟨more ++ [.int 0], .apply e (.int 0), fun follow _ => ?_⟩
  have hargument : NoBranch (Lexeme.int 0 :: follow) := fun hnext => absurd hnext (by simp [Lexeme.int])
  rw [List.append_assoc]
  exact (h _ hargument).apply (@Phrase.Spans.int (.int 0) follow rfl)

/-- A negation or an application may be followed by anything: before a bar, one argument more closes it
off. -/
theorem reads_unaryOver : Reads Anything (unaryOver nested) fun e => (Phrase.level 6 e).Spans := by
  have happlication := reads_applicationOver hnested
  have hplain : Reads Anything (applicationOver nested) fun e => (Phrase.level 6 e).Spans :=
    happlication.mono fun _ _ _ => .applied
  have hnegated : Reads Anything (expect .not >>= fun _ => applicationOver nested >>= fun e =>
      Pure.pure (Expr.unary .not e)) fun e => (Phrase.level 6 e).Spans := by
    refine (Reads.expect .not fun _ => happlication.map (Expr.unary .not)).mono ?_
    rintro _ _ rest ⟨l, mid, rfl, hl, e, rfl, he⟩
    exact .not hl he
  refine ⟨fun c => ?_, hplain.opens⟩
  rw [unaryOver_apply]
  by_cases hnot : c.peekKind? = some .not
  · rw [if_pos hnot]
    exact hnegated.reads c
  · rw [if_neg hnot]
    exact hplain.reads c

end Nested

/-! ## Levels -/

/-- What follows an operand: nothing, or an operator of a level and its right operand. -/
theorem reads_afterOperand {n : Nat} {right : Parser Expr}
    (hright : Reads Anything right fun e => (Phrase.level n e).Spans) (left : Expr) :
    Reads Anything (afterOperand n right left) fun e ts rest => (e = left ∧ ts = rest) ∨
      ∃ op l mid right, ts = l :: mid ∧ l.kind = op.kind ∧ op.precedence = n ∧
        (Phrase.level n right).Spans mid rest ∧ e = .binary op left right := by
  refine ⟨fun c => ?_, [], left, fun _ _ => .inl ⟨rfl, rfl⟩⟩
  unfold afterOperand
  cases hop : c.peekKind?.bind (BinaryOperator.atLevel? n) with
  | none => exact .ok (.inl ⟨rfl, rfl⟩) ⟨[], left, fun _ _ => .inl ⟨rfl, rfl⟩⟩
  | some op =>
    obtain ⟨kind, _, hatLevel⟩ := Option.bind_eq_some_iff.mp hop
    obtain ⟨_, hprecedence⟩ := BinaryOperator.atLevel?_eq_some_iff.mp hatLevel
    have hoperator := Reads.expect op.kind fun _ => hright.map (Expr.binary op left)
    refine (hoperator.mono ?_).reads c
    rintro _ _ rest ⟨token, mid, rfl, hkind, right, rfl, hright⟩
    exact .inr ⟨op, token.toLexeme, mid, right, rfl, hkind, hprecedence, hright, rfl⟩

/-- Operands of the next level, with operators of a level between them. -/
theorem reads_chainWithin {n : Nat} (hn : n < 6) {operand : Parser Expr}
    (hoperand : Reads Anything operand fun e => (Phrase.level (n + 1) e).Spans) (budget : Nat) :
    Reads Anything (chainWithin (BinaryOperator.atLevel? n) operand budget) fun e =>
      (Phrase.level n e).Spans := by
  induction budget with
  | zero =>
    have hopens : Begins Anything (fun e => (Phrase.level n e).Spans) [] :=
      hoperand.opens.mono fun _ _ _ => .operand hn
    exact ⟨fun _ => .endless, hopens⟩
  | succ budget ih =>
    rw [chainWithin_succ]
    refine (hoperand.andThen (exchangeable_spans _) (reads_afterOperand ih)).mono ?_
    rintro _ ts rest ⟨left, mid, hleft, ⟨rfl, rfl⟩ | ⟨op, l, mid', right, rfl, hl, hop, hright, rfl⟩⟩
    · exact .operand hn hleft
    · exact .binary hop hleft hl hright

theorem reads_chain {n : Nat} (hn : n < 6) {operand : Parser Expr}
    (hoperand : Reads Anything operand fun e => (Phrase.level (n + 1) e).Spans) :
    Reads Anything (chain (BinaryOperator.atLevel? n) operand) fun e => (Phrase.level n e).Spans :=
  ⟨fun c => (reads_chainWithin hn hoperand (c.remaining + 1)).reads c,
    (reads_chainWithin hn hoperand 0).opens⟩

/-- **All levels read what the grammar says**: induction on the levels, from the tightest one. -/
theorem reads_levelsOver {operand : Parser Expr}
    (hoperand : Reads Anything operand fun e => (Phrase.level 6 e).Spans) :
    Reads Anything (levelsOver operand levels) fun e => (Phrase.level 1 e).Spans :=
  @levelsOver_induction (fun n p => Reads Anything p fun e => (Phrase.level n e).Spans) operand hoperand
    fun _ _ hn htighter => reads_chain hn htighter

/-- What an expression parser says is an expression, and what it takes begins one. -/
theorem reads_expressionWithin (depth : Nat) :
    Reads Anything (expressionWithin depth) fun e => (Phrase.level 1 e).Spans := by
  induction depth with
  | zero =>
    have hopens : Begins Anything (fun e => (Phrase.level 1 e).Spans) [] := by
      refine ⟨[.int 0], .int 0, fun follow _ => ?_⟩
      have happlication : (Phrase.application (.int 0)).Spans (.int 0 :: follow) follow :=
        @Phrase.Spans.application _ [] _ _ _ (@Phrase.Spans.int (.int 0) follow rfl) .noArgument
      exact (Phrase.Spans.applied happlication).loosen (by omega) (by omega)
    exact ⟨fun _ => .endless, hopens⟩
  | succ depth ih => exact reads_levelsOver (reads_unaryOver ih)

theorem reads_expression : Reads Anything Parser.expression fun e => (Phrase.level 1 e).Spans :=
  ⟨fun c => (reads_expressionWithin (c.remaining + 1)).reads c, (reads_expressionWithin 0).opens⟩

/-! ## Definitions -/

theorem reads_function : Reads Anything Parser.function fun d ts rest =>
    ∀ keyword : Lexeme, keyword.kind = .fn → (Phrase.definition d).Spans (keyword :: ts) rest := by
  refine (Reads.expectText .upperName fun name =>
    (reads_names .lowerName).andThen (exchangeable_spans _) fun params =>
    .expect .openCurly fun _ => reads_expression.andThen (exchangeable_spans _) fun e =>
    (reads_expect .closeCurly).map fun _ => Definition.function ⟨name, params, e⟩).mono ?_
  rintro _ _ rest ⟨name, _, rfl, hname, params, _, hparams, opening, _, rfl, hopening, e, _, he,
    closing, rfl, rfl, hclosing⟩ keyword hkeyword
  exact .function hkeyword hname hparams hopening he hclosing

theorem reads_member : Reads Anything Parser.member fun c => (Phrase.constructor c).Spans := by
  show Reads Anything (constructor .upperName >>= fun entry =>
    pure (⟨entry.1, entry.2⟩ : Constructor)) _
  refine ((reads_constructor .upperName).map fun entry =>
    (⟨entry.1, entry.2⟩ : Constructor)).mono ?_
  rintro _ _ rest ⟨⟨_, fields⟩, rfl, l, mid, rfl, hl, rfl, hfields⟩
  exact .constructor hl hfields

theorem reads_type : Reads Anything Parser.type fun d ts rest =>
    ∀ keyword : Lexeme, keyword.kind = .type → (Phrase.definition d).Spans (keyword :: ts) rest := by
  have hnext : Reads Anything (expect .comma *> member) fun c ts rest =>
      ∃ comma : Token, ∃ mid, ts = comma.toLexeme :: mid ∧ comma.kind = .comma ∧
        (Phrase.constructor c).Spans mid rest :=
    .expect .comma fun _ => reads_member
  have hothers : Reads Anything (many (· = .comma) (expect .comma *> member)) fun cs =>
      (Phrase.otherConstructors cs).Spans := by
    refine hnext.many ?_ (fun _ _ => .noConstructor) (fun _ _ => .noConstructor) ?_
    · rintro c _ rest ⟨comma, mid, rfl, hcomma, hc⟩
      obtain ⟨taken, rfl, hexchange⟩ := hc.exists_taken
      exact ⟨comma.toLexeme :: taken, rfl, fun rest' h => ⟨comma, _, rfl, hcomma, hexchange rest' h⟩⟩
    · rintro c cs _ mid rest ⟨comma, _, rfl, hcomma, hc⟩ hcs
      exact .nextConstructor hcomma hc hcs
  have hmembers : Reads Anything (separated1 member .comma) fun cs ts rest =>
      ∃ first others mid, cs = first :: others ∧ (Phrase.constructor first).Spans ts mid ∧
        (Phrase.otherConstructors others).Spans mid rest := by
    refine (reads_member.andThen (exchangeable_spans _) fun c => hothers.map (c :: ·)).mono ?_
    rintro _ ts rest ⟨c, mid, hc, cs, rfl, hcs⟩
    exact ⟨c, cs, mid, rfl, hc, hcs⟩
  refine (Reads.expectText .upperName fun name => .expect .assign fun _ => hmembers.map fun cs =>
    Definition.type ⟨name, cs⟩).mono ?_
  rintro _ _ rest ⟨name, _, rfl, hname, assign, ts, rfl, hassign, _, rfl, c, cs, mid, rfl, hc, hcs⟩
    keyword hkeyword
  exact .type hkeyword hname hassign hc hcs

/-- **A definition is read as the grammar says.** -/
theorem reads_definition : Reads Anything Parser.definition fun d => (Phrase.definition d).Spans := by
  have hfunction : Reads Anything (expect .fn *> Parser.function) fun d =>
      (Phrase.definition d).Spans := by
    refine (Reads.expect .fn fun _ => reads_function).mono ?_
    rintro d _ rest ⟨keyword, mid, rfl, hkeyword, hd⟩
    exact hd keyword.toLexeme hkeyword
  refine .predict hfunction.opens ?_
  intro kind chosen hkind
  match kind, hkind with
  | .fn, rfl => exact hfunction
  | .type, rfl =>
    refine (Reads.expect .type fun _ => reads_type).mono ?_
    rintro d _ rest ⟨keyword, mid, rfl, hkeyword, hd⟩
    exact hd keyword.toLexeme hkeyword

/-- **The parser of programs says what is written, and takes only what begins a program.** -/
theorem reads_program : Reads Anything Parser.program fun p => (Phrase.program p).Spans :=
  reads_definition.many (exchangeable_spans _) (fun _ _ => .noDefinition) (fun _ _ => .noDefinition)
    .define

end Parser

end Monotype
