import Monotype.Proofs.Parsing.Productions

/-!
# `Monotype.Proofs.Parsing.Locality` — combinations look one token ahead

`Predictive` says what a parser does before other tokens that agree so far, unless it never ends there. A
production always ends, but a combination need not: a repetition goes on for ever if its item takes no
token. So what is left to prove is that a combination that ends before some tokens ends before others that
agree up to where it stopped (`OneAhead`).

For a repetition that is a matter of budgets. Its budget is one more than the number of tokens, and the
other tokens may be fewer. But the repetition has spent no more of its budget than it took tokens, and so
many there are in both; an item that took nothing would have been tried again at the same place, and so
can be left out of the count.

## Contents
- **`OneAhead`**: a parser looks one token ahead, and ends wherever the tokens agree.
- **`OneAhead.bind`**, **`OneAhead.predict`**, **`OneAhead.many`**, …: how it passes through combinations.
- **`Composed`**: what productions and single tokens can be combined to.
- **`Composed.one_token_ahead`**: all of that looks one token ahead.
-/

namespace Monotype

namespace Cursor

variable {c d : Cursor} {i j : Nat}

theorem remaining_of_take (h : d.rest.take (j + 1) = c.rest.take (j + 1)) (hj : j ≤ c.remaining) :
    j ≤ d.remaining := by
  have hlength : min (j + 1) d.rest.length = min (j + 1) c.rest.length := by
    rw [← List.length_take, ← List.length_take, h]
  have hc : j ≤ c.rest.length := hj
  show j ≤ d.rest.length
  omega

theorem peekKind?_of_take (h : d.rest.take (j + 1) = c.rest.take (j + 1)) :
    d.peekKind? = c.peekKind? := by
  unfold peekKind?
  rw [peek?_of_take h]

/-- Agreement of whole lists of tokens, as seen from a place within them. -/
theorem take_ofTokens_skip {tokens others : List Token} (hij : i ≤ j)
    (h : ∀ k ≤ j, others[k]? = tokens[k]?) :
    ((ofTokens others).skip i).rest.take (j - i + 1) =
      ((ofTokens tokens).skip i).rest.take (j - i + 1) := by
  refine List.ext_getElem? fun k => ?_
  show ((others.drop i).take (j - i + 1))[k]? = ((tokens.drop i).take (j - i + 1))[k]?
  rw [List.getElem?_take, List.getElem?_take, List.getElem?_drop, List.getElem?_drop]
  by_cases hk : k < j - i + 1
  · rw [if_pos hk, if_pos hk]
    exact h (i + k) (by omega)
  · rw [if_neg hk, if_neg hk]

end Cursor

namespace Parser

/-- Wherever a parser ends, the tokens that it takes and the one after them decide that it does, and how. -/
structure OneAhead {α : Type} (p : Parser α) : Prop where
  predictive : Predictive p p
  ends : ∀ {c d j}, (p c).state? = some (c.skip j) → j ≤ c.remaining →
    d.rest.take (j + 1) = c.rest.take (j + 1) → (p d).Ends

section Combinators

variable {α β : Type} {p : Parser α} {q : Parser β} {f : α → Parser β} {starts : Kind → Bool}
  {item : Parser α} {c d : Cursor} {j : Nat}

/-- Before tokens that agree so far, a parser stops at the same index with the same value or error. -/
theorem OneAhead.same (h : OneAhead p) (hstate : (p c).state? = some (c.skip j))
    (hj : j ≤ c.remaining) (htake : d.rest.take (j + 1) = c.rest.take (j + 1)) :
    p d = (p c).mapState fun _ => d.skip j :=
  (h.predictive.same hstate hj htake).resolve_left (Outcome.ends_iff.mp (h.ends hstate hj htake))

/-- A parser that ends everywhere only has to look one token ahead. -/
theorem oneAhead_of_ends (h : Predictive p p) (hends : ∀ c, (p c).Ends) : OneAhead p :=
  ⟨h, fun _ _ _ => hends _⟩

theorem oneAhead_pure (a : α) : OneAhead (pure a : Parser α) :=
  oneAhead_of_ends (predictive_pure a) fun _ => Outcome.ends_ok

theorem oneAhead_expect (kind : Kind) : OneAhead (expect kind) :=
  oneAhead_of_ends (predictive_expect kind) fun _ => (progresses_expect kind).ends (Nat.le_refl _)

/-- **Locality passes through sequences.** The second part ends on other tokens because it starts where
the first one stopped, on tokens that agree there. -/
theorem OneAhead.bind (hp : OneAhead p) (hf : ∀ a, OneAhead (f a)) : OneAhead (p >>= f) := by
  refine ⟨hp.predictive.bind fun a => (hf a).predictive, fun {c d j} h hj htake => ?_⟩
  rw [Run.run_bind]
  rcases Outcome.state?_bind_eq_some_iff.mp h with ⟨a, c₁, hfirst, hsecond⟩ | ⟨e, hfirst⟩
  · obtain ⟨i, k, hi, hk, rfl, rfl⟩ := hp.predictive.exists_parts (hf a).predictive hfirst hsecond
    rw [hp.same (by rw [hfirst]; rfl) hi (Cursor.take_le_of_take htake (by omega)), hfirst]
    rw [← Cursor.skip_skip] at hsecond
    exact (hf a).ends hsecond hk (Cursor.take_skip_of_take htake)
  · rw [hp.same (by rw [hfirst]; rfl) hj htake, hfirst]
    exact Outcome.ends_error

theorem OneAhead.map (hp : OneAhead p) (g : α → β) : OneAhead (p >>= fun a => pure (g a)) :=
  hp.bind fun _ => oneAhead_pure _

/-- A choice falls on the same parser where the next tokens are of the same kind. -/
theorem OneAhead.predict {expected : String} {select : Kind → Option (Parser α)}
    (hselect : ∀ kind chosen, select kind = some chosen → OneAhead chosen) :
    OneAhead (Parser.predict expected select) := by
  refine ⟨.predict fun kind => ?_, fun {c d j} h hj htake => ?_⟩
  · cases hchosen : select kind with
    | none => exact .none
    | some chosen => exact .some (hselect kind chosen hchosen).predictive
  · rw [predict_apply] at h ⊢
    rw [Cursor.peekKind?_of_take htake]
    cases hchosen : c.peekKind?.bind select with
    | none => exact Outcome.ends_error
    | some chosen =>
      obtain ⟨kind, _, hkind⟩ := Option.bind_eq_some_iff.mp hchosen
      rw [hchosen] at h
      exact (hselect kind chosen hkind).ends h hj htake

/-- Where another item starts, a repetition stops where its other items do, or where the first one fails. -/
theorem state?_manyWithin_succ {budget : Nat} {c' : Cursor} (hstarts : c.peekKind?.any starts) :
    (manyWithin starts item (budget + 1) c).state? = some c' ↔
      (∃ a c₁, item c = .ok a c₁ ∧ (manyWithin starts item budget c₁).state? = some c') ∨
        ∃ e, item c = .error e c' := by
  have hothers : ∀ a c₁, ((manyWithin starts item budget >>= fun others => pure (a :: others)) c₁).state? =
      (manyWithin starts item budget c₁).state? := fun _ _ => Outcome.state?_bind_pure
  rw [manyWithin_succ, if_pos hstarts, Run.run_bind, Outcome.state?_bind_eq_some_iff]
  simp only [hothers]

/-- A repetition that stopped after some tokens does not need more of a budget than these. -/
theorem OneAhead.manyWithin_ends (hitem : OneAhead item) {budget budget' : Nat}
    (h : (manyWithin starts item budget c).state? = some (c.skip j)) (hj : j ≤ c.remaining)
    (htake : d.rest.take (j + 1) = c.rest.take (j + 1)) (hbudget : j < budget') :
    (manyWithin starts item budget' d).Ends := by
  induction budget generalizing budget' c d j with
  | zero => exact absurd h (by simp [manyWithin, Outcome.state?])
  | succ budget ih =>
    obtain ⟨budget', rfl⟩ : ∃ fewer, budget' = fewer + 1 := ⟨budget' - 1, by omega⟩
    have hpeek : d.peekKind? = c.peekKind? := Cursor.peekKind?_of_take htake
    by_cases hstarts : c.peekKind?.any starts
    · have hstarts' : d.peekKind?.any starts := hpeek ▸ hstarts
      rcases (state?_manyWithin_succ hstarts).mp h with ⟨a, c₁, hfirst, hothers⟩ | ⟨e, hfirst⟩
      · obtain ⟨i, k, hi, hk, rfl, rfl⟩ :=
          hitem.predictive.exists_parts (hitem.predictive.manyWithin budget budget) hfirst hothers
        rw [← Cursor.skip_skip] at hothers
        -- an item that took nothing leaves the repetition where it was, with less of its budget
        cases i with
        | zero =>
          rw [Nat.zero_add] at hbudget hj htake
          rw [Cursor.skip_zero] at hothers
          exact ih hothers hj htake hbudget
        | succ i =>
          have hsame : item d = .ok a (d.skip (i + 1)) := by
            rw [hitem.same (by rw [hfirst]; rfl) hi (Cursor.take_le_of_take htake (by omega)), hfirst]
            rfl
          have hends : (manyWithin starts item budget' (d.skip (i + 1))).Ends :=
            ih hothers hk (Cursor.take_skip_of_take htake) (by omega)
          obtain ⟨d', hd'⟩ := Option.isSome_iff_exists.mp hends
          exact Outcome.ends_of_state? ((state?_manyWithin_succ hstarts').mpr (.inl ⟨a, _, hsame, hd'⟩))
      · have hsame : item d = .error e (d.skip j) := by
          rw [hitem.same (by rw [hfirst]; rfl) hj htake, hfirst]
          rfl
        exact Outcome.ends_of_state? ((state?_manyWithin_succ hstarts').mpr (.inr ⟨e, hsame⟩))
    · rw [manyWithin_succ, if_neg (hpeek ▸ hstarts)]
      exact Outcome.ends_ok

/-- **Locality passes through repetitions**, also of items that take nothing. -/
theorem OneAhead.many (hitem : OneAhead item) : OneAhead (Parser.many starts item) :=
  ⟨hitem.predictive.many, fun h hj htake =>
    hitem.manyWithin_ends h hj htake (Nat.lt_succ_of_le (Cursor.remaining_of_take htake hj))⟩

theorem OneAhead.many1 (hitem : OneAhead item) : OneAhead (Parser.many1 starts item) :=
  hitem.bind fun _ => hitem.many.map _

theorem OneAhead.separated1 (hitem : OneAhead item) (separator : Kind) :
    OneAhead (Parser.separated1 item separator) := by
  have hnext : OneAhead (expect separator *> item) := (oneAhead_expect separator).bind fun _ => hitem
  exact hitem.bind fun _ => hnext.many.map _

end Combinators

/-! ## Combinations -/

/-- What parsers of single tokens and productions can be combined to. -/
inductive Composed : {α : Type} → Parser α → Prop
  | expect (kind : Kind) : Composed (expect kind)
  | expectText (kind : Kind) : Composed (expectText kind)
  | expectInt : Composed expectInt
  | production {α : Type} {p : Parser α} (hp : Production p) : Composed p
  | pair {α β : Type} {p : Parser α} {q : Parser β} (hp : Composed p) (hq : Composed q) :
      Composed (pair p q)
  | keepFirst {α β : Type} {p : Parser α} {q : Parser β} (hp : Composed p) (hq : Composed q) :
      Composed (p <* q)
  | keepSecond {α β : Type} {p : Parser α} {q : Parser β} (hp : Composed p) (hq : Composed q) :
      Composed (p *> q)
  | map {α β : Type} {p : Parser α} (hp : Composed p) (g : α → β) : Composed (g <$> p)
  | many {α : Type} {item : Parser α} (hitem : Composed item) (starts : Kind → Bool) :
      Composed (many starts item)
  | many1 {α : Type} {item : Parser α} (hitem : Composed item) (starts : Kind → Bool) :
      Composed (many1 starts item)
  | separated1 {α : Type} {item : Parser α} (hitem : Composed item) (separator : Kind) :
      Composed (separated1 item separator)
  | predict {α : Type} {select : Kind → Option (Parser α)} (expected : String)
      (hselect : ∀ kind chosen, select kind = some chosen → Composed chosen) :
      Composed (predict expected select)

namespace Composed

variable {α : Type} {p : Parser α}

/-- **Whatever is composed looks one token ahead**: one case for each way of composing. -/
theorem oneAhead (h : Composed p) : OneAhead p := by
  induction h with
  | expect kind => exact oneAhead_expect kind
  | expectText kind => exact (oneAhead_expect kind).map _
  | expectInt => exact (oneAhead_expect .int).map _
  | production hp => exact oneAhead_of_ends hp.predictive hp.ends
  | pair _ _ ihp ihq => exact ihp.bind fun _ => ihq.map _
  | keepFirst _ _ ihp ihq => exact ihp.bind fun _ => ihq.map _
  | keepSecond _ _ ihp ihq => exact ihp.bind fun _ => ihq
  | map _ g ihp => exact ihp.map g
  | many _ starts ih => exact ih.many
  | many1 _ starts ih => exact ih.many1
  | separated1 _ separator ih => exact ih.separated1 separator
  | predict expected _ ih => exact .predict ih

/-- **Parsers look one token ahead.** If a combination stops, with a value or an error, then at an index that
is neither before its start nor behind the tokens. Among any other tokens that agree with these up to and
including that index, or end there as well, it does the same and stops at the same index. -/
theorem one_token_ahead (hp : Composed p) {tokens : List Token} {i : Nat} (hi : i ≤ tokens.length)
    (hends : (p ((Cursor.ofTokens tokens).skip i)).Ends) :
    ∃ j, i ≤ j ∧ j ≤ tokens.length ∧
      (p ((Cursor.ofTokens tokens).skip i)).state? = some ((Cursor.ofTokens tokens).skip j) ∧
      ∀ others : List Token, (∀ k ≤ j, others[k]? = tokens[k]?) →
        p ((Cursor.ofTokens others).skip i) =
          (p ((Cursor.ofTokens tokens).skip i)).mapState fun _ => (Cursor.ofTokens others).skip j := by
  obtain ⟨j, hij, hj, hstate⟩ := hp.oneAhead.predictive.exists_stop hi hends
  refine ⟨j, hij, hj, hstate, fun others hothers => ?_⟩
  have hskip : ∀ c : Cursor, c.skip j = (c.skip i).skip (j - i) := fun c => by
    rw [Cursor.skip_skip, Nat.add_sub_cancel' hij]
  have hlength : (Cursor.ofTokens tokens).remaining = tokens.length := rfl
  rw [hskip] at hstate ⊢
  exact hp.oneAhead.same hstate (by rw [Cursor.remaining_skip]; omega)
    (Cursor.take_ofTokens_skip hij hothers)

/-- A constructor is missing after a comma. Whatever follows the token that stands there instead, and however
much of it there is, the members of the type are read up to there and fail with the same error. -/
theorem one_token_ahead_missing_member :
    let tokens := Token.number [.bare .type, .text .upperName "T", .bare .assign, .text .upperName "A",
      .text .upperName "Int", .bare .comma, .text .lowerName "b", .bare .plus]
    let p := Parser.pair (Parser.expectText .upperName <* Parser.expect .assign)
      (Parser.separated1 Parser.member .comma)
    Composed p ∧ (p ((Cursor.ofTokens tokens).skip 1)).Ends ∧
      ∀ others : List Token, (∀ k ≤ 6, others[k]? = tokens[k]?) →
        p ((Cursor.ofTokens others).skip 1) =
          .error (.unexpectedToken "UID" ⟨.text .lowerName "b", 6⟩) ((Cursor.ofTokens others).skip 6) := by
  intro tokens p
  have hp : Composed p :=
    .pair (.keepFirst (.expectText .upperName) (.expect .assign)) (.separated1 (.production .member) .comma)
  have hrun : p ((Cursor.ofTokens tokens).skip 1) =
      .error (.unexpectedToken "UID" ⟨.text .lowerName "b", 6⟩) ((Cursor.ofTokens tokens).skip 6) := rfl
  have hends : (p ((Cursor.ofTokens tokens).skip 1)).Ends := hrun ▸ Outcome.ends_error
  refine ⟨hp, hends, fun others hothers => ?_⟩
  obtain ⟨j, _, _, hstate, hsame⟩ := one_token_ahead hp (i := 1) (by decide) hends
  obtain rfl : 6 = j := Cursor.skip_inj (Option.some.inj (hrun ▸ hstate))
  rw [hsame others hothers, hrun]
  rfl

end Composed

end Parser

end Monotype
