import Monotype.Proofs.Unify.Termination

/-!
# `Monotype.Proofs.Unify.OccursCheck` — what the occurs check changes

Two unifications of the same types, one with the occurs check and one without, take the same steps as
long as the check finds nothing. When it does find something, the one with the check fails. The other
binds the variable, and that makes a cycle; whatever it does from there, the cycle remains, since no
binding is ever taken back. So the second one has the outcome of the first, unless the first fails by
the check; and then it ends, if it does, with cyclic bindings.

## Contents
- **`Outcome.AgreeUntil`**: two outcomes that are the same, up to an error of the first.
- **`Outcome.AgreeUntil.bind`**: the relation carries over to sequences.
- **`agreeUntil_unify`**: unification with and without the occurs check.
-/

namespace Monotype

/-! ## Outcomes that are the same up to an error -/

namespace Outcome

variable {ε ε' σ τ α β : Type} {bad : ε → Bool} {bad' : ε' → Bool} {lost : σ → Prop}
  {lost' : τ → Prop} {o o' : Outcome ε σ α}

/-- The same outcome, unless the first one is an error of a certain kind. Then all that is said of the
second one is that the state it leaves, if it ends, is a lost one. -/
inductive AgreeUntil (bad : ε → Bool) (lost : σ → Prop) : Outcome ε σ α → Outcome ε σ α → Prop
  | ok (a : α) (s : σ) : AgreeUntil bad lost (.ok a s) (.ok a s)
  | error {e : ε} (he : bad e = false) (s : σ) : AgreeUntil bad lost (.error e s) (.error e s)
  | endless : AgreeUntil bad lost .endless .endless
  | parted {e : ε} {s : σ} {o' : Outcome ε σ α} (he : bad e = true)
      (hlost : ∀ s', o'.state? = some s' → lost s') : AgreeUntil bad lost (.error e s) o'

/-- Sequences agree if their parts do, and if what is lost stays lost. -/
theorem AgreeUntil.bind {next next' : α → σ → Outcome ε σ β} (h : AgreeUntil bad lost o o')
    (hnext : ∀ a s, o = .ok a s → AgreeUntil bad lost (next a s) (next' a s))
    (hlost : ∀ a s s', lost s → (next' a s).state? = some s' → lost s') :
    AgreeUntil bad lost (o.bind next) (o'.bind next') := by
  cases h with
  | ok a s => exact hnext a s rfl
  | error he s => exact .error he s
  | endless => exact .endless
  | parted he hstate =>
    refine .parted he fun s' hs' => ?_
    rcases state?_bind_eq_some_iff.mp hs' with ⟨a, s₁, rfl, hs₁⟩ | ⟨e, rfl⟩
    · exact hlost a s₁ s' (hstate s₁ rfl) hs₁
    · exact hstate s' rfl

theorem AgreeUntil.map (h : AgreeUntil bad lost o o') {f : ε → σ → ε'} {g : σ → τ}
    (hbad : ∀ e s, bad' (f e s) = bad e) (hlost : ∀ s, lost s → lost' (g s)) :
    AgreeUntil bad' lost' ((o.mapError f).mapState g) ((o'.mapError f).mapState g) := by
  cases h with
  | ok a s => exact .ok a (g s)
  | error he s => exact .error ((hbad _ s).trans he) (g s)
  | endless => exact .endless
  | parted he hstate =>
    refine .parted ((hbad _ _).trans he) fun s' hs' => ?_
    rw [state?_mapState, state?_mapError, Option.map_eq_some_iff] at hs'
    obtain ⟨s, hs, rfl⟩ := hs'
    exact hlost s (hstate s hs)

end Outcome

/-! ## Unification -/

/-- The error of a variable that would have to hold itself. -/
def UnifyError.isInfinite : UnifyError → Bool
  | infinite _ _ => true
  | mismatch _ _ => false

namespace Unifier

open Bindings

variable {b : Bindings} {v : Nat}

/-- Outcomes that are the same until the occurs check fails, and cyclic bindings after that. -/
abbrev AgreeUntilInfinite : Outcome UnifyError Bindings Unit → Outcome UnifyError Bindings Unit →
    Prop :=
  Outcome.AgreeUntil UnifyError.isInfinite fun b => ¬ b.Acyclic

/-- Where the occurs check fails, the variable is bound all the same without it, and that is the cycle. -/
theorem agreeUntil_bindChecked (hb : b.Acyclic) (hv : b.find? v = none) (t : Ty) :
    AgreeUntilInfinite (bindChecked true v t b) (bindChecked false v t b) := by
  have hlenient : bindChecked false v t b = .ok () (b.bind v t) := by simp [bindChecked_eq]
  rw [hlenient, bindChecked_eq]
  cases ht : t.isVar with
  | true => exact .ok () _
  | false =>
    obtain ⟨found, hocc⟩ := exists_occurs? hb.chainsEnd hb.solvedBy_zonk v t
    rw [hocc]
    cases found with
    | false => exact .ok () _
    | true =>
      refine .parted rfl fun b' hb' => ?_
      cases hb'
      exact not_acyclic_bind_of_occurs? hv ht hocc

theorem agreeUntil_unifyWithin (hb : b.Acyclic) (depth : Nat) (left right : Ty) :
    AgreeUntilInfinite (unifyWithin true depth left right b)
      (unifyWithin false depth left right b) := by
  induction depth generalizing left right b with
  | zero => exact .endless
  | succ depth ih =>
    obtain ⟨l, hl⟩ := exists_resolve? hb.chainsEnd left
    obtain ⟨r, hr⟩ := exists_resolve? hb.chainsEnd right
    have hbind : ∀ {side v}, b.resolve? side = some (.var v) → ∀ t,
        AgreeUntilInfinite (bindChecked true v t b) (bindChecked false v t b) := by
      intro side v hside t
      exact agreeUntil_bindChecked hb (resolves_of_resolve? hside).find?_eq_none t
    rw [unifyWithin_succ hl hr, unifyWithin_succ hl hr]
    cases l with
    | var v => exact hbind hl r
    | base m =>
      cases r with
      | var v => exact hbind hr (.base m)
      | base n =>
        simp only
        split
        · exact .ok () b
        · exact .error rfl b
      | arrow a' c' => exact .error rfl b
    | arrow a c =>
      cases r with
      | var v => exact hbind hr (.arrow a c)
      | base n => exact .error rfl b
      | arrow a' c' =>
        -- the codomains come up with acyclic bindings, or else with a cycle, which they cannot undo
        refine (ih hb a a').bind ?_ ?_
        · intro _ b' ho
          exact ih ((derives_unifyWithin ho (by simp)).acyclic rfl hb) c c'
        · intro _ b' b'' hcyclic hb'' hacyclic
          have hder := derives_unifyWithin rfl (Outcome.ends_of_state? hb'')
          exact hcyclic (hacyclic.anti (hder.extends hb''))

/-- **Without the occurs check, unification does the same until the check would have failed**, and from
there on its bindings are cyclic. -/
theorem agreeUntil_unify (hb : b.Acyclic) (left right : Ty) :
    AgreeUntilInfinite (unify true left right b) (unify false left right b) :=
  agreeUntil_unifyWithin hb (depthBound b left right) left right

end Unifier

end Monotype
