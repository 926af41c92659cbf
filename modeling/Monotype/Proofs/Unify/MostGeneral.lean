import Monotype.Proofs.Unify.Termination

/-!
# `Monotype.Proofs.Unify.MostGeneral` — unification solves exactly one more equation

Read bindings as equations. A unification that succeeds leaves bindings whose solutions are the earlier
solutions that also make the two types equal: nothing that is needed is missed, and nothing else is
asked for. A unification that fails has found an equation without solution, and every binding that it
made on the way was forced by the equation that it started from.

Nothing of this needs the occurs check. What the check adds is that the bindings stay acyclic, so that
they have a solution at all; zonking is one.

## Contents
- **`Derives.subst_eq`**, **`Derives.solvedBy`**: soundness and completeness of a derivation.
- **`exists_unify_of_solution`**: an equation that has a solution is unified.
- **`unify_mostGeneral`**: successful unification is most general.
- **`unify_rejects_only_unsolvable`**: unification never rejects an equation that has a solution.
-/

namespace Monotype.Unifier

open Bindings

variable {strict : Bool} {b b' : Bindings} {left right l r t : Ty} {v : Nat} {θ : Nat → Ty}
  {o : Outcome UnifyError Bindings Unit}

/-! ## Derivations and solutions -/

/-- The two sides are equal under a solution exactly if the variable is what it meets. -/
theorem Flex.subst_eq_iff (h : Flex b left right v t) (hθ : b.SolvedBy θ) :
    left.subst θ = right.subst θ ↔ θ v = t.subst θ := by
  cases h with
  | left hl hr =>
    rw [← hθ.subst_resolves hl, ← hθ.subst_resolves hr]
    exact Iff.rfl
  | right _ hl hr =>
    rw [← hθ.subst_resolves hl, ← hθ.subst_resolves hr]
    exact eq_comm

theorem Clash.subst_ne (h : Clash l r) (θ : Nat → Ty) : l.subst θ ≠ r.subst θ := by
  intro heq
  cases h with
  | bases hmn => exact hmn (Ty.base.inj heq)
  | baseArrow => exact absurd heq (by simp [Ty.subst])
  | arrowBase => exact absurd heq (by simp [Ty.subst])

/-- Two types that resolve to arrows are equal if their domains and their codomains are. -/
theorem subst_eq_iff_of_arrows {a c a' c' : Ty} (hθ : b.SolvedBy θ)
    (hl : b.Resolves left (.arrow a c)) (hr : b.Resolves right (.arrow a' c')) :
    left.subst θ = right.subst θ ↔ a.subst θ = a'.subst θ ∧ c.subst θ = c'.subst θ := by
  rw [← hθ.subst_resolves hl, ← hθ.subst_resolves hr, Ty.subst, Ty.subst, Ty.arrow.injEq]

/-- **Soundness.** Every solution of the bindings that a success leaves makes the types equal. -/
theorem Derives.subst_eq (h : Derives strict left right b o) (ho : o = .ok () b')
    (hθ : b'.SolvedBy θ) : left.subst θ = right.subst θ := by
  induction h generalizing b' with
  | bind hflex _ =>
    cases ho
    rw [solvedBy_bind_iff hflex.find?_eq_none] at hθ
    exact (hflex.subst_eq_iff hθ.1).mpr hθ.2
  | infinite _ _ _ _ => cases ho
  | base hl hr =>
    cases ho
    rw [← hθ.subst_resolves hl, ← hθ.subst_resolves hr]
  | mismatch _ _ _ => cases ho
  | domain _ _ _ _ => cases ho
  | arrow hl hr ha hc iha ihc =>
    subst ho
    -- the bindings after the domains are solved too, and so are those before
    have hmid := hθ.anti (hc.extends rfl)
    have hbefore := hmid.anti (ha.extends rfl)
    exact (subst_eq_iff_of_arrows hbefore hl hr).mpr ⟨iha rfl hmid, ihc rfl hθ⟩

/-- **Completeness.** A solution that makes the types equal survives, and there is no failure. -/
theorem Derives.solvedBy (h : Derives strict left right b o) (hθ : b.SolvedBy θ)
    (heq : left.subst θ = right.subst θ) : ∃ b', o = .ok () b' ∧ b'.SolvedBy θ := by
  induction h with
  | bind hflex _ =>
    refine ⟨_, rfl, ?_⟩
    rw [solvedBy_bind_iff hflex.find?_eq_none]
    exact ⟨hθ, (hflex.subst_eq_iff hθ).mp heq⟩
  | infinite hflex _ ht hocc =>
    exact absurd ((hflex.subst_eq_iff hθ).mp heq) (hθ.ne_of_occurs? ht hocc)
  | base _ _ => exact ⟨_, rfl, hθ⟩
  | mismatch hl hr hclash =>
    rw [← hθ.subst_resolves hl, ← hθ.subst_resolves hr] at heq
    exact absurd heq (hclash.subst_ne θ)
  | domain hl hr _ iha =>
    obtain ⟨_, hok, _⟩ := iha hθ ((subst_eq_iff_of_arrows hθ hl hr).mp heq).1
    exact absurd hok (by simp)
  | arrow hl hr _ _ iha ihc =>
    have hparts := (subst_eq_iff_of_arrows hθ hl hr).mp heq
    obtain ⟨_, hok, hmid⟩ := iha hθ hparts.1
    cases hok
    exact ihc hmid hparts.2

/-! ## Ending -/

/-- An equation with a solution passes one on to the parts of its two sides. -/
theorem callInvariant_solution (strict : Bool) (θ : Nat → Ty) :
    CallInvariant strict fun left right b =>
      b.ChainsEnd ∧ b.SolvedBy θ ∧ left.subst θ = right.subst θ where
  chainsEnd h := h.1
  solution h := ⟨θ, h.2.1⟩
  domain := by
    rintro left right b a c a' c' ⟨hb, hθ, heq⟩ hl hr
    exact ⟨hb, hθ, ((subst_eq_iff_of_arrows hθ hl hr).mp heq).1⟩
  codomain := by
    rintro left right b b' a c a' c' ⟨hb, hθ, heq⟩ hl hr hder
    have hparts := (subst_eq_iff_of_arrows hθ hl hr).mp heq
    -- the domains are unified, and the solution survives that
    obtain ⟨_, hok, hθ'⟩ := hder.solvedBy hθ hparts.1
    cases hok
    exact ⟨hder.chainsEnd rfl hb, hθ', hparts.2⟩

/-- Where chains end, an equation that has a solution is unified, and the solution survives. -/
theorem exists_unify_of_solution (strict : Bool) (hb : b.ChainsEnd) (hθ : b.SolvedBy θ)
    (heq : left.subst θ = right.subst θ) :
    ∃ b', unify strict left right b = .ok () b' ∧ b'.SolvedBy θ := by
  have hends := (callInvariant_solution strict θ).unify_ends ⟨hb, hθ, heq⟩
  exact (derives_unify rfl hends).solvedBy hθ heq

/-! ## The main statements -/

/-- **Successful unification is most general.** With the occurs check and from acyclic bindings, the
solutions of the bindings that it leaves are the solutions of the bindings before that make the types
equal. In particular the types are equal when they are zonked. -/
theorem unify_mostGeneral (hb : b.Acyclic) (h : unify true left right b = .ok () b') :
    (∀ θ, b'.SolvedBy θ ↔ b.SolvedBy θ ∧ left.subst θ = right.subst θ) ∧
      b'.zonk left = b'.zonk right := by
  have hder := derives_unify h (by simp)
  constructor
  · intro θ
    constructor
    · intro hθ
      exact ⟨hθ.anti (hder.extends rfl), hder.subst_eq rfl hθ⟩
    · rintro ⟨hθ, heq⟩
      obtain ⟨b'', hok, hθ'⟩ := hder.solvedBy hθ heq
      cases hok
      exact hθ'
  · have hzonk := (hder.acyclic rfl hb).solvedBy_zonk
    rw [zonk_eq_subst b' left, zonk_eq_subst b' right]
    exact hder.subst_eq rfl hzonk

/-- A chain of two variables and an arrow on either side, met by an equation that binds all of them. -/
theorem unify_mostGeneral_curried :
    let b := Bindings.empty.bind 0 (.var 1)
    let left := Ty.arrow (.var 0) (.var 2)
    let right := Ty.arrow .int (.arrow (.var 1) (.var 0))
    let b' : Bindings := ⟨[(2, .arrow (.var 1) (.var 0)), (1, .int), (0, .var 1)]⟩
    b.Acyclic ∧ unify true left right b = .ok () b' ∧
      (∀ θ, b'.SolvedBy θ ↔ b.SolvedBy θ ∧ left.subst θ = right.subst θ) ∧
      b'.zonk left = b'.zonk right := by
  intro b left right b'
  have hb : b.Acyclic := acyclic_empty.bind (by
    intro w hw hpath
    obtain rfl : w = 1 := by simpa [Ty.vars] using hw
    exact absurd (eq_of_reaches_of_unbound (find?_empty 1) hpath) (by decide))
  have h : unify true left right b = .ok () b' := by decide
  exact ⟨hb, h, unify_mostGeneral hb h⟩

/-- **Unification never rejects an equation that has a solution.** Where chains end, with or without
the occurs check: if unification fails, no solution of the bindings before makes the types equal; and
if some solution does, unification succeeds. -/
theorem unify_rejects_only_unsolvable (strict : Bool) (hb : b.ChainsEnd) (left right : Ty) :
    (∀ e b', unify strict left right b = .error e b' →
      ¬ ∃ θ, b.SolvedBy θ ∧ left.subst θ = right.subst θ) ∧
    (∀ θ, b.SolvedBy θ → left.subst θ = right.subst θ →
      ∃ b', unify strict left right b = .ok () b') := by
  have hsolvable : ∀ θ, b.SolvedBy θ → left.subst θ = right.subst θ →
      ∃ b', unify strict left right b = .ok () b' := by
    intro θ hθ heq
    obtain ⟨b', hok, _⟩ := exists_unify_of_solution strict hb hθ heq
    exact ⟨b', hok⟩
  refine ⟨?_, hsolvable⟩
  rintro e b' herror ⟨θ, hθ, heq⟩
  obtain ⟨b'', hok⟩ := hsolvable θ hθ heq
  rw [herror] at hok
  exact absurd hok (by simp)

/-- A mismatch that shows only after the domains have bound a variable of the codomain. -/
theorem unify_rejects_late_mismatch :
    let b := Bindings.empty.bind 0 (.arrow (.var 1) .int)
    let left := Ty.arrow (.var 1) (.var 0)
    let right := Ty.arrow .int (.arrow .string .int)
    let b' : Bindings := ⟨[(1, .int), (0, .arrow (.var 1) .int)]⟩
    b.ChainsEnd ∧ unify true left right b = .error (.mismatch .int .string) b' ∧
      ¬ ∃ θ, b.SolvedBy θ ∧ left.subst θ = right.subst θ := by
  intro b left right b'
  have hb : b.ChainsEnd := acyclic_empty.chainsEnd.bind (by intro w hw; cases hw)
  have h : unify true left right b = .error (.mismatch .int .string) b' := by decide
  exact ⟨hb, h, (unify_rejects_only_unsolvable true hb left right).1 _ _ h⟩

end Monotype.Unifier
