import Monotype.Proofs.Bindings.Unfolding
import Monotype.Proofs.Unify.Invariant

/-!
# `Monotype.Proofs.Unify.SameTree` — what unification does to the trees of types

This is what unification achieves where bindings may be cyclic, so that neither solutions nor zonking
can say it. If it succeeds, both types denote the same tree, finite or not, under what is bound then.
Types that denoted the same tree before still do, since nothing that was bound is lost. And types that
denote the same tree already have nothing left to unify: whatever ends on them succeeds, and binds
nothing.

## Contents
- **`Derives.sameTree`**: success makes the types denote the same tree.
- **`Derives.sameTree_of_sameTree`**: no tree comes apart.
- **`Derives.eq_ok_of_sameTree`**: nothing is bound where the trees are the same.
-/

namespace Monotype.Unifier

open Bindings

variable {strict : Bool} {b b' : Bindings} {left right l r t u : Ty} {v : Nat}
  {o : Outcome UnifyError Bindings Unit}

/-- When the variable is bound to what it meets, both sides resolve to the same type. -/
theorem Flex.sameTree_bind (h : Flex b left right v t) (hb' : (b.bind v t).ChainsEnd) :
    (b.bind v t).SameTree left right := by
  have hextends := Extends.bind h.find?_eq_none t
  obtain ⟨t', ht'⟩ := exists_resolve? hb' t
  have ht := resolves_of_resolve? ht'
  have hv : (b.bind v t).Resolves (.var v) t' := by
    by_cases htv : t = .var v
    · rwa [htv] at ht ⊢
    · exact .bound (by rw [find?_bind b v htv, if_pos rfl]) ht
  cases h with
  | left hl hr =>
    exact sameTree_of_resolves hb' (hl.extends hextends hv) (hr.extends hextends ht)
  | right _ hl hr =>
    exact sameTree_of_resolves hb' (hl.extends hextends ht) (hr.extends hextends hv)

/-- **Where unification succeeds, both types denote the same tree.** -/
theorem Derives.sameTree (h : Derives strict left right b o) (ho : o = .ok () b')
    (hb : b.ChainsEnd) : b'.SameTree left right := by
  induction h generalizing b' with
  | bind hflex hocc =>
    cases ho
    exact hflex.sameTree_bind (Derives.chainsEnd (.bind hflex hocc) rfl hb)
  | infinite _ _ _ _ => cases ho
  | base hl hr => cases ho; exact sameTree_of_resolves hb hl hr
  | mismatch _ _ _ => cases ho
  | domain _ _ _ _ => cases ho
  | arrow hl hr ha hc iha ihc =>
    subst ho
    -- the domains denote the same tree when the codomains come up, and still do at the end
    have hmid := ha.chainsEnd rfl hb
    have hend := hc.chainsEnd rfl hmid
    have hdomains := (iha rfl hb).extends (hc.extends rfl) hend
    have hextends := (ha.extends rfl).trans (hc.extends rfl)
    exact (sameTree_iff hend).mpr ⟨_, _, hl.extends_arrow hextends, hr.extends_arrow hextends,
      .arrow hdomains (ihc rfl hmid)⟩

/-- Types that denote the same tree still do after unification, on success and on failure. -/
theorem Derives.sameTree_of_sameTree (h : Derives strict left right b o) (ho : o.state? = some b')
    (hb : b.ChainsEnd) (htu : b.SameTree t u) : b'.SameTree t u :=
  htu.extends (h.extends ho) (h.chainsEnd ho hb)

/-! ## Types of the same tree -/

/-- A variable that meets a type of the same tree meets itself. -/
theorem Flex.eq_var_of_sameTree (h : Flex b left right v t) (hsame : b.SameTree left right) :
    t = .var v := by
  obtain ⟨l, r, hl, hr, hlevel⟩ := hsame.meetsLevel
  cases h with
  | left hv ht =>
    cases hv.unique hl
    cases ht.unique hr
    cases hlevel
    rfl
  | right hvar ht hv =>
    cases hv.unique hr
    cases ht.unique hl
    cases hlevel
    rfl

/-- Two types that resolve to arrows and denote the same tree have parts of the same trees. -/
theorem sameTree_parts {a c a' c' : Ty} (hl : b.Resolves left (.arrow a c))
    (hr : b.Resolves right (.arrow a' c')) (hsame : b.SameTree left right) :
    b.SameTree a a' ∧ b.SameTree c c' := by
  obtain ⟨l, r, hl', hr', hlevel⟩ := hsame.meetsLevel
  cases hl.unique hl'
  cases hr.unique hr'
  cases hlevel with
  | arrow ha hc => exact ⟨ha, hc⟩

/-- Two types that clash differ at the top. -/
theorem Clash.not_sameLevel {R : Ty → Ty → Prop} (h : Clash l r) : ¬ SameLevel R l r := by
  intro hlevel
  cases h with
  | bases hne => cases hlevel; exact hne rfl
  | baseArrow => cases hlevel
  | arrowBase => cases hlevel

/-- **There is nothing to unify in types of the same tree**: a run that ends succeeds and binds nothing. -/
theorem Derives.eq_ok_of_sameTree (h : Derives strict left right b o)
    (hsame : b.SameTree left right) : o = .ok () b := by
  induction h with
  | bind hflex _ => rw [hflex.eq_var_of_sameTree hsame, bind_self]
  | infinite hflex _ ht _ =>
    rw [hflex.eq_var_of_sameTree hsame] at ht
    exact absurd ht (by simp [Ty.isVar])
  | base _ _ => rfl
  | mismatch hl hr hclash =>
    obtain ⟨l, r, hl', hr', hlevel⟩ := hsame.meetsLevel
    cases hl.unique hl'
    cases hr.unique hr'
    exact absurd hlevel hclash.not_sameLevel
  | domain hl hr _ iha => exact absurd (iha (sameTree_parts hl hr hsame).1) (by simp)
  | arrow hl hr _ _ iha ihc =>
    have hparts := sameTree_parts hl hr hsame
    cases iha hparts.1
    exact ihc hparts.2

end Monotype.Unifier
