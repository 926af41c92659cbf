import Monotype.Proofs.Bindings.Descent
import Monotype.Proofs.Bindings.Zonk
import Monotype.Proofs.Unify.Invariant

/-!
# `Monotype.Proofs.Unify.Termination` — why unification ends

The types that are compared do not get smaller on the way down: a variable may stand for a type of any
size, and what the domains have bound changes what the codomains stand for. What gets smaller is the
type that the bindings *mean*. Take any solution of the bindings. An arrow that was taken apart further
up is larger under it than whatever is compared below, and stays so when more is bound, because the
solutions of more bindings are solutions of fewer. So no arrow is met twice on the way down, and all of
them come from a finite stock. That there is a solution is all that is needed; with the occurs check
there always is one.

## Contents
- **`CallInvariant`**: what passes from a call to the calls that it makes, and gives solutions.
- **`Larger`**: types that are larger than a type under every solution.
- **`CallInvariant.unify_ends`**: where there is such an invariant, unification ends.
- **`unify_ends_of_acyclic`**: with the occurs check, from acyclic bindings, it always ends.
-/

namespace Monotype.Unifier

open Bindings

variable {strict : Bool} {b b' : Bindings} {left right t : Ty} {v : Nat} {θ : Nat → Ty}
  {I : Ty → Ty → Bindings → Prop}

/-- What holds of a call of unification and so holds of the calls that it makes, with bindings that
have a solution. -/
structure CallInvariant (strict : Bool) (I : Ty → Ty → Bindings → Prop) : Prop where
  chainsEnd : ∀ {left right b}, I left right b → b.ChainsEnd
  solution : ∀ {left right b}, I left right b → ∃ θ, b.SolvedBy θ
  domain : ∀ {left right b a c a' c'}, I left right b → b.Resolves left (.arrow a c) →
    b.Resolves right (.arrow a' c') → I a a' b
  codomain : ∀ {left right b b' a c a' c'}, I left right b → b.Resolves left (.arrow a c) →
    b.Resolves right (.arrow a' c') → Derives strict a a' b (.ok () b') → I c c' b'

theorem bindChecked_ends (hb : b.ChainsEnd) (hθ : b.SolvedBy θ) (v : Nat) (t : Ty) :
    (bindChecked strict v t b).Ends := by
  obtain ⟨found, hocc⟩ := exists_occurs? hb hθ v t
  rw [bindChecked_eq, hocc]
  cases found <;> split <;> simp

/-- A call ends if binding a variable ends, and if the calls on the parts of two arrows do. -/
theorem unifyWithin_succ_ends {depth : Nat} (hb : b.ChainsEnd)
    (hbind : ∀ v t, (bindChecked strict v t b).Ends)
    (hparts : ∀ {a c a' c'}, b.Resolves left (.arrow a c) → b.Resolves right (.arrow a' c') →
      (unifyWithin strict depth a a' b).Ends ∧
        ∀ b', Derives strict a a' b (.ok () b') → (unifyWithin strict depth c c' b').Ends) :
    (unifyWithin strict (depth + 1) left right b).Ends := by
  obtain ⟨l, hl⟩ := exists_resolve? hb left
  obtain ⟨r, hr⟩ := exists_resolve? hb right
  rw [unifyWithin_succ hl hr]
  cases l with
  | var v => exact hbind v r
  | base m =>
    cases r with
    | var v => exact hbind v (.base m)
    | base n => simp only; split <;> simp
    | arrow a' c' => simp
  | arrow a c =>
    cases r with
    | var v => exact hbind v (.arrow a c)
    | base n => simp
    | arrow a' c' =>
      obtain ⟨hdomain, hcodomain⟩ := hparts (resolves_of_resolve? hl) (resolves_of_resolve? hr)
      cases ho : unifyWithin strict depth a a' b with
      | ok u b' => simpa [ho] using hcodomain b' (derives_unifyWithin ho (by simp))
      | error e b' => simp [ho]
      | endless => rw [ho] at hdomain; exact absurd hdomain (by simp)

/-- Types that are larger than a type under every solution. -/
def Larger (b : Bindings) (met : Finset Ty) (t : Ty) : Prop :=
  ∀ θ, b.SolvedBy θ → ∀ u ∈ met, (t.subst θ).size < (u.subst θ).size

theorem Larger.extends {met : Finset Ty} (h : Larger b met t) (hb : b.Extends b') :
    Larger b' met t :=
  fun θ hθ => h θ (hθ.anti hb)

/-- A type that resolves to an arrow is as large as the arrow, so the arrow is a new one. -/
theorem Larger.not_mem {met : Finset Ty} {u : Ty} (h : Larger b met t) (hu : b.Resolves t u)
    (hθ : b.SolvedBy θ) : u ∉ met := by
  intro hmem
  have hlt := h θ hθ u hmem
  rw [hθ.subst_resolves hu] at hlt
  exact Nat.lt_irrefl _ hlt

/-- What is larger than a type that resolves to an arrow is larger than both parts of it, and so is the
arrow. -/
theorem Larger.parts {met : Finset Ty} {a c : Ty} (h : Larger b met t)
    (hr : b.Resolves t (.arrow a c)) :
    Larger b (insert (.arrow a c) met) a ∧ Larger b (insert (.arrow a c) met) c := by
  have hpart : ∀ p : Ty, (∀ θ, (p.subst θ).size < ((Ty.arrow a c).subst θ).size) →
      Larger b (insert (.arrow a c) met) p := by
    intro p hp θ hθ u hu
    rcases Finset.mem_insert.mp hu with rfl | hu
    · exact hp θ
    · have hlt := h θ hθ u hu
      rw [← hθ.subst_resolves hr] at hlt
      exact (hp θ).trans hlt
  constructor
  · exact hpart a fun θ => by simp only [Ty.subst, Ty.size]; omega
  · exact hpart c fun θ => by simp only [Ty.subst, Ty.size]; omega

/-- The arrows that were taken apart on the way to a call are larger than what it compares. So there
are no more of them than the stock has types, and the way goes down no further. -/
theorem CallInvariant.unifyWithin_ends (hI : CallInvariant strict I) {depth : Nat}
    {stock met : Finset Ty} (hparts : PartClosed (Stocked stock)) (h : I left right b)
    (hstock : b.Within (Stocked stock)) (hleft : Stocked stock left) (hright : Stocked stock right)
    (hmet : met ⊆ stock) (hlarger : Larger b met left) (hdepth : stock.card < depth + met.card) :
    (unifyWithin strict depth left right b).Ends := by
  induction depth generalizing left right b met with
  | zero =>
    have := Finset.card_le_card hmet
    omega
  | succ depth ih =>
    obtain ⟨θ, hθ⟩ := hI.solution h
    refine unifyWithin_succ_ends (hI.chainsEnd h) (bindChecked_ends (hI.chainsEnd h) hθ) ?_
    intro a c a' c' hl hr
    have hl' := hstock.resolves hleft hl
    have hL := hparts a c hl'
    have hR := hparts a' c' (hstock.resolves hright hr)
    have hnext := hlarger.parts hl
    have hmet' : insert (Ty.arrow a c) met ⊆ stock :=
      Finset.insert_subset_iff.mpr ⟨hl' rfl, hmet⟩
    have hdepth' : stock.card < depth + (insert (Ty.arrow a c) met).card := by
      rw [Finset.card_insert_of_notMem (hlarger.not_mem hl hθ)]
      omega
    constructor
    · exact ih (hI.domain h hl hr) hstock hL.1 hR.1 hmet' hnext.1 hdepth'
    · intro b' hder
      exact ih (hI.codomain h hl hr hder) (hder.within hparts rfl hstock hL.1 hR.1) hL.2 hR.2 hmet'
        (hnext.2.extends (hder.extends rfl)) hdepth'

/-- **Unification ends wherever bindings keep having solutions.** -/
theorem CallInvariant.unify_ends (hI : CallInvariant strict I) (h : I left right b) :
    (unify strict left right b).Ends := by
  have hcard := card_stock_le b [left, right]
  have hsquare := Nat.le_mul_self (b.size + left.size + right.size)
  simp only [Ty.totalSize] at hcard
  exact hI.unifyWithin_ends (partClosed_stocked b [left, right]) h
    (within_stocked b [left, right]) (fun _ => mem_stock_of_mem (by simp))
    (fun _ => mem_stock_of_mem (by simp)) (Finset.empty_subset _)
    (fun _ _ u hu => absurd hu (Finset.notMem_empty u))
    (by rw [depthBound, Finset.card_empty]; omega)

/-- With the occurs check, bindings stay acyclic, and acyclic bindings have a solution. -/
theorem callInvariant_acyclic : CallInvariant true fun _ _ b => b.Acyclic where
  chainsEnd := Acyclic.chainsEnd
  solution hb := ⟨_, hb.solvedBy_zonk⟩
  domain hb _ _ := hb
  codomain hb _ _ hder := hder.acyclic rfl hb

/-- **With the occurs check, unification from acyclic bindings ends.** -/
theorem unify_ends_of_acyclic (hb : b.Acyclic) (left right : Ty) :
    (unify true left right b).Ends :=
  callInvariant_acyclic.unify_ends hb

end Monotype.Unifier
