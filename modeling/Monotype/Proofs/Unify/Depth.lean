import Mathlib.Data.Finset.Prod
import Monotype.Proofs.Bindings.Descent
import Monotype.Proofs.Unify.SameTree

/-!
# `Monotype.Proofs.Unify.Depth` — the bound on the depth is exact

Unification goes down no deeper than the square of all nodes, and takes a deeper descent for one that
never ends. That is right, with the occurs check and without it, wherever chains end.

Suppose that a call is made on two arrows that were met before, further up on the same way down. What
was met then is met again: the types are the same arrows, and what has been bound since makes no arrow
into something else. Where the way went on from the domains to the codomains, the domains were unified;
they denote the same tree now, and to unify them again binds nothing and cannot fail. So from the
second meeting the way leads, if the run ends, to a third one, and each takes less depth than the one
before: the run never ends. A run that ends therefore meets no pair of arrows twice on any way down,
and there are no more pairs than the bound.

## Contents
- **`unifyWithin_eq_of_ends`**: all runs that end are the same, in whatever depth.
- **`Leads`**: a call that comes up wherever a pair of arrows is unified.
- **`unify_eq_of_ends`**: a run that ends in any depth ends within the bound.
- **`unify_eq_endless_iff`**: the bound is met exactly by the runs that never end.
-/

namespace Monotype.Unifier

open Bindings

variable {strict : Bool} {b b' : Bindings} {left right x y a c a' c' : Ty} {p : Ty × Ty}
  {depth depth' : Nat}

/-! ## More depth -/

/-- The depth matters only where both sides resolve to arrows. -/
theorem unifyWithin_succ_congr
    (h : ∀ {a c a' c'}, b.resolve? left = some (.arrow a c) →
      b.resolve? right = some (.arrow a' c') →
      ((unifyWithin strict depth a a' b).bind fun _ b' => unifyWithin strict depth c c' b') =
        (unifyWithin strict depth' a a' b).bind fun _ b' => unifyWithin strict depth' c c' b') :
    unifyWithin strict (depth + 1) left right b = unifyWithin strict (depth' + 1) left right b := by
  cases hl : b.resolve? left with
  | none => rw [unifyWithin_succ_endless (.inl hl), unifyWithin_succ_endless (.inl hl)]
  | some l =>
    cases hr : b.resolve? right with
    | none => rw [unifyWithin_succ_endless (.inr hr), unifyWithin_succ_endless (.inr hr)]
    | some r =>
      rw [unifyWithin_succ hl hr, unifyWithin_succ hl hr]
      cases l with
      | var v => rfl
      | base m => cases r <;> rfl
      | arrow a c =>
        cases r with
        | var v => rfl
        | base n => rfl
        | arrow a' c' => exact h hl hr

/-- Two arrows come down to their domains, and then to their codomains. -/
theorem unifyWithin_succ_of_arrows (hl : b.resolve? left = some (.arrow a c))
    (hr : b.resolve? right = some (.arrow a' c')) :
    unifyWithin strict (depth + 1) left right b =
      (unifyWithin strict depth a a' b).bind fun _ b' => unifyWithin strict depth c c' b' := by
  rw [unifyWithin_succ hl hr]

/-- Where a run on two arrows ends, so does the run on their domains. -/
theorem ends_domain (hl : b.resolve? left = some (.arrow a c))
    (hr : b.resolve? right = some (.arrow a' c'))
    (h : (unifyWithin strict (depth + 1) left right b).Ends) :
    (unifyWithin strict depth a a' b).Ends := by
  rw [unifyWithin_succ_of_arrows hl hr] at h
  cases ha : unifyWithin strict depth a a' b with
  | ok u b' => simp
  | error e b' => simp
  | endless => rw [ha] at h; exact absurd h (by simp)

theorem exists_succ_of_ends (h : (unifyWithin strict depth left right b).Ends) :
    ∃ depth', depth = depth' + 1 := by
  cases depth with
  | zero => exact absurd h (by simp [unifyWithin])
  | succ depth => exact ⟨depth, rfl⟩

/-- A run that ends is the same in a greater depth. -/
theorem unifyWithin_succ_eq (h : (unifyWithin strict depth left right b).Ends) :
    unifyWithin strict (depth + 1) left right b = unifyWithin strict depth left right b := by
  induction depth generalizing left right b with
  | zero => exact absurd h (by simp [unifyWithin])
  | succ depth ih =>
    refine unifyWithin_succ_congr fun {a c a' c'} hl hr => ?_
    rw [ih (ends_domain hl hr h)]
    rw [unifyWithin_succ_of_arrows hl hr] at h
    cases ha : unifyWithin strict depth a a' b with
    | ok u b' =>
      rw [ha, Outcome.bind_ok] at h
      rw [Outcome.bind_ok, Outcome.bind_ok, ih h]
    | error e b' => rfl
    | endless => rfl

theorem unifyWithin_eq_of_le (hle : depth ≤ depth')
    (h : (unifyWithin strict depth left right b).Ends) :
    unifyWithin strict depth' left right b = unifyWithin strict depth left right b := by
  induction depth', hle using Nat.le_induction with
  | base => rfl
  | succ depth' _ ih => rw [unifyWithin_succ_eq (ih ▸ h), ih]

/-- **All runs that end are the same**, in whatever depth. -/
theorem unifyWithin_eq_of_ends (h : (unifyWithin strict depth left right b).Ends)
    (h' : (unifyWithin strict depth' left right b).Ends) :
    unifyWithin strict depth left right b = unifyWithin strict depth' left right b := by
  rcases Nat.le_total depth depth' with hle | hle
  · exact (unifyWithin_eq_of_le hle h).symm
  · exact unifyWithin_eq_of_le hle h'

/-! ## The way down -/

/-- Under some bindings or more, a run on two types that ends comes to two others, one level down. -/
def Below (strict : Bool) (left right x y : Ty) (b : Bindings) : Prop :=
  ∀ b₁ depth, b.Extends b₁ → b₁.ChainsEnd → (unifyWithin strict (depth + 1) left right b₁).Ends →
    (unifyWithin strict depth x y b₁).Ends

theorem below_domain (hl : b.Resolves left (.arrow a c)) (hr : b.Resolves right (.arrow a' c')) :
    Below strict left right a a' b := by
  intro b₁ depth hb₁ hchains hends
  exact ends_domain (resolve?_of_resolves hchains (hl.extends_arrow hb₁))
    (resolve?_of_resolves hchains (hr.extends_arrow hb₁)) hends

/-- Once the domains denote the same tree, they are unified and bind nothing, however often they are
met. -/
theorem below_codomain (hl : b.Resolves left (.arrow a c)) (hr : b.Resolves right (.arrow a' c'))
    (hbb' : b.Extends b') (hsame : b'.SameTree a a') : Below strict left right c c' b' := by
  intro b₁ depth hb₁ hchains hends
  have hl₁ := resolve?_of_resolves hchains (hl.extends_arrow (hbb'.trans hb₁))
  have hr₁ := resolve?_of_resolves hchains (hr.extends_arrow (hbb'.trans hb₁))
  have hdomain := derives_unifyWithin rfl (ends_domain hl₁ hr₁ hends)
  rw [unifyWithin_succ_of_arrows hl₁ hr₁,
    hdomain.eq_ok_of_sameTree (hsame.extends hb₁ hchains)] at hends
  exact hends

/-- Wherever two types are unified, under the bindings of a call or more, a run that ends comes to that
call, with less depth left. -/
def Leads (strict : Bool) (p : Ty × Ty) (left right : Ty) (b : Bindings) : Prop :=
  ∀ b₁ depth, b.Extends b₁ → b₁.ChainsEnd → (unifyWithin strict depth p.1 p.2 b₁).Ends →
    ∃ b₂, ∃ depth' < depth, b₁.Extends b₂ ∧ b₂.ChainsEnd ∧
      (unifyWithin strict depth' left right b₂).Ends

theorem Below.leads (h : Below strict p.1 p.2 x y b) : Leads strict p x y b := by
  intro b₁ depth hb₁ hchains hends
  obtain ⟨depth', rfl⟩ := exists_succ_of_ends hends
  exact ⟨b₁, depth', Nat.lt_succ_self _, .refl b₁, hchains, h b₁ depth' hb₁ hchains hends⟩

theorem Leads.trans (h : Leads strict p left right b) (hbb' : b.Extends b')
    (hbelow : Below strict left right x y b') : Leads strict p x y b' := by
  intro b₁ depth hb₁ hchains hends
  obtain ⟨b₂, depth₂, hlt, hb₂, hchains₂, hends₂⟩ := h b₁ depth (hbb'.trans hb₁) hchains hends
  obtain ⟨depth₃, rfl⟩ := exists_succ_of_ends hends₂
  exact ⟨b₂, depth₃, by omega, hb₂, hchains₂, hbelow b₂ depth₃ (hb₁.trans hb₂) hchains₂ hends₂⟩

/-- The pairs that lead to two types, and the two types with them, lead to what is met below. -/
theorem leads_of_mem_insert {met : Finset (Ty × Ty)} {q : Ty × Ty}
    (hleads : ∀ p ∈ met, Leads strict p left right b) (hbb' : b.Extends b')
    (hbelow : Below strict left right x y b') (hq : Below strict q.1 q.2 x y b') :
    ∀ p ∈ insert q met, Leads strict p x y b' := by
  intro p hp
  rcases Finset.mem_insert.mp hp with rfl | hp
  · exact hq.leads
  · exact (hleads p hp).trans hbb' hbelow

/-- **Where two arrows lead back to themselves, no run ends.** -/
theorem Leads.not_ends (h : Leads strict (.arrow a c, .arrow a' c') left right b)
    (hl : b.Resolves left (.arrow a c)) (hr : b.Resolves right (.arrow a' c')) {b₁ : Bindings}
    (hb₁ : b.Extends b₁) (hchains : b₁.ChainsEnd) :
    ¬ (unifyWithin strict depth left right b₁).Ends := by
  intro hends
  induction depth using Nat.strongRecOn generalizing b₁ with
  | ind depth ih =>
    -- a run on the two sides is a run on the arrows that they resolve to
    have harrows : (unifyWithin strict depth (.arrow a c) (.arrow a' c') b₁).Ends := by
      obtain ⟨depth', rfl⟩ := exists_succ_of_ends hends
      have hl₁ := resolve?_of_resolves hchains (hl.extends_arrow hb₁)
      have hr₁ := resolve?_of_resolves hchains (hr.extends_arrow hb₁)
      rw [unifyWithin_succ_of_arrows hl₁ hr₁] at hends
      rwa [unifyWithin_succ_of_arrows (resolve?_arrow b₁ a c) (resolve?_arrow b₁ a' c')]
    obtain ⟨b₂, depth', hlt, hb₂, hchains₂, hends₂⟩ := h b₁ depth hb₁ hchains harrows
    exact ih depth' hlt (hb₁.trans hb₂) hchains₂ hends₂

/-! ## The bound -/

/-- The pairs of arrows that were met on the way to a call lead to it. So a run that ends meets a new
pair at each step down, and goes no deeper than there are pairs. -/
theorem unifyWithin_ends_of_ends {stock : Finset Ty} {met : Finset (Ty × Ty)}
    (hparts : PartClosed (Stocked stock)) (hb : b.ChainsEnd) (hstock : b.Within (Stocked stock))
    (hleft : Stocked stock left) (hright : Stocked stock right) (hmet : met ⊆ stock ×ˢ stock)
    (hleads : ∀ p ∈ met, Leads strict p left right b)
    (hdepth : (stock ×ˢ stock).card < depth + met.card)
    (h : (unifyWithin strict depth' left right b).Ends) :
    (unifyWithin strict depth left right b).Ends := by
  induction depth generalizing left right b met depth' with
  | zero =>
    have := Finset.card_le_card hmet
    omega
  | succ depth ih =>
    obtain ⟨depth', rfl⟩ := exists_succ_of_ends h
    by_cases harrows : ∃ a c a' c', b.Resolves left (.arrow a c) ∧ b.Resolves right (.arrow a' c')
    · obtain ⟨a, c, a', c', hl, hr⟩ := harrows
      have hl' := hstock.resolves hleft hl
      have hr' := hstock.resolves hright hr
      have hL := hparts a c hl'
      have hR := hparts a' c' hr'
      have hnew : (Ty.arrow a c, Ty.arrow a' c') ∉ met := fun hmem =>
        (hleads _ hmem).not_ends hl hr (.refl b) hb h
      have hmet' : insert (Ty.arrow a c, Ty.arrow a' c') met ⊆ stock ×ˢ stock :=
        Finset.insert_subset_iff.mpr ⟨Finset.mk_mem_product (hl' rfl) (hr' rfl), hmet⟩
      have hdepth' : (stock ×ˢ stock).card <
          depth + (insert (Ty.arrow a c, Ty.arrow a' c') met).card := by
        rw [Finset.card_insert_of_notMem hnew]
        omega
      have hself : b.Resolves (.arrow a c) (.arrow a c) ∧ b.Resolves (.arrow a' c') (.arrow a' c') :=
        ⟨.plain fun _ => Ty.noConfusion, .plain fun _ => Ty.noConfusion⟩
      have hlr := resolve?_of_resolves hb hl
      have hrr := resolve?_of_resolves hb hr
      -- the run on the domains ends within the bound, in the same way as it did
      have hdomain := ends_domain hlr hrr h
      have hdomain' : (unifyWithin strict depth a a' b).Ends :=
        ih hb hstock hL.1 hR.1 hmet' (leads_of_mem_insert hleads (.refl b) (below_domain hl hr)
          (below_domain hself.1 hself.2)) hdepth' hdomain
      rw [unifyWithin_succ_of_arrows hlr hrr] at h ⊢
      rw [unifyWithin_eq_of_ends hdomain hdomain'] at h
      cases ha : unifyWithin strict depth a a' b with
      | endless => rw [ha] at h; exact absurd h (by simp)
      | error e b' => simp
      | ok u b' =>
        rw [ha, Outcome.bind_ok] at h
        have hder := derives_unifyWithin ha (by simp)
        have hextends := hder.extends rfl
        have hsame := hder.sameTree rfl hb
        exact ih (hder.chainsEnd rfl hb) (hder.within hparts rfl hstock hL.1 hR.1) hL.2 hR.2 hmet'
          (leads_of_mem_insert hleads hextends (below_codomain hl hr hextends hsame)
            (below_codomain hself.1 hself.2 hextends hsame)) hdepth' h
    · rwa [unifyWithin_succ_congr fun hl hr => absurd
        ⟨_, _, _, _, resolves_of_resolve? hl, resolves_of_resolve? hr⟩ harrows]

/-- **A run that ends in any depth ends within the bound**, and in the same way. -/
theorem unify_eq_of_ends (hb : b.ChainsEnd) (h : (unifyWithin strict depth left right b).Ends) :
    unify strict left right b = unifyWithin strict depth left right b := by
  have hcard := card_stock_le b [left, right]
  simp only [Ty.totalSize, Nat.add_zero, ← Nat.add_assoc] at hcard
  have hpairs : (b.stock [left, right] ×ˢ b.stock [left, right]).card < depthBound b left right := by
    rw [Finset.card_product, depthBound]
    exact Nat.lt_succ_of_le (Nat.mul_le_mul hcard hcard)
  refine unifyWithin_eq_of_ends ?_ h
  exact unifyWithin_ends_of_ends (partClosed_stocked b [left, right]) hb
    (within_stocked b [left, right]) (fun _ => mem_stock_of_mem (by simp))
    (fun _ => mem_stock_of_mem (by simp)) (Finset.empty_subset _)
    (fun p hp => absurd hp (Finset.notMem_empty p)) (by rwa [Finset.card_empty]) h

/-- **The bound is exact**: it is met by the runs that never end, and by no others. -/
theorem unify_eq_endless_iff (hb : b.ChainsEnd) :
    unify strict left right b = .endless ↔
      ∀ depth, unifyWithin strict depth left right b = .endless := by
  refine ⟨fun h depth => ?_, fun h => h _⟩
  by_contra hne
  rw [unify_eq_of_ends hb (Outcome.ends_iff.mpr hne)] at h
  exact hne h

end Monotype.Unifier
