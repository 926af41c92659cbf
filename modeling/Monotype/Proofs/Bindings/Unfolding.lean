import Monotype.Proofs.Bindings.Resolve

/-!
# `Monotype.Proofs.Bindings.Unfolding` — the tree that a type denotes

Without the occurs check bindings may be cyclic, and then no substitution of finite types solves them.
A type still means something: follow bindings everywhere, for ever, and it unfolds to a tree, which may
be infinite. What is compared are the finite pieces that are left when the tree is cut below some
number of arrows. Two types denote the same tree if all their pieces are equal.

All that is proved of this is proved by comparing one level at a time (`sameTree_iff`), and by a
principle that a relation which relates types level by level relates only types of the same tree
(`sameTree_of_forall`).

## Contents
- **`Tree`**, **`unfolding?`**: a tree cut at a depth, and that of a type.
- **`SameTree`**: types that denote the same tree.
- **`SameLevel`**: one level of two types. **`sameTree_iff`**, **`sameTree_of_forall`**.
- **`SameTree.extends`**: types of the same tree still are when more is bound.
-/

namespace Monotype

/-- A tree of types, with nothing below the places where it was cut. -/
inductive Tree where
  | var (id : Nat)
  | base (name : String)
  | arrow (domain codomain : Tree)
  | cut
deriving DecidableEq, Repr

namespace Bindings

variable {b b' : Bindings} {t t' t'' u u' : Ty} {v : Nat} {R S : Ty → Ty → Prop}

/-- The tree that a type denotes, cut below a number of arrows; `none` on a cycle of variables. -/
def unfolding? (b : Bindings) (depth : Nat) (t : Ty) : Option Tree :=
  match b.resolve? t with
  | none => none
  | some (.var v) => some (.var v)
  | some (.base name) => some (.base name)
  | some (.arrow domain codomain) =>
    match depth with
    | 0 => some .cut
    | depth + 1 => do
      return .arrow (← b.unfolding? depth domain) (← b.unfolding? depth codomain)

/-- Two types denote the same tree, however deep it is looked into. -/
def SameTree (b : Bindings) (t u : Ty) : Prop :=
  ∀ depth, ∃ tree, b.unfolding? depth t = some tree ∧ b.unfolding? depth u = some tree

/-! ## One level -/

/-- Two resolved types look the same at the top, and their parts are related. -/
inductive SameLevel (R : Ty → Ty → Prop) : Ty → Ty → Prop
  | var (v : Nat) : SameLevel R (.var v) (.var v)
  | base (name : String) : SameLevel R (.base name) (.base name)
  | arrow {a c a' c' : Ty} (ha : R a a') (hc : R c c') : SameLevel R (.arrow a c) (.arrow a' c')

theorem SameLevel.refl (hR : ∀ t, R t t) : ∀ t, SameLevel R t t
  | .var v => .var v
  | .base name => .base name
  | .arrow a c => .arrow (hR a) (hR c)

theorem SameLevel.mono (hRS : ∀ t u, R t u → S t u) (h : SameLevel R t u) : SameLevel S t u := by
  cases h with
  | var v => exact .var v
  | base name => exact .base name
  | arrow ha hc => exact .arrow (hRS _ _ ha) (hRS _ _ hc)

/-- Two types resolve to the same thing at the top, and related parts. -/
def MeetsLevel (b : Bindings) (R : Ty → Ty → Prop) (t u : Ty) : Prop :=
  ∃ t' u', b.Resolves t t' ∧ b.Resolves u u' ∧ SameLevel R t' u'

/-- **A relation that relates types level by level relates types of the same tree.** -/
theorem sameTree_of_forall (hb : b.ChainsEnd) (hR : ∀ t u, R t u → b.MeetsLevel R t u)
    (h : R t u) : b.SameTree t u := by
  intro depth
  induction depth generalizing t u with
  | zero =>
    obtain ⟨t', u', ht, hu, hlevel⟩ := hR t u h
    have ht := resolve?_of_resolves hb ht
    have hu := resolve?_of_resolves hb hu
    cases hlevel <;> exact ⟨_, by rw [unfolding?, ht], by rw [unfolding?, hu]⟩
  | succ depth ih =>
    obtain ⟨t', u', ht, hu, hlevel⟩ := hR t u h
    have ht := resolve?_of_resolves hb ht
    have hu := resolve?_of_resolves hb hu
    cases hlevel with
    | var v => exact ⟨_, by rw [unfolding?, ht], by rw [unfolding?, hu]⟩
    | base name => exact ⟨_, by rw [unfolding?, ht], by rw [unfolding?, hu]⟩
    | arrow ha hc =>
      obtain ⟨domain, ha, ha'⟩ := ih ha
      obtain ⟨codomain, hc, hc'⟩ := ih hc
      exact ⟨.arrow domain codomain, by simp [unfolding?, ht, ha, hc], by simp [unfolding?, hu, ha', hc']⟩

/-- Types that resolve to the same type denote the same tree. -/
theorem sameTree_of_resolves (hb : b.ChainsEnd) (ht : b.Resolves t t') (hu : b.Resolves u t') :
    b.SameTree t u := by
  refine sameTree_of_forall (R := fun t u => ∃ t', b.Resolves t t' ∧ b.Resolves u t') hb ?_
    ⟨t', ht, hu⟩
  rintro t u ⟨t', ht, hu⟩
  refine ⟨t', t', ht, hu, .refl (fun p => ?_) t'⟩
  obtain ⟨p', hp⟩ := exists_resolve? hb p
  exact ⟨p', resolves_of_resolve? hp, resolves_of_resolve? hp⟩

/-- Where chains end, every type denotes a tree. -/
theorem SameTree.refl (hb : b.ChainsEnd) (t : Ty) : b.SameTree t t := by
  obtain ⟨t', ht⟩ := exists_resolve? hb t
  exact sameTree_of_resolves hb (resolves_of_resolve? ht) (resolves_of_resolve? ht)

/-- Where a type that resolves to an arrow has a tree, its parts have trees. -/
theorem unfolding?_succ_of_arrow {a c : Ty} {depth : Nat} {tree : Tree}
    (hr : b.resolve? t = some (.arrow a c)) (h : b.unfolding? (depth + 1) t = some tree) :
    ∃ domain codomain, tree = .arrow domain codomain ∧ b.unfolding? depth a = some domain ∧
      b.unfolding? depth c = some codomain := by
  rw [unfolding?, hr] at h
  cases ha : b.unfolding? depth a with
  | none => simp [ha] at h
  | some domain =>
    cases hc : b.unfolding? depth c with
    | none => simp [ha, hc] at h
    | some codomain => exact ⟨domain, codomain, by simpa [ha, hc] using h.symm, rfl, rfl⟩

/-- Types of the same tree agree at the top, and their parts are types of the same tree. -/
theorem SameTree.meetsLevel (h : b.SameTree t u) : b.MeetsLevel b.SameTree t u := by
  obtain ⟨tree, ht, hu⟩ := h 0
  cases htr : b.resolve? t with
  | none => simp [unfolding?, htr] at ht
  | some t' =>
    cases hur : b.resolve? u with
    | none => simp [unfolding?, hur] at hu
    | some u' =>
      refine ⟨t', u', resolves_of_resolve? htr, resolves_of_resolve? hur, ?_⟩
      rw [unfolding?, htr] at ht
      rw [unfolding?, hur, ← ht] at hu
      cases t' with
      | var v =>
        cases u' with
        | var w => cases hu; exact .var v
        | base name => cases hu
        | arrow a' c' => cases hu
      | base name =>
        cases u' with
        | var w => cases hu
        | base name' => cases hu; exact .base name
        | arrow a' c' => cases hu
      | arrow a c =>
        cases u' with
        | var w => cases hu
        | base name => cases hu
        | arrow a' c' =>
          -- the trees of the parts are those below the arrow, one level deeper
          have hparts : ∀ depth, ∃ domain codomain,
              (b.unfolding? depth a = some domain ∧ b.unfolding? depth a' = some domain) ∧
                (b.unfolding? depth c = some codomain ∧ b.unfolding? depth c' = some codomain) := by
            intro depth
            obtain ⟨tree, ht, hu⟩ := h (depth + 1)
            obtain ⟨domain, codomain, rfl, ha, hc⟩ := unfolding?_succ_of_arrow htr ht
            obtain ⟨domain', codomain', heq, ha', hc'⟩ := unfolding?_succ_of_arrow hur hu
            cases heq
            exact ⟨domain, codomain, ⟨ha, ha'⟩, hc, hc'⟩
          refine .arrow (fun depth => ?_) fun depth => ?_
          · obtain ⟨domain, _, ha, _⟩ := hparts depth
            exact ⟨domain, ha⟩
          · obtain ⟨_, codomain, _, hc⟩ := hparts depth
            exact ⟨codomain, hc⟩

/-- **Types denote the same tree exactly if they look the same at the top, and their parts do.** -/
theorem sameTree_iff (hb : b.ChainsEnd) : b.SameTree t u ↔ b.MeetsLevel b.SameTree t u := by
  refine ⟨SameTree.meetsLevel, fun h => sameTree_of_forall hb ?_ h⟩
  rintro t u ⟨t', u', ht, hu, hlevel⟩
  exact ⟨t', u', ht, hu, hlevel.mono fun _ _ => SameTree.meetsLevel⟩

/-- **Types of the same tree still are when more is bound.** -/
theorem SameTree.extends (hbb' : b.Extends b') (hb' : b'.ChainsEnd) (h : b.SameTree t u) :
    b'.SameTree t u := by
  refine sameTree_of_forall hb' (fun t u h => ?_) h
  obtain ⟨t', u', ht, hu, hlevel⟩ := h.meetsLevel
  cases hlevel with
  | var v =>
    -- both end in the same variable, and so in whatever that has become
    obtain ⟨t'', hr⟩ := exists_resolve? hb' (.var v)
    have hr := resolves_of_resolve? hr
    exact ⟨t'', t'', ht.extends hbb' hr, hu.extends hbb' hr,
      .refl (SameTree.refl (hb'.anti hbb')) t''⟩
  | base name =>
    have hr : b'.Resolves (.base name) (.base name) := .plain fun _ => Ty.noConfusion
    exact ⟨_, _, ht.extends hbb' hr, hu.extends hbb' hr, .base name⟩
  | arrow ha hc => exact ⟨_, _, ht.extends_arrow hbb', hu.extends_arrow hbb', .arrow ha hc⟩

end Bindings

end Monotype
