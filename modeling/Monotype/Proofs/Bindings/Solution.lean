import Monotype.Proofs.Bindings.Resolve

/-!
# `Monotype.Proofs.Bindings.Solution` — bindings as equations

Bindings are equations between variables and types. A substitution of finite types *solves* them if it
makes every bound variable equal to its binding. Solutions are what the theory compares: resolving
keeps the meaning of a type under every solution, binding a variable adds exactly one equation, and a
variable that occurs properly in a type equals it under no solution, for reasons of size.

## Contents
- **`SolvedBy`**, **`solvedBy_bind_iff`**.
- **`SolvedBy.subst_resolves`**: resolving keeps meanings.
- **`SolvedBy.ne_of_occurs?`**: what the occurs test finds has no solution.
- **`SolvedBy.subst_zonk`**: zonking keeps meanings.
-/

namespace Monotype

namespace Bindings

variable {b b' : Bindings} {v : Nat} {t t' : Ty} {θ : Nat → Ty}

/-- A substitution that makes every bound variable equal to its binding. -/
def SolvedBy (b : Bindings) (θ : Nat → Ty) : Prop := ∀ v t, b.find? v = some t → θ v = t.subst θ

theorem solvedBy_empty (θ : Nat → Ty) : empty.SolvedBy θ :=
  fun v t h => absurd h (by simp)

theorem SolvedBy.anti (h : b.Extends b') (hθ : b'.SolvedBy θ) : b.SolvedBy θ :=
  fun v t hv => hθ v t (h v t hv)

/-- Binding an unbound variable adds one equation. -/
theorem solvedBy_bind_iff (hv : b.find? v = none) :
    (b.bind v t).SolvedBy θ ↔ b.SolvedBy θ ∧ θ v = t.subst θ := by
  by_cases ht : t = .var v
  · subst ht
    rw [bind_self]
    exact ⟨fun h => ⟨h, rfl⟩, fun h => h.1⟩
  constructor
  · intro h
    refine ⟨h.anti (.bind hv t), h v t ?_⟩
    rw [find?_bind b v ht, if_pos rfl]
  · rintro ⟨h, hvt⟩ w u hw
    rcases find?_bind_cases hw with ⟨rfl, rfl⟩ | hold
    · exact hvt
    · exact h w u hold

/-! ## Resolving and the occurs test -/

/-- A type and what it resolves to are equal under every solution. -/
theorem SolvedBy.subst_resolves (hθ : b.SolvedBy θ) (h : b.Resolves t t') :
    t'.subst θ = t.subst θ := by
  induction h with
  | plain _ => rfl
  | unbound _ => rfl
  | @bound v t t' hv _ ih =>
    rw [ih]
    exact (hθ v t hv).symm

/-- Where the occurs test finds a variable, the type is at least as large as the variable. -/
theorem SolvedBy.size_le_of_occursWithin {depth : Nat} (hθ : b.SolvedBy θ)
    (h : b.occursWithin v depth t = some true) : (θ v).size ≤ (t.subst θ).size := by
  fun_induction b.occursWithin v depth t with
  | case1 t => exact absurd h (by simp)
  | case2 depth t hr => exact absurd h (by simp)
  | case3 depth t w hr =>
    obtain rfl : w = v := by simpa using h
    rw [← hθ.subst_resolves (resolves_of_resolve? hr)]
    exact Nat.le_refl _
  | case4 depth t name hr => exact absurd h (by simp)
  | case5 depth t a c hr _ _ ihc =>
    have hc := ihc h
    rw [← hθ.subst_resolves (resolves_of_resolve? hr)]
    simp only [Ty.subst, Ty.size]
    omega
  | case6 depth t a c hr _ iha =>
    have ha := iha h
    rw [← hθ.subst_resolves (resolves_of_resolve? hr)]
    simp only [Ty.subst, Ty.size]
    omega

/-- **What the occurs test finds has no solution**: a variable is not a type that properly holds it. -/
theorem SolvedBy.ne_of_occurs? (hθ : b.SolvedBy θ) (ht : t.isVar = false)
    (h : b.occurs? v t = some true) : θ v ≠ t.subst θ := by
  intro heq
  have hsize : (θ v).size = (t.subst θ).size := congrArg Ty.size heq
  rw [occurs?, occursWithin] at h
  cases t with
  | var w => exact absurd ht (by simp [Ty.isVar])
  | base name => simp [resolve?, resolveWithin] at h
  | arrow a c =>
    simp only [resolve?, resolveWithin] at h
    simp only [Ty.subst, Ty.size] at hsize
    split at h
    · have := hθ.size_le_of_occursWithin h; omega
    · have := hθ.size_le_of_occursWithin h; omega

/-! ## Zonking -/

theorem SolvedBy.subst_zonkWithin (depth : Nat) (hθ : b.SolvedBy θ) (t : Ty) :
    (zonkWithin depth b t).subst θ = t.subst θ := by
  induction depth generalizing b t with
  | zero => rfl
  | succ depth ih =>
    rw [zonkWithin, Ty.subst_subst]
    refine Ty.subst_congr fun v _ => ?_
    cases hv : b.find? v with
    | none => rfl
    | some u => exact (ih (hθ.anti (.erase b v)) u).trans (hθ v u hv).symm

/-- A type and its zonked form are equal under every solution. -/
theorem SolvedBy.subst_zonk (hθ : b.SolvedBy θ) (t : Ty) : (b.zonk t).subst θ = t.subst θ :=
  hθ.subst_zonkWithin _ t

end Bindings

end Monotype
