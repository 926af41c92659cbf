import Monotype.Proofs.Bindings.Solution

/-!
# `Monotype.Proofs.Bindings.Zonk` — zonking as a substitution

Zonking puts the zonked binding in place of every bound variable, with the variable itself forgotten
inside its own binding. On acyclic bindings nothing is lost by that, since the binding never leads
back to the variable. So zonking is a substitution there, and one that solves the bindings.

## Contents
- **`zonk_eq`**: one level of zonking. **`zonk_eq_subst`**: zonking is a substitution.
- **`zonk_erase`**: forgetting a variable to which no path leads.
- **`Acyclic.solvedBy_zonk`**: zonking solves acyclic bindings.
- **`Acyclic.zonk_zonk`**: zonking again, when more may be bound. **`Acyclic.zonk_resolves`**: zonking after
  resolving.
-/

namespace Monotype.Bindings

open Relation

variable {b b' : Bindings} {v : Nat} {t t' : Ty}

/-- Zonking does not depend on its bound, if there are no more entries than that. -/
theorem zonkWithin_congr {n m : Nat} (hn : b.entries.length ≤ n) (hm : b.entries.length ≤ m)
    (t : Ty) : zonkWithin n b t = zonkWithin m b t := by
  have hzero : ∀ {b : Bindings}, b.entries.length ≤ 0 → ∀ v, b.find? v = none := by
    intro b hb v
    cases hv : b.find? v with
    | none => rfl
    | some u => have := length_erase_lt hv; omega
  induction n generalizing m b t with
  | zero =>
    cases m with
    | zero => rfl
    | succ m => simp [zonkWithin, hzero hn]
  | succ n ih =>
    cases m with
    | zero => simp [zonkWithin, hzero hm]
    | succ m =>
      rw [zonkWithin, zonkWithin]
      refine Ty.subst_congr fun v _ => ?_
      cases hv : b.find? v with
      | none => rfl
      | some u =>
        have hlt := length_erase_lt hv
        exact ih (by omega) (by omega) u

/-- One level of zonking: a bound variable becomes its binding, zonked with the variable forgotten. -/
theorem zonk_eq (b : Bindings) (t : Ty) :
    b.zonk t = t.subst fun v =>
      match b.find? v with
      | none => .var v
      | some u => (b.erase v).zonk u := by
  rw [zonk, zonkWithin_congr (Nat.le_refl _) (Nat.le_succ _), zonkWithin]
  refine Ty.subst_congr fun v _ => ?_
  cases hv : b.find? v with
  | none => rfl
  | some u => exact zonkWithin_congr (Nat.le_of_lt (length_erase_lt hv)) (Nat.le_refl _) u

theorem zonk_var_of_unbound (hv : b.find? v = none) : b.zonk (.var v) = .var v := by
  rw [zonk_eq, Ty.subst, hv]

theorem zonk_var_of_bound (hv : b.find? v = some t) : b.zonk (.var v) = (b.erase v).zonk t := by
  rw [zonk_eq, Ty.subst, hv]

/-- Zonking is a substitution, whether the bindings are acyclic or not. -/
theorem zonk_eq_subst (b : Bindings) (t : Ty) : b.zonk t = t.subst fun v => b.zonk (.var v) := by
  rw [zonk_eq]
  refine Ty.subst_congr fun v _ => ?_
  cases hv : b.find? v with
  | none => rw [zonk_var_of_unbound hv]
  | some u => rw [zonk_var_of_bound hv]

theorem zonk_base (b : Bindings) (name : String) : b.zonk (.base name) = .base name :=
  zonk_eq_subst b (.base name)

theorem zonk_arrow (b : Bindings) (a c : Ty) : b.zonk (.arrow a c) = .arrow (b.zonk a) (b.zonk c) := by
  rw [zonk_eq_subst b (.arrow a c), zonk_eq_subst b a, zonk_eq_subst b c]
  rfl

theorem erase_comm (b : Bindings) (v w : Nat) : (b.erase v).erase w = (b.erase w).erase v := by
  simp only [erase, List.filter_filter, Bool.and_comm]

/-- Forgetting a variable changes nothing about types from which no path leads to it. -/
theorem zonk_erase (h : ∀ w ∈ t.vars, ¬ ReflTransGen b.Points w v) :
    (b.erase v).zonk t = b.zonk t := by
  induction hn : b.entries.length using Nat.strongRecOn generalizing b t with
  | ind n ih =>
    rw [zonk_eq, zonk_eq]
    refine Ty.subst_congr fun w hw => ?_
    have hwv : w ≠ v := by rintro rfl; exact h w hw .refl
    rw [find?_erase, if_neg hwv]
    cases hfind : b.find? w with
    | none => rfl
    | some u =>
      have hlt := length_erase_lt hfind
      rw [erase_comm]
      refine ih _ (hn ▸ hlt) (fun x hx hpath => ?_) rfl
      -- the path goes on from `w` through its binding, and uses no more edges than there were
      refine h w hw (.head ⟨u, hfind, hx⟩ ?_)
      exact ReflTransGen.mono (fun _ _ => Points.mono (.erase b w)) _ _ hpath

/-- **Zonking solves acyclic bindings.** -/
theorem Acyclic.solvedBy_zonk (hb : b.Acyclic) : b.SolvedBy fun v => b.zonk (.var v) := by
  intro v t hv
  show b.zonk (.var v) = _
  rw [zonk_var_of_bound hv, ← zonk_eq_subst]
  exact zonk_erase fun w hw hpath => hb v (.head' ⟨t, hv, hw⟩ hpath)

/-- A variable that is bound acyclically zonks to what its binding zonks to. -/
theorem Acyclic.zonk_var (hb : b.Acyclic) (hv : b.find? v = some t) : b.zonk (.var v) = b.zonk t := by
  rw [zonk_eq_subst b t]
  exact hb.solvedBy_zonk v t hv

/-- Whatever more is bound, zonking a type that was zonked before is zonking the type itself. -/
theorem Acyclic.zonk_zonk (hb' : b'.Acyclic) (hbb' : b.Extends b') (t : Ty) :
    b'.zonk (b.zonk t) = b'.zonk t := by
  have hsolved : b.SolvedBy fun v => b'.zonk (.var v) := hb'.solvedBy_zonk.anti hbb'
  rw [zonk_eq_subst b' (b.zonk t), zonk_eq_subst b' t]
  exact hsolved.subst_zonk t

/-- A type and what it resolves to zonk to the same. -/
theorem Acyclic.zonk_resolves (hb : b.Acyclic) (h : b.Resolves t t') : b.zonk t' = b.zonk t := by
  rw [zonk_eq_subst b t', zonk_eq_subst b t]
  exact hb.solvedBy_zonk.subst_resolves h

end Monotype.Bindings
