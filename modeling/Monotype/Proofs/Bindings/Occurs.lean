import Monotype.Proofs.Bindings.Descent
import Monotype.Proofs.Bindings.Zonk

/-!
# `Monotype.Proofs.Bindings.Occurs` — the occurs test is exact

The occurs test looks for a variable in what a type stands for. It resolves the type, and goes on to the
parts of an arrow; these hold bound variables again, which it resolves in turn. So the search goes down
no single type, and nothing in it tells that it ever comes to an end. `occurs?` has a bound on the depth;
here the search is written down without one, as a relation.

What the search meets are nodes of the zonked type. Resolving a type changes nothing about what it zonks to,
where bindings are acyclic, and zonking goes into both parts of an arrow as the search does. A variable
that is bound is never met: resolving passes it by, and none is left in a zonked type. That the search
ends is the argument of `Descent`, for which zonking is a solution of the bindings.

## Contents
- **`Searches`**: how the search ends. **`searches_of_occursWithin`**: what the test answers, it ends with.
- **`Searches.mem_vars_zonk_iff`**: an answer says whether the variable occurs in the zonked type.
- **`Acyclic.occurs_exact`**: there is always an answer.
-/

namespace Monotype.Bindings

variable {b : Bindings} {v : Nat} {t : Ty} {found : Bool}

/-- How the search for a variable in a type ends. A part of an arrow is searched as the arrow is, and the
codomain only if nothing was found in the domain. Nothing keeps this from going on for ever. -/
inductive Searches (b : Bindings) (v : Nat) : Ty → Bool → Prop
  | var {t : Ty} {w : Nat} (h : b.Resolves t (.var w)) : Searches b v t (w == v)
  | base {t : Ty} {name : String} (h : b.Resolves t (.base name)) : Searches b v t false
  | domain {t a c : Ty} (h : b.Resolves t (.arrow a c)) (ha : Searches b v a true) :
      Searches b v t true
  | codomain {t a c : Ty} {found : Bool} (h : b.Resolves t (.arrow a c)) (ha : Searches b v a false)
      (hc : Searches b v c found) : Searches b v t found

/-- What the occurs test answers in any depth is what the search ends with. -/
theorem searches_of_occursWithin {depth : Nat} (h : b.occursWithin v depth t = some found) :
    b.Searches v t found := by
  fun_induction b.occursWithin v depth t generalizing found with
  | case1 t => exact absurd h (by simp)
  | case2 depth t hr => exact absurd h (by simp)
  | case3 depth t w hr =>
    cases h
    exact .var (resolves_of_resolve? hr)
  | case4 depth t name hr =>
    cases h
    exact .base (resolves_of_resolve? hr)
  | case5 depth t a c hr ha iha ihc => exact .codomain (resolves_of_resolve? hr) (iha ha) (ihc h)
  | case6 depth t a c hr ha iha =>
    cases found with
    | true => exact .domain (resolves_of_resolve? hr) (iha h)
    | false => exact absurd h ha

/-- On acyclic bindings the search ends with whether the variable occurs in the zonked type. -/
theorem Searches.mem_vars_zonk_iff (hb : b.Acyclic) (h : b.Searches v t found) :
    v ∈ (b.zonk t).vars ↔ found = true := by
  induction h with
  | @var t w h =>
    rw [← hb.zonk_resolves h, zonk_var_of_unbound h.find?_eq_none, beq_iff_eq]
    exact List.mem_singleton.trans eq_comm
  | base h =>
    rw [← hb.zonk_resolves h, zonk_base]
    simp [Ty.vars]
  | domain h _ iha =>
    rw [← hb.zonk_resolves h, zonk_arrow]
    exact iff_of_true (List.mem_append_left _ (iha.mpr rfl)) rfl
  | codomain h _ _ iha ihc =>
    rw [← hb.zonk_resolves h, zonk_arrow, ← ihc]
    have hdomain : v ∉ (b.zonk _).vars := fun hmem => absurd (iha.mp hmem) (by simp)
    exact List.mem_append.trans (or_iff_right hdomain)

/-- **The occurs test is exact** on acyclic bindings, for every variable, bound or not, and every type. The
search ends, and with nothing else than whether the variable occurs in the zonked type; and that is what
the test answers. -/
theorem Acyclic.occurs_exact (hb : b.Acyclic) (v : Nat) (t : Ty) :
    (∀ found, b.Searches v t found ↔ found = decide (v ∈ (b.zonk t).vars)) ∧
      b.occurs? v t = some (decide (v ∈ (b.zonk t).vars)) := by
  have hexact : ∀ {found}, b.Searches v t found → found = decide (v ∈ (b.zonk t).vars) :=
    fun h => Bool.eq_iff_iff.mpr ((h.mem_vars_zonk_iff hb).symm.trans decide_eq_true_iff.symm)
  obtain ⟨answer, hanswer⟩ := exists_occurs? hb.chainsEnd hb.solvedBy_zonk v t
  have hsearches : b.Searches v t answer := searches_of_occursWithin hanswer
  refine ⟨fun found => ⟨hexact, ?_⟩, hexact hsearches ▸ hanswer⟩
  rintro rfl
  exact hexact hsearches ▸ hsearches

/-- A variable that is found at the end of a chain, below two arrows, and one that the search passes by on its
way there. -/
theorem Acyclic.occurs_exact_through_chain :
    let b := ((Bindings.empty.bind 0 (.var 1)).bind 1 (.arrow .int (.var 2))).bind 2
      (.arrow .string (.var 3))
    b.Acyclic ∧ b.zonk (.var 0) = .arrow .int (.arrow .string (.var 3)) ∧
      (∀ found, b.Searches 3 (.var 0) found ↔ found = true) ∧ b.occurs? 3 (.var 0) = some true ∧
      (∀ found, b.Searches 2 (.var 0) found ↔ found = false) ∧ b.occurs? 2 (.var 0) = some false := by
  intro b
  have hb : b.Acyclic := by
    refine ((acyclic_empty.bind_of_unbound ?_).bind_of_unbound ?_).bind_of_unbound ?_ <;> decide
  have hfound := Acyclic.occurs_exact hb 3 (.var 0)
  have hpassed := Acyclic.occurs_exact hb 2 (.var 0)
  exact ⟨hb, by decide, hfound.1, hfound.2, hpassed.1, hpassed.2⟩

end Monotype.Bindings
