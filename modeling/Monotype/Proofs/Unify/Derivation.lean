import Monotype.Proofs.Bindings.Resolve
import Monotype.Ty.Unify

/-!
# `Monotype.Proofs.Unify.Derivation` — the steps of unification

Everything that is proved of unification follows the cases of one step, and the bindings under which
the next step is made. `Derives` lists these cases once, without the bound on the depth of the
descent. Every unification that ends has a derivation, with the same outcome (`derives_unify`), so
theorems about unification are inductions on derivations.

## Contents
- **`Flex`**, **`Clash`**: an unbound variable and what it meets; two types that never become equal.
- **`Derives`**: how unification ends.
- **`bindChecked_eq`**, **`unifyWithin_succ`**: one step of the function.
- **`derives_unify`**.
-/

namespace Monotype.Unifier

variable {strict : Bool} {b : Bindings} {left right l r t : Ty} {v : Nat}

/-- One side resolves to an unbound variable, and the other to a type. The left side comes first. -/
inductive Flex (b : Bindings) (left right : Ty) : Nat → Ty → Prop
  | left {v : Nat} {t : Ty} (hl : b.Resolves left (.var v)) (hr : b.Resolves right t) :
      Flex b left right v t
  | right {v : Nat} {t : Ty} (ht : t.isVar = false) (hl : b.Resolves left t)
      (hr : b.Resolves right (.var v)) : Flex b left right v t

/-- Two types that no substitution makes equal: different base types, or a base type and an arrow. -/
inductive Clash : Ty → Ty → Prop
  | bases {m n : String} (h : m ≠ n) : Clash (.base m) (.base n)
  | baseArrow {n : String} {a c : Ty} : Clash (.base n) (.arrow a c)
  | arrowBase {n : String} {a c : Ty} : Clash (.arrow a c) (.base n)

/-- How the unification of two types under bindings ends. -/
inductive Derives (strict : Bool) : Ty → Ty → Bindings → Outcome UnifyError Bindings Unit → Prop
  | bind {b : Bindings} {left right : Ty} {v : Nat} {t : Ty} (h : Flex b left right v t)
      (hocc : strict = true → t.isVar = false → b.occurs? v t = some false) :
      Derives strict left right b (.ok () (b.bind v t))
  | infinite {b : Bindings} {left right : Ty} {v : Nat} {t : Ty} (h : Flex b left right v t)
      (hs : strict = true) (ht : t.isVar = false) (hocc : b.occurs? v t = some true) :
      Derives strict left right b (.error (.infinite v t) b)
  | base {b : Bindings} {left right : Ty} {n : String} (hl : b.Resolves left (.base n))
      (hr : b.Resolves right (.base n)) : Derives strict left right b (.ok () b)
  | mismatch {b : Bindings} {left right l r : Ty} (hl : b.Resolves left l)
      (hr : b.Resolves right r) (h : Clash l r) :
      Derives strict left right b (.error (.mismatch l r) b)
  | domain {b b' : Bindings} {left right a c a' c' : Ty} {e : UnifyError}
      (hl : b.Resolves left (.arrow a c)) (hr : b.Resolves right (.arrow a' c'))
      (ha : Derives strict a a' b (.error e b')) : Derives strict left right b (.error e b')
  | arrow {b b' : Bindings} {left right a c a' c' : Ty} {o : Outcome UnifyError Bindings Unit}
      (hl : b.Resolves left (.arrow a c)) (hr : b.Resolves right (.arrow a' c'))
      (ha : Derives strict a a' b (.ok () b')) (hc : Derives strict c c' b' o) :
      Derives strict left right b o

/-- The variable that is to be bound is unbound. -/
theorem Flex.find?_eq_none (h : Flex b left right v t) : b.find? v = none := by
  cases h with
  | left hl _ => exact hl.find?_eq_none
  | right _ _ hr => exact hr.find?_eq_none

/-- The type that the variable is to be bound to is no bound variable. -/
theorem Flex.find?_eq_none_of_var {w : Nat} (h : Flex b left right v (.var w)) :
    b.find? w = none := by
  cases h with
  | left _ hr => exact hr.find?_eq_none
  | right ht _ _ => exact absurd ht (by simp [Ty.isVar])

/-! ## One step of the function -/

/-- A variable is bound, unless the occurs check is made and finds it. -/
theorem bindChecked_eq (strict : Bool) (v : Nat) (t : Ty) (b : Bindings) :
    bindChecked strict v t b =
      if strict && !t.isVar then
        match b.occurs? v t with
        | none => .endless
        | some true => .error (.infinite v t) b
        | some false => .ok () (b.bind v t)
      else .ok () (b.bind v t) := by
  unfold bindChecked
  split
  · cases h : b.occurs? v t with
    | none => simp [h]
    | some found => cases found <;> simp [h]
  · simp

/-- **One step of unification**, by what both sides resolve to. -/
theorem unifyWithin_succ {depth : Nat} (hl : b.resolve? left = some l)
    (hr : b.resolve? right = some r) :
    unifyWithin strict (depth + 1) left right b =
      match l, r with
      | .var v, other => bindChecked strict v other b
      | other, .var v => bindChecked strict v other b
      | .arrow a c, .arrow a' c' =>
        (unifyWithin strict depth a a' b).bind fun _ b' => unifyWithin strict depth c c' b'
      | .base m, .base n => if m = n then .ok () b else .error (.mismatch l r) b
      | _, _ => .error (.mismatch l r) b := by
  simp only [unifyWithin, Run.run_bind, Run.run_get, Outcome.bind_ok, hl, hr, Run.ofOption_some,
    Run.run_pure]
  cases l <;> cases r <;> simp only [Run.run_bind, Run.run_fail]
  split <;> rfl

theorem unifyWithin_succ_endless {depth : Nat}
    (h : b.resolve? left = none ∨ b.resolve? right = none) :
    unifyWithin strict (depth + 1) left right b = .endless := by
  rcases h with h | h
  · simp [unifyWithin, h]
  · cases hl : b.resolve? left <;> simp [unifyWithin, h, hl]

/-! ## The function and the relation -/

theorem derives_bindChecked {o : Outcome UnifyError Bindings Unit} (hflex : Flex b left right v t)
    (h : bindChecked strict v t b = o) (ho : o.Ends) : Derives strict left right b o := by
  rw [bindChecked_eq] at h
  subst h
  by_cases hcheck : (strict && !t.isVar) = true
  · rw [if_pos hcheck] at ho ⊢
    simp only [Bool.and_eq_true, Bool.not_eq_true'] at hcheck
    cases hocc : b.occurs? v t with
    | none => rw [hocc] at ho; exact absurd ho (by simp)
    | some found =>
      cases found with
      | true => exact .infinite hflex hcheck.1 hcheck.2 hocc
      | false => exact .bind hflex fun _ _ => hocc
  · rw [if_neg hcheck]
    refine .bind hflex fun hs ht => ?_
    exact absurd (by simp [hs, ht]) hcheck

/-- A unification that ends within some depth has a derivation: induction on that depth, as the function
descends. -/
theorem derives_unifyWithin {depth : Nat} {o : Outcome UnifyError Bindings Unit}
    (h : unifyWithin strict depth left right b = o) (ho : o.Ends) :
    Derives strict left right b o := by
  induction depth generalizing left right b o with
  | zero => subst h; exact absurd ho (by simp [unifyWithin])
  | succ depth ih =>
    cases hl : b.resolve? left with
    | none =>
      rw [unifyWithin_succ_endless (.inl hl)] at h
      subst h; exact absurd ho (by simp)
    | some l =>
      cases hr : b.resolve? right with
      | none =>
        rw [unifyWithin_succ_endless (.inr hr)] at h
        subst h; exact absurd ho (by simp)
      | some r =>
        rw [unifyWithin_succ hl hr] at h
        -- both sides resolve, and the cases are those of the function: a variable, then the two heads
        have hl := Bindings.resolves_of_resolve? hl
        have hr := Bindings.resolves_of_resolve? hr
        cases l with
        | var v => exact derives_bindChecked (.left hl hr) h ho
        | base m =>
          cases r with
          | var v => exact derives_bindChecked (.right rfl hl hr) h ho
          | base n =>
            simp only at h
            by_cases hmn : m = n
            · subst hmn
              rw [if_pos rfl] at h
              subst h; exact .base hl hr
            · rw [if_neg hmn] at h
              subst h; exact .mismatch hl hr (.bases hmn)
          | arrow a c => subst h; exact .mismatch hl hr .baseArrow
        | arrow a c =>
          cases r with
          | var v => exact derives_bindChecked (.right rfl hl hr) h ho
          | base n => subst h; exact .mismatch hl hr .arrowBase
          | arrow a' c' =>
            simp only at h
            -- the codomains are unified under the bindings of the domains
            cases ha : unifyWithin strict depth a a' b with
            | ok u b' =>
              rw [ha, Outcome.bind_ok] at h
              exact .arrow hl hr (ih ha (by simp)) (ih h ho)
            | error e b' =>
              rw [ha, Outcome.bind_error] at h
              subst h; exact .domain hl hr (ih ha (by simp))
            | endless =>
              rw [ha, Outcome.bind_endless] at h
              subst h; exact absurd ho (by simp)

/-- **Every unification that ends has a derivation.** -/
theorem derives_unify {o : Outcome UnifyError Bindings Unit} (h : unify strict left right b = o)
    (ho : o.Ends) : Derives strict left right b o :=
  derives_unifyWithin h ho

end Monotype.Unifier
