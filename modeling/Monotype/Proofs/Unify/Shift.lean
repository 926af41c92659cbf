import Monotype.Proofs.Bindings.Shift
import Monotype.Proofs.Unify.Depth

/-!
# `Monotype.Proofs.Unify.Shift` — unification on top of older bindings

Unification of types that were moved up, on top of older bindings, takes the steps that it takes of the
types themselves without the older bindings, and ends in the same way: it reads bindings only by the
three readings of `Monotype.Proofs.Bindings.Shift`, and each of them gives the same there. There are more
nodes on top of older bindings, so the descent may go deeper; but that makes no difference.

## Contents
- **`Bindings.Sound`**: what unification needs of bindings, with the occurs check and without.
- **`Unifier.above`**: the outcome of a unification, moved up.
- **`Unifier.unify_above`**.
-/

namespace Monotype

/-- Chains end, and with the occurs check nothing is cyclic. -/
structure Bindings.Sound (strict : Bool) (b : Bindings) : Prop where
  chainsEnd : b.ChainsEnd
  acyclic : strict = true → b.Acyclic

theorem Bindings.sound_empty (strict : Bool) : empty.Sound strict :=
  ⟨acyclic_empty.chainsEnd, fun _ => acyclic_empty⟩

/-- An error with all variables moved up. -/
def UnifyError.shift (k : Nat) : UnifyError → UnifyError
  | mismatch left right => mismatch (left.shift k) (right.shift k)
  | infinite var ty => infinite (var + k) (ty.shift k)

namespace Unifier

open Bindings

variable {strict : Bool} {b b' old : Bindings} {left right l r t : Ty} {k v depth : Nat}
  {o : Outcome UnifyError Bindings Unit}

/-- What unification needs of bindings, it leaves: that chains end, and with the occurs check that nothing
is cyclic. -/
theorem Derives.sound (h : Derives strict left right b o) (ho : o.state? = some b')
    (hb : b.Sound strict) : b'.Sound strict := by
  refine ⟨h.chainsEnd ho hb.chainsEnd, ?_⟩
  rintro rfl
  exact h.acyclic ho (hb.acyclic rfl)

/-- The outcome of a unification, moved up and on top of older bindings. -/
def above (k : Nat) (old : Bindings) (o : Outcome UnifyError Bindings Unit) :
    Outcome UnifyError Bindings Unit :=
  (o.mapError fun e _ => e.shift k).mapState fun b => b.above k old

theorem above_bind {next next' : Unit → Bindings → Outcome UnifyError Bindings Unit}
    (h : ∀ b, o = .ok () b → next' () (b.above k old) = above k old (next () b)) :
    (above k old o).bind next' = above k old (o.bind next) := by
  cases o with
  | ok _ b => exact h b rfl
  | error e b => rfl
  | endless => rfl

/-- The occurs check answers on top as it did, and so the variable is bound there or it is not. -/
theorem bindChecked_above (hold : old.Under k) (hb : b.Sound strict) (v : Nat) (t : Ty) :
    bindChecked strict (v + k) (t.shift k) (b.above k old) =
      above k old (bindChecked strict v t b) := by
  rw [bindChecked_eq, bindChecked_eq, Ty.isVar_shift, bind_above hold]
  by_cases hcheck : (strict && !t.isVar) = true
  · have hstrict : strict = true := (Bool.and_eq_true _ _ ▸ hcheck).1
    rw [if_pos hcheck, if_pos hcheck, occurs?_above hold (hb.acyclic hstrict)]
    cases b.occurs? v t with
    | none => rfl
    | some found => cases found <;> rfl
  · rw [if_neg hcheck, if_neg hcheck]
    rfl

/-- In the same depth, unification on top of older bindings takes the same steps. -/
theorem unifyWithin_above (hold : old.Under k) (hb : b.Sound strict) (depth : Nat)
    (left right : Ty) :
    unifyWithin strict depth (left.shift k) (right.shift k) (b.above k old) =
      above k old (unifyWithin strict depth left right b) := by
  induction depth generalizing b left right with
  | zero => rfl
  | succ depth ih =>
    have hleft := resolve?_above hold hb.chainsEnd left
    have hright := resolve?_above hold hb.chainsEnd right
    cases hl : b.resolve? left with
    | none =>
      rw [hl] at hleft
      rw [unifyWithin_succ_endless (.inl hl), unifyWithin_succ_endless (.inl hleft)]
      rfl
    | some l =>
      cases hr : b.resolve? right with
      | none =>
        rw [hr] at hright
        rw [unifyWithin_succ_endless (.inr hr), unifyWithin_succ_endless (.inr hright)]
        rfl
      | some r =>
        -- shifting keeps the head of a type, so both runs come to the same case
        rw [hl] at hleft
        rw [hr] at hright
        rw [unifyWithin_succ hl hr, unifyWithin_succ hleft hright]
        have hbind := fun v t => bindChecked_above (b := b) hold hb v t
        cases l with
        | var v => exact hbind v r
        | base m =>
          cases r with
          | var v => exact hbind v (.base m)
          | base n =>
            simp only [Ty.shift_base]
            split <;> rfl
          | arrow a' c' => rfl
        | arrow a c =>
          cases r with
          | var v => exact hbind v (.arrow a c)
          | base n => rfl
          | arrow a' c' =>
            simp only [Ty.shift_arrow]
            rw [ih hb]
            refine above_bind fun b₁ hb₁ => ?_
            -- the codomains start from the bindings of the domains, which are sound again
            have hder := derives_unifyWithin hb₁ (by simp)
            exact ih (hder.sound rfl hb) c c'

/-- A greater depth makes no difference. -/
theorem unifyWithin_eq_unify (hb : b.ChainsEnd) (hdepth : depthBound b left right ≤ depth) :
    unifyWithin strict depth left right b = unify strict left right b := by
  by_cases hends : (unify strict left right b).Ends
  · exact unifyWithin_eq_of_le hdepth hends
  · have hendless : unify strict left right b = .endless := by
      by_contra hne
      exact hends (Outcome.ends_iff.mpr hne)
    rw [hendless, (unify_eq_endless_iff hb).mp hendless depth]

/-- **Unification on top of older bindings** is unification without them, moved up. -/
theorem unify_above (hold : old.Under k) (hb : b.Sound strict) (left right : Ty) :
    unify strict (left.shift k) (right.shift k) (b.above k old) =
      above k old (unify strict left right b) := by
  have hdepth : depthBound b left right ≤ depthBound (b.above k old) (left.shift k) (right.shift k) := by
    unfold depthBound
    rw [size_above, Ty.size_shift, Ty.size_shift]
    have hnodes : b.size + left.size + right.size ≤ b.size + old.size + left.size + right.size := by
      omega
    exact Nat.succ_le_succ (Nat.mul_le_mul hnodes hnodes)
  rw [← unifyWithin_eq_unify hb.chainsEnd hdepth]
  exact unifyWithin_above hold hb _ left right

end Unifier

end Monotype
