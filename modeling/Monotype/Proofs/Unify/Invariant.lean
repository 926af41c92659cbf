import Monotype.Proofs.Unify.Derivation

/-!
# `Monotype.Proofs.Unify.Invariant` — what unification keeps

A unification, whether it succeeds or fails, changes the bindings by binding unbound variables one
after the other, and in no other way (`Derives.binds`). So whatever one such step keeps, a unification
keeps: every earlier binding, the end of every chain, and, with the occurs check, acyclicity. Nor does
it make new types: all that it binds are parts of types that were there (`Derives.within`).

## Contents
- **`Derives.binds`**: the principle.
- **`Derives.extends`**, **`Derives.chainsEnd`**, **`Derives.acyclic`**.
- **`Kept`**: what unification keeps, with these three as instances.
- **`Derives.within`**: what all types share whose parts share it too.
-/

namespace Monotype

namespace Unifier

variable {strict : Bool} {b b' : Bindings} {left right l r t : Ty} {v : Nat}
  {o : Outcome UnifyError Bindings Unit}

/-- What holds between the bindings before and after a variable is bound, and carries over to
sequences of such steps, holds between the bindings before and after unification. -/
theorem Derives.binds {R : Bindings → Bindings → Prop} (hrefl : ∀ b, R b b)
    (htrans : ∀ {b b' b''}, R b b' → R b' b'' → R b b'')
    (hbind : ∀ {b left right v t}, Flex b left right v t →
      (strict = true → t.isVar = false → b.occurs? v t = some false) → R b (b.bind v t))
    (h : Derives strict left right b o) (ho : o.state? = some b') : R b b' := by
  induction h generalizing b' with
  | bind hflex hocc => cases ho; exact hbind hflex hocc
  | infinite _ _ _ _ => cases ho; exact hrefl _
  | base _ _ => cases ho; exact hrefl _
  | mismatch _ _ _ => cases ho; exact hrefl _
  | domain _ _ _ iha => exact iha ho
  | arrow _ _ _ _ iha ihc => exact htrans (iha rfl) (ihc ho)

/-- Unification keeps all bindings. -/
theorem Derives.extends (h : Derives strict left right b o) (ho : o.state? = some b') :
    b.Extends b' :=
  h.binds Bindings.Extends.refl .trans (fun hflex _ => .bind hflex.find?_eq_none _) ho

/-- Where chains end, they still end after unification, with or without the occurs check. -/
theorem Derives.chainsEnd (h : Derives strict left right b o) (ho : o.state? = some b')
    (hb : b.ChainsEnd) : b'.ChainsEnd := by
  refine h.binds (R := fun b b' => b.ChainsEnd → b'.ChainsEnd) (fun _ => id)
    (fun h h' hb => h' (h hb)) ?_ ho hb
  intro b left right v t hflex _ hb
  refine hb.bind ?_
  rintro w rfl
  exact hflex.find?_eq_none_of_var

/-- With the occurs check, acyclic bindings are acyclic after unification. -/
theorem Derives.acyclic (h : Derives true left right b o) (ho : o.state? = some b')
    (hb : b.Acyclic) : b'.Acyclic := by
  refine h.binds (R := fun b b' => b.Acyclic → b'.Acyclic) (fun _ => id)
    (fun h h' hb => h' (h hb)) ?_ ho hb
  intro b left right v t hflex hocc hb
  by_cases htv : t = .var v
  · subst htv; rwa [Bindings.bind_self]
  refine hb.bind fun w hw hpath => ?_
  cases ht : t.isVar with
  | false => exact Bindings.not_reaches_of_occurs? hflex.find?_eq_none (hocc rfl ht) w hw hpath
  | true =>
    -- a bare variable is bound without the occurs check: it is unbound, so nothing else is reached
    cases t with
    | base n => exact absurd ht (by simp [Ty.isVar])
    | arrow a c => exact absurd ht (by simp [Ty.isVar])
    | var x =>
      obtain rfl : w = x := by simpa [Ty.vars] using hw
      have hvw := Bindings.eq_of_reaches_of_unbound hflex.find?_eq_none_of_var hpath
      exact htv (congrArg Ty.var hvw.symm)

/-- A relation between bindings that unification keeps, and that carries over to sequences. -/
structure Kept (strict : Bool) (R : Bindings → Bindings → Prop) : Prop where
  refl : ∀ b, R b b
  trans : ∀ {b b' b''}, R b b' → R b' b'' → R b b''
  derives : ∀ {left right b b' o}, Derives strict left right b o → o.state? = some b' → R b b'

theorem kept_extends (strict : Bool) : Kept strict Bindings.Extends where
  refl := .refl
  trans := .trans
  derives hder ho := hder.extends ho

theorem kept_chainsEnd (strict : Bool) :
    Kept strict fun b b' => b.ChainsEnd → b'.ChainsEnd where
  refl _ := id
  trans h h' hb := h' (h hb)
  derives hder ho := hder.chainsEnd ho

theorem kept_acyclic : Kept true fun b b' => b.Acyclic → b'.Acyclic where
  refl _ := id
  trans h h' hb := h' (h hb)
  derives hder ho := hder.acyclic ho

end Unifier

/-! ## No new types -/

/-- Unification binds nothing but variables and types that are parts of what was there. -/
theorem Unifier.Derives.within {strict : Bool} {b b' : Bindings} {left right : Ty}
    {o : Outcome UnifyError Bindings Unit} {Q : Ty → Prop} (hQ : PartClosed Q)
    (h : Derives strict left right b o) (ho : o.state? = some b') (hb : b.Within Q)
    (hl : Q left) (hr : Q right) : b'.Within Q := by
  induction h generalizing b' with
  | bind hflex _ =>
    cases ho
    cases hflex with
    | left hlv hrt => exact hb.bind (hb.resolves hl hlv) (hb.resolves hr hrt)
    | right _ hlt hrv => exact hb.bind (hb.resolves hr hrv) (hb.resolves hl hlt)
  | infinite _ _ _ _ => cases ho; exact hb
  | base _ _ => cases ho; exact hb
  | mismatch _ _ _ => cases ho; exact hb
  | domain hla hra _ iha =>
    have hL := hQ _ _ (hb.resolves hl hla)
    have hR := hQ _ _ (hb.resolves hr hra)
    exact iha ho hb hL.1 hR.1
  | arrow hla hra _ _ iha ihc =>
    have hL := hQ _ _ (hb.resolves hl hla)
    have hR := hQ _ _ (hb.resolves hr hra)
    exact ihc ho (iha rfl hb hL.1 hR.1) hL.2 hR.2

end Monotype
