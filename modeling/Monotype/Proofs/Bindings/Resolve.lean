import Monotype.Proofs.Bindings.Graph

/-!
# `Monotype.Proofs.Bindings.Resolve` — where resolving ends

Resolving is a function with a bound on its steps. Here it becomes a relation, which has no bound and
grows with the bindings, and the bound is shown to be high enough: where chains end, every type
resolves. The argument forgets each variable that was passed. The chain never comes back to it, so the
remaining steps are the same without it, and there is one entry less.

## Contents
- **`Resolves`**: a type and what following its bindings ends in.
- **`exists_resolve?`**: where chains end, every type resolves.
- **`reaches_iff_of_resolves`**: resolving changes nothing about which unbound variables are reached.
- **`not_reaches_of_occurs?`**, **`not_acyclic_bind_of_occurs?`**: what the occurs test rules out, and
  what it prevents.
- **`PartClosed`**, **`Within`**: properties that all bound types share.
-/

namespace Monotype

/-- A property of types that the parts of an arrow inherit. -/
def PartClosed (Q : Ty → Prop) : Prop := ∀ a c, Q (.arrow a c) → Q a ∧ Q c

namespace Bindings

open Relation

variable {b b' : Bindings} {v : Nat} {t t' t'' : Ty} {Q : Ty → Prop}

/-- What a type becomes by following bindings of bare variables: no bound variable. -/
inductive Resolves (b : Bindings) : Ty → Ty → Prop
  | plain {t : Ty} (ht : ∀ v, t ≠ .var v) : Resolves b t t
  | unbound {v : Nat} (hv : b.find? v = none) : Resolves b (.var v) (.var v)
  | bound {v : Nat} {t t' : Ty} (hv : b.find? v = some t) (ht : Resolves b t t') :
      Resolves b (.var v) t'

/-- A variable that resolving ended in is unbound. -/
theorem Resolves.find?_eq_none (h : b.Resolves t (.var v)) : b.find? v = none := by
  generalize ht' : Ty.var v = t' at h
  induction h with
  | plain ht => exact absurd ht'.symm (ht v)
  | unbound hv => cases ht'; exact hv
  | bound _ _ ih => exact ih ht'

/-- A type resolves to one thing at most. -/
theorem Resolves.unique (h : b.Resolves t t') (h' : b.Resolves t t'') : t'' = t' := by
  induction h with
  | plain ht =>
    cases h' with
    | plain _ => rfl
    | unbound _ => exact absurd rfl (ht _)
    | bound _ _ => exact absurd rfl (ht _)
  | unbound hv =>
    cases h' with
    | plain _ => rfl
    | unbound _ => rfl
    | bound hv' _ => rw [hv] at hv'; exact absurd hv' (by simp)
  | bound hv _ ih =>
    cases h' with
    | plain ht => exact absurd rfl (ht _)
    | unbound hv' => rw [hv] at hv'; exact absurd hv' (by simp)
    | bound hv' h' =>
      rw [hv] at hv'
      cases hv'
      exact ih h'

/-- When more is bound, a type resolves to whatever it resolved to before resolves to. -/
theorem Resolves.extends (hb : b.Extends b') (h : b.Resolves t t') (h' : b'.Resolves t' t'') :
    b'.Resolves t t'' := by
  induction h with
  | plain _ => exact h'
  | unbound _ => exact h'
  | bound hv _ ih => exact .bound (hb _ _ hv) (ih h')

/-- A type that resolves to an arrow does so still when more is bound. -/
theorem Resolves.extends_arrow {a c : Ty} (hb : b.Extends b') (h : b.Resolves t (.arrow a c)) :
    b'.Resolves t (.arrow a c) :=
  h.extends hb (.plain fun _ => Ty.noConfusion)

/-! ## The function and the relation -/

theorem resolveWithin_of_unbound (steps : Nat) (hv : b.find? v = none) :
    b.resolveWithin steps (.var v) = some (.var v) := by
  simp [resolveWithin, hv]

theorem resolveWithin_succ_of_bound (steps : Nat) (hv : b.find? v = some t) :
    b.resolveWithin (steps + 1) (.var v) = b.resolveWithin steps t := by
  simp [resolveWithin, hv]

theorem resolve?_arrow (b : Bindings) (a c : Ty) : b.resolve? (.arrow a c) = some (.arrow a c) := by
  simp [resolve?, resolveWithin]

/-- What is found in any number of steps, the type resolves to. -/
theorem resolves_of_resolveWithin {steps : Nat} (h : b.resolveWithin steps t = some t') :
    b.Resolves t t' := by
  fun_induction b.resolveWithin steps t with
  | case1 steps v hv => cases h; exact .unbound hv
  | case2 v u hv => exact absurd h (by simp)
  | case3 v u steps hv ih => exact .bound hv (ih h)
  | case4 steps t ht => cases h; exact .plain fun v hv => ht v hv

theorem resolves_of_resolve? (h : b.resolve? t = some t') : b.Resolves t t' :=
  resolves_of_resolveWithin h

/-! ## Chains that end -/

/-- Resolving a type never looks at a variable to which no chain leads from the type. -/
theorem resolveWithin_erase (steps : Nat) (h : ∀ w, t = .var w → ¬ ReflTransGen b.Next w v) :
    (b.erase v).resolveWithin steps t = b.resolveWithin steps t := by
  have hfind : ∀ w, ¬ ReflTransGen b.Next w v → (b.erase v).find? w = b.find? w := by
    intro w hw
    rw [find?_erase, if_neg]
    rintro rfl; exact hw .refl
  fun_induction b.resolveWithin steps t with
  | case1 steps w hw => exact resolveWithin_of_unbound _ ((hfind w (h w rfl)).trans hw)
  | case2 w u hw => simp [resolveWithin, (hfind w (h w rfl)).trans hw]
  | case3 w u steps hw ih =>
    rw [resolveWithin_succ_of_bound _ ((hfind w (h w rfl)).trans hw)]
    refine ih fun x hx hxv => h w rfl (.head ?_ hxv)
    rw [Next, hw, hx]
  | case4 steps t ht => simp [resolveWithin]

/-- **Where chains end, as many steps as there are bindings are enough.** -/
theorem exists_resolveWithin (hb : b.ChainsEnd) {steps : Nat} (hsteps : b.entries.length ≤ steps) :
    ∃ t', b.resolveWithin steps t = some t' := by
  induction steps generalizing b t with
  | zero =>
    cases t with
    | var v =>
      cases hv : b.find? v with
      | none => exact ⟨_, resolveWithin_of_unbound _ hv⟩
      | some u => have := length_erase_lt hv; omega
    | base name => exact ⟨.base name, by simp [resolveWithin]⟩
    | arrow a c => exact ⟨.arrow a c, by simp [resolveWithin]⟩
  | succ steps ih =>
    cases t with
    | var v =>
      cases hv : b.find? v with
      | none => exact ⟨_, resolveWithin_of_unbound _ hv⟩
      | some u =>
        have hlt := length_erase_lt hv
        obtain ⟨t', ht'⟩ := ih (t := u) (hb.anti (.erase b v)) (by omega)
        refine ⟨t', ?_⟩
        rw [resolveWithin_succ_of_bound _ hv, ← ht', resolveWithin_erase]
        rintro w rfl hwv
        exact hb v (.head' hv hwv)
    | base name => exact ⟨.base name, by simp [resolveWithin]⟩
    | arrow a c => exact ⟨.arrow a c, by simp [resolveWithin]⟩

/-- **Where chains end, every type resolves.** The bound on the steps is never met. -/
theorem exists_resolve? (hb : b.ChainsEnd) (t : Ty) : ∃ t', b.resolve? t = some t' :=
  exists_resolveWithin hb (Nat.le_refl _)

/-- Where chains end, the function computes the relation. -/
theorem resolve?_of_resolves (hb : b.ChainsEnd) (h : b.Resolves t t') : b.resolve? t = some t' := by
  obtain ⟨t'', ht⟩ := exists_resolve? hb t
  rw [ht, h.unique (resolves_of_resolve? ht)]

/-! ## Resolving and reaching -/

/-- A bound variable leads to the same unbound variables as its binding. -/
theorem reaches_iff_of_bound {w : Nat} (hw : b.find? w = some t) (hv : b.find? v = none) :
    ReflTransGen b.Points w v ↔ ∃ x ∈ t.vars, ReflTransGen b.Points x v := by
  constructor
  · intro hpath
    rcases ReflTransGen.cases_head hpath with rfl | ⟨x, ⟨u, hu, hx⟩, hpath⟩
    · rw [hv] at hw; exact absurd hw (by simp)
    · rw [hw] at hu
      cases hu
      exact ⟨x, hx, hpath⟩
  · rintro ⟨x, hx, hpath⟩
    exact .head ⟨t, hw, hx⟩ hpath

/-- A type leads to the same unbound variables as the type that it resolves to. -/
theorem reaches_iff_of_resolves (h : b.Resolves t t') (hv : b.find? v = none) :
    (∃ w ∈ t.vars, ReflTransGen b.Points w v) ↔ ∃ w ∈ t'.vars, ReflTransGen b.Points w v := by
  induction h with
  | plain _ => exact Iff.rfl
  | unbound _ => exact Iff.rfl
  | bound hu _ ih =>
    rw [← ih, ← reaches_iff_of_bound hu hv]
    simp [Ty.vars]

/-- An answer of the occurs test is whether a path leads from the type to the unbound variable. -/
theorem reaches_iff_of_occursWithin {depth : Nat} {found : Bool} (hv : b.find? v = none)
    (h : b.occursWithin v depth t = some found) :
    (∃ w ∈ t.vars, ReflTransGen b.Points w v) ↔ found = true := by
  fun_induction b.occursWithin v depth t generalizing found with
  | case1 t => exact absurd h (by simp)
  | case2 depth t hr => exact absurd h (by simp)
  | case3 depth t w hr =>
    have hres := resolves_of_resolve? hr
    cases h
    rw [reaches_iff_of_resolves hres hv, beq_iff_eq]
    constructor
    · rintro ⟨x, hx, hpath⟩
      obtain rfl : x = w := by simpa [Ty.vars] using hx
      exact (eq_of_reaches_of_unbound hres.find?_eq_none hpath).symm
    · rintro rfl
      exact ⟨w, by simp [Ty.vars], .refl⟩
  | case4 depth t name hr =>
    cases h
    rw [reaches_iff_of_resolves (resolves_of_resolve? hr) hv]
    simp [Ty.vars]
  | case5 depth t a c hr ha iha ihc =>
    -- nothing was found in the domain, so the answer is that for the codomain
    rw [reaches_iff_of_resolves (resolves_of_resolve? hr) hv, ← ihc h]
    constructor
    · rintro ⟨x, hx, hpath⟩
      rcases List.mem_append.mp hx with hx | hx
      · exact absurd ((iha ha).mp ⟨x, hx, hpath⟩) (by simp)
      · exact ⟨x, hx, hpath⟩
    · rintro ⟨x, hx, hpath⟩
      exact ⟨x, List.mem_append_right _ hx, hpath⟩
  | case6 depth t a c hr ha iha =>
    rw [reaches_iff_of_resolves (resolves_of_resolve? hr) hv]
    have hfound : found = true := by
      cases found with
      | true => rfl
      | false => exact absurd h ha
    refine ⟨fun _ => hfound, fun _ => ?_⟩
    obtain ⟨x, hx, hpath⟩ := (iha h).mpr hfound
    exact ⟨x, List.mem_append_left _ hx, hpath⟩

/-- If the occurs test finds nothing, no path leads from the type to the unbound variable. -/
theorem not_reaches_of_occurs? (hv : b.find? v = none) (h : b.occurs? v t = some false) :
    ∀ w ∈ t.vars, ¬ ReflTransGen b.Points w v := by
  intro w hw hpath
  exact absurd ((reaches_iff_of_occursWithin hv h).mp ⟨w, hw, hpath⟩) (by simp)

/-- **If the occurs test finds the variable, binding it anyway makes a cycle.** -/
theorem not_acyclic_bind_of_occurs? (hv : b.find? v = none) (ht : t.isVar = false)
    (h : b.occurs? v t = some true) : ¬ (b.bind v t).Acyclic := by
  obtain ⟨w, hw, hpath⟩ := (reaches_iff_of_occursWithin hv h).mpr rfl
  have htv : t ≠ .var v := by
    rintro rfl
    exact absurd ht (by simp [Ty.isVar])
  have hbound : (b.bind v t).Points v w := ⟨t, by rw [find?_bind b v htv, if_pos rfl], hw⟩
  have hback : ReflTransGen (b.bind v t).Points w v :=
    ReflTransGen.mono (fun _ _ => Points.mono (.bind hv t)) _ _ hpath
  exact fun hacyclic => hacyclic v (.head' hbound hback)

/-! ## Properties of all bound types -/

/-- All bound variables and all bindings have a property. -/
def Within (b : Bindings) (Q : Ty → Prop) : Prop := ∀ v t, b.find? v = some t → Q (.var v) ∧ Q t

theorem within_empty (Q : Ty → Prop) : empty.Within Q := fun v t h => absurd h (by simp)

/-- Resolving does not leave a set of types that bindings do not leave. -/
theorem Within.resolves (hb : b.Within Q) (ht : Q t) (h : b.Resolves t t') : Q t' := by
  induction h with
  | plain _ => exact ht
  | unbound _ => exact ht
  | bound hv _ ih => exact ih (hb _ _ hv).2

theorem Within.bind (hb : b.Within Q) (hv : Q (.var v)) (ht : Q t) : (b.bind v t).Within Q := by
  intro w u hw
  rcases find?_bind_cases hw with ⟨rfl, rfl⟩ | hold
  · exact ⟨hv, ht⟩
  · exact hb w u hold

end Bindings

end Monotype
