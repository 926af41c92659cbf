import Mathlib.Logic.Relation
import Monotype.Ty.Bindings

/-!
# `Monotype.Proofs.Bindings.Graph` — bindings as a graph on variables

A bound variable points to every variable of its binding. Bindings are *acyclic* if no path leads from
a variable back to itself. A weaker condition looks only at variables that are bound to a bare
variable: the *chains end* if no path of that kind leads back to where it started. Resolving a type
needs no more than that; the occurs test and zonking need the whole graph to be acyclic.

Binding an unbound variable adds edges out of that variable alone, so all that has to be shown of a
new binding is that its variables do not lead back (`acyclic_of_redirect`).

## Contents
- **`Extends`**: bindings that keep all earlier ones.
- **`Next`**, **`Points`**: the edges. **`ChainsEnd`**, **`Acyclic`**: the two conditions.
- **`ChainsEnd.bind`**, **`Acyclic.bind`**: what a new binding must satisfy to keep them.
-/

namespace Monotype

open Relation

/-- Redirecting one vertex keeps a graph acyclic if no new successor leads back to that vertex. -/
theorem acyclic_of_redirect {R R' : Nat → Nat → Prop} {v : Nat} {S : Nat → Prop}
    (hR : ∀ x, ¬ TransGen R x x) (hS : ∀ y, S y → ¬ ReflTransGen R y v)
    (hstep : ∀ x y, R' x y → (x = v ∧ S y) ∨ R x y) : ∀ x, ¬ TransGen R' x x := by
  intro x hcycle
  by_cases hxv : ReflTransGen R x v
  · -- a path of the new graph that uses a new edge goes on along old edges from a new successor
    have hsplit : ∀ y, TransGen R' x y → TransGen R x y ∨ ∃ w, S w ∧ ReflTransGen R w y := by
      intro y hy
      induction hy with
      | single hxy =>
        rcases hstep _ _ hxy with ⟨_, hw⟩ | hold
        · exact Or.inr ⟨_, hw, .refl⟩
        · exact Or.inl (.single hold)
      | tail _ hyz ih =>
        rcases hstep _ _ hyz with ⟨_, hw⟩ | hold
        · exact Or.inr ⟨_, hw, .refl⟩
        · rcases ih with hpath | ⟨w, hw, hpath⟩
          · exact Or.inl (hpath.tail hold)
          · exact Or.inr ⟨w, hw, hpath.tail hold⟩
    rcases hsplit x hcycle with hold | ⟨w, hw, hpath⟩
    · exact hR x hold
    · exact hS w hw (hpath.trans hxv)
  · -- a path that never meets the redirected vertex is a path of the old graph
    have hold : ∀ y, TransGen R' x y → TransGen R x y := by
      intro y hy
      induction hy with
      | single hxy =>
        rcases hstep _ _ hxy with ⟨hx, _⟩ | hold
        · exact absurd (hx ▸ .refl) hxv
        · exact .single hold
      | tail _ hyz ih =>
        rcases hstep _ _ hyz with ⟨hy, _⟩ | hold
        · exact absurd (hy ▸ ih.to_reflTransGen) hxv
        · exact ih.tail hold
    exact hR x (hold x hcycle)

namespace Bindings

variable {b b' b'' : Bindings} {v w : Nat} {t : Ty}

/-! ## Extending bindings -/

/-- Every bound variable is bound to the same type in the other bindings too. -/
def Extends (b b' : Bindings) : Prop := ∀ v t, b.find? v = some t → b'.find? v = some t

theorem Extends.refl (b : Bindings) : b.Extends b := fun _ _ h => h

theorem Extends.trans (h : b.Extends b') (h' : b'.Extends b'') : b.Extends b'' :=
  fun v t hv => h' v t (h v t hv)

/-- Binding an unbound variable changes no binding. -/
theorem Extends.bind (hv : b.find? v = none) (t : Ty) : b.Extends (b.bind v t) := by
  intro w u hw
  by_cases ht : t = .var v
  · subst ht; rwa [bind_self]
  · rw [find?_bind b w ht, if_neg]
    · exact hw
    · rintro rfl; rw [hv] at hw; exact absurd hw (by simp)

/-- What is bound after a variable was bound: that variable, or what was bound before. -/
theorem find?_bind_cases {u : Ty} (h : (b.bind v t).find? w = some u) :
    (w = v ∧ u = t) ∨ b.find? w = some u := by
  by_cases ht : t = .var v
  · subst ht; rw [bind_self] at h; exact Or.inr h
  · rw [find?_bind b w ht] at h
    by_cases hw : w = v
    · rw [if_pos hw] at h; exact Or.inl ⟨hw, (Option.some.inj h).symm⟩
    · rw [if_neg hw] at h; exact Or.inr h

/-- What is bound after a variable was forgotten was bound before, and is another variable. -/
theorem find?_erase_some {u : Ty} (h : (b.erase v).find? w = some u) :
    w ≠ v ∧ b.find? w = some u := by
  rw [find?_erase] at h
  by_cases hw : w = v
  · rw [if_pos hw] at h; exact absurd h (by simp)
  · rw [if_neg hw] at h; exact ⟨hw, h⟩

/-- Erasing a variable only takes bindings away. -/
theorem Extends.erase (b : Bindings) (v : Nat) : (b.erase v).Extends b :=
  fun _ _ h => (find?_erase_some h).2

/-- Forgetting a bound variable leaves fewer entries. -/
theorem length_erase_lt (h : b.find? v = some t) :
    (b.erase v).entries.length < b.entries.length := by
  obtain ⟨entries⟩ := b
  induction entries with
  | nil => exact absurd h (by simp [find?])
  | cons entry others ih =>
    obtain ⟨u, s⟩ := entry
    have hle := List.length_filter_le (fun entry : Nat × Ty => entry.1 != v) others
    by_cases hu : u = v
    · simp only [erase, List.filter_cons, hu, bne_self_eq_false, Bool.false_eq_true, if_false,
        List.length_cons]
      omega
    · rw [find?_cons, if_neg (Ne.symm hu)] at h
      have hlt := ih h
      simp only [erase] at hlt
      simp only [erase, List.filter_cons, bne_iff_ne, ne_eq, hu, not_false_eq_true, if_true,
        List.length_cons]
      omega

/-! ## Edges -/

/-- The binding of a variable is a bare variable. -/
def Next (b : Bindings) (v w : Nat) : Prop := b.find? v = some (.var w)

/-- A variable occurs in the binding of another. -/
def Points (b : Bindings) (v w : Nat) : Prop := ∃ t, b.find? v = some t ∧ w ∈ t.vars

/-- No chain of variable-to-variable bindings comes back to where it started. -/
def ChainsEnd (b : Bindings) : Prop := ∀ v, ¬ TransGen b.Next v v

/-- No variable reaches itself through its binding. -/
def Acyclic (b : Bindings) : Prop := ∀ v, ¬ TransGen b.Points v v

theorem Next.points (h : b.Next v w) : b.Points v w := ⟨.var w, h, by simp [Ty.vars]⟩

theorem Next.mono (h : b.Extends b') (hvw : b.Next v w) : b'.Next v w := h _ _ hvw

theorem Points.mono (h : b.Extends b') (hvw : b.Points v w) : b'.Points v w := by
  obtain ⟨t, ht, hw⟩ := hvw
  exact ⟨t, h _ _ ht, hw⟩

/-- Nothing leads on from an unbound variable. -/
theorem not_points_of_find?_eq_none (h : b.find? v = none) : ¬ b.Points v w := by
  rintro ⟨t, ht, _⟩
  rw [h] at ht; exact absurd ht (by simp)

/-- Nothing but itself can be reached from an unbound variable. -/
theorem eq_of_reaches_of_unbound (h : b.find? v = none) (hvw : ReflTransGen b.Points v w) :
    w = v := by
  rcases ReflTransGen.cases_head hvw with rfl | ⟨u, hvu, _⟩
  · rfl
  · exact absurd hvu (not_points_of_find?_eq_none h)

/-! ## The two conditions -/

/-- A cycle of variables alone is a cycle, too. -/
theorem Acyclic.chainsEnd (h : b.Acyclic) : b.ChainsEnd :=
  fun v hv => h v (TransGen.mono (fun _ _ => Next.points) _ _ hv)

theorem ChainsEnd.anti (h : b.Extends b') (h' : b'.ChainsEnd) : b.ChainsEnd :=
  fun v hv => h' v (TransGen.mono (fun _ _ => Next.mono h) _ _ hv)

/-- A cycle stays one, whatever is bound later. -/
theorem Acyclic.anti (h : b.Extends b') (h' : b'.Acyclic) : b.Acyclic :=
  fun v hv => h' v (TransGen.mono (fun _ _ => Points.mono h) _ _ hv)

theorem acyclic_empty : empty.Acyclic := by
  intro v hv
  obtain ⟨w, hvw, _⟩ := TransGen.head'_iff.mp hv
  exact not_points_of_find?_eq_none (find?_empty v) hvw

/-- Chains still end after a variable was bound to a type that is no bound variable. -/
theorem ChainsEnd.bind (hb : b.ChainsEnd) (ht : ∀ w, t = .var w → b.find? w = none) :
    (b.bind v t).ChainsEnd := by
  by_cases htv : t = .var v
  · subst htv; rwa [bind_self]
  refine acyclic_of_redirect (v := v) (S := fun w => t = .var w) hb ?_ ?_
  · intro w hw hwv
    have hvw : v = w := eq_of_reaches_of_unbound (ht w hw)
      (ReflTransGen.mono (fun _ _ => Next.points) _ _ hwv)
    exact htv (hvw ▸ hw)
  · intro x y hxy
    rcases find?_bind_cases hxy with ⟨hx, hy⟩ | hold
    · exact Or.inl ⟨hx, hy.symm⟩
    · exact Or.inr hold

/-- Bindings stay acyclic if a variable is bound to a type that does not lead to it. -/
theorem Acyclic.bind (hb : b.Acyclic) (ht : ∀ w ∈ t.vars, ¬ ReflTransGen b.Points w v) :
    (b.bind v t).Acyclic := by
  refine acyclic_of_redirect (v := v) (S := fun w => w ∈ t.vars) hb ht ?_
  rintro x y ⟨u, hu, hy⟩
  rcases find?_bind_cases hu with ⟨hx, rfl⟩ | hold
  · exact Or.inl ⟨hx, hy⟩
  · exact Or.inr ⟨u, hold, hy⟩

/-- Bindings stay acyclic if a variable is bound to a type of other variables, all of them unbound. -/
theorem Acyclic.bind_of_unbound (hb : b.Acyclic) (ht : ∀ w ∈ t.vars, w ≠ v ∧ b.find? w = none) :
    (b.bind v t).Acyclic := by
  refine hb.bind fun w hw hpath => ?_
  obtain ⟨hwv, hunbound⟩ := ht w hw
  exact hwv (eq_of_reaches_of_unbound hunbound hpath).symm

end Bindings

end Monotype
