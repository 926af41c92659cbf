import Monotype.Proofs.Bindings.Descent

/-!
# `Monotype.Proofs.Bindings.Shift` — bindings on top of others

Variables are handed out in order, so what is found out about them after some were handed out before is
about higher variables. Here such bindings are put on top of older ones: each variable of the new ones is
moved up, above all that the older ones bind. Types that were moved up in the same way read there as they
did without the older bindings. Each of the three readings has a bound that grows with the bindings, and
a higher bound makes no difference where the reading ends.

## Contents
- **`Ty.shift`**: a type with all variables moved up.
- **`Bindings.Under`**, **`Bindings.above`**: older bindings, and new ones on top of them.
- **`resolve?_above`**, **`zonk_above`**, **`occurs?_above`**: the three readings there.
-/

namespace Monotype

/-! ## Types -/

namespace Ty

/-- A type with all variables moved up. -/
def shift (k : Nat) (t : Ty) : Ty := t.subst fun v => .var (v + k)

variable {k : Nat}

@[simp] theorem shift_var (v : Nat) : (var v).shift k = .var (v + k) := rfl

@[simp] theorem shift_base (name : String) : (base name).shift k = .base name := rfl

@[simp] theorem shift_arrow (a c : Ty) : (arrow a c).shift k = .arrow (a.shift k) (c.shift k) := rfl

@[simp] theorem isVar_shift (t : Ty) : (t.shift k).isVar = t.isVar := by cases t <;> rfl

/-- Moving variables up changes no size, on which the bounds depend. -/
theorem size_shift (t : Ty) : (t.shift k).size = t.size := by
  induction t with
  | var v => rfl
  | base name => rfl
  | arrow a c iha ihc => simp only [shift_arrow, size, iha, ihc]

theorem subst_shift (θ : Nat → Ty) (t : Ty) : (t.shift k).subst θ = t.subst fun v => θ (v + k) :=
  subst_subst _ θ t

/-- Moving a substituted type up moves up what stands for its variables. -/
theorem shift_subst (θ : Nat → Ty) (t : Ty) :
    (t.subst θ).shift k = t.subst fun v => (θ v).shift k :=
  subst_subst θ _ t

theorem totalSize_map_shift (types : List Ty) : totalSize (types.map (shift k)) = totalSize types := by
  induction types with
  | nil => rfl
  | cons t others ih => rw [List.map_cons, totalSize, totalSize, size_shift, ih]

end Ty

namespace Bindings

/-! ## Bindings on top of others -/

/-- Only variables below a count are bound. -/
def Under (old : Bindings) (k : Nat) : Prop := ∀ v, k ≤ v → old.find? v = none

/-- Bindings moved up, on top of older ones. -/
def above (b : Bindings) (k : Nat) (old : Bindings) : Bindings :=
  ⟨b.entries.map (fun entry => (entry.1 + k, entry.2.shift k)) ++ old.entries⟩

variable {k v n : Nat} {old b : Bindings} {t : Ty}

@[simp] theorem above_empty : empty.above k old = old := rfl

/-- Older bindings bind only variables that lie below the new ones. -/
theorem Under.lt_of_mem (hold : old.Under k) {entry : Nat × Ty} (h : entry ∈ old.entries) :
    entry.1 < k := by
  by_contra hle
  have hnone := hold entry.1 (Nat.le_of_not_lt hle)
  rw [find?, List.lookup_eq_none_iff] at hnone
  exact absurd (hnone entry h) (by simp)

/-- What is bound on top is bound as it was, moved up. -/
theorem find?_above_add (hold : old.Under k) (b : Bindings) (v : Nat) :
    (b.above k old).find? (v + k) = (b.find? v).map (Ty.shift k) := by
  obtain ⟨entries⟩ := b
  induction entries with
  | nil => exact hold (v + k) (Nat.le_add_left k v)
  | cons entry others ih =>
    show find? ⟨(entry.1 + k, entry.2.shift k) :: _⟩ (v + k) = _
    rw [find?_cons, find?_cons]
    by_cases hv : v = entry.1
    · rw [if_pos hv, if_pos (congrArg (· + k) hv)]
      rfl
    · rw [if_neg hv, if_neg fun h => hv (Nat.add_right_cancel h)]
      exact ih

/-- What was bound before is bound as it was. -/
theorem find?_above_of_lt (b : Bindings) (hv : v < k) : (b.above k old).find? v = old.find? v := by
  obtain ⟨entries⟩ := b
  induction entries with
  | nil => rfl
  | cons entry others ih =>
    show find? ⟨(entry.1 + k, entry.2.shift k) :: _⟩ v = _
    rw [find?_cons, if_neg (by omega)]
    exact ih

/-- Erasing a variable that was moved up erases it among the new bindings; the older ones have none to
erase. -/
theorem erase_above (hold : old.Under k) (b : Bindings) (v : Nat) :
    (b.above k old).erase (v + k) = (b.erase v).above k old := by
  -- no older entry is for a variable that was moved up, and the moved ones keep their order
  have hkept : old.entries.filter (fun entry => entry.1 != v + k) = old.entries := by
    refine List.filter_eq_self.mpr fun entry hentry => ?_
    have hlt := hold.lt_of_mem hentry
    simp only [bne_iff_ne]
    omega
  have hmoved : (b.entries.map fun entry => (entry.1 + k, entry.2.shift k)).filter
      (fun entry => entry.1 != v + k) =
      (b.entries.filter fun entry => entry.1 != v).map
        fun entry => (entry.1 + k, entry.2.shift k) := by
    rw [List.filter_map]
    refine congrArg _ (List.filter_congr fun entry _ => ?_)
    exact Bool.eq_iff_iff.mpr (by simp)
  show Bindings.mk (List.filter _ (_ ++ _)) = _
  rw [List.filter_append, hkept, hmoved]
  rfl

/-- **Binding on top is binding, moved up.** A variable that is bound to itself is not bound, before and
after. -/
theorem bind_above (hold : old.Under k) (b : Bindings) (v : Nat) (t : Ty) :
    (b.above k old).bind (v + k) (t.shift k) = (b.bind v t).above k old := by
  have hself : t.shift k = .var (v + k) ↔ t = .var v := by
    cases t <;> simp
  unfold bind
  rw [erase_above hold]
  by_cases ht : t = .var v
  · rw [if_pos ht, if_pos (hself.mpr ht)]
  · rw [if_neg ht, if_neg fun h => ht (hself.mp h)]
    rfl

theorem length_above (b : Bindings) :
    (b.above k old).entries.length = b.entries.length + old.entries.length := by
  simp [above]

/-- The size of bindings on top of others is that of both together. -/
theorem size_above (b : Bindings) : (b.above k old).size = b.size + old.size := by
  have htypes : (b.above k old).entries.map (·.2) =
      (b.entries.map (·.2)).map (Ty.shift k) ++ old.entries.map (·.2) := by
    simp only [above, List.map_append, List.map_map]
    rfl
  rw [size, htypes, Ty.totalSize_append, Ty.totalSize_map_shift]
  rfl

/-! ## Resolving -/

/-- Resolving a type that was moved up goes the same way in as many steps. -/
theorem resolveWithin_above (hold : old.Under k) (b : Bindings) (steps : Nat) (t : Ty) :
    (b.above k old).resolveWithin steps (t.shift k) =
      (b.resolveWithin steps t).map (Ty.shift k) := by
  fun_induction b.resolveWithin steps t with
  | case1 steps v hv =>
    have hnone : (b.above k old).find? (v + k) = none := by rw [find?_above_add hold, hv]; rfl
    exact resolveWithin_of_unbound steps hnone
  | case2 v t hv =>
    have hsome : (b.above k old).find? (v + k) = some (t.shift k) := by
      rw [find?_above_add hold, hv]; rfl
    simp [resolveWithin, hsome]
  | case3 v t steps hv ih =>
    have hsome : (b.above k old).find? (v + k) = some (t.shift k) := by
      rw [find?_above_add hold, hv]; rfl
    exact (resolveWithin_succ_of_bound steps hsome).trans ih
  | case4 steps t ht =>
    cases t with
    | var v => exact absurd rfl (ht v)
    | base name => simp [resolveWithin]
    | arrow a c => simp [resolveWithin]

/-- Where chains end, more steps make no difference. -/
theorem resolveWithin_eq_resolve? (hb : b.ChainsEnd) (hn : b.entries.length ≤ n) (t : Ty) :
    b.resolveWithin n t = b.resolve? t := by
  obtain ⟨t', ht'⟩ := exists_resolveWithin (t := t) hb hn
  rw [ht', resolve?_of_resolves hb (resolves_of_resolveWithin ht')]

/-- **Types resolve on top as they did**, moved up. The bound is higher there, and that makes no
difference. -/
theorem resolve?_above (hold : old.Under k) (hb : b.ChainsEnd) (t : Ty) :
    (b.above k old).resolve? (t.shift k) = (b.resolve? t).map (Ty.shift k) := by
  rw [resolve?, resolveWithin_above hold, resolveWithin_eq_resolve? hb]
  rw [length_above]
  exact Nat.le_add_right _ _

/-! ## Zonking -/

/-- Zonking a type that was moved up never comes to an older binding. -/
theorem zonkWithin_above (hold : old.Under k) (b : Bindings) (depth : Nat) (t : Ty) :
    zonkWithin depth (b.above k old) (t.shift k) = (zonkWithin depth b t).shift k := by
  induction depth generalizing b t with
  | zero => rfl
  | succ depth ih =>
    rw [zonkWithin, zonkWithin, Ty.subst_shift, Ty.shift_subst]
    refine Ty.subst_congr fun v _ => ?_
    rw [find?_above_add hold, erase_above hold]
    cases b.find? v with
    | none => rfl
    | some u => exact ih (b.erase v) u

/-- **Types zonk on top as they did**, moved up. -/
theorem zonk_above (hold : old.Under k) (b : Bindings) (t : Ty) :
    (b.above k old).zonk (t.shift k) = (b.zonk t).shift k := by
  have hle : b.entries.length ≤ (b.above k old).entries.length := by
    rw [length_above]
    exact Nat.le_add_right _ _
  rw [zonk, zonkWithin_above hold, zonkWithin_congr hle (Nat.le_refl _)]
  rfl

/-! ## The occurs test -/

/-- A variable that was moved up is found in the same depth, or in none. -/
theorem occursWithin_above (hold : old.Under k) (hb : b.ChainsEnd) (v depth : Nat) (t : Ty) :
    (b.above k old).occursWithin (v + k) depth (t.shift k) = b.occursWithin v depth t := by
  induction depth generalizing t with
  | zero => rfl
  | succ depth ih =>
    rw [occursWithin, occursWithin, resolve?_above hold hb]
    cases b.resolve? t with
    | none => rfl
    | some t' =>
      cases t' with
      | var w => exact congrArg some (Bool.eq_iff_iff.mpr (by simp))
      | base name => rfl
      | arrow a c =>
        simp only [Option.map_some, Ty.shift_arrow, ih]

/-- An answer of the occurs test stays the answer in a deeper descent. -/
theorem occursWithin_succ {found : Bool} {depth : Nat}
    (h : b.occursWithin v depth t = some found) : b.occursWithin v (depth + 1) t = some found := by
  induction depth generalizing t found with
  | zero => cases h
  | succ depth ih =>
    rw [occursWithin] at h ⊢
    cases hr : b.resolve? t with
    | none => rw [hr] at h; cases h
    | some t' =>
      rw [hr] at h
      cases t' with
      | var w => exact h
      | base name => exact h
      | arrow a c =>
        -- the codomain is only looked at if the domain has answered that the variable is not there
        simp only at h ⊢
        cases ha : b.occursWithin v depth a with
        | none => rw [ha] at h; cases h
        | some answer =>
          rw [ha] at h
          rw [ih ha]
          cases answer with
          | true => exact h
          | false => exact ih h

theorem occursWithin_of_le {found : Bool} {depth depth' : Nat} (hle : depth ≤ depth')
    (h : b.occursWithin v depth t = some found) : b.occursWithin v depth' t = some found := by
  induction hle with
  | refl => exact h
  | step _ ih => exact occursWithin_succ ih

/-- **The occurs test answers on top as it did**, where bindings are acyclic and so it answers at all. -/
theorem occurs?_above (hold : old.Under k) (hb : b.Acyclic) (v : Nat) (t : Ty) :
    (b.above k old).occurs? (v + k) (t.shift k) = b.occurs? v t := by
  obtain ⟨found, hfound⟩ := exists_occurs? hb.chainsEnd hb.solvedBy_zonk v t
  rw [hfound, occurs?, occursWithin_above hold hb.chainsEnd]
  refine occursWithin_of_le ?_ hfound
  rw [size_above, Ty.size_shift]
  omega

end Bindings

end Monotype
