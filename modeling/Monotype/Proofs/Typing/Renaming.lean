import Mathlib.Data.List.Nodup
import Mathlib.Logic.Equiv.Basic
import Monotype.Typing.Check

/-!
# `Monotype.Proofs.Typing.Renaming` — signatures up to the names of their variables

Most general types are settled only up to the names of their variables. So two lists of signatures are
compared by substitution: if each of them is an instance of the other, they are equal up to a renaming.
For then the first substitution sends the variables that occur to variables, since the second one brings
them back, and different ones to different ones. Only finitely many variables occur, so that such a map
is part of a permutation of all variables.

## Contents
- **`Ty.rename`**, **`Signature.subst`**, **`Signature.rename`**.
- **`Ty.exists_rename`**, **`Signature.exists_rename`**: instances of each other are renamings.
- **`Signature.exists_rename_of_perm`**: the same for lists in different orders, if no name occurs twice.
-/

namespace Monotype

/-! ## Substitution and renaming -/

/-- A type with its variables renamed. -/
def Ty.rename (ρ : Equiv.Perm Nat) (t : Ty) : Ty := t.subst fun v => .var (ρ v)

namespace Signature

/-- A signature with types in place of variables. -/
def subst (θ : Nat → Ty) (signature : Signature) : Signature :=
  { signature with ty := signature.ty.subst θ }

/-- A signature with its variables renamed. -/
def rename (ρ : Equiv.Perm Nat) (signature : Signature) : Signature :=
  { signature with ty := signature.ty.rename ρ }

theorem map_name_map_subst (θ : Nat → Ty) (signatures : List Signature) :
    (signatures.map (subst θ)).map name = signatures.map name := by
  rw [List.map_map]
  rfl

end Signature

/-! ## Instances of each other -/

/-- A map that tells some members of a list apart is on them a permutation of everything. -/
theorem exists_perm_eqOn {f : Nat → Nat} {vs : List Nat}
    (hf : ∀ v ∈ vs, ∀ w ∈ vs, f v = f w → v = w) : ∃ ρ : Equiv.Perm Nat, ∀ v ∈ vs, ρ v = f v := by
  induction vs with
  | nil => exact ⟨.refl Nat, fun v hv => absurd hv (by simp)⟩
  | cons v vs ih =>
    obtain ⟨ρ, hρ⟩ := ih fun w hw w' hw' =>
      hf w (List.mem_cons_of_mem v hw) w' (List.mem_cons_of_mem v hw')
    -- what `v` went to so far and what it should go to change places
    refine ⟨ρ.trans (Equiv.swap (ρ v) (f v)), fun w hw => ?_⟩
    show Equiv.swap (ρ v) (f v) (ρ w) = f w
    by_cases hwv : w = v
    · subst hwv
      exact Equiv.swap_apply_left _ _
    · have hmem : w ∈ vs := (List.mem_cons.mp hw).resolve_left hwv
      have hne : ρ w ≠ ρ v := fun h => hwv (ρ.injective h)
      have hne' : ρ w ≠ f v := fun h => hwv (hf w hw v List.mem_cons_self ((hρ w hmem).symm.trans h))
      rw [Equiv.swap_apply_of_ne_of_ne hne hne', hρ w hmem]

namespace Ty

/-- A substitution that is undone by another one sends variables to variables. -/
theorem subst_eq_var_of_subst_eq {θ θ' : Nat → Ty} :
    ∀ {t : Ty}, (t.subst θ).subst θ' = t → ∀ v ∈ t.vars, ∃ w, θ v = var w ∧ θ' w = var v
  | var v, h, w, hw => by
    obtain rfl : w = v := by simpa [vars] using hw
    cases hθ : θ w with
    | var u =>
      rw [subst, hθ] at h
      exact ⟨u, rfl, h⟩
    | base name => rw [subst, hθ] at h; exact absurd h (by simp [subst])
    | arrow a c => rw [subst, hθ] at h; exact absurd h (by simp [subst])
  | base _, _, w, hw => absurd hw (by simp [vars])
  | arrow a c, h, w, hw => by
    rw [subst, subst, arrow.injEq] at h
    rcases List.mem_append.mp hw with hw | hw
    · exact subst_eq_var_of_subst_eq h.1 w hw
    · exact subst_eq_var_of_subst_eq h.2 w hw

/-- **Types that are instances of each other are equal up to a renaming**, the same for all of them. -/
theorem exists_rename {types : List Ty} {θ θ' : Nat → Ty}
    (h : ∀ t ∈ types, (t.subst θ).subst θ' = t) :
    ∃ ρ : Equiv.Perm Nat, ∀ t ∈ types, t.subst θ = t.rename ρ := by
  have hvars : ∀ v ∈ types.flatMap vars, ∃ w, θ v = var w ∧ θ' w = var v := by
    intro v hv
    obtain ⟨t, ht, hvt⟩ := List.mem_flatMap.mp hv
    exact subst_eq_var_of_subst_eq (h t ht) v hvt
  choose! f hf using hvars
  -- what undoes the substitution tells the variables apart
  have hinj : ∀ v ∈ types.flatMap vars, ∀ w ∈ types.flatMap vars, f v = f w → v = w := by
    intro v hv w hw hvw
    have hback := (hf v hv).2
    rw [hvw, (hf w hw).2] at hback
    exact (var.inj hback).symm
  obtain ⟨ρ, hρ⟩ := exists_perm_eqOn hinj
  refine ⟨ρ, fun t ht => subst_congr fun v hv => ?_⟩
  have hmem : v ∈ types.flatMap vars := List.mem_flatMap.mpr ⟨t, ht, hv⟩
  rw [(hf v hmem).1, hρ v hmem]

end Ty

namespace Signature

variable {signatures signatures' : List Signature} {θ θ' : Nat → Ty}

/-- **Signatures that are instances of each other are equal up to a renaming**, the same for all. -/
theorem exists_rename (h : signatures.map (subst θ) = signatures')
    (h' : signatures'.map (subst θ') = signatures) :
    ∃ ρ : Equiv.Perm Nat, signatures.map (rename ρ) = signatures' := by
  subst h
  have hback : ∀ signature ∈ signatures, (signature.subst θ).subst θ' = signature := by
    rw [List.map_map] at h'
    exact List.map_inj_left.mp (h'.trans signatures.map_id.symm)
  have htypes : ∀ t ∈ signatures.map ty, (t.subst θ).subst θ' = t := by
    intro t ht
    obtain ⟨signature, hmem, rfl⟩ := List.mem_map.mp ht
    exact congrArg ty (hback signature hmem)
  obtain ⟨ρ, hρ⟩ := Ty.exists_rename htypes
  refine ⟨ρ, List.map_congr_left fun signature hmem => ?_⟩
  rw [rename, subst, hρ signature.ty (List.mem_map_of_mem hmem)]

/-- Two orders of the same signatures are one if they have the same names in the same places. -/
theorem eq_of_perm_of_names (hnames : (signatures.map name).Nodup)
    (hperm : signatures.Perm signatures') (h : signatures.map name = signatures'.map name) :
    signatures = signatures' := by
  refine List.ext_getElem hperm.length_eq fun i hi hi' => ?_
  have hname : signatures[i].name = signatures'[i].name := by
    rw [← List.getElem_map name (h := by rwa [List.length_map]), List.getElem_of_eq h,
      List.getElem_map]
  have hmem : signatures'[i] ∈ signatures := hperm.mem_iff.mpr (List.getElem_mem hi')
  exact List.inj_on_of_nodup_map hnames (List.getElem_mem hi) hmem hname

/-- Signatures that are instances of each other in some order are equal up to that and a renaming, if no
name occurs twice. -/
theorem exists_rename_of_perm (hnames : (signatures.map name).Nodup)
    (h : (signatures.map (subst θ)).Perm signatures')
    (h' : (signatures'.map (subst θ')).Perm signatures) :
    ∃ ρ : Equiv.Perm Nat, (signatures.map (rename ρ)).Perm signatures' := by
  -- names stay where they are, so they tell which signature has become which
  have hback : ((signatures.map (subst θ)).map (subst θ')).Perm signatures := (h.map _).trans h'
  have hsame : (signatures.map (subst θ)).map (subst θ') = signatures := by
    refine (eq_of_perm_of_names hnames hback.symm ?_).symm
    rw [map_name_map_subst, map_name_map_subst]
  obtain ⟨ρ, hρ⟩ := exists_rename rfl hsame
  exact ⟨ρ, hρ ▸ h⟩

end Signature

end Monotype
