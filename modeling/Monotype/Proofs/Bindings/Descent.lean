import Mathlib.Data.Finset.Card
import Monotype.Proofs.Bindings.Zonk

/-!
# `Monotype.Proofs.Bindings.Descent` — how deep a descent can go

The occurs test and unification go down from a type into the parts of what it resolves to. The parts
all come from a finite stock: the types of the bindings and of the call, taken apart. Under a solution
every step down leads to a smaller type, so no type of the stock is met twice, and the descent is no
deeper than the stock has types (`rank`). The solution only measures the descent; nothing is said
about its own size.

## Contents
- **`Ty.parts`**, **`Bindings.stock`**: the types that a descent can meet.
- **`rank`**: the types of the stock that are no larger than a type, under a solution.
- **`exists_occurs?`**: the bound of the occurs test is high enough.
-/

namespace Monotype

/-- The nodes of a type, each as the type below it. -/
def Ty.parts : Ty → List Ty
  | .var v => [.var v]
  | .base name => [.base name]
  | .arrow a c => .arrow a c :: (a.parts ++ c.parts)

theorem Ty.mem_parts_self (t : Ty) : t ∈ t.parts := by cases t <;> simp [parts]

theorem Ty.length_parts (t : Ty) : t.parts.length = t.size := by
  induction t with
  | var v => rfl
  | base name => rfl
  | arrow a c iha ihc => simp [parts, size, iha, ihc]

theorem Ty.length_flatMap_parts (types : List Ty) :
    (types.flatMap Ty.parts).length = Ty.totalSize types := by
  induction types with
  | nil => rfl
  | cons t others ih => rw [List.flatMap_cons, List.length_append, ih, length_parts, totalSize]

/-- The parts of a part are parts. -/
theorem Ty.arrow_mem_parts {t a c : Ty} (h : .arrow a c ∈ t.parts) :
    a ∈ t.parts ∧ c ∈ t.parts := by
  induction t with
  | var v => exact absurd h (by simp [parts])
  | base name => exact absurd h (by simp [parts])
  | arrow a' c' iha ihc =>
    simp only [parts, List.mem_cons, List.mem_append] at h ⊢
    rcases h with heq | h | h
    · cases heq
      exact ⟨.inr (.inl a.mem_parts_self), .inr (.inr c.mem_parts_self)⟩
    · exact ⟨.inr (.inl (iha h).1), .inr (.inl (iha h).2)⟩
    · exact ⟨.inr (.inr (ihc h).1), .inr (.inr (ihc h).2)⟩

namespace Bindings

variable {b : Bindings} {θ : Nat → Ty} {t u : Ty}

/-- The types of all entries and of a list, taken apart. -/
def stock (b : Bindings) (types : List Ty) : Finset Ty :=
  ((b.entries.map (·.2) ++ types).flatMap Ty.parts).toFinset

/-- The stock is no larger than the bound that the descent is given. -/
theorem card_stock_le (b : Bindings) (types : List Ty) :
    (b.stock types).card ≤ b.size + Ty.totalSize types := by
  refine (List.toFinset_card_le _).trans ?_
  rw [Ty.length_flatMap_parts, Ty.totalSize_append]
  exact Nat.le_refl _

theorem mem_stock_of_mem {types : List Ty} (ht : t ∈ types) : t ∈ b.stock types := by
  rw [stock, List.mem_toFinset, List.mem_flatMap]
  exact ⟨t, List.mem_append_right _ ht, t.mem_parts_self⟩

/-- **A descent never leaves the stock**: with an arrow it holds both of its parts. -/
theorem arrow_mem_stock {types : List Ty} {a c : Ty} (h : .arrow a c ∈ b.stock types) :
    a ∈ b.stock types ∧ c ∈ b.stock types := by
  simp only [stock, List.mem_toFinset, List.mem_flatMap] at h ⊢
  obtain ⟨u, hu, hpart⟩ := h
  exact ⟨⟨u, hu, (Ty.arrow_mem_parts hpart).1⟩, ⟨u, hu, (Ty.arrow_mem_parts hpart).2⟩⟩

/-- The binding of a variable is one of the entries. -/
theorem find?_mem_stock {types : List Ty} {v : Nat} (hv : b.find? v = some t) :
    t ∈ b.stock types := by
  obtain ⟨before, after, hentries, _⟩ := List.lookup_eq_some_iff.mp hv
  have hmem : t ∈ b.entries.map (·.2) := by
    rw [hentries]
    simp
  rw [stock, List.mem_toFinset, List.mem_flatMap]
  exact ⟨t, List.mem_append_left _ hmem, t.mem_parts_self⟩

/-- A type that is in the stock if it can be taken apart. -/
def Stocked (stock : Finset Ty) (t : Ty) : Prop := t.isArrow = true → t ∈ stock

/-- What bindings lead to is in the stock, if it can be taken apart. -/
theorem within_stocked (b : Bindings) (types : List Ty) : b.Within (Stocked (b.stock types)) :=
  fun _ _ hv => ⟨fun h => absurd h (by simp [Ty.isArrow]), fun _ => find?_mem_stock hv⟩

theorem partClosed_stocked (b : Bindings) (types : List Ty) :
    PartClosed (Stocked (b.stock types)) := by
  intro a c h
  have hparts := arrow_mem_stock (h rfl)
  exact ⟨fun _ => hparts.1, fun _ => hparts.2⟩

/-! ## The measure -/

/-- How many types of the stock are no larger than a type, under a substitution. -/
def rank (θ : Nat → Ty) (stock : Finset Ty) (t : Ty) : Nat :=
  (stock.filter fun u => (u.subst θ).size ≤ (t.subst θ).size).card

theorem rank_le_card (θ : Nat → Ty) (stock : Finset Ty) (t : Ty) : rank θ stock t ≤ stock.card :=
  Finset.card_filter_le _ _

/-- A type that is smaller than one of the stock has a smaller rank. -/
theorem rank_lt {stock : Finset Ty} (hu : u ∈ stock) (ht : (t.subst θ).size < (u.subst θ).size) :
    rank θ stock t < rank θ stock u := by
  refine Finset.card_lt_card (Finset.ssubset_iff_of_subset ?_ |>.mpr ⟨u, ?_, ?_⟩)
  · intro x hx
    rw [Finset.mem_filter] at hx ⊢
    exact ⟨hx.1, by omega⟩
  · exact Finset.mem_filter.mpr ⟨hu, Nat.le_refl _⟩
  · rw [Finset.mem_filter]
    rintro ⟨_, hle⟩
    omega

/-- A type and what it resolves to have the same rank, since a solution makes them equal. -/
theorem rank_congr (stock : Finset Ty) (h : t.subst θ = u.subst θ) :
    rank θ stock t = rank θ stock u := by
  rw [rank, rank, h]

/-- Both parts of what a type resolves to have a smaller rank than the type. -/
theorem SolvedBy.rank_parts_lt {stock : Finset Ty} {a c : Ty} (hθ : b.SolvedBy θ)
    (hr : b.Resolves t (.arrow a c)) (hmem : .arrow a c ∈ stock) :
    rank θ stock a < rank θ stock t ∧ rank θ stock c < rank θ stock t := by
  rw [← rank_congr stock (hθ.subst_resolves hr)]
  constructor
  · refine rank_lt hmem ?_
    have := (c.subst θ).size_pos
    simp only [Ty.subst, Ty.size]; omega
  · refine rank_lt hmem ?_
    have := (a.subst θ).size_pos
    simp only [Ty.subst, Ty.size]; omega

/-! ## The occurs test -/

/-- **The occurs test answers in any depth above the rank of a type**: what it goes on to has a smaller
rank. -/
theorem exists_occursWithin {v depth : Nat} {stock : Finset Ty} (hb : b.ChainsEnd)
    (hθ : b.SolvedBy θ) (hparts : PartClosed (Stocked stock)) (hstock : b.Within (Stocked stock))
    (ht : Stocked stock t) (hdepth : rank θ stock t < depth) :
    ∃ answer, b.occursWithin v depth t = some answer := by
  induction depth generalizing t with
  | zero => omega
  | succ depth ih =>
    obtain ⟨t', hr⟩ := exists_resolve? hb t
    have hres := resolves_of_resolve? hr
    rw [occursWithin, hr]
    cases t' with
    | var w => exact ⟨_, rfl⟩
    | base name => exact ⟨_, rfl⟩
    | arrow a c =>
      have hstock' := hstock.resolves ht hres
      have hlt := hθ.rank_parts_lt hres (hstock' rfl)
      have hac := hparts a c hstock'
      obtain ⟨found, ha⟩ := ih hac.1 (by omega)
      simp only [ha]
      cases found with
      | true => exact ⟨_, rfl⟩
      | false => exact ih hac.2 (by omega)

/-- **The occurs test ends** under bindings that have a solution and chains that end. -/
theorem exists_occurs? (hb : b.ChainsEnd) (hθ : b.SolvedBy θ) (v : Nat) (t : Ty) :
    ∃ answer, b.occurs? v t = some answer := by
  have hcard := card_stock_le b [t]
  have hrank := rank_le_card θ (b.stock [t]) t
  simp only [Ty.totalSize] at hcard
  exact exists_occursWithin hb hθ (partClosed_stocked b [t]) (within_stocked b [t])
    (fun _ => mem_stock_of_mem (by simp)) (by omega)

end Bindings

end Monotype
