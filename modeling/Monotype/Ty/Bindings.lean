import Monotype.Ty.Basic

/-!
# `Monotype.Ty.Bindings` — what is known of type variables

Bindings map variables to types. The type of a variable may hold bound variables in turn, and nothing
keeps it from holding the variable itself: without the occurs check, bindings may be cyclic.

The three readings of a type deal with that in different ways. To *resolve* a type follows variables
up to the first thing that is no bound variable, and never ends on a cycle of variables. To *zonk* a
type puts bindings in place of variables throughout, and leaves a variable alone inside its own
binding, so it always ends. The *occurs* test resolves at every node, and never ends on some cycles.
The two that may not end have an answer `none` for that. It is found by counting: a chain of more
steps than there are bindings, or a descent of more nodes than all types together have, has come back
to where it was.

## Contents
- **`Bindings`**: `find?`, `erase`, `bind`, `size`, `sorted`.
- **`resolve?`**, **`zonk`**, **`occurs?`**.
-/

namespace Monotype

/-- A map from type variables to types, with one entry for each bound variable. -/
structure Bindings where
  entries : List (Nat × Ty) := []
deriving DecidableEq, Repr

namespace Bindings

/-- Nothing is bound. -/
def empty : Bindings := ⟨[]⟩

/-- The type to which a variable is bound. -/
def find? (b : Bindings) (v : Nat) : Option Ty := b.entries.lookup v

/-- The bindings of all other variables. -/
def erase (b : Bindings) (v : Nat) : Bindings := ⟨b.entries.filter fun entry => entry.1 != v⟩

/-- Bind a variable, in place of what it was bound to. A variable is never bound to itself. -/
def bind (b : Bindings) (v : Nat) (t : Ty) : Bindings :=
  if t = .var v then b else ⟨(v, t) :: (b.erase v).entries⟩

/-- The number of nodes of all types that variables are bound to. -/
def size (b : Bindings) : Nat := Ty.totalSize (b.entries.map (·.2))

/-- All entries, by variable. -/
def sorted (b : Bindings) : List (Nat × Ty) := b.entries.mergeSort fun left right => left.1 ≤ right.1

/-! ## Resolving -/

/-- Follow variables to the first thing that is no bound variable, in no more than some steps. -/
def resolveWithin (b : Bindings) : Nat → Ty → Option Ty
  | steps, .var v =>
    match b.find? v, steps with
    | none, _ => some (.var v)
    | some _, 0 => none
    | some t, steps + 1 => b.resolveWithin steps t
  | _, t => some t

/-- Follow variables to the first thing that is no bound variable; `none` for a cycle. -/
def resolve? (b : Bindings) (t : Ty) : Option Ty := b.resolveWithin b.entries.length t

/-! ## Zonking -/

/-- Put bindings in place of variables, nested no deeper than a bound. -/
def zonkWithin : Nat → Bindings → Ty → Ty
  | 0, _, t => t
  | depth + 1, b, t => t.subst fun v =>
    match b.find? v with
    | none => .var v
    | some bound => zonkWithin depth (b.erase v) bound

/-- Put bindings in place of variables throughout, except a variable inside its own binding. -/
def zonk (b : Bindings) (t : Ty) : Ty := zonkWithin b.entries.length b t

/-! ## The occurs test -/

/-- Whether a variable occurs in what a type stands for, in no deeper a descent than a bound. -/
def occursWithin (b : Bindings) (v : Nat) : Nat → Ty → Option Bool
  | 0, _ => none
  | depth + 1, t =>
    match b.resolve? t with
    | none => none
    | some (.var w) => some (w == v)
    | some (.base _) => some false
    | some (.arrow domain codomain) =>
      match b.occursWithin v depth domain with
      | some false => b.occursWithin v depth codomain
      | answer => answer

/-- Whether a variable occurs in what a type stands for; `none` if the search never ends. -/
def occurs? (b : Bindings) (v : Nat) (t : Ty) : Option Bool :=
  b.occursWithin v (b.size + t.size + 1) t

/-! ## Equations -/

@[simp] theorem find?_empty (v : Nat) : empty.find? v = none := rfl

theorem find?_cons (v w : Nat) (t : Ty) (entries : List (Nat × Ty)) :
    find? ⟨(v, t) :: entries⟩ w = if w = v then some t else find? ⟨entries⟩ w := by
  by_cases h : w = v
  · simp [find?, h]
  · simp [find?, List.lookup_cons, h, beq_eq_false_iff_ne.2 h]

/-- An erased variable is not bound, and every other one is bound as it was. -/
theorem find?_erase (b : Bindings) (v w : Nat) :
    (b.erase v).find? w = if w = v then none else b.find? w := by
  obtain ⟨entries⟩ := b
  induction entries with
  | nil => simp [erase, find?]
  | cons entry others ih =>
    obtain ⟨u, t⟩ := entry
    simp only [erase] at ih ⊢
    by_cases hu : u = v
    · subst hu
      simp only [List.filter_cons, bne_self_eq_false, Bool.false_eq_true, if_false]
      rw [ih, find?_cons]
      by_cases hw : w = u <;> simp [hw]
    · simp only [List.filter_cons, bne_iff_ne, ne_eq, hu, not_false_eq_true, if_true]
      rw [find?_cons, find?_cons, ih]
      by_cases hw : w = u
      · subst hw; simp [hu]
      · simp [hw]

/-- A variable that was bound has its new type, and every other one what it had. -/
@[simp] theorem find?_bind (b : Bindings) {v : Nat} {t : Ty} (w : Nat) (h : t ≠ .var v) :
    (b.bind v t).find? w = if w = v then some t else b.find? w := by
  rw [bind, if_neg h, find?_cons]
  by_cases hw : w = v
  · simp [hw]
  · have := find?_erase b v w
    simp_all [erase]

@[simp] theorem bind_self (b : Bindings) (v : Nat) : b.bind v (.var v) = b := by simp [bind]

end Bindings

end Monotype
