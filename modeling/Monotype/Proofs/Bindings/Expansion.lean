import Monotype.Proofs.Bindings.Zonk

/-!
# `Monotype.Proofs.Bindings.Expansion` — zonking as a recursion with a guard

Zonking goes down a type and, at every bound variable, on into its binding. What it meets there may be
larger than what it came from, and may lead back to the variable. So the recursion carries the variables
that are being expanded, and leaves one of these alone where it meets it again. `zonk` itself carries no
such list; it forgets the variables instead, and has a bound on the depth. Here the recursion is written
down with its guard and without a bound, as a relation, and `zonk` is what it ends with.

Every variable that is expanded leaves one fewer to expand, and between two of them the type gets smaller.
So the recursion ends, whatever the bindings are. Where they are acyclic the guard never holds: a
variable that is being expanded leads to all that is met inside its binding, but not to itself.

## Contents
- **`Side`**, **`Ty.part?`**: places in types.
- **`Zonks`**, **`Meets`**: how the recursion ends, and what it meets at the places of its result.
- **`zonks_zonk_without`**, **`Zonks.eq_zonk_without`**: the recursion ends, and with what.
- **`zonk_terminates`**: zonking ends on all bindings, and what is left in its result.
- **`Expands`**, **`Acyclic.mem_vars_zonk_iff`**: the recursion without the guard, and what is left.
- **`Acyclic.zonk_full`**: on acyclic bindings nothing bound is left.
-/

namespace Monotype

/-- One of the two parts of an arrow. -/
inductive Side where
  | domain
  | codomain
deriving DecidableEq, Repr

/-- The part of a type at a place: the way to it, by the sides of the arrows that it goes through. -/
def Ty.part? : Ty → List Side → Option Ty
  | t, [] => some t
  | .arrow a _, .domain :: place => a.part? place
  | .arrow _ c, .codomain :: place => c.part? place
  | _, _ :: _ => none

/-- A variable has a part at the empty place only. -/
theorem Ty.part?_var_eq_some {v : Nat} {t : Ty} {place : List Side}
    (h : (var v).part? place = some t) : place = [] ∧ t = .var v := by
  cases place with
  | nil => exact ⟨rfl, (Option.some.inj h).symm⟩
  | cons side place => exact absurd h (by simp [part?])

namespace Bindings

open Relation

variable {b : Bindings} {v : Nat} {t t' u : Ty} {expanding expanding' : List Nat} {place : List Side}

/-! ## The recursion -/

/-- What a type becomes while some variables are being expanded. A bound variable becomes what its
binding becomes while that variable is being expanded too; a variable that is unbound, or is one of
those being expanded, stays. -/
inductive Zonks (b : Bindings) : List Nat → Ty → Ty → Prop
  | base {expanding : List Nat} {name : String} : Zonks b expanding (.base name) (.base name)
  | kept {expanding : List Nat} {v : Nat} (h : b.find? v = none ∨ v ∈ expanding) :
      Zonks b expanding (.var v) (.var v)
  | bound {expanding : List Nat} {v : Nat} {t t' : Ty} (hv : b.find? v = some t)
      (hnew : v ∉ expanding) (ht : Zonks b (v :: expanding) t t') : Zonks b expanding (.var v) t'
  | arrow {expanding : List Nat} {a c a' c' : Ty} (ha : Zonks b expanding a a')
      (hc : Zonks b expanding c c') : Zonks b expanding (.arrow a c) (.arrow a' c')

/-- The recursion on a type, while some variables are being expanded, comes at a place of its result to
another type, while other variables are being expanded. -/
inductive Meets (b : Bindings) : List Nat → Ty → List Side → List Nat → Ty → Prop
  | here {expanding : List Nat} {t : Ty} : Meets b expanding t [] expanding t
  | bound {expanding expanding' : List Nat} {v : Nat} {t t' : Ty} {place : List Side}
      (hv : b.find? v = some t) (hnew : v ∉ expanding)
      (h : Meets b (v :: expanding) t place expanding' t') :
      Meets b expanding (.var v) place expanding' t'
  | domain {expanding expanding' : List Nat} {a c t' : Ty} {place : List Side}
      (h : Meets b expanding a place expanding' t') :
      Meets b expanding (.arrow a c) (.domain :: place) expanding' t'
  | codomain {expanding expanding' : List Nat} {a c t' : Ty} {place : List Side}
      (h : Meets b expanding c place expanding' t') :
      Meets b expanding (.arrow a c) (.codomain :: place) expanding' t'

/-- A variable that the recursion leaves at a place of its result was unbound there, or was being
expanded. -/
theorem Zonks.meets (h : b.Zonks expanding t u) (hplace : u.part? place = some (.var v)) :
    ∃ expanding', b.Meets expanding t place expanding' (.var v) ∧
      (b.find? v = none ∨ v ∈ expanding') := by
  induction h generalizing place with
  | base => cases place <;> exact absurd hplace (by simp [Ty.part?])
  | kept hkept =>
    obtain ⟨rfl, hvar⟩ := Ty.part?_var_eq_some hplace
    cases hvar
    exact ⟨_, .here, hkept⟩
  | bound hv hnew _ ih =>
    obtain ⟨expanding', hmeets, hleft⟩ := ih hplace
    exact ⟨expanding', .bound hv hnew hmeets, hleft⟩
  | arrow _ _ iha ihc =>
    rcases place with _ | ⟨_ | _, place⟩
    · exact absurd hplace (by simp [Ty.part?])
    · obtain ⟨expanding', hmeets, hleft⟩ := iha hplace
      exact ⟨expanding', .domain hmeets, hleft⟩
    · obtain ⟨expanding', hmeets, hleft⟩ := ihc hplace
      exact ⟨expanding', .codomain hmeets, hleft⟩

/-! ## The recursion ends -/

/-- The bindings of all variables but some. -/
def without (b : Bindings) (expanding : List Nat) : Bindings :=
  expanding.foldr (fun v rest => rest.erase v) b

theorem find?_without (b : Bindings) (expanding : List Nat) (v : Nat) :
    (b.without expanding).find? v = if v ∈ expanding then none else b.find? v := by
  induction expanding with
  | nil => rfl
  | cons w expanding ih =>
    show ((b.without expanding).erase w).find? v = _
    rw [find?_erase, ih]
    by_cases hvw : v = w <;> simp [hvw]

theorem find?_without_eq_none_iff :
    (b.without expanding).find? v = none ↔ b.find? v = none ∨ v ∈ expanding := by
  rw [find?_without]
  by_cases hmem : v ∈ expanding <;> simp [hmem]

theorem find?_without_eq_some_iff :
    (b.without expanding).find? v = some t ↔ b.find? v = some t ∧ v ∉ expanding := by
  rw [find?_without]
  by_cases hmem : v ∈ expanding <;> simp [hmem]

/-- **The recursion ends, whatever is bound**, with what zonking makes of the type when the variables that
are being expanded are forgotten. -/
theorem zonks_zonk_without (b : Bindings) (expanding : List Nat) (t : Ty) :
    b.Zonks expanding t ((b.without expanding).zonk t) := by
  -- fewer variables are left to expand inside a binding, and the type is smaller inside an arrow
  induction hn : (b.without expanding).entries.length using Nat.strongRecOn
    generalizing expanding t with
  | ind n ih =>
    induction t with
    | base name => rw [zonk_base]; exact .base
    | arrow a c iha ihc => rw [zonk_arrow]; exact .arrow iha ihc
    | var v =>
      cases hv : (b.without expanding).find? v with
      | none =>
        rw [zonk_var_of_unbound hv]
        exact .kept (find?_without_eq_none_iff.mp hv)
      | some s =>
        obtain ⟨hbound, hnew⟩ := find?_without_eq_some_iff.mp hv
        rw [zonk_var_of_bound hv]
        exact .bound hbound hnew (ih _ (hn ▸ length_erase_lt hv) (v :: expanding) s rfl)

/-- The recursion ends with nothing else. -/
theorem Zonks.eq_zonk_without (h : b.Zonks expanding t u) : u = (b.without expanding).zonk t := by
  induction h with
  | base => rw [zonk_base]
  | kept hkept => rw [zonk_var_of_unbound (find?_without_eq_none_iff.mpr hkept)]
  | bound hv hnew _ ih =>
    rw [zonk_var_of_bound (find?_without_eq_some_iff.mpr ⟨hv, hnew⟩)]
    exact ih
  | arrow _ _ iha ihc => rw [zonk_arrow, iha, ihc]

/-- **Zonking ends on all bindings**, cyclic or not. The recursion ends with the zonked type and with
nothing else; and every variable that is left in it is unbound, or was being expanded at the point where
the recursion met it again. -/
theorem zonk_terminates (b : Bindings) (t : Ty) :
    (∀ u, b.Zonks [] t u ↔ u = b.zonk t) ∧
      ∀ place v, (b.zonk t).part? place = some (.var v) →
        ∃ expanding, b.Meets [] t place expanding (.var v) ∧
          (b.find? v = none ∨ v ∈ expanding) := by
  have hzonks : b.Zonks [] t (b.zonk t) := zonks_zonk_without b [] t
  refine ⟨fun u => ⟨Zonks.eq_zonk_without, ?_⟩, fun place v hplace => hzonks.meets hplace⟩
  rintro rfl
  exact hzonks

/-- Two variables that are bound to each other, and one that is bound to functions from itself. -/
example :
    let b : Bindings := ⟨[(0, .var 1), (1, .var 0), (2, .arrow (.var 2) (.var 0))]⟩
    b.zonk (.var 2) = .arrow (.var 2) (.var 0) ∧ b.zonk (.var 1) = .var 1 := by decide

/-! ## Acyclic bindings -/

/-- What a type becomes when every bound variable is replaced by what its binding becomes. Nothing keeps
this from going on for ever. -/
inductive Expands (b : Bindings) : Ty → Ty → Prop
  | base {name : String} : Expands b (.base name) (.base name)
  | unbound {v : Nat} (hv : b.find? v = none) : Expands b (.var v) (.var v)
  | bound {v : Nat} {t t' : Ty} (hv : b.find? v = some t) (ht : Expands b t t') :
      Expands b (.var v) t'
  | arrow {a c a' c' : Ty} (ha : Expands b a a') (hc : Expands b c c') :
      Expands b (.arrow a c) (.arrow a' c')

/-- On acyclic bindings, what this comes to is the zonked type. -/
theorem Expands.eq_zonk (hb : b.Acyclic) (h : b.Expands t u) : u = b.zonk t := by
  induction h with
  | base => rw [zonk_base]
  | unbound hv => rw [zonk_var_of_unbound hv]
  | bound hv _ ih => rw [hb.zonk_var hv, ih]
  | arrow _ _ iha ihc => rw [zonk_arrow, iha, ihc]

/-- What is left when all bound variables are replaced: the unbound variables that the type leads to. -/
theorem Expands.mem_vars_iff (h : b.Expands t u) :
    v ∈ u.vars ↔ b.find? v = none ∧ ∃ w ∈ t.vars, ReflTransGen b.Points w v := by
  induction h with
  | base => simp [Ty.vars]
  | @unbound w hw =>
    simp only [Ty.vars, List.mem_singleton, exists_eq_left]
    constructor
    · rintro rfl
      exact ⟨hw, .refl⟩
    · rintro ⟨_, hpath⟩
      exact eq_of_reaches_of_unbound hw hpath
  | bound hw _ ih =>
    rw [ih]
    refine and_congr_right fun hv => ?_
    rw [← reaches_iff_of_bound hw hv]
    simp [Ty.vars]
  | arrow _ _ iha ihc =>
    simp only [Ty.vars, List.mem_append, iha, ihc, or_and_right, exists_or, and_or_left]

/-- Only unbound variables are left when all others are replaced. -/
theorem Expands.find?_eq_none (h : b.Expands t u) : ∀ v ∈ u.vars, b.find? v = none :=
  fun _ hv => (h.mem_vars_iff.mp hv).1

/-- Every variable that is being expanded leads to every variable of a type. -/
def LeadTo (b : Bindings) (expanding : List Nat) (t : Ty) : Prop :=
  ∀ w ∈ expanding, ∀ v ∈ t.vars, TransGen b.Points w v

/-- Variables that are being expanded lead into a binding, and so does the variable that is bound. -/
theorem LeadTo.bound (h : b.LeadTo expanding (.var v)) (hv : b.find? v = some t) :
    b.LeadTo (v :: expanding) t := by
  intro w hw x hx
  have hpoints : b.Points v x := ⟨t, hv, hx⟩
  rcases List.mem_cons.mp hw with rfl | hw
  · exact .single hpoints
  · exact (h w hw v (by simp [Ty.vars])).tail hpoints

theorem LeadTo.domain {a c : Ty} (h : b.LeadTo expanding (.arrow a c)) : b.LeadTo expanding a :=
  fun w hw v hv => h w hw v (List.mem_append_left _ hv)

theorem LeadTo.codomain {a c : Ty} (h : b.LeadTo expanding (.arrow a c)) : b.LeadTo expanding c :=
  fun w hw v hv => h w hw v (List.mem_append_right _ hv)

/-- No variable leads to itself, so one that is met is not being expanded. -/
theorem Acyclic.not_mem_of_leadTo (hb : b.Acyclic) (h : b.LeadTo expanding (.var v)) :
    v ∉ expanding :=
  fun hmem => hb v (h v hmem v (by simp [Ty.vars]))

theorem Meets.leadTo (h : b.Meets expanding t place expanding' t') (hlead : b.LeadTo expanding t) :
    b.LeadTo expanding' t' := by
  induction h with
  | here => exact hlead
  | bound hv _ _ ih => exact ih (hlead.bound hv)
  | domain _ ih => exact ih hlead.domain
  | codomain _ ih => exact ih hlead.codomain

/-- On acyclic bindings the guard makes no difference. -/
theorem Zonks.expands (hb : b.Acyclic) (h : b.Zonks expanding t u) (hlead : b.LeadTo expanding t) :
    b.Expands t u := by
  induction h with
  | base => exact .base
  | kept hkept => exact .unbound (hkept.resolve_right (hb.not_mem_of_leadTo hlead))
  | bound hv _ _ ih => exact .bound hv (ih (hlead.bound hv))
  | arrow _ _ iha ihc => exact .arrow (iha hlead.domain) (ihc hlead.codomain)

/-- On acyclic bindings the recursion without the guard ends. -/
theorem Acyclic.expands_zonk (hb : b.Acyclic) (t : Ty) : b.Expands t (b.zonk t) :=
  (zonks_zonk_without b [] t).expands hb fun _ hw => absurd hw (by simp)

/-- The variables of a zonked type are the unbound variables that the type leads to. -/
theorem Acyclic.mem_vars_zonk_iff (hb : b.Acyclic) (t : Ty) :
    v ∈ (b.zonk t).vars ↔ b.find? v = none ∧ ∃ w ∈ t.vars, ReflTransGen b.Points w v :=
  (hb.expands_zonk t).mem_vars_iff

/-- What a type resolves to is an unbound variable exactly if the type zonks to a variable. -/
theorem Acyclic.resolves_unbound_iff (hb : b.Acyclic) (h : b.Resolves t t') :
    (∃ v, t' = .var v ∧ b.find? v = none) ↔ ∃ v, b.zonk t = .var v := by
  rw [← hb.zonk_resolves h]
  cases t' with
  | var v =>
    have hv := h.find?_eq_none
    rw [zonk_var_of_unbound hv]
    exact ⟨fun _ => ⟨v, rfl⟩, fun _ => ⟨v, rfl, hv⟩⟩
  | base name => rw [zonk_base]; simp
  | arrow a c => rw [zonk_arrow]; simp

/-- **Zonking acyclic bindings is full substitution.** No bound variable is left in a zonked type. It is the
type with the zonked binding in place of every variable that is bound, and the one type that replacing
bound variables comes to; the guard against variables that are being expanded never holds. Zonking again
changes nothing. Resolving first changes nothing either, and ends in an unbound variable exactly if the
type zonks to a variable. -/
theorem Acyclic.zonk_full (hb : b.Acyclic) (t : Ty) :
    (∀ v ∈ (b.zonk t).vars, b.find? v = none) ∧
      (b.zonk t = t.subst fun v =>
        match b.find? v with
        | none => .var v
        | some bound => b.zonk bound) ∧
      (∀ u, b.Expands t u ↔ u = b.zonk t) ∧
      (∀ place expanding v, b.Meets [] t place expanding (.var v) → v ∉ expanding) ∧
      b.zonk (b.zonk t) = b.zonk t ∧
      ∃ t', b.resolve? t = some t' ∧ b.zonk t' = b.zonk t ∧
        ((∃ v, t' = .var v ∧ b.find? v = none) ↔ ∃ v, b.zonk t = .var v) := by
  have hlead : b.LeadTo [] t := fun w hw => absurd hw (by simp)
  have hexpands : b.Expands t (b.zonk t) := (zonks_zonk_without b [] t).expands hb hlead
  obtain ⟨t', ht'⟩ := exists_resolve? hb.chainsEnd t
  have hresolves := resolves_of_resolve? ht'
  refine ⟨hexpands.find?_eq_none, ?_, fun u => ⟨Expands.eq_zonk hb, ?_⟩, ?_, hb.zonk_zonk (.refl b) t,
    t', ht', hb.zonk_resolves hresolves, hb.resolves_unbound_iff hresolves⟩
  · rw [zonk_eq_subst]
    refine Ty.subst_congr fun v _ => ?_
    cases hv : b.find? v with
    | none => exact zonk_var_of_unbound hv
    | some bound => exact hb.zonk_var hv
  · rintro rfl
    exact hexpands
  · intro place expanding v hmeets
    exact hb.not_mem_of_leadTo (hmeets.leadTo hlead)

/-- A chain of two variables that ends in an arrow, which holds another bound variable twice. -/
theorem Acyclic.zonk_full_shared :
    let b := ((Bindings.empty.bind 0 (.var 1)).bind 1 (.arrow (.var 2) (.var 2))).bind 2
      (.arrow .int (.var 3))
    let zonked := Ty.arrow (.arrow .int (.var 3)) (.arrow .int (.var 3))
    b.Acyclic ∧ b.zonk (.var 0) = zonked ∧ (∀ v ∈ zonked.vars, b.find? v = none) ∧
      (∀ u, b.Expands (.var 0) u ↔ u = zonked) ∧ b.zonk zonked = zonked ∧
      ∃ t', b.resolve? (.var 0) = some t' ∧ b.zonk t' = zonked ∧
        ((∃ v, t' = .var v ∧ b.find? v = none) ↔ ∃ v, zonked = .var v) := by
  intro b zonked
  have hb : b.Acyclic := by
    refine ((acyclic_empty.bind_of_unbound ?_).bind_of_unbound ?_).bind_of_unbound ?_ <;> decide
  have hzonk : b.zonk (.var 0) = zonked := by decide
  have hfull := Acyclic.zonk_full hb (.var 0)
  rw [hzonk] at hfull
  obtain ⟨hvars, _, hexpands, _, hagain, hresolve⟩ := hfull
  exact ⟨hb, hzonk, hvars, hexpands, hagain, hresolve⟩

end Bindings

end Monotype
