import Monotype.Proofs.Bindings.Solution
import Monotype.Proofs.Typing.Lexical
import Monotype.Proofs.Unify.Invariant

/-!
# `Monotype.Proofs.Typing.Invariant` — what inference keeps

A step of inference hands out a variable or unifies two types. So what unification keeps of bindings,
inference keeps too: every binding, and with the occurs check acyclicity.

Variables are handed out in order, and nothing mentions a variable that was not handed out. So what is
put in place of a variable that is handed out next changes nothing that was there before.

## Contents
- **`Lexical.derives_of_unify`**: unification in a store is a derivation.
- **`Lexical.kept_extends`**, **`Lexical.kept_acyclic`**.
- **`Ty.Below`**, **`Context.Below`**, **`Store.Fresh`**: only variables that were handed out.
- **`AgreeBelow`**: substitutions that agree on the variables handed out so far.
-/

namespace Monotype

variable {strict : Bool} {left right t : Ty} {s s' : Store} {n m : Nat} {θ θ' θ'' : Nat → Ty}

/-! ## Bindings -/

namespace Lexical

/-- Unification in a store is a derivation on its bindings, and hands out no variable. -/
theorem derives_of_unify (h : (unify strict left right s).state? = some s') :
    ∃ o, Unifier.Derives strict left right s.bindings o ∧ o.state? = some s'.bindings ∧
      s'.allocated = s.allocated := by
  rw [unify, Outcome.state?_mapState, Outcome.state?_mapError, Option.map_eq_some_iff] at h
  obtain ⟨b', hb', rfl⟩ := h
  exact ⟨_, Unifier.derives_unify rfl (Outcome.ends_of_state? hb'), hb', rfl⟩

/-- Unification in a store that succeeds is unification of its bindings. -/
theorem unify_eq_ok (h : unify strict left right s = .ok () s') :
    Unifier.unify strict left right s.bindings = .ok () s'.bindings := by
  unfold unify at h
  cases ho : Unifier.unify strict left right s.bindings with
  | ok value b => rw [ho] at h; cases h; rfl
  | error e b => rw [ho] at h; exact absurd h (by simp [Outcome.mapError, Outcome.mapState])
  | endless => rw [ho] at h; exact absurd h (by simp [Outcome.mapError, Outcome.mapState])

/-- What unification keeps of bindings, every step of inference keeps. -/
theorem kept_of_unifier {R : Bindings → Bindings → Prop} (hR : Unifier.Kept strict R) :
    Kept strict fun s s' => R s.bindings s'.bindings where
  refl s := hR.refl s.bindings
  trans := hR.trans
  fresh s s' h := by
    cases h
    exact hR.refl s.bindings
  unify left right s s' h := by
    obtain ⟨o, hder, ho, _⟩ := derives_of_unify h
    exact hR.derives hder ho

/-- Inference keeps all bindings. -/
theorem kept_extends (strict : Bool) : Kept strict fun s s' => s.bindings.Extends s'.bindings :=
  kept_of_unifier (Unifier.kept_extends strict)

/-- With the occurs check, acyclic bindings are acyclic after inference. -/
theorem kept_acyclic : Kept true fun s s' => s.bindings.Acyclic → s'.bindings.Acyclic :=
  kept_of_unifier Unifier.kept_acyclic

end Lexical

/-! ## Variables that were handed out -/

/-- All variables of a type are below a count. -/
def Ty.Below (n : Nat) (t : Ty) : Prop := ∀ v ∈ t.vars, v < n

namespace Ty

theorem below_var {v : Nat} : (var v).Below n ↔ v < n := by simp [Below, vars]

theorem below_base (name : String) : (base name).Below n := fun v hv => absurd hv (by simp [vars])

theorem below_arrow {a c : Ty} : (arrow a c).Below n ↔ a.Below n ∧ c.Below n := by
  simp only [Below, vars, List.mem_append]
  exact ⟨fun h => ⟨fun v hv => h v (.inl hv), fun v hv => h v (.inr hv)⟩,
    fun h v hv => hv.elim (h.1 v) (h.2 v)⟩

/-- A curried type mentions what its parameters and its result mention. -/
theorem below_curried {params : List Ty} {result : Ty} :
    (curried params result).Below n ↔ (∀ param ∈ params, param.Below n) ∧ result.Below n := by
  induction params with
  | nil => simp
  | cons param others ih => rw [curried_cons, below_arrow, ih, List.forall_mem_cons, and_assoc]

theorem Below.mono (hnm : n ≤ m) (h : t.Below n) : t.Below m :=
  fun v hv => Nat.lt_of_lt_of_le (h v hv) hnm

/-- The parts of a type mention no other variables. -/
theorem partClosed_below (n : Nat) : PartClosed (Below n) := fun _ _ h => below_arrow.mp h

end Ty

namespace Context

variable {Γ : Context}

/-- All variables of the types in scope are below a count. -/
def Below (n : Nat) (Γ : Context) : Prop := ∀ name t, Γ name = some t → t.Below n

theorem Below.mono (hnm : n ≤ m) (h : Γ.Below n) : Γ.Below m :=
  fun name t hname => (h name t hname).mono hnm

theorem Below.bind (h : Γ.Below n) (ht : t.Below n) (name : String) : (Γ.bind name t).Below n := by
  intro other u hother
  rw [bind_apply] at hother
  split at hother
  · cases hother
    exact ht
  · exact h other u hother

theorem Below.bindAll {entries : List (String × Ty)} (h : Γ.Below n)
    (hentries : ∀ entry ∈ entries, entry.2.Below n) : (Γ.bindAll entries).Below n := by
  induction entries generalizing Γ with
  | nil => exact h
  | cons entry others ih =>
    rw [List.forall_mem_cons] at hentries
    exact ih (h.bind hentries.1 entry.1) hentries.2

end Context

/-- The bindings of a store mention only variables that were handed out. -/
def Store.Fresh (s : Store) : Prop := s.bindings.Within (Ty.Below s.allocated)

/-- Handing out variables binds none of them. -/
theorem Store.Fresh.allocate (h : s.Fresh) (count : Nat) :
    Store.Fresh { s with allocated := s.allocated + count } := by
  intro v t hv
  obtain ⟨hvar, ht⟩ := h v t hv
  exact ⟨hvar.mono (Nat.le_add_right _ _), ht.mono (Nat.le_add_right _ _)⟩

/-- Unifying types of handed out variables binds no other ones, on success and on failure. -/
theorem Store.Fresh.unify (h : s.Fresh) (hleft : left.Below s.allocated)
    (hright : right.Below s.allocated)
    (hunify : (Lexical.unify strict left right s).state? = some s') : s'.Fresh := by
  obtain ⟨o, hder, ho, hallocated⟩ := Lexical.derives_of_unify hunify
  rw [Store.Fresh, hallocated]
  exact hder.within (Ty.partClosed_below _) ho h hleft hright

/-! ## Substitutions that agree -/

/-- Two substitutions are the same on all variables below a count. -/
def AgreeBelow (n : Nat) (θ θ' : Nat → Ty) : Prop := ∀ v, v < n → θ' v = θ v

theorem AgreeBelow.refl (n : Nat) (θ : Nat → Ty) : AgreeBelow n θ θ := fun _ _ => rfl

/-- Substitutions that are changed twice, each time for later variables only, agree on the earlier ones. -/
theorem AgreeBelow.trans (hnm : n ≤ m) (h : AgreeBelow n θ θ') (h' : AgreeBelow m θ' θ'') :
    AgreeBelow n θ θ'' :=
  fun v hv => (h' v (Nat.lt_of_lt_of_le hv hnm)).trans (h v hv)

/-- **A type of variables that were handed out does not see what is put in place of later ones.** -/
theorem Ty.Below.subst_eq (h : t.Below n) (hagree : AgreeBelow n θ θ') : t.subst θ' = t.subst θ :=
  Ty.subst_congr fun v hv => hagree v (h v hv)

/-- Anything can be put in place of variables that are handed out next. -/
theorem exists_agreeBelow (n : Nat) (θ : Nat → Ty) (types : List Ty) :
    ∃ θ', AgreeBelow n θ θ' ∧
      ((List.range' n types.length).map Ty.var).map (Ty.subst θ') = types := by
  induction types generalizing n θ with
  | nil => exact ⟨θ, .refl n θ, rfl⟩
  | cons t others ih =>
    obtain ⟨θ', hagree, hothers⟩ := ih (n + 1) fun v => if v = n then t else θ v
    refine ⟨θ', fun v hv => ?_, ?_⟩
    · rw [hagree v (by omega)]
      exact if_neg (by omega)
    · have hn : θ' n = t := (hagree n (Nat.lt_succ_self n)).trans (if_pos rfl)
      rw [List.length_cons, List.range'_succ, List.map_cons, List.map_cons, hothers, Ty.subst, hn]

/-- Solutions are solutions still after variables were changed that nothing mentions. -/
theorem Store.Fresh.solvedBy (h : s.Fresh) (hagree : AgreeBelow s.allocated θ θ')
    (hθ : s.bindings.SolvedBy θ) : s.bindings.SolvedBy θ' := by
  intro v t hv
  obtain ⟨hvar, ht⟩ := h v t hv
  rw [hagree v (Ty.below_var.mp hvar), ht.subst_eq hagree]
  exact hθ v t hv

end Monotype
