/-!
# `Monotype.Outcome` — computations over a state that may fail or never end

The reader of tokens and the solver of types have the same shape: they change a state, they may stop
with an error, and a failed computation keeps the changes it made before it failed. Some of them,
run on unsuitable input, would go on for ever; that is an outcome of its own and not an error.

## Contents
- **`Outcome`**: a value, an error or no end, the first two with the state that is left.
- **`Run`**: a computation from a state to an outcome, with its monad and the monad laws.
- **Equations.** What each operation does to a state, as `simp` lemmas (`run_bind`, `run_get`, …).
-/

namespace Monotype

/-- How a computation ends: with a value or an error, in some state, or not at all. -/
inductive Outcome (ε σ α : Type) where
  | ok (value : α) (state : σ)
  | error (reason : ε) (state : σ)
  | endless
deriving Repr, DecidableEq

namespace Outcome

variable {ε ε' σ τ α β : Type}

/-- Go on from a value; an error and the lack of an end stay what they are. -/
def bind : Outcome ε σ α → (α → σ → Outcome ε σ β) → Outcome ε σ β
  | ok a s, next => next a s
  | error e s, _ => error e s
  | endless, _ => endless

/-- See the state that is left as part of a larger one. -/
def mapState (f : σ → τ) : Outcome ε σ α → Outcome ε τ α
  | ok a s => ok a (f s)
  | error e s => error e (f s)
  | endless => endless

/-- Restate an error, in view of the state in which it arose. -/
def mapError (f : ε → σ → ε') : Outcome ε σ α → Outcome ε' σ α
  | ok a s => ok a s
  | error e s => error (f e s) s
  | endless => endless

/-- The state that is left, if the computation ends. -/
def state? : Outcome ε σ α → Option σ
  | ok _ s => some s
  | error _ s => some s
  | endless => none

/-- The computation ends, with a value or an error. -/
def Ends (o : Outcome ε σ α) : Prop := o.state?.isSome

instance (o : Outcome ε σ α) : Decidable o.Ends := inferInstanceAs (Decidable (_ = true))

@[simp] theorem ends_ok {a : α} {s : σ} : (ok a s : Outcome ε σ α).Ends := rfl

@[simp] theorem ends_error {e : ε} {s : σ} : (error e s : Outcome ε σ α).Ends := rfl

@[simp] theorem not_ends_endless : ¬ (endless : Outcome ε σ α).Ends := by simp [Ends, state?]

theorem ends_iff {o : Outcome ε σ α} : o.Ends ↔ o ≠ endless := by cases o <;> simp

theorem ends_of_state? {o : Outcome ε σ α} {s : σ} (h : o.state? = some s) : o.Ends := by
  rw [Ends, h]
  rfl

@[simp] theorem state?_mapState {o : Outcome ε σ α} {f : σ → τ} :
    (o.mapState f).state? = o.state?.map f := by cases o <;> rfl

@[simp] theorem state?_mapError {o : Outcome ε σ α} {f : ε → σ → ε'} :
    (o.mapError f).state? = o.state? := by cases o <;> rfl

@[simp] theorem bind_ok {a : α} {s : σ} {next : α → σ → Outcome ε σ β} :
    (ok a s).bind next = next a s := rfl

@[simp] theorem bind_error {e : ε} {s : σ} {next : α → σ → Outcome ε σ β} :
    (error e s).bind next = error e s := rfl

@[simp] theorem bind_endless {next : α → σ → Outcome ε σ β} :
    (endless : Outcome ε σ α).bind next = endless := rfl

theorem state?_bind_pure {o : Outcome ε σ α} {f : α → β} :
    (o.bind fun a s => .ok (f a) s).state? = o.state? := by cases o <;> rfl

/-- A sequence leaves what its second part leaves, or what its first part leaves with an error. -/
theorem state?_bind_eq_some_iff {o : Outcome ε σ α} {next : α → σ → Outcome ε σ β} {s' : σ} :
    (o.bind next).state? = some s' ↔
      (∃ a s, o = ok a s ∧ (next a s).state? = some s') ∨ ∃ e, o = error e s' := by
  cases o with
  | ok a s =>
    refine ⟨fun h => .inl ⟨a, s, rfl, h⟩, ?_⟩
    rintro (⟨_, _, ⟨⟩, h⟩ | ⟨_, ⟨⟩⟩)
    exact h
  | error e s => simp [state?]
  | endless => simp [state?]

/-- A sequence ends with a value exactly if both of its parts do. -/
theorem bind_eq_ok_iff {o : Outcome ε σ α} {next : α → σ → Outcome ε σ β} {b : β} {s' : σ} :
    o.bind next = ok b s' ↔ ∃ a s, o = ok a s ∧ next a s = ok b s' := by
  constructor
  · intro h
    cases o with
    | ok a s => exact ⟨a, s, rfl, h⟩
    | error e s => exact absurd h (by simp)
    | endless => exact absurd h (by simp)
  · rintro ⟨a, s, rfl, h⟩
    exact h

/-- A sequence ends with an error exactly if its first part does, or its second part does after it. -/
theorem bind_eq_error_iff {o : Outcome ε σ α} {next : α → σ → Outcome ε σ β} {e : ε} {s' : σ} :
    o.bind next = error e s' ↔ o = error e s' ∨ ∃ a s, o = ok a s ∧ next a s = error e s' := by
  constructor
  · intro h
    cases o with
    | ok a s => exact .inr ⟨a, s, rfl, h⟩
    | error e s =>
      cases h
      exact .inl rfl
    | endless => exact absurd h (by simp)
  · rintro (rfl | ⟨a, s, rfl, h⟩)
    · rfl
    · exact h

end Outcome

/-- A computation over a state. -/
def Run (ε σ α : Type) : Type := σ → Outcome ε σ α

namespace Run

variable {ε ε' σ α β : Type}

instance : Monad (Run ε σ) where
  pure a := fun s => .ok a s
  bind x next := fun s => (x s).bind fun a s' => next a s'

instance : MonadStateOf σ (Run ε σ) where
  get := fun s => .ok s s
  set s := fun _ => .ok () s
  modifyGet f := fun s => .ok (f s).1 (f s).2

/-- Stop with an error. -/
def fail (e : ε) : Run ε σ α := fun s => .error e s

/-- Never end. -/
def endless : Run ε σ α := fun _ => .endless

/-- The value, or no end where there is none. -/
def ofOption : Option α → Run ε σ α
  | some a => pure a
  | none => endless

/-- Turn an error into a value; the state is the one the failed computation left. -/
def attempt (x : Run ε σ α) : Run ε' σ (Except ε α) := fun s =>
  match x s with
  | .ok a s' => .ok (.ok a) s'
  | .error e s' => .ok (.error e) s'
  | .endless => .endless

/-! ## Equations -/

@[simp] theorem run_pure {a : α} {s : σ} : (pure a : Run ε σ α) s = .ok a s := rfl

@[simp] theorem run_bind {x : Run ε σ α} {next : α → Run ε σ β} {s : σ} :
    (x >>= next) s = (x s).bind fun a s' => next a s' := rfl

@[simp] theorem run_map {f : α → β} {x : Run ε σ α} {s : σ} :
    (f <$> x) s = (x s).bind fun a s' => .ok (f a) s' := rfl

@[simp] theorem run_get {s : σ} : (get : Run ε σ σ) s = .ok s s := rfl

@[simp] theorem run_set {s s' : σ} : (set s' : Run ε σ PUnit) s = .ok () s' := rfl

@[simp] theorem run_modify {f : σ → σ} {s : σ} : (modify f : Run ε σ PUnit) s = .ok () (f s) := rfl

@[simp] theorem run_modifyGet {f : σ → α × σ} {s : σ} :
    (modifyGet f : Run ε σ α) s = .ok (f s).1 (f s).2 := rfl

@[simp] theorem run_fail {e : ε} {s : σ} : (fail e : Run ε σ α) s = .error e s := rfl

@[simp] theorem run_endless {s : σ} : (endless : Run ε σ α) s = .endless := rfl

@[simp] theorem ofOption_some {a : α} : (ofOption (some a) : Run ε σ α) = pure a := rfl

@[simp] theorem ofOption_none : (ofOption none : Run ε σ α) = endless := rfl

theorem state?_attempt {x : Run ε σ α} {s : σ} :
    ((x.attempt : Run ε' σ (Except ε α)) s).state? = (x s).state? := by
  unfold attempt
  cases x s <;> rfl

instance : LawfulMonad (Run ε σ) :=
  LawfulMonad.mk' _
    (fun x => by funext s; simp only [run_map]; cases x s <;> rfl)
    (fun _ _ => rfl)
    (fun x _ _ => by funext s; simp only [run_bind]; cases x s <;> rfl)

end Run

end Monotype
