import Monotype.Proofs.Bindings.Shift
import Monotype.Proofs.Typing.Order

/-!
# `Monotype.Proofs.Typing.Names` — the names that a program looks up

An expression looks up the names that it refers to, the constructors of its patterns, and its operators.
A name is free in it if it is looked up where no pattern around that place binds it. Inference asks a scope
for the free names of an expression and for no others, so two scopes that say the same of these are alike.
That is said here of scopes of which one is moved up against the other.

## Contents
- **`Pattern.binds`**, **`Pattern.looksUp`**: the names of a pattern.
- **`Expr.freeNames`**, **`Program.freeNames`**: names that are looked up and not bound.
- **`Context.ShiftedOn`**: two scopes that agree on some names, with all variables moved up in one.
-/

namespace Monotype

/-! ## Free names -/

/-- The names that a pattern binds in its branch. -/
def Pattern.binds : Pattern → List String
  | var name => [name]
  | constructor _ params => params

/-- The names that a pattern looks up. -/
def Pattern.looksUp : Pattern → List String
  | var _ => []
  | constructor name _ => [name]

mutual

/-- The names that an expression looks up and does not bind itself. -/
def Expr.freeNames : Expr → List String
  | .int _ | .str _ => []
  | .lower name | .upper name => [name]
  | .binary op left right => op.name :: (left.freeNames ++ right.freeNames)
  | .unary op operand => op.name :: operand.freeNames
  | .apply function argument => function.freeNames ++ argument.freeNames
  | .case scrutinee branches => scrutinee.freeNames ++ Branch.freeNames branches

/-- The names that branches look up and do not bind themselves. -/
def Branch.freeNames : List Branch → List String
  | [] => []
  | ⟨pattern, body⟩ :: others =>
    pattern.looksUp ++ body.freeNames.filter (· ∉ pattern.binds) ++ Branch.freeNames others

end

/-- The names that a definition looks up, but for the parameters of a function. -/
def Definition.freeNames : Definition → List String
  | function definition => definition.body.freeNames.filter (· ∉ definition.params)
  | type _ => []

/-- The names that a program looks up, but for those that are bound by a parameter or a pattern around the
place where they are looked up. -/
def Program.freeNames (program : Program) : List String := program.flatMap Definition.freeNames

/-! ## Scopes that agree on names -/

namespace Context

/-- Of some names, the second scope says what the first one says, with all variables moved up. -/
def ShiftedOn (k : Nat) (N : String → Prop) (Γ Γ' : Context) : Prop :=
  ∀ name, N name → Γ' name = (Γ name).map (Ty.shift k)

variable {k : Nat} {N N' : String → Prop} {Γ Γ' : Context}

/-- Scopes that agree on names agree on fewer. -/
theorem ShiftedOn.mono (h : ShiftedOn k N' Γ Γ') (hN : ∀ name, N name → N' name) :
    ShiftedOn k N Γ Γ' :=
  fun name hname => h name (hN name hname)

/-- A name that is bound in both scopes need not have agreed before. -/
theorem ShiftedOn.bind {bound : String} (h : ShiftedOn k (fun name => N name ∧ name ≠ bound) Γ Γ')
    (t : Ty) : ShiftedOn k N (Γ.bind bound t) (Γ'.bind bound (t.shift k)) := by
  intro name hname
  rw [bind_apply, bind_apply]
  by_cases heq : name = bound
  · rw [if_pos heq, if_pos heq]
    rfl
  · rw [if_neg heq, if_neg heq, h name ⟨hname, heq⟩]

/-- Several names that are bound in both scopes need not have agreed before. A later one may hide an
earlier one. -/
theorem ShiftedOn.bindAll {entries : List (String × Ty)}
    (h : ShiftedOn k (fun name => N name ∧ name ∉ entries.map Prod.fst) Γ Γ') :
    ShiftedOn k N (Γ.bindAll entries)
      (Γ'.bindAll (entries.map fun entry => (entry.1, entry.2.shift k))) := by
  induction entries generalizing Γ Γ' with
  | nil => exact h.mono fun name hname => ⟨hname, List.not_mem_nil⟩
  | cons entry others ih =>
    refine ih (ShiftedOn.bind (h.mono fun name hname => ⟨hname.1.1, ?_⟩) entry.2)
    rw [List.map_cons, List.mem_cons, not_or]
    exact ⟨hname.2, hname.1.2⟩

theorem bindAll_of_not_mem {entries : List (String × Ty)} {name : String}
    (h : name ∉ entries.map Prod.fst) : Γ.bindAll entries name = Γ name := by
  induction entries generalizing Γ with
  | nil => rfl
  | cons entry others ih =>
    rw [List.map_cons, List.mem_cons, not_or] at h
    rw [bindAll_cons, ih h.2, bind_apply, if_neg h.1]

end Context

end Monotype
