import Monotype.Outcome
import Monotype.Ty.Bindings

/-!
# `Monotype.Ty.Unify` — making two types equal

Unification binds the variables that must be bound for two types to be equal, and no others. Both
types are resolved; an unbound variable is bound to the other side, and of two arrows the domains are
unified first and the codomains under what that has bound. What was bound before a mismatch was found
stays bound.

With the occurs check (`strict`) a variable is never bound to an arrow in which it occurs. Without it
bindings may become cyclic, and then a unification may never end: it comes back to a pair of nodes
that it is still comparing. There are no more pairs than the square of the number of all nodes, and
binding a variable makes no new node; so a descent that is deeper than that never ends.

## Contents
- **`UnifyError`**: a mismatch, or an infinite type.
- **`Unifier.bindChecked`**, **`Unifier.unify`**.
-/

namespace Monotype

/-- Why two types cannot be made equal. -/
inductive UnifyError where
  | mismatch (left right : Ty)
  | infinite (var : Nat) (ty : Ty)
deriving DecidableEq, Repr

/-- The error in words. -/
def UnifyError.message : UnifyError → String
  | mismatch left right => "cannot unify " ++ left.pretty ++ " with " ++ right.pretty
  | infinite var ty => "cannot construct infinite type " ++ Ty.prettyVar var ++ " = " ++ ty.pretty

/-- A computation that binds variables. -/
abbrev Unifier : Type := Run UnifyError Bindings Unit

namespace Unifier

/-- Bind an unbound variable to a resolved type, after the occurs check if it is asked for. -/
def bindChecked (strict : Bool) (v : Nat) (t : Ty) : Unifier := do
  if strict && !t.isVar then
    if ← Run.ofOption ((← get).occurs? v t) then Run.fail (.infinite v t)
  modify fun b => b.bind v t

/-- Make two types equal, in no deeper a descent than a bound. -/
def unifyWithin (strict : Bool) : Nat → Ty → Ty → Unifier
  | 0, _, _ => Run.endless
  | depth + 1, left, right => do
    let left ← Run.ofOption ((← get).resolve? left)
    let right ← Run.ofOption ((← get).resolve? right)
    match left, right with
    | .var v, other => bindChecked strict v other
    | other, .var v => bindChecked strict v other
    | .arrow a b, .arrow c d => do
      unifyWithin strict depth a c
      unifyWithin strict depth b d
    | .base a, .base b => if a = b then pure () else Run.fail (.mismatch left right)
    | _, _ => Run.fail (.mismatch left right)

/-- A depth that no unification exceeds which ends. -/
def depthBound (b : Bindings) (left right : Ty) : Nat :=
  let nodes := b.size + left.size + right.size
  nodes * nodes + 1

/-- Make two types equal. -/
def unify (strict : Bool) (left right : Ty) : Unifier := fun b =>
  unifyWithin strict (depthBound b left right) left right b

end Unifier

end Monotype
