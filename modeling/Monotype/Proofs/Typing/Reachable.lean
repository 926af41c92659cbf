import Monotype.Proofs.Typing.Congruence
import Monotype.Proofs.Typing.Declarations
import Monotype.Proofs.Unify.Depth

/-!
# `Monotype.Proofs.Typing.Reachable` — what any sequence of calls leaves behind

A store of type variables begins empty, and then is changed by calls: a variable is handed out, two
types are unified, a definition is declared, something is inferred. The calls may come in any order and
be about anything, with any scopes. Some of them fail midway, and what they have bound by then stays.
All that can be relied on later is what every call keeps.

Whatever a single unification keeps of the bindings, every call keeps (`Infer.congruence_of_kept`), and
so does every sequence of calls (`Store.Reachable.keeps`). With the occurs check this is that no
variable reaches itself. Without it variables may reach themselves, but never by way of variables alone.
That is enough for every type to denote a tree, if an infinite one, and for unification to be sound for
these trees.

## Contents
- **`Checker.check_keeps`**: what unification keeps of bindings, a run of the checker keeps.
- **`Infer.Call`**, **`Store.Step`**, **`Store.Reachable`**: calls, and what sequences of them leave.
- **`Store.Reachable.keeps`**: the principle.
- **`Store.Reachable.bindings_acyclic`**: with the occurs check, bindings are acyclic.
- **`Store.Reachable.resolve_ends`**: resolving ends, with or without it.
- **`Store.Reachable.unify_sameTree`**: without it, unification makes trees equal, and parts none.
-/

namespace Monotype

variable {strict : Bool} {left right : Ty} {R : Bindings → Bindings → Prop} {s s' : TypingState}

/-! ## What inference keeps of bindings -/

namespace Infer

/-- Unification in a state is a derivation on its bindings. -/
theorem derives_of_unify (h : (unify strict left right s).state? = some s') :
    ∃ o, Unifier.Derives strict left right s.bindings o ∧ o.state? = some s'.bindings := by
  rw [unify, Outcome.state?_mapState, Outcome.state?_mapError, Option.map_eq_some_iff] at h
  obtain ⟨b', hb', rfl⟩ := h
  exact ⟨_, Unifier.derives_unify rfl (Outcome.ends_of_state? hb'), hb'⟩

/-- What unification keeps of bindings, every computation of inference keeps. -/
theorem congruence_of_kept (hR : Unifier.Kept strict R) :
    Congruence strict strict fun _ x _ => Run.Keeps (fun s s' => R s.bindings s'.bindings) x where
  pure a := Run.Keeps.pure (fun s => hR.refl s.bindings) a
  bind hx hnext := hx.bind hnext fun _ _ _ => hR.trans
  fail e _ := Run.Keeps.fail (fun s => hR.refl s.bindings) e
  state s s' h := by
    cases h
    exact hR.refl s.bindings
  scopes f s s' h := by
    cases h
    exact hR.refl s.bindings
  fresh s s' h := by
    cases h
    exact hR.refl s.bindings
  unify left right s s' h := by
    obtain ⟨o, hder, ho⟩ := derives_of_unify h
    exact hR.derives hder ho

/-- Inference with the occurs check keeps acyclic bindings acyclic. -/
theorem congruence_acyclic : Congruence true true fun _ x _ =>
    Run.Keeps (fun s s' => s.bindings.Acyclic → s'.bindings.Acyclic) x :=
  congruence_of_kept Unifier.kept_acyclic

/-- Inference keeps all bindings. -/
theorem congruence_extends (strict : Bool) : Congruence strict strict fun _ x _ =>
    Run.Keeps (fun s s' => s.bindings.Extends s'.bindings) x :=
  congruence_of_kept (Unifier.kept_extends strict)

/-! ## Calls -/

/-- The calls that change what is known of type variables: handing out one, unifying two types, and
the steps of inference, each in any scope. -/
inductive Call (strict : Bool) : ∀ {α : Type}, Infer α → Prop
  | fresh : Call strict fresh
  | unify (left right : Ty) : Call strict (unify strict left right)
  | infer (scope : Nat) (e : Expr) : Call strict (infer strict scope e)
  | matchPattern (scope : Nat) (pattern : Pattern) (scrutinee : Ty) :
      Call strict (matchPattern strict scope pattern scrutinee)
  | declare (definition : Definition) : Call strict (modifyGet fun s => s.declare definition)
  | checkDefinition (declared : Declared) : Call strict (checkDefinition strict declared)

/-- What unification keeps of bindings, every call keeps. -/
theorem Call.keeps {α : Type} {x : Infer α} (hx : Call strict x) (hR : Unifier.Kept strict R) :
    Run.Keeps (fun s s' => R s.bindings s'.bindings) x := by
  have hsteps := congruence_of_kept hR
  cases hx with
  | fresh => exact hsteps.fresh
  | unify left right => exact hsteps.unify left right
  | infer scope e => exact hsteps.infer e scope
  | matchPattern scope pattern scrutinee => exact hsteps.matchPattern scope pattern scrutinee
  | declare definition =>
    intro s s' h
    cases h
    rw [(TypingState.declares_declare definition s).bindings_eq]
    exact hR.refl s.bindings
  | checkDefinition declared => exact hsteps.checkDefinition declared

end Infer

namespace Checker

/-- What unification keeps of bindings, checking definitions one after the other keeps. -/
theorem verdicts_keeps (hR : Unifier.Kept strict R) (keepGoing : Bool) (definitions : List Declared) :
    Run.Keeps (fun s s' => R s.bindings s'.bindings) (verdicts ⟨strict, keepGoing⟩ definitions) := by
  have hsteps := congruence_keeps (R := fun s s' : TypingState => R s.bindings s'.bindings)
    (fun s => hR.refl s.bindings) fun _ _ _ => hR.trans
  exact hsteps.verdicts (Infer.congruence_of_kept hR) keepGoing definitions

/-- What unification keeps of bindings, a whole run of the checker keeps. -/
theorem check_keeps (hR : Unifier.Kept strict R) {keepGoing : Bool} {program : Program}
    {report : Report} (h : check ⟨strict, keepGoing⟩ program s = .ok report s') :
    R s.bindings s'.bindings := by
  rw [check_eq] at h
  obtain ⟨vs, final, hverdicts, hfinal⟩ := Outcome.bind_eq_ok_iff.mp h
  cases hfinal
  have hkept := (verdicts_keeps hR keepGoing _).of_ok hverdicts
  -- the first pass binds no variable
  rwa [(TypingState.declares_declareAll program s).bindings_eq] at hkept

end Checker

/-! ## Sequences of calls -/

namespace Store

/-- One store follows another if a call turns the one into the other, whether it succeeds or fails. -/
inductive Step (strict : Bool) : Store → Store → Prop
  | call {α : Type} {x : Infer α} {s s' : TypingState} (hx : Infer.Call strict x)
      (h : (x s).state? = some s') : Step strict s.store s'.store

/-- A sequence of calls leads from the empty store to this one. -/
def Reachable (strict : Bool) (s : Store) : Prop := Relation.ReflTransGen (Step strict) {} s

variable {s s' : Store} {b' : Bindings}

theorem Step.fresh (strict : Bool) (s : Store) :
    Step strict s { s with allocated := s.allocated + 1 } := by
  have hfresh : (Infer.fresh ⟨s.allocated, s.bindings, .builtins⟩).state? =
      some ⟨s.allocated + 1, s.bindings, .builtins⟩ := rfl
  exact Step.call .fresh hfresh

theorem Step.unify (left right : Ty)
    (h : (Unifier.unify strict left right s.bindings).state? = some b') :
    Step strict s { s with bindings := b' } := by
  have hunify : (Infer.unify strict left right ⟨s.allocated, s.bindings, .builtins⟩).state? =
      some ⟨s.allocated, b', .builtins⟩ := by
    rw [Infer.unify, Outcome.state?_mapState, Outcome.state?_mapError, h]
    rfl
  exact Step.call (.unify left right) hunify

/-- Handing out variables leads to any number of them, without bindings. -/
theorem Reachable.of_fresh (strict : Bool) (count : Nat) : Reachable strict ⟨count, .empty⟩ := by
  induction count with
  | zero => exact .refl
  | succ count ih => exact ih.tail (.fresh strict ⟨count, .empty⟩)

/-- What unification keeps of bindings, a single step keeps. -/
theorem Step.keeps (h : Step strict s s') (hR : Unifier.Kept strict R) : R s.bindings s'.bindings := by
  cases h with
  | call hx hs => exact hx.keeps hR _ _ hs

/-- What unification keeps of bindings, every sequence of calls keeps. -/
theorem Reachable.keeps (h : s.Reachable strict) (hR : Unifier.Kept strict R) :
    R .empty s.bindings := by
  induction h with
  | refl => exact hR.refl .empty
  | tail _ hstep ih => exact hR.trans ih (hstep.keeps hR)

/-- **With the occurs check, no variable ever reaches itself through its binding**, after any sequence
of calls, the ones that failed included. -/
theorem Reachable.bindings_acyclic (h : s.Reachable true) : s.bindings.Acyclic :=
  h.keeps Unifier.kept_acyclic Bindings.acyclic_empty

/-- Unifications that fail leave what they have bound: the domains of the first one here, and nothing
of the second, which would make a variable hold itself. -/
theorem Reachable.bindings_acyclic_despite_failures :
    Reachable true ⟨3, ⟨[(1, .arrow .int (.var 2)), (0, .int)]⟩⟩ ∧
      Bindings.Acyclic ⟨[(1, .arrow .int (.var 2)), (0, .int)]⟩ := by
  have hmismatch : Step true ⟨2, .empty⟩ ⟨2, ⟨[(0, .int)]⟩⟩ :=
    .unify (.arrow (.var 0) (.var 0)) (.curried [.int, .int] .int) (by decide)
  have happly : (Infer.infer true 0 (.apply (.lower "f") (.int 1))
      ⟨2, ⟨[(0, .int)]⟩, ⟨[{ names := [("f", .var 1)] }]⟩⟩).state? =
        some ⟨3, ⟨[(1, .arrow .int (.var 2)), (0, .int)]⟩, ⟨[{ names := [("f", .var 1)] }]⟩⟩ := by
    decide
  have hinfinite : Step true ⟨3, ⟨[(1, .arrow .int (.var 2)), (0, .int)]⟩⟩
      ⟨3, ⟨[(1, .arrow .int (.var 2)), (0, .int)]⟩⟩ :=
    .unify (.var 2) (.var 1) (by decide)
  have hfresh : Reachable true ⟨2, .empty⟩ :=
    (Relation.ReflTransGen.single (.fresh true {})).tail (.fresh true ⟨1, .empty⟩)
  have hreach := ((hfresh.tail hmismatch).tail (.call (.infer _ _) happly)).tail hinfinite
  exact ⟨hreach, Reachable.bindings_acyclic hreach⟩

/-- Chains of variables end after any sequence of calls, with or without the occurs check. -/
theorem Reachable.chainsEnd (h : s.Reachable strict) : s.bindings.ChainsEnd :=
  h.keeps (Unifier.kept_chainsEnd strict) Bindings.acyclic_empty.chainsEnd

/-- **Resolving always ends**, with or without the occurs check. After any sequence of calls no chain of
variables comes back to where it started, though a variable may hold itself below an arrow. So following
variables from any type comes to an end, and within as many steps as there are bindings. -/
theorem Reachable.resolve_ends (h : s.Reachable strict) :
    s.bindings.ChainsEnd ∧
      ∀ t, ∃ t', s.bindings.resolve? t = some t' ∧ s.bindings.Resolves t t' := by
  have hends := h.chainsEnd
  refine ⟨hends, fun t => ?_⟩
  obtain ⟨t', ht'⟩ := Bindings.exists_resolve? hends t
  exact ⟨t', ht', Bindings.resolves_of_resolve? ht'⟩

/-- A chain of two variables, a variable that holds itself, and a unification that fails after it has bound
the end of the chain to a type that holds the other variable. -/
theorem Reachable.resolve_ends_infinite :
    let b : Bindings := ⟨[(2, .arrow (.var 0) .int), (0, .arrow (.var 0) .int), (1, .var 2)]⟩
    Reachable false ⟨3, b⟩ ∧ ¬ b.Acyclic ∧ b.ChainsEnd ∧
      ∀ t, ∃ t', b.resolve? t = some t' ∧ b.Resolves t t' := by
  intro b
  have hchain : Step false ⟨3, .empty⟩ ⟨3, ⟨[(1, .var 2)]⟩⟩ := .unify (.var 1) (.var 2) (by decide)
  have hinfinite : Step false ⟨3, ⟨[(1, .var 2)]⟩⟩ ⟨3, ⟨[(0, .arrow (.var 0) .int), (1, .var 2)]⟩⟩ :=
    .unify (.var 0) (.arrow (.var 0) .int) (by decide)
  have hmismatch : Step false ⟨3, ⟨[(0, .arrow (.var 0) .int), (1, .var 2)]⟩⟩ ⟨3, b⟩ :=
    .unify (.arrow (.var 1) .int) (.arrow (.var 0) .string) (by decide)
  have hreach : Reachable false ⟨3, b⟩ :=
    (((Reachable.of_fresh false 3).tail hchain).tail hinfinite).tail hmismatch
  have hcycle : b.Points 0 0 := ⟨.arrow (.var 0) .int, by decide, by decide⟩
  exact ⟨hreach, fun hacyclic => hacyclic 0 (.single hcycle), Reachable.resolve_ends hreach⟩

/-- **Without the occurs check, unification is sound for infinite types.** After any sequence of calls,
a unification that succeeds makes both types denote the same tree, to every depth, and types that
denoted the same tree before it still do. Where chains end, one that succeeds in any depth succeeds
within its bound (`Unifier.unify_eq_of_ends`). -/
theorem Reachable.unify_sameTree (hs : s.Reachable false)
    (h : Unifier.unify false left right s.bindings = .ok () b') :
    b'.SameTree left right ∧ ∀ t u, s.bindings.SameTree t u → b'.SameTree t u := by
  have hder := Unifier.derives_unify h (by simp)
  exact ⟨hder.sameTree rfl hs.chainsEnd,
    fun _ _ htu => hder.sameTree_of_sameTree rfl hs.chainsEnd htu⟩

/-- A variable that stands for functions from itself to integers, and another one that turns out to
stand for the same. -/
theorem Reachable.unify_sameTree_infinite :
    Reachable false ⟨2, ⟨[(0, .arrow (.var 0) .int)]⟩⟩ ∧
      Unifier.unify false (.var 0) (.arrow (.var 1) .int) ⟨[(0, .arrow (.var 0) .int)]⟩ =
        .ok () ⟨[(1, .arrow (.var 0) .int), (0, .arrow (.var 0) .int)]⟩ ∧
      Bindings.SameTree ⟨[(1, .arrow (.var 0) .int), (0, .arrow (.var 0) .int)]⟩ (.var 0)
        (.arrow (.var 1) .int) ∧
      ∀ t u, Bindings.SameTree ⟨[(0, .arrow (.var 0) .int)]⟩ t u →
        Bindings.SameTree ⟨[(1, .arrow (.var 0) .int), (0, .arrow (.var 0) .int)]⟩ t u := by
  have hfresh : Reachable false ⟨2, .empty⟩ :=
    (Relation.ReflTransGen.single (.fresh false {})).tail (.fresh false ⟨1, .empty⟩)
  have hinfinite : Step false ⟨2, .empty⟩ ⟨2, ⟨[(0, .arrow (.var 0) .int)]⟩⟩ :=
    .unify (.var 0) (.arrow (.var 0) .int) (by decide)
  have hreach := hfresh.tail hinfinite
  have hunify : Unifier.unify false (.var 0) (.arrow (.var 1) .int)
      ⟨[(0, .arrow (.var 0) .int)]⟩ =
        .ok () ⟨[(1, .arrow (.var 0) .int), (0, .arrow (.var 0) .int)]⟩ := by decide
  exact ⟨hreach, hunify, Reachable.unify_sameTree hreach hunify⟩

end Store

end Monotype
