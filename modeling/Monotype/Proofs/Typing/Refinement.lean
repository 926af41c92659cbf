import Monotype.Proofs.Bindings.Zonk
import Monotype.Proofs.Typing.Reachable

/-!
# `Monotype.Proofs.Typing.Refinement` — what is known is only added to

Binding a variable takes the place of what it was bound to before. Nothing that is known of a variable is
lost by that, because only unbound variables are ever bound: unification binds what resolving ended in.
That holds in every call, when it fails as when it succeeds, and so in whole runs of the checker.

With the occurs check it has a consequence for what is reported. The later bindings have a solution, which
solves the earlier ones too; so what a type is known to be later is an instance of what it was known to
be before, and one substitution turns all earlier signatures into the later ones.

## Contents
- **`Store.Advance`**: a further call, or a run of the checker. **`Store.keeps_of_advances`**.
- **`TypingState.signatures_extends`**: signatures when more is bound.
- **`Store.Reachable.bindings_writeOnce`**: bindings are written once, and types become instances.
-/

namespace Monotype

open Relation

variable {strict : Bool} {R : Bindings → Bindings → Prop}

namespace Store

/-- One store follows another by a call, whether it succeeds or fails, or by a run of the checker on a
program, whatever it reports. -/
inductive Advance (strict : Bool) : Store → Store → Prop
  | call {s s' : Store} (h : Step strict s s') : Advance strict s s'
  | check {keepGoing : Bool} {program : Program} {report : Report} {s s' : TypingState}
      (h : Checker.check ⟨strict, keepGoing⟩ program s = .ok report s') :
      Advance strict s.store s'.store

variable {s s' : Store}

theorem Advance.keeps (h : Advance strict s s') (hR : Unifier.Kept strict R) :
    R s.bindings s'.bindings := by
  cases h with
  | call hstep => exact hstep.keeps hR
  | check hcheck => exact Checker.check_keeps hR hcheck

/-- What unification keeps of bindings, any number of calls and runs keep. -/
theorem keeps_of_advances (h : ReflTransGen (Advance strict) s s') (hR : Unifier.Kept strict R) :
    R s.bindings s'.bindings := by
  induction h with
  | refl => exact hR.refl s.bindings
  | tail _ hadvance ih => exact hR.trans ih (hadvance.keeps hR)

end Store

/-- Signatures that are reported when more is bound are instances of those that were reported before, all
by one substitution. -/
theorem TypingState.signatures_extends {s s' : TypingState} (hacyclic : s'.bindings.Acyclic)
    (hextends : s.bindings.Extends s'.bindings) (declared : List Declared) :
    s'.signatures declared = (s.signatures declared).map fun signature =>
      { signature with ty := signature.ty.subst fun v => s'.bindings.zonk (.var v) } := by
  rw [signatures, signatures, List.map_map]
  refine List.map_congr_left fun signature _ => ?_
  show Signature.mk signature.name (s'.bindings.zonk signature.ty) =
    ⟨signature.name, (s.bindings.zonk signature.ty).subst fun v => s'.bindings.zonk (.var v)⟩
  rw [← Bindings.zonk_eq_subst, hacyclic.zonk_zonk hextends]

/-- **Bindings are written once, and types only become more specific.** From any state that calls lead to,
with or without the occurs check, through any further calls and runs of the checker, the ones that fail
included: every variable that was bound still has the same binding, and every variable whose binding is
another one was unbound. So with the occurs check, zonking what was zonked before is zonking now, and
one substitution turns all signatures that were reported into those that are reported now. -/
theorem Store.Reachable.bindings_writeOnce {s s' : TypingState} (hs : s.store.Reachable strict)
    (h : ReflTransGen (Store.Advance strict) s.store s'.store) :
    (∀ v t, s.bindings.find? v = some t → s'.bindings.find? v = some t) ∧
      (∀ v, s'.bindings.find? v ≠ s.bindings.find? v → s.bindings.find? v = none) ∧
      (strict = true →
        (∀ t, s'.bindings.zonk (s.bindings.zonk t) = s'.bindings.zonk t) ∧
          ∃ θ, ∀ declared, s'.signatures declared =
            (s.signatures declared).map fun signature =>
              { signature with ty := signature.ty.subst θ }) := by
  have hextends : s.bindings.Extends s'.bindings :=
    Store.keeps_of_advances h (Unifier.kept_extends strict)
  refine ⟨hextends, ?_, ?_⟩
  · intro v hne
    cases hv : s.bindings.find? v with
    | none => rfl
    | some t => rw [hv, hextends v t hv] at hne; exact absurd rfl hne
  · intro hstrict
    subst hstrict
    have hbefore : s.bindings.Acyclic := hs.keeps Unifier.kept_acyclic Bindings.acyclic_empty
    have hafter : s'.bindings.Acyclic := Store.keeps_of_advances h Unifier.kept_acyclic hbefore
    exact ⟨hafter.zonk_zonk hextends, _, TypingState.signatures_extends hafter hextends⟩

/-- A function from an unknown type to integers. It is applied to a string, which makes its type known, and
then a program is checked that fails with another variable bound on the way. -/
theorem Store.Reachable.bindings_writeOnce_after_failure :
    let s : TypingState := ⟨2, ⟨[(0, .arrow (.var 1) .int)]⟩, ⟨[{ names := [("f", .var 0)] }]⟩⟩
    let applied : TypingState :=
      ⟨3, ⟨[(2, .int), (1, .string), (0, .arrow (.var 1) .int)]⟩, .builtins⟩
    let program : Program :=
      [.function ⟨"Bad", ["x"], .apply (.int 1) (.binary .plus (.lower "x") (.int 1))⟩]
    let declared : List Declared := [⟨.function ⟨"F", [], .int 0⟩, some (.function (.var 0) [])⟩]
    s.store.Reachable true ∧ ∃ report s',
      Checker.check ⟨true, false⟩ program applied = .ok report s' ∧ report.accepted = false ∧
      ReflTransGen (Store.Advance true) s.store s'.store ∧
      s'.bindings.find? 0 = some (.arrow (.var 1) .int) ∧
      s.signatures declared = [⟨"F", .arrow (.var 1) .int⟩] ∧
      s'.signatures declared = [⟨"F", .arrow .string .int⟩] ∧
      s'.bindings.zonk (s.bindings.zonk (.var 0)) = s'.bindings.zonk (.var 0) ∧
      ∃ θ, ∀ declared, s'.signatures declared =
        (s.signatures declared).map fun signature =>
          { signature with ty := signature.ty.subst θ } := by
  intro s applied program declared
  have hs : s.store.Reachable true :=
    (Store.Reachable.of_fresh true 2).tail (.unify (.var 0) (.arrow (.var 1) .int) (by decide))
  have hinfer : (Infer.infer true Environment.root (.apply (.lower "f") (.str "a")) s).state? =
      some { applied with environment := s.environment } := by decide
  have happly := Store.Step.call (.infer _ _) hinfer
  have hrun : (match Checker.check ⟨true, false⟩ program applied with
      | .ok report s' =>
        !report.accepted && decide (s'.signatures declared = [⟨"F", .arrow .string .int⟩])
      | _ => false) = true := by decide +kernel
  cases hcheck : Checker.check ⟨true, false⟩ program applied with
  | error e _ => exact e.elim
  | endless => rw [hcheck] at hrun; exact absurd hrun (by simp)
  | ok report s' =>
    rw [hcheck] at hrun
    simp only [Bool.and_eq_true, Bool.not_eq_true', decide_eq_true_eq] at hrun
    have hadvances : ReflTransGen (Store.Advance true) s.store s'.store :=
      (ReflTransGen.single (.call happly)).tail (.check hcheck)
    obtain ⟨hbound, _, hrefined⟩ := Store.Reachable.bindings_writeOnce hs hadvances
    obtain ⟨hzonk, hsignatures⟩ := hrefined rfl
    exact ⟨hs, report, s', rfl, hrun.1, hadvances, hbound 0 _ (by decide), by decide, hrun.2,
      hzonk (.var 0), hsignatures⟩

end Monotype
