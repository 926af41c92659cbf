import Monotype.Program.Surface
import Monotype.Proofs.Parsing.Texts
import Monotype.Proofs.Typing.Operators

/-!
# `Monotype.Proofs.Typing.Matching` — what constructor patterns accept

A constructor pattern is accepted by the type with which the name was bound, walked as far as the pattern
has names: a base type must be left. So which kinds of binding can be accepted is a matter of their shapes.
The type declared for a function ends in a variable and never passes. What passes is a constructor, with a
name for each of its fields, and an operator that no definition of the program has the name of, with a name
for each operand. In a program that was read, nothing that is bound inside a function can pass for either,
where texts of names that start lower are no texts of names that start upper.

This holds at every pattern that checking comes to, in whatever order things are defined, with or without
the occurs check, and whether or not the run accepts the program, or ends at all.

## Contents
- **`Declared.entries_blank`**, **`Context.lookup_declareAll`**: which names have a base type at the end.
- **`Unifier.Derives.resolves_base`**: what unification with a base type leaves.
- **`Infer.Matches`**, **`Infer.Matches.exists_constructed`**: a pattern that is accepted.
- **`Checker.ReachesBody`**: checking comes to a body, past failures if it is to go on.
- **`Checker.matches_constructor_or_operator`**.
-/

namespace Monotype

/-! ## Types that end in a base type -/

/-- Curried types that end in no arrow are taken apart in one way only. -/
theorem Ty.curried_inj_of_not_isArrow {fields fields' : List Ty} {made made' : Ty}
    (hmade : made.isArrow = false) (hmade' : made'.isArrow = false)
    (h : curried fields made = curried fields' made') : fields = fields' ∧ made = made' := by
  induction fields generalizing fields' with
  | nil =>
    cases fields' with
    | nil => exact ⟨rfl, h⟩
    | cons field' fields' =>
      rw [show made = arrow field' (curried fields' made') from h] at hmade
      exact absurd hmade (by simp [isArrow])
  | cons field fields ih =>
    cases fields' with
    | nil =>
      rw [show made' = arrow field (curried fields made) from h.symm] at hmade'
      exact absurd hmade' (by simp [isArrow])
    | cons field' fields' =>
      rw [curried_cons, curried_cons, arrow.injEq] at h
      obtain ⟨hfields, hmade⟩ := ih h.2
      exact ⟨by rw [h.1, hfields], hmade⟩

/-- What a scope says of a name comes from an entry of that name, or from before all of them. -/
theorem Context.bindAll_eq_some {Γ : Context} {entries : List (String × Ty)} {name : String} {t : Ty}
    (h : Γ.bindAll entries name = some t) :
    (name, t) ∈ entries ∨ (name ∉ entries.map Prod.fst ∧ Γ name = some t) := by
  induction entries generalizing Γ with
  | nil => exact .inr ⟨List.not_mem_nil, h⟩
  | cons entry entries ih =>
    rw [bindAll_cons] at h
    rcases ih h with hmem | ⟨hothers, hname⟩
    · exact .inl (List.mem_cons_of_mem _ hmem)
    · rw [bind_apply] at hname
      by_cases heq : name = entry.1
      · rw [if_pos heq] at hname
        obtain rfl : entry.2 = t := Option.some.inj hname
        exact .inl (by rw [heq]; exact List.mem_cons_self)
      · rw [if_neg heq] at hname
        exact .inr ⟨by rw [List.map_cons, List.mem_cons, not_or]; exact ⟨heq, hothers⟩, hname⟩

/-- A name is that of an operator with some number of operands. -/
def IsOperator (name : String) (operands : Nat) : Prop :=
  (∃ op : BinaryOperator, op.name = name ∧ operands = 2) ∨
    ∃ op : UnaryOperator, op.name = name ∧ operands = 1

/-- The names that a new checker knows are those of operators. -/
theorem Context.isOperator_of_operators {name : String} {t : Ty} (h : Context.operators name = some t) :
    ∃ operands, t = .curried operands .int ∧ IsOperator name operands.length := by
  rcases bindAll_eq_some h with hmem | ⟨_, hnone⟩
  · rcases List.mem_append.mp hmem with hmem | hmem
    · obtain ⟨op, _, hop⟩ := List.mem_map.mp hmem
      cases hop
      exact ⟨[.int, .int], rfl, .inl ⟨op, rfl, rfl⟩⟩
    · obtain ⟨op, _, hop⟩ := List.mem_map.mp hmem
      cases hop
      exact ⟨[.int], rfl, .inr ⟨op, rfl, rfl⟩⟩
  · exact absurd hnone (by simp)

/-- The shapes of what is declared: those of functions end in a variable, those of constructors in the type
that they make. -/
theorem Declared.entries_blank {program : Program} {name : String} {t : Ty}
    (h : (name, t) ∈ entries (program.map Definition.blank)) :
    (∃ params, t = .curried params (.var 0)) ∨
      ∃ d c, Definition.type d ∈ program ∧ c ∈ d.constructors ∧ c.name = name ∧
        t = .curried (c.fields.map fun _ => .var 0) (.base d.name) := by
  obtain ⟨signature, hsignature, hentry⟩ := List.mem_map.mp h
  obtain ⟨_, hblank, hsignature⟩ := List.mem_flatMap.mp hsignature
  obtain ⟨definition, hdefinition, rfl⟩ := List.mem_map.mp hblank
  cases hentry
  cases definition with
  | function d =>
    obtain rfl := List.mem_singleton.mp hsignature
    exact .inl ⟨_, rfl⟩
  | type d =>
    obtain ⟨⟨c, t⟩, hc, rfl⟩ := List.mem_map.mp hsignature
    obtain ⟨i, hi, hget⟩ := List.mem_iff_getElem.mp hc
    rw [List.getElem_zip, List.getElem_map] at hget
    cases hget
    exact .inr ⟨d, _, hdefinition, List.getElem_mem _, rfl, rfl⟩

/-- **Which names of the root make a base type**: the constructors of the program, and the operators that
none of its definitions has the name of. -/
theorem Context.lookup_declareAll {program : Program} {s : TypingState} {name type : String}
    {fields : List Ty}
    (h : (Context.operators.declare (TypingState.declareAll program s).1) name =
      some (.curried fields (.base type))) :
    (∃ d c, Definition.type d ∈ program ∧ c ∈ d.constructors ∧ c.name = name ∧
      c.fields.length = fields.length ∧ d.name = type) ∨
    (name ∉ program.declares ∧ IsOperator name fields.length ∧ Ty.base type = .int) := by
  -- which names there are and how many fields they take can be told from the shapes alone
  have hshape : (Context.operators.declare (program.map Definition.blank)) name =
      some (.curried (fields.map Ty.shape) (.base type)) := by
    rw [← Context.shape_operators_declare program s, ← Ty.shape_base, ← Ty.shape_curried]
    exact Context.map_apply_of_eq_some h
  rcases bindAll_eq_some hshape with hmem | ⟨hname, hoperator⟩
  · rcases Declared.entries_blank hmem with ⟨params, hparams⟩ | ⟨d, c, hd, hc, hname, hmade⟩
    · -- the type of a function ends in a variable
      have hvar := (Ty.curried_inj_of_not_isArrow rfl rfl hparams).2
      exact absurd hvar (by simp)
    · obtain ⟨hfields, htype⟩ := Ty.curried_inj_of_not_isArrow rfl rfl hmade
      have hlength := congrArg List.length hfields
      rw [List.length_map, List.length_map] at hlength
      exact .inl ⟨d, c, hd, hc, hname, hlength.symm, (Ty.base.inj htype).symm⟩
  · obtain ⟨operands, hoperands, hisOperator⟩ := Context.isOperator_of_operators hoperator
    obtain ⟨hfields, htype⟩ := Ty.curried_inj_of_not_isArrow rfl rfl hoperands
    rw [← hfields, List.length_map] at hisOperator
    have hblank : ∀ declared ∈ program.map Definition.blank, declared.Shaped :=
      List.forall_mem_map.mpr fun definition _ => Program.shaped_blank definition
    rw [Declared.map_fst_entries hblank, program.definitions_blank] at hname
    exact .inr ⟨hname, hisOperator, htype⟩

/-! ## Accepted patterns -/

/-- What is unified with a base type, and with success, resolves to it from then on. -/
theorem Unifier.Derives.resolves_base {strict : Bool} {b b' : Bindings} {t : Ty} {type : String}
    (h : Derives strict (.base type) t b (.ok () b')) : b'.Resolves t (.base type) := by
  have hbase : ∀ {b : Bindings} {t : Ty}, b.Resolves (.base type) t → t = .base type := by
    intro b t ht
    cases ht
    rfl
  cases h with
  | @bind _ _ _ v _ hflex _ =>
    cases hflex with
    | left hl _ => exact absurd (hbase hl) (by simp)
    | right _ hl hr =>
      cases hbase hl
      have hbound : (b.bind v (.base type)).Resolves (.var v) (.base type) :=
        .bound (by rw [Bindings.find?_bind b v (by simp), if_pos rfl]) (.plain (by simp))
      exact hr.extends (Bindings.Extends.bind hr.find?_eq_none _) hbound
  | base hl hr =>
    cases hbase hl
    exact hr
  | arrow hl => exact absurd (hbase hl) (by simp)

variable {strict : Bool} {options : Options} {program : Program} {i k : Nat} {name : String}
  {params : List String} {scrutinee : Ty} {s : TypingState} {Γ : Context}

namespace Infer

variable {place : Place} {pattern : Pattern}

/-- Inference at a case accepts the pattern of a branch for a scrutinee of some type, and this is the state
then. The steps that inference takes before that succeed. -/
inductive Matches (strict : Bool) : Place → Nat → Pattern → Ty → TypingState → Prop
  | intro {scope inner i : Nat} {e body : Expr} {pattern : Pattern} {branches : List Branch}
      {scrutinee result : Ty} {s s₁ s₂ s₃ s₄ s₅ : TypingState}
      (hscrutinee : infer strict scope e s = .ok scrutinee s₁) (hfresh : fresh s₁ = .ok result s₂)
      (hbefore : inferBranches strict scope scrutinee result (branches.take i) s₂ = .ok () s₃)
      (hbranch : branches[i]? = some ⟨pattern, body⟩) (hopen : openScope scope s₃ = .ok inner s₄)
      (hpattern : matchPattern strict inner pattern scrutinee s₄ = .ok () s₅) :
      Matches strict ⟨scope, .case e branches, s⟩ i pattern scrutinee s₅

theorem Matches.mem_patterns (h : Matches strict place k pattern scrutinee s) :
    pattern ∈ place.expr.patterns := by
  cases h with
  | intro _ _ _ hbranch =>
    have hpatterns := Branch.patterns_of_mem (List.mem_of_getElem? hbranch)
    exact List.mem_append_right _ (hpatterns List.mem_cons_self)

/-- A pattern that is accepted is that of a branch that inference then calls itself on. -/
theorem Matches.exists_calls (h : Matches strict place k pattern scrutinee s) :
    ∃ inner body, Calls strict place (.branch k) ⟨inner, body, s⟩ := by
  cases h with
  | intro hscrutinee hfresh hbefore hbranch hopen hpattern =>
    exact ⟨_, _, .branch hscrutinee hfresh hbefore hbranch hopen hpattern⟩

/-- **A constructor pattern that is accepted** has a name for each argument that the type of its constructor
takes, and the scrutinee resolves to the base type that is left. -/
theorem Matches.exists_constructed (h : Matches strict place k (.constructor name params) scrutinee s)
    (hΓ : place.state.environment.Sees place.scope Γ) :
    ∃ fields type, Γ name = some (.curried fields (.base type)) ∧ fields.length = params.length ∧
      s.bindings.Resolves scrutinee (.base type) := by
  cases h with
  | intro hscrutinee hfresh hbefore hbranch hopen hpattern =>
    have hΓ₁ := sees_of_infer hscrutinee hΓ
    cases hfresh
    obtain ⟨Γ', hlexical, _⟩ :=
      exists_lexical_of_matchPattern (sees_of_inferBranches hbefore hΓ₁) hopen hpattern
    rcases Lexical.matchPattern_eq_ok hlexical with ⟨_, hvar, _⟩ | ⟨_, _, type, fields, heq, hname,
      hlength, _, hunify⟩
    · exact absurd hvar (by simp)
    · cases heq
      have hderives := Unifier.derives_unify (Lexical.unify_eq_ok hunify) (by simp)
      exact ⟨fields, type, hname, hlength, hderives.resolves_base⟩

end Infer

namespace Checker

/-- Checking a program with a new checker comes to the body of the function at this place in it. Checking
of the definitions before it has ended, and none of their failures has stopped it. The parameters are bound
in a scope of its own. -/
inductive ReachesBody (options : Options) (program : Program) (i : Nat) : Infer.Place → Prop
  | intro {definition : FunctionDefinition} {result : Ty} {params : List Ty} {scope : Nat}
      {vs : List Verdict} {s s₁ s₂ : TypingState}
      (hdeclared : (TypingState.declareAll program .initial).1[i]? =
        some ⟨.function definition, some (.function result params)⟩)
      (hbefore : verdicts options ((TypingState.declareAll program .initial).1.take i)
        (TypingState.declareAll program .initial).2 = .ok vs s)
      (hgoesOn : ∀ verdict ∈ vs, verdict.goesOn options.keepGoing = true)
      (hopen : Infer.openScope Environment.root s = .ok scope s₁)
      (hparams : Infer.bindNames scope (definition.params.zip params) s₁ = .ok () s₂) :
      ReachesBody options program i ⟨scope, definition.body, s₂⟩

variable {start place : Infer.Place} {path : List Expr.Step}

/-- A body sees the root of the program and, before it, the parameters of its function. -/
theorem ReachesBody.sees (h : ReachesBody options program i start) :
    ∃ definition Γ, .function definition ∈ program ∧ start.expr = definition.body ∧
      start.state.environment.Sees start.scope Γ ∧ ∀ name ∉ definition.params,
        Γ name = (Context.operators.declare (TypingState.declareAll program .initial).1) name := by
  cases h with
  | @intro definition _ params _ _ s _ _ hdeclared hbefore _ hopen hparams =>
    have hroot := (TypingState.declares_declareAll program .initial).sees TypingState.sees_initial
    have hagrees := verdicts_agrees options ((TypingState.declareAll program .initial).1.take i)
      (List.suffix_refl _) hroot
    rw [hbefore] at hagrees
    have hΓ := Infer.sees_of_bindNames (hroot.later hagrees.of_ok.1) hopen hparams
    have hmem : Definition.function definition ∈ program := by
      have hdefinition := List.mem_map_of_mem (f := Declared.definition) (List.mem_of_getElem? hdeclared)
      rwa [TypingState.definitions_declareAll] at hdefinition
    refine ⟨definition, _, hmem, rfl, hΓ, fun name hname => Context.bindAll_of_not_mem fun hbound => ?_⟩
    obtain ⟨entry, hentry, rfl⟩ := List.mem_map.mp hbound
    exact hname (List.of_mem_zip hentry).1

/-- What unification keeps of bindings is kept up to each body. -/
theorem ReachesBody.keeps {R : Bindings → Bindings → Prop} (hR : Unifier.Kept options.occursCheck R)
    (h : ReachesBody options program i start) : R .empty start.state.bindings := by
  cases h with
  | intro _ hbefore _ hopen hparams =>
    cases hopen
    cases hparams
    have hcongruence := congruence_keeps (R := fun s s' => R s.bindings s'.bindings)
      (fun s => hR.refl s.bindings) fun _ _ _ => hR.trans
    have hkeeps := (hcongruence.verdicts (Infer.congruence_of_kept hR) options.keepGoing _).of_ok hbefore
    rwa [(TypingState.declares_declareAll program .initial).bindings_eq] at hkeeps

/-- **Constructor patterns accept constructors and operators, and nothing else.** Let a program be read from
tokens in which no text of a name that starts lower is one of a name that starts upper. Wherever checking
comes to a constructor pattern and accepts it, either the program declares a constructor of that name, with
as many fields as the pattern has names, and the scrutinee resolves to its type. Or no definition has the
name, it is that of an operator, with as many operands as the pattern has names, and the scrutinee resolves
to the integers. -/
theorem matches_constructor_or_operator {tokens : List Token} (hread : program.ReadFrom tokens)
    (htexts : ∀ text ∈ textsOf .lowerName (tokens.map Token.toLexeme),
      text ∉ textsOf .upperName (tokens.map Token.toLexeme))
    (hstart : ReachesBody options program i start)
    (hcalls : Infer.CallsAt options.occursCheck start path place)
    (hmatches : Infer.Matches options.occursCheck place k (.constructor name params) scrutinee s) :
    (∃ d c, Definition.type d ∈ program ∧ c ∈ d.constructors ∧ c.name = name ∧
      c.fields.length = params.length ∧ s.bindings.resolve? scrutinee = some (.base d.name)) ∨
    (name ∉ program.declares ∧ IsOperator name params.length ∧
      s.bindings.resolve? scrutinee = some .int) := by
  obtain ⟨definition, Γ, hmem, hbody, hΓ, hroot⟩ := hstart.sees
  obtain ⟨names, Γ', hwithin, hΓ', hsame⟩ := hcalls.sees hΓ
  obtain ⟨fields, type, hname, hlength, hresolves⟩ := hmatches.exists_constructed hΓ'
  have hwritten := program.writtenIn_of_readFrom hread
  have hheader := hwritten definition.header (List.mem_flatMap.mpr ⟨_, hmem, List.mem_cons_self⟩)
  have hpatterns : ∀ p ∈ start.expr.patterns, p.WrittenIn (tokens.map Token.toLexeme) := by
    intro p hp
    rw [hbody] at hp
    exact hwritten p (List.mem_flatMap.mpr ⟨_, hmem, List.mem_cons_of_mem _ hp⟩)
  -- nothing that is bound inside the function has the name of the pattern
  obtain ⟨hnames, hplace⟩ := hwithin.writtenIn hpatterns
  have hupper : name ∈ textsOf .upperName (tokens.map Token.toLexeme) :=
    (hplace _ hmatches.mem_patterns).looksUp List.mem_cons_self
  have hparams : name ∉ definition.params := fun hparam => htexts name (hheader.binds hparam) hupper
  rw [hsame name fun hbound => htexts name (hnames hbound) hupper, hroot name hparams] at hname
  have hchains : s.bindings.ChainsEnd := by
    obtain ⟨_, _, hcall⟩ := hmatches.exists_calls
    have hkept := Unifier.kept_chainsEnd options.occursCheck
    have hbefore := hkept.trans (hstart.keeps hkept) (hkept.trans (hcalls.keeps hkept) (hcall.keeps hkept))
    exact hbefore Bindings.acyclic_empty.chainsEnd
  have hresolve := Bindings.resolve?_of_resolves hchains hresolves
  rcases Context.lookup_declareAll hname with ⟨d, c, hd, hc, hcname, hfields, rfl⟩ | ⟨hnone, hop, htype⟩
  · exact .inl ⟨d, c, hd, hc, hcname, hfields.trans hlength, hresolve⟩
  · rw [hlength] at hop
    rw [htype] at hresolve
    exact .inr ⟨hnone, hop, hresolve⟩

/-- The second constructor of a type, in the second branch of a case. -/
theorem matches_constructor_or_operator_of_number :
    let program : Program := [.type ⟨"Nat", [⟨"Zero", []⟩, ⟨"Succ", ["Nat"]⟩]⟩,
      .function ⟨"Pred", ["x"], .case (.lower "x")
        [⟨.constructor "Zero" [], .lower "x"⟩, ⟨.constructor "Succ" ["y"], .lower "y"⟩]⟩]
    program.ReadFrom (Token.number program.lexemes) ∧ ∃ start scrutinee s,
      ReachesBody ⟨true, false⟩ program 1 start ∧
      Infer.Matches true start 1 (.constructor "Succ" ["y"]) scrutinee s ∧
      s.bindings.resolve? scrutinee = some (.base "Nat") := by
  intro program
  have hread : program.ReadFrom (Token.number program.lexemes) := ⟨_, rfl⟩
  obtain ⟨start, scrutinee, s, hstart, hmatches⟩ : ∃ start scrutinee s,
      ReachesBody ⟨true, false⟩ program 1 start ∧
        Infer.Matches true start 1 (.constructor "Succ" ["y"]) scrutinee s :=
    ⟨_, _, _, .intro rfl rfl (by decide) rfl rfl, .intro rfl rfl rfl rfl rfl rfl⟩
  refine ⟨hread, start, scrutinee, s, hstart, hmatches, ?_⟩
  rcases matches_constructor_or_operator hread (by decide) hstart .here hmatches with
    ⟨d, c, hd, _, _, _, hresolve⟩ | ⟨hnone, _⟩
  · obtain rfl : d = ⟨"Nat", [⟨"Zero", []⟩, ⟨"Succ", ["Nat"]⟩]⟩ := by simpa [program] using hd
    exact hresolve
  · exact absurd hnone (by decide)

/-- A program without types, in which the name of an operator is accepted as that of a constructor. -/
theorem operator_matches_as_constructor :
    let program : Program := [.function ⟨"Main", ["x"], .case (.lower "x")
      [⟨.constructor "NOT" ["y"], .lower "y"⟩]⟩]
    let tokens := Token.number [.bare .fn, .text .upperName "Main", .text .lowerName "x", .bare .openCurly,
      .bare .case, .text .lowerName "x", .bare .pattern, .text .upperName "NOT", .text .lowerName "y",
      .bare .arrow, .bare .openCurly, .text .lowerName "y", .bare .closeCurly, .bare .closeCurly]
    program.ReadFrom tokens ∧ (∀ text ∈ textsOf .lowerName (tokens.map Token.toLexeme),
      text ∉ textsOf .upperName (tokens.map Token.toLexeme)) ∧
    (∃ start scrutinee s, ReachesBody ⟨true, false⟩ program 0 start ∧
      Infer.Matches true start 0 (.constructor "NOT" ["y"]) scrutinee s) ∧
    (∃ report final, check ⟨true, false⟩ program .initial = .ok report final ∧ report.accepted = true) ∧
    ∀ d, Definition.type d ∉ program := by
  intro program tokens
  refine ⟨⟨_, rfl⟩, by decide, ⟨_, _, _, .intro rfl rfl (by decide) rfl rfl, .intro rfl rfl rfl rfl rfl rfl⟩,
    ⟨_, _, rfl, rfl⟩, fun d hd => absurd hd (by simp [program])⟩

end Checker

end Monotype
