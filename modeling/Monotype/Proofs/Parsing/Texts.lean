import Monotype.Proofs.Parsing.Acceptance
import Monotype.Proofs.Typing.Places

/-!
# `Monotype.Proofs.Parsing.Texts` — names are texts of tokens

The parser makes no names up. What a pattern or the header of a function binds are texts of tokens for
names that start lower, and the constructors that patterns name are texts of tokens for names that start
upper. So where no text is of both kinds, nothing that is bound inside a function has the name of a
constructor.

## Contents
- **`textsOf`**: the texts of the lexemes of a kind.
- **`Expr.patterns`**, **`Program.patterns`**: all patterns, the headers of functions among them.
- **`Pattern.WrittenIn`**, **`Spans.writtenIn`**: the names of patterns are texts.
- **`Expr.Within.writtenIn`**: so are the names that are bound on the way to a place.
-/

namespace Monotype

/-! ## Texts -/

/-- The texts of the lexemes of a kind. -/
def textsOf (kind : Kind) (ts : List Lexeme) : List String :=
  (ts.filter fun l => l.kind = kind).map Lexeme.textD

section Texts

variable {kind : Kind} {l : Lexeme} {ts us : List Lexeme}

theorem textD_mem_textsOf (hl : l.kind = kind) : l.textD ∈ textsOf kind (l :: ts) :=
  List.mem_map_of_mem (List.mem_filter.mpr ⟨List.mem_cons_self, decide_eq_true hl⟩)

theorem textsOf_subset (h : ts ⊆ us) : textsOf kind ts ⊆ textsOf kind us := by
  intro text htext
  obtain ⟨l, hl, rfl⟩ := List.mem_map.mp htext
  obtain ⟨hmem, hkind⟩ := List.mem_filter.mp hl
  exact List.mem_map_of_mem (List.mem_filter.mpr ⟨h hmem, hkind⟩)

end Texts

/-! ## Patterns -/

mutual

/-- The patterns of an expression. -/
def Expr.patterns : Expr → List Pattern
  | .int _ | .str _ | .lower _ | .upper _ => []
  | .binary _ left right => left.patterns ++ right.patterns
  | .unary _ operand => operand.patterns
  | .apply function argument => function.patterns ++ argument.patterns
  | .case scrutinee branches => scrutinee.patterns ++ Branch.patterns branches

/-- The patterns of branches, and those in their bodies. -/
def Branch.patterns : List Branch → List Pattern
  | [] => []
  | ⟨pattern, body⟩ :: others => (pattern :: body.patterns) ++ Branch.patterns others

end

theorem Branch.patterns_cons (b : Branch) (bs : List Branch) :
    Branch.patterns (b :: bs) = (b.pattern :: b.body.patterns) ++ Branch.patterns bs := by
  cases b
  rfl

theorem Branch.patterns_of_mem {b : Branch} {bs : List Branch} (h : b ∈ bs) :
    b.pattern :: b.body.patterns ⊆ Branch.patterns bs := by
  induction bs with
  | nil => exact absurd h List.not_mem_nil
  | cons first others ih =>
    rw [patterns_cons]
    rcases List.mem_cons.mp h with rfl | h
    · exact List.subset_append_left _ _
    · exact List.subset_append_of_subset_right _ (ih h)

/-- The patterns of an application are those of its function and of its arguments. -/
theorem Expr.patterns_applyAll (f : Expr) (es : List Expr) :
    (f.applyAll es).patterns = f.patterns ++ es.flatMap patterns := by
  induction es generalizing f with
  | nil => simp
  | cons e es ih =>
    rw [applyAll_cons, ih, patterns, List.flatMap_cons, List.append_assoc]

/-- The header of a function reads like a pattern: a name that starts upper, and names that it binds. -/
def FunctionDefinition.header (definition : FunctionDefinition) : Pattern :=
  .constructor definition.name definition.params

/-- The patterns of a definition. -/
def Definition.patterns : Definition → List Pattern
  | function definition => definition.header :: definition.body.patterns
  | type _ => []

/-- The patterns of a program. -/
def Program.patterns (program : Program) : List Pattern := program.flatMap Definition.patterns

/-- The patterns of what a phrase says. -/
def Phrase.patterns : Phrase → List Pattern
  | names _ _ | constructor _ | otherConstructors _ => []
  | pattern p => [p]
  | branch b => b.pattern :: b.body.patterns
  | branches bs => Branch.patterns bs
  | atom e | application e | level _ e => e.patterns
  | arguments es => es.flatMap Expr.patterns
  | definition d => d.patterns
  | program p => p.patterns

/-! ## Names of patterns -/

/-- The names of a pattern are texts of lexemes. -/
structure Pattern.WrittenIn (ts : List Lexeme) (p : Pattern) : Prop where
  binds : p.binds ⊆ textsOf .lowerName ts
  looksUp : p.looksUp ⊆ textsOf .upperName ts

theorem Pattern.WrittenIn.mono {ts us : List Lexeme} {p : Pattern} (h : p.WrittenIn ts) (hts : ts ⊆ us) :
    p.WrittenIn us :=
  ⟨fun _ hname => textsOf_subset hts (h.binds hname), fun _ hname => textsOf_subset hts (h.looksUp hname)⟩

namespace Phrase.Spans

variable {φ : Phrase} {kind : Kind} {ns : List String} {l : Lexeme} {ts rest : List Lexeme}

/-- A phrase takes lexemes from the front, and adds none. -/
theorem rest_subset (h : φ.Spans ts rest) : rest ⊆ ts := by
  obtain ⟨taken, rfl, _⟩ := h.exists_taken
  exact List.subset_append_right _ _

/-- **Names are texts of the lexemes that were taken.** -/
theorem names_subset (h : (names kind ns).Spans ts rest) : ns ⊆ textsOf kind ts := by
  induction ns generalizing ts with
  | nil => exact List.nil_subset _
  | cons name ns ih =>
    cases h with
    | name hl hothers =>
      refine List.cons_subset.mpr ⟨textD_mem_textsOf hl, fun other hother => ?_⟩
      exact textsOf_subset (List.subset_cons_self _ _) (ih hothers hother)

/-- A name that starts upper and the names that start lower after it. -/
theorem writtenIn_constructor {params : List String} (hl : l.kind = .upperName)
    (hparams : (names .lowerName params).Spans ts rest) :
    (Pattern.constructor l.textD params).WrittenIn (l :: ts) := by
  constructor
  · exact fun name hname => textsOf_subset (List.subset_cons_self _ _) (hparams.names_subset hname)
  · exact List.cons_subset.mpr ⟨textD_mem_textsOf hl, List.nil_subset _⟩

/-- The patterns of two phrases, one after the other. -/
theorem writtenIn_append {ps qs : List Pattern} (h : φ.Spans ts rest) (hps : ∀ p ∈ ps, p.WrittenIn ts)
    (hqs : ∀ p ∈ qs, p.WrittenIn rest) : ∀ p ∈ ps ++ qs, p.WrittenIn ts := by
  intro p hp
  rcases List.mem_append.mp hp with hp | hp
  · exact hps p hp
  · exact (hqs p hp).mono h.rest_subset

/-- **The names of patterns are texts of what is read.** -/
theorem writtenIn (h : φ.Spans ts rest) : ∀ p ∈ φ.patterns, p.WrittenIn ts := by
  induction h with
  | noName | name | int | str | lower | upper | noArgument | constructor | noConstructor | nextConstructor
  | type | noDefinition => exact fun _ hp => absurd hp List.not_mem_nil
  | var hl =>
    refine List.forall_mem_singleton.mpr ⟨?_, List.nil_subset _⟩
    exact List.cons_subset.mpr ⟨textD_mem_textsOf hl, List.nil_subset _⟩
  | construct hl hparams => exact List.forall_mem_singleton.mpr (writtenIn_constructor hl hparams)
  | @branch bar arrow opening closing p e ts body rest _ hpattern _ _ _ _ ihp ihe =>
    have hts : ts ⊆ bar :: ts := List.subset_cons_self _ _
    have hbody : body ⊆ bar :: ts := fun l hl =>
      hts (hpattern.rest_subset (List.mem_cons_of_mem _ (List.mem_cons_of_mem _ hl)))
    refine List.forall_mem_cons.mpr ⟨(ihp p (List.mem_singleton.mpr rfl)).mono hts, fun q hq => ?_⟩
    exact (ihe q hq).mono hbody
  | @lastBranch b _ _ _ ih =>
    intro p hp
    rw [Phrase.patterns, Branch.patterns_cons, Branch.patterns, List.append_nil] at hp
    exact ih p hp
  | moreBranches hbranch _ ih ihs =>
    rw [Phrase.patterns, Branch.patterns_cons]
    exact hbranch.writtenIn_append ih ihs
  | case _ hscrutinee _ _ ihe ihs =>
    have hthen := hscrutinee.writtenIn_append ihe ihs
    exact fun p hp => (hthen p hp).mono (List.subset_cons_self _ _)
  | group _ _ _ ih | not _ _ ih => exact fun p hp => (ih p hp).mono (List.subset_cons_self _ _)
  | argument hatom _ ih ihs => exact hatom.writtenIn_append ih ihs
  | application hfunction _ ih ihs =>
    rw [Phrase.patterns, Expr.patterns_applyAll]
    exact hfunction.writtenIn_append ih ihs
  | applied _ ih | operand _ _ ih => exact ih
  | binary _ hleft _ _ ihl ihr =>
    exact hleft.writtenIn_append ihl fun p hp => (ihr p hp).mono (List.subset_cons_self _ _)
  | @function keyword name opening closing params e ts body rest _ hname hparams _ _ _ _ ihe =>
    have hheader : name :: ts ⊆ keyword :: name :: ts := List.subset_cons_self _ _
    have hbody : body ⊆ keyword :: name :: ts := fun l hl =>
      hheader (List.mem_cons_of_mem _ (hparams.rest_subset (List.mem_cons_of_mem _ hl)))
    refine List.forall_mem_cons.mpr ⟨(writtenIn_constructor hname hparams).mono hheader, fun p hp => ?_⟩
    exact (ihe p hp).mono hbody
  | define hfirst _ ih ihs => exact hfirst.writtenIn_append ih ihs

end Phrase.Spans

/-- All names of patterns of a program are texts of the tokens from which it is read. -/
theorem Program.writtenIn_of_readFrom {program : Program} {tokens : List Token}
    (h : ReadFrom program tokens) : ∀ p ∈ program.patterns, p.WrittenIn (tokens.map Token.toLexeme) :=
  (spans_of_readFrom h).writtenIn

/-! ## Places within an expression -/

namespace Expr

variable {e part : Expr} {step : Step} {path : List Step} {names : List String} {ts : List Lexeme}

/-- The names that are bound on one step are those of a pattern; a part has no other patterns. -/
theorem Part.patterns (h : e.Part step names part) :
    (∀ name ∈ names, ∃ p ∈ e.patterns, name ∈ p.binds) ∧ part.patterns ⊆ e.patterns := by
  cases h with
  | left | function | scrutinee => exact ⟨fun _ h => absurd h List.not_mem_nil, List.subset_append_left _ _⟩
  | right | argument => exact ⟨fun _ h => absurd h List.not_mem_nil, List.subset_append_right _ _⟩
  | operand => exact ⟨fun _ h => absurd h List.not_mem_nil, List.Subset.refl _⟩
  | @branch _ _ _ pattern body hbranch =>
    have hpatterns := Branch.patterns_of_mem (List.mem_of_getElem? hbranch)
    rw [List.cons_subset] at hpatterns
    constructor
    · exact fun name hname => ⟨pattern, List.mem_append_right _ hpatterns.1, hname⟩
    · exact fun p hp => List.mem_append_right _ (hpatterns.2 hp)

/-- What is bound on the way to a place are texts, and so are the names of the patterns there. -/
theorem Within.writtenIn (h : e.Within path names part) (he : ∀ p ∈ e.patterns, p.WrittenIn ts) :
    names ⊆ textsOf .lowerName ts ∧ ∀ p ∈ part.patterns, p.WrittenIn ts := by
  induction h with
  | here => exact ⟨List.nil_subset _, he⟩
  | part hpart _ ih =>
    obtain ⟨hbinds, hpatterns⟩ := hpart.patterns
    obtain ⟨hothers, hlast⟩ := ih fun p hp => he p (hpatterns hp)
    refine ⟨List.append_subset.mpr ⟨fun name hname => ?_, hothers⟩, hlast⟩
    obtain ⟨p, hp, hbound⟩ := hbinds name hname
    exact (he p hp).binds hbound

end Expr

end Monotype
