import Monotype.Program.Tree
import Monotype.Proofs.Reading.Reader
import Monotype.Proofs.Text.Integer

/-!
# `Monotype.Proofs.Reading.Trees` — expressions read back from tree notation

In tree notation a node is a word and a parenthesis, and the word says how many parts there are. It may be the
name of a constructor as well, but after that no parenthesis follows. The branches of a case are separated by
the same comma as the two parts of a node; which one is meant shows by the bracket that was opened last. Texts
in quotes may hold any of these marks, but no further quote, so they are taken as a whole.

With names that start lower for references and for what patterns bind, and names that start upper for
constructors, each leaf shows its kind by its first character. So a reader finds the expression again.

## Contents
- **`Expr.Legible`**: names are identifiers, and texts stand in quotes.
- **`Expr.Node`**: the words before parentheses.
- **`Pattern.reader`**, **`Expr.reader`**, **`Expr.ofTree?`**: reading tree notation.
- **`Pattern.reader_tree`**, **`Expr.reads_of_legible`**: what is written is read.
- **`Expr.tree_eq_iff`**.
-/

namespace Monotype

open Text

/-! ## Names and quotes -/

/-- A text that starts and ends with a quote, and has no other. -/
def Quoted (text : String) : Prop :=
  ∃ body, text.toList = '\x22' :: (body ++ ['\x22']) ∧ '\x22' ∉ body

/-- What a pattern binds starts lower, and the constructor that it names starts upper. -/
def Pattern.Legible (script : Script) : Pattern → Prop
  | var name => script.Lower name
  | constructor name params => script.Upper name ∧ ∀ param ∈ params, script.Lower param

mutual

/-- References to names of the two sorts start lower and upper, texts stand in quotes, and so it is in all
branches, with their patterns. -/
def Expr.Legible (script : Script) : Expr → Prop
  | .int _ => True
  | .str text => Quoted text
  | .lower name => script.Lower name
  | .upper name => script.Upper name
  | .binary _ left right => left.Legible script ∧ right.Legible script
  | .unary _ operand => operand.Legible script
  | .apply function argument => function.Legible script ∧ argument.Legible script
  | .case scrutinee branches => scrutinee.Legible script ∧ Branch.AllLegible script branches

/-- The patterns of branches are legible, and their bodies. -/
def Branch.AllLegible (script : Script) : List Branch → Prop
  | [] => True
  | ⟨pattern, body⟩ :: others =>
    pattern.Legible script ∧ body.Legible script ∧ Branch.AllLegible script others

end

/-! ## Patterns -/

/-- What stands in a list of words is a separator or stands in a word. -/
theorem eq_or_mem_of_mem_intercalate {c separator : Char} {words : List (List Char)}
    (h : c ∈ [separator].intercalate words) : c = separator ∨ ∃ word ∈ words, c ∈ word := by
  induction words with
  | nil => exact absurd h List.not_mem_nil
  | cons first words ih =>
    cases words with
    | nil =>
      rw [List.intercalate_singleton] at h
      exact .inr ⟨first, List.mem_cons_self, h⟩
    | cons second words =>
      rw [List.intercalate_cons_cons] at h
      rcases List.mem_append.mp h with h | h
      · rcases List.mem_append.mp h with h | h
        · exact .inr ⟨first, List.mem_cons_self, h⟩
        · exact .inl (List.mem_singleton.mp h)
      · rcases ih h with h | ⟨word, hword, h⟩
        · exact .inl h
        · exact .inr ⟨word, List.mem_cons_of_mem _ hword, h⟩

namespace Pattern

variable {script : Script} {pattern : Pattern} {rest : List Char}

/-- The names of a pattern, in order. -/
def words : Pattern → List (List Char)
  | var name => [name.toList]
  | constructor name params => name.toList :: params.map String.toList

/-- The pattern with given names: a variable if the first one starts lower. -/
def ofWords (script : Script) : List (List Char) → Pattern
  | [] => var ""
  | first :: others =>
    if first.head?.any script.isLower then var (String.ofList first)
    else constructor (String.ofList first) (others.map String.ofList)

instance (script : Script) : (pattern : Pattern) → Decidable (pattern.Legible script)
  | var name => inferInstanceAs (Decidable (script.Lower name))
  | constructor _ _ => inferInstanceAs (Decidable (_ ∧ _))

/-- A pattern goes up to the arrow. There is a blank after each of its names. -/
def reader (script : Script) : Reader Pattern := do
  let text ← .run (· != '=')
  .exactly ['=', '>', ' ']
  return ofWords script (text.dropLast.splitOn ' ')

/-- A pattern is printed as its names, with blanks between them. -/
theorem toList_tree (pattern : Pattern) : pattern.tree.toList = [' '].intercalate pattern.words := by
  cases pattern with
  | var name => exact List.intercalate_singleton.symm
  | constructor name params =>
    induction params generalizing name with
    | nil => exact List.intercalate_singleton.symm
    | cons param params ih =>
      show (tree (constructor (name ++ " " ++ param) params)).toList = _
      rw [ih]
      cases params with
      | nil => simp [words, String.toList_append, List.intercalate_cons_cons]
      | cons next others => simp [words, String.toList_append, List.intercalate_cons_cons]

theorem forall_mem_words (h : pattern.Legible script) :
    ∀ word ∈ pattern.words, script.Spells word := by
  cases pattern with
  | var name => exact List.forall_mem_singleton.mpr h.2
  | constructor name params =>
    refine List.forall_mem_cons.mpr ⟨h.1.2, List.forall_mem_map.mpr fun param hparam => ?_⟩
    exact (h.2 param hparam).2

/-- **A pattern is told from its names**, and whether it is a variable by how the first one starts. -/
theorem ofWords_words (h : pattern.Legible script) : ofWords script pattern.words = pattern := by
  cases pattern with
  | var name =>
    rw [words, ofWords, if_pos h.1, String.ofList_toList]
  | constructor name params =>
    have hparams : (params.map String.toList).map String.ofList = params := by
      rw [List.map_map]
      exact List.map_id'' (fun param => String.ofList_toList) params
    rw [words, ofWords, if_neg h.1.not_lower, String.ofList_toList, hparams]

/-- No name, and nothing between names, looks like the arrow after a pattern. -/
theorem ne_of_mem_tree (h : pattern.Legible script) :
    ∀ c ∈ pattern.tree.toList ++ [' '], (c != '=') = true := by
  rw [toList_tree]
  have hwords := forall_mem_words h
  generalize pattern.words = words at hwords ⊢
  intro c hc
  refine bne_iff_ne.mpr ?_
  rcases List.mem_append.mp hc with hc | hc
  · rcases eq_or_mem_of_mem_intercalate hc with rfl | ⟨word, hword, hc⟩
    · decide
    · exact Script.ne_of_isWord (hwords word hword c hc) (by decide)
  · rw [List.mem_singleton.mp hc]
    decide

/-- A pattern starts with a name. -/
theorem Legible.head?_tree_ne (h : pattern.Legible script) {mark : Char} (hmark : isMark mark = true) :
    (pattern.tree.toList ++ rest).head? ≠ some mark := by
  rw [toList_tree]
  cases pattern with
  | var name =>
    rw [words, List.intercalate_singleton]
    exact head?_append_ne (ne_nil_of_any h.1) h.2.isMark_eq_false hmark
  | constructor name params =>
    cases params with
    | nil =>
      rw [words, List.map_nil, List.intercalate_singleton]
      exact head?_append_ne (ne_nil_of_any h.1.1) h.1.2.isMark_eq_false hmark
    | cons param params =>
      rw [words, List.map_cons, List.intercalate_cons_cons, List.append_assoc, List.append_assoc]
      exact head?_append_ne (ne_nil_of_any h.1.1) h.1.2.isMark_eq_false hmark

/-- **A pattern is read up to the arrow after it.** -/
theorem reader_tree (h : pattern.Legible script) :
    reader script (pattern.tree.toList ++ ' ' :: (['=', '>', ' '] ++ rest)) = .ok pattern rest := by
  have hne : pattern.words ≠ [] := by cases pattern <;> exact List.cons_ne_nil _ _
  have hblank : ∀ word ∈ pattern.words, ' ' ∉ word := fun word hword hc =>
    Script.ne_of_isWord (forall_mem_words h word hword ' ' hc) (by decide) rfl
  have hsplit : (pattern.tree.toList ++ [' ']).dropLast.splitOn ' ' = pattern.words := by
    rw [List.dropLast_concat, toList_tree]
    exact List.splitOn_intercalate ' ' hblank hne
  have hrun : Reader.run (· != '=') ((pattern.tree.toList ++ [' ']) ++ (['=', '>', ' '] ++ rest)) = _ :=
    Reader.run_append (ne_of_mem_tree h) (by simp)
  rw [List.append_assoc, List.singleton_append] at hrun
  rw [reader, Reader.bind_of_ok hrun, Reader.bind_of_ok Reader.exactly_append, hsplit, ofWords_words h]
  rfl

end Pattern

/-! ## Reading expressions -/

namespace Expr

/-- The words before parentheses. -/
inductive Node where
  | binary (op : BinaryOperator)
  | unary (op : UnaryOperator)
  | apply
  | case
deriving DecidableEq

namespace Node

/-- Every word before a parenthesis once. -/
def all : List Node := BinaryOperator.all.map binary ++ UnaryOperator.all.map unary ++ [apply, case]

/-- The letters of a word before a parenthesis. -/
def word : Node → List Char
  | binary op => op.name.toList
  | unary op => op.name.toList
  | apply => ['A', 'P', 'P', 'L', 'Y']
  | case => ['C', 'A', 'S', 'E']

/-- What has a word before its parenthesis. -/
def ofWord? (word : List Char) : Option Node := all.find? fun node => node.word == word

theorem mem_all (node : Node) : node ∈ all := by
  cases node with
  | binary op => exact List.mem_append_left _ (List.mem_append_left _ (List.mem_map_of_mem op.mem_all))
  | unary op => cases op; decide
  | apply => decide
  | case => decide

/-- **The word of a node tells which one it is.** -/
theorem ofWord?_word (node : Node) : ofWord? node.word = some node := by
  have hall : ∀ node ∈ all, ofWord? node.word = some node := by decide
  exact hall node node.mem_all

theorem word_ne_nil (node : Node) : node.word ≠ [] := by
  have hall : ∀ node ∈ all, node.word ≠ [] := by decide
  exact hall node node.mem_all

/-- The word of a node has no mark in it, and so ends at the parenthesis. -/
theorem spells_word (node : Node) : Script.ascii.Spells node.word := by
  have hall : ∀ node ∈ all, Script.ascii.Spells node.word := by decide
  exact hall node node.mem_all

end Node

/-- What a word writes that is no node: an integer if it can be read as one, else a reference. -/
def ofWord (script : Script) (word : List Char) : Expr :=
  match Integer.signedValue? word with
  | some value => int value
  | none =>
    if word.head?.any script.isLower then lower (String.ofList word) else upper (String.ofList word)

/-- A text up to the quote that closes it. -/
def quoted : Reader Expr := do
  let body ← .run (· != '\x22')
  .exactly ['\x22']
  return str (String.ofList ('\x22' :: (body ++ ['\x22'])))

/-- The two parts of a node. -/
def pair (part : Reader Expr) : Reader (Expr × Expr) := do
  let first ← part
  .exactly [',', ' ']
  let second ← part
  .exactly [')']
  return (first, second)

/-- The parts of a node, up to its closing parenthesis. -/
def parts (part : Reader Expr) (branches : Reader (List Branch)) : Node → Reader Expr
  | .binary op => do
    let (left, right) ← pair part
    return binary op left right
  | .unary op => do
    let operand ← part
    .exactly [')']
    return unary op operand
  | .apply => do
    let (function, argument) ← pair part
    return apply function argument
  | .case => do
    let scrutinee ← part
    .exactly [',', ' ', '[']
    .ifNext [']', ')'] (return case scrutinee []) (do
      let branches ← branches
      .exactly [']', ')']
      return case scrutinee branches)

mutual

/-- An expression with a text shorter than a bound. -/
def reader (script : Script) : Nat → Reader Expr
  | 0 => Run.fail ()
  | bound + 1 =>
    .ifNext ['\x22'] quoted (do
      let word ← .word
      .ifNext ['('] (match Node.ofWord? word with
        | some node => parts (reader script bound) (branchesReader script bound) node
        | none => Run.fail ()) (return ofWord script word))

/-- One branch or more, with texts shorter than a bound in all. -/
def branchesReader (script : Script) : Nat → Reader (List Branch)
  | 0 => Run.fail ()
  | bound + 1 => do
    let pattern ← Pattern.reader script
    let body ← reader script bound
    .ifNext [',', ' '] (do
      let others ← branchesReader script bound
      return ⟨pattern, body⟩ :: others) (return [⟨pattern, body⟩])

end

/-- The expression that a whole text writes. -/
def ofTree? (script : Script) (text : String) : Option Expr :=
  (reader script (text.toList.length + 1)).whole? text

/-! ## Texts -/

/-- The text of the branches of a case. -/
def branchesText (branches : List Branch) : List Char := (", ".intercalate (Branch.trees branches)).toList

theorem toList_tree_binary (op : BinaryOperator) (left right : Expr) : (binary op left right).tree.toList =
    (Node.binary op).word ++ (['('] ++
      (left.tree.toList ++ ([',', ' '] ++ (right.tree.toList ++ [')'])))) := by
  simp [tree, Node.word, String.toList_append]

theorem toList_tree_unary (op : UnaryOperator) (operand : Expr) : (unary op operand).tree.toList =
    (Node.unary op).word ++ (['('] ++ (operand.tree.toList ++ [')'])) := by
  simp [tree, Node.word, String.toList_append]

theorem toList_tree_apply (function argument : Expr) : (apply function argument).tree.toList =
    Node.apply.word ++ (['('] ++
      (function.tree.toList ++ ([',', ' '] ++ (argument.tree.toList ++ [')'])))) := by
  simp [tree, Node.word, String.toList_append]

/-- What is printed for a case: the scrutinee, and a list of branches. -/
theorem toList_tree_case (scrutinee : Expr) (branches : List Branch) : (case scrutinee branches).tree.toList =
    Node.case.word ++ (['('] ++
      (scrutinee.tree.toList ++ ([',', ' ', '['] ++ (branchesText branches ++ [']', ')'])))) := by
  simp [tree, Node.word, String.toList_append, branchesText]

theorem branchesText_singleton (pattern : Pattern) (body : Expr) :
    branchesText [⟨pattern, body⟩] = pattern.tree.toList ++ ' ' :: (['=', '>', ' '] ++ body.tree.toList) := by
  simp [branchesText, Branch.trees, String.toList_append]

/-- Branches are separated by commas. -/
theorem branchesText_cons_cons (pattern : Pattern) (body : Expr) (next : Branch) (others : List Branch) :
    branchesText (⟨pattern, body⟩ :: next :: others) = pattern.tree.toList ++
      ' ' :: (['=', '>', ' '] ++ (body.tree.toList ++ ([',', ' '] ++ branchesText (next :: others)))) := by
  obtain ⟨nextPattern, nextBody⟩ := next
  simp [branchesText, Branch.trees, String.toList_append]

/-! ## What is written is read -/

variable {script : Script} {e e' first second : Expr} {part : Reader Expr} {branches : Reader (List Branch)}
  {word text rest : List Char} {bound : Nat}

/-- The text of an integer is read as the integer, and not as a name. -/
theorem ofWord_int (value : Int) : ofWord script (toString value).toList = int value := by
  rw [ofWord, Integer.signedValue?_toString]

/-- An identifier that starts with a letter is not read as an integer. -/
theorem signedValue?_eq_none (hword : script.Spells word)
    (hhead : ∃ c others, word = c :: others ∧ (script.isLower c = true ∨ script.isUpper c = true)) :
    Integer.signedValue? word = none := by
  obtain ⟨c, others, rfl, hc⟩ := hhead
  refine Option.eq_none_iff_forall_not_mem.mpr fun value hvalue => ?_
  obtain ⟨-, hchars⟩ := (Integer.signedValue?_eq_some_iff.mp hvalue).isDigit_or_sign
  have hcword : script.isWord c = true := hword c List.mem_cons_self
  rcases hchars c List.mem_cons_self with hdigit | hsign | hsign
  · rw [script.isDigit_eq_false c hc] at hdigit
    cases hdigit
  · exact Script.ne_of_isWord hcword (by decide) hsign
  · exact Script.ne_of_isWord hcword (by decide) hsign

/-- A name that starts lower is no number, and is read as a name that starts lower. -/
theorem ofWord_lower {name : String} (h : script.Lower name) : ofWord script name.toList = lower name := by
  obtain ⟨c, others, hname, hc⟩ := exists_cons_of_any h.1
  rw [ofWord, signedValue?_eq_none h.2 ⟨c, others, hname, .inl hc⟩]
  show (if _ then _ else _) = _
  rw [if_pos h.1, String.ofList_toList]

theorem ofWord_upper {name : String} (h : script.Upper name) : ofWord script name.toList = upper name := by
  obtain ⟨c, others, hname, hc⟩ := exists_cons_of_any h.1
  rw [ofWord, signedValue?_eq_none h.2 ⟨c, others, hname, .inr hc⟩]
  show (if _ then _ else _) = _
  rw [if_neg h.not_lower, String.ofList_toList]

/-- A reader takes an expression from its text, wherever the text may stand. -/
def Reads (part : Reader Expr) (e : Expr) : Prop :=
  ∀ rest, Closes rest → part (e.tree.toList ++ rest) = .ok e rest

/-- A word that is no node is read whole. -/
theorem reads_of_word (hne : e.tree.toList ≠ []) (hword : ∀ c ∈ e.tree.toList, isMark c = false)
    (he : ofWord script e.tree.toList = e) : Reads (reader script (bound + 1)) e := by
  intro rest hrest
  have hquote : (e.tree.toList ++ rest).head? ≠ some '\x22' := head?_append_ne hne hword rfl
  have hparen : rest.head? ≠ some '(' := hrest.head?_ne (by decide)
  rw [reader, Reader.ifNext_of_head_ne hquote, Reader.bind_of_ok (Reader.word_append hword hrest.isMark),
    Reader.ifNext_of_head_ne hparen, he]
  rfl

/-- An integer is read up to the next mark. -/
theorem reads_int (value : Int) : Reads (reader script (bound + 1)) (int value) := by
  obtain ⟨hne, hchars⟩ :=
    (Integer.signedValue?_eq_some_iff.mp (Integer.signedValue?_toString value)).isDigit_or_sign
  refine reads_of_word hne (fun c hc => ?_) (ofWord_int value)
  rcases hchars c hc with hdigit | rfl | rfl
  · exact isMark_of_isDigit hdigit
  · rfl
  · rfl

theorem reads_lower {name : String} (h : script.Lower name) :
    Reads (reader script (bound + 1)) (lower name) :=
  reads_of_word (ne_nil_of_any h.1) h.2.isMark_eq_false (ofWord_lower h)

theorem reads_upper {name : String} (h : script.Upper name) :
    Reads (reader script (bound + 1)) (upper name) :=
  reads_of_word (ne_nil_of_any h.1) h.2.isMark_eq_false (ofWord_upper h)

/-- A text in quotes goes up to the second quote, whatever marks stand in it. -/
theorem reads_str {text : String} (h : Quoted text) : Reads (reader script (bound + 1)) (str text) := by
  intro rest _
  obtain ⟨body, htext, hbody⟩ := h
  have hrun : Reader.run (· != '\x22') (body ++ (['\x22'] ++ rest)) = .ok body (['\x22'] ++ rest) :=
    Reader.run_append (fun c hc => bne_iff_ne.mpr fun hquote => hbody (hquote ▸ hc)) (by simp)
  have hsplit : (str text).tree.toList ++ rest = ['\x22'] ++ (body ++ (['\x22'] ++ rest)) := by
    simp [tree, htext]
  rw [hsplit, reader, Reader.ifNext_append, quoted, Reader.bind_of_ok hrun,
    Reader.bind_of_ok Reader.exactly_append, ← htext, String.ofList_toList]
  rfl

/-- After the word of a node and a parenthesis come its parts. -/
theorem reads_of_node {node : Node} (htext : e.tree.toList = node.word ++ (['('] ++ text))
    (hparts : ∀ rest, parts (reader script bound) (branchesReader script bound) node (text ++ rest) =
      .ok e rest) : Reads (reader script (bound + 1)) e := by
  intro rest _
  have hquote : (node.word ++ (['('] ++ (text ++ rest))).head? ≠ some '\x22' :=
    head?_append_ne node.word_ne_nil node.spells_word.isMark_eq_false rfl
  have hword : Reader.word (node.word ++ (['('] ++ (text ++ rest))) = .ok node.word _ :=
    Reader.word_append node.spells_word.isMark_eq_false (by simp [isMark])
  rw [htext, List.append_assoc, List.append_assoc, reader, Reader.ifNext_of_head_ne hquote,
    Reader.bind_of_ok hword, Reader.ifNext_append, Node.ofWord?_word]
  exact hparts rest

/-- Two parts are read up to the parenthesis that closes them. -/
theorem pair_append (hfirst : Reads part first) (hsecond : Reads part second) :
    pair part (first.tree.toList ++ ([',', ' '] ++ (second.tree.toList ++ [')'])) ++ rest) =
      .ok (first, second) rest := by
  simp only [List.append_assoc]
  rw [pair, Reader.bind_of_ok (hfirst _ (by simp)), Reader.bind_of_ok Reader.exactly_append,
    Reader.bind_of_ok (hsecond _ (by simp)), Reader.bind_of_ok Reader.exactly_append]
  rfl

/-- An operation is read if its operands are. -/
theorem reads_binary (op : BinaryOperator) (hfirst : Reads (reader script bound) first)
    (hsecond : Reads (reader script bound) second) :
    Reads (reader script (bound + 1)) (binary op first second) := by
  refine reads_of_node (toList_tree_binary op first second) fun rest => ?_
  rw [parts, Reader.bind_of_ok (pair_append hfirst hsecond)]
  rfl

theorem reads_apply (hfirst : Reads (reader script bound) first)
    (hsecond : Reads (reader script bound) second) :
    Reads (reader script (bound + 1)) (apply first second) := by
  refine reads_of_node (toList_tree_apply first second) fun rest => ?_
  rw [parts, Reader.bind_of_ok (pair_append hfirst hsecond)]
  rfl

theorem reads_unary (op : UnaryOperator) (hpart : Reads (reader script bound) first) :
    Reads (reader script (bound + 1)) (unary op first) := by
  refine reads_of_node (toList_tree_unary op first) fun rest => ?_
  rw [List.append_assoc, parts, Reader.bind_of_ok (hpart _ (by simp)),
    Reader.bind_of_ok Reader.exactly_append]
  rfl

/-! ## Branches -/

/-- A reader takes branches from their text, as it stands before the end of a case. -/
def ReadsAll (part : Reader (List Branch)) (branches : List Branch) : Prop :=
  ∀ rest, part (branchesText branches ++ ([']', ')'] ++ rest)) = .ok branches ([']', ')'] ++ rest)

/-- Branches do not start like the end of a case. -/
theorem head?_branchesText_ne {branches : List Branch} (h : Branch.AllLegible script branches)
    (hne : branches ≠ []) : (branchesText branches ++ rest).head? ≠ some ']' := by
  match branches, hne, h with
  | [⟨pattern, body⟩], _, h =>
    rw [branchesText_singleton, List.append_assoc]
    exact h.1.head?_tree_ne rfl
  | ⟨pattern, body⟩ :: next :: others, _, h =>
    rw [branchesText_cons_cons, List.append_assoc]
    exact h.1.head?_tree_ne rfl

theorem readsAll_singleton {pattern : Pattern} {body : Expr} (hpattern : pattern.Legible script)
    (hbody : Reads (reader script bound) body) :
    ReadsAll (branchesReader script (bound + 1)) [⟨pattern, body⟩] := by
  intro rest
  rw [branchesText_singleton, List.append_assoc, List.cons_append, List.append_assoc, branchesReader,
    Reader.bind_of_ok (Pattern.reader_tree hpattern), Reader.bind_of_ok (hbody _ (by simp)),
    Reader.ifNext_of_head_ne (by simp)]
  rfl

theorem readsAll_cons {pattern : Pattern} {body : Expr} {next : Branch} {others : List Branch}
    (hpattern : pattern.Legible script) (hbody : Reads (reader script bound) body)
    (hothers : ReadsAll (branchesReader script bound) (next :: others)) :
    ReadsAll (branchesReader script (bound + 1)) (⟨pattern, body⟩ :: next :: others) := by
  intro rest
  rw [branchesText_cons_cons, List.append_assoc, List.cons_append, List.append_assoc, List.append_assoc,
    List.append_assoc, branchesReader, Reader.bind_of_ok (Pattern.reader_tree hpattern),
    Reader.bind_of_ok (hbody _ (by simp)), Reader.ifNext_append, Reader.bind_of_ok (hothers _)]
  rfl

/-- **A case is read if its parts are.** Its list may be empty, as no program has it but a tree can. -/
theorem reads_case {scrutinee : Expr} {branches : List Branch}
    (hscrutinee : Reads (reader script bound) scrutinee) (hlegible : Branch.AllLegible script branches)
    (hbranches : branches ≠ [] → ReadsAll (branchesReader script bound) branches) :
    Reads (reader script (bound + 1)) (case scrutinee branches) := by
  refine reads_of_node (toList_tree_case scrutinee branches) fun rest => ?_
  simp only [List.append_assoc]
  rw [parts, Reader.bind_of_ok (hscrutinee _ (by simp)), Reader.bind_of_ok Reader.exactly_append]
  by_cases hne : branches = []
  · -- the closing bracket stands where the first pattern would
    subst hne
    show Reader.ifNext [']', ')'] _ _ ([']', ')'] ++ rest) = _
    rw [Reader.ifNext_append]
    rfl
  · rw [Reader.ifNext_of_head_ne (head?_branchesText_ne hlegible hne), Reader.bind_of_ok (hbranches hne _),
      Reader.bind_of_ok Reader.exactly_append]
    rfl

/-! ## All expressions -/

mutual

/-- **An expression is read from its tree notation.** The induction is on the expression, and each part has a
shorter text than the whole. -/
theorem reads_of_legible : ∀ (e : Expr) {bound : Nat}, e.Legible script → e.tree.toList.length < bound →
    Reads (reader script bound) e
  | .int value, bound + 1, _, _ => reads_int value
  | .str text, bound + 1, h, _ => reads_str h
  | .lower name, bound + 1, h, _ => reads_lower h
  | .upper name, bound + 1, h, _ => reads_upper h
  | .binary op left right, bound + 1, h, hbound => by
    simp only [toList_tree_binary, List.length_append, List.length_cons] at hbound
    exact reads_binary op (reads_of_legible left h.1 (by omega)) (reads_of_legible right h.2 (by omega))
  | .unary op operand, bound + 1, h, hbound => by
    simp only [toList_tree_unary, List.length_append, List.length_cons] at hbound
    exact reads_unary op (reads_of_legible operand h (by omega))
  | .apply function argument, bound + 1, h, hbound => by
    simp only [toList_tree_apply, List.length_append, List.length_cons] at hbound
    exact reads_apply (reads_of_legible function h.1 (by omega)) (reads_of_legible argument h.2 (by omega))
  | .case scrutinee branches, bound + 1, h, hbound => by
    simp only [toList_tree_case, List.length_append, List.length_cons] at hbound
    exact reads_case (reads_of_legible scrutinee h.1 (by omega)) h.2
      (readsAll_of_legible branches h.2 (by omega))

/-- The same for the branches of a case, if there are any. -/
theorem readsAll_of_legible : ∀ (branches : List Branch) {bound : Nat},
    Branch.AllLegible script branches → (branchesText branches).length < bound → branches ≠ [] →
    ReadsAll (branchesReader script bound) branches
  | [⟨pattern, body⟩], bound + 1, h, hbound, _ => by
    simp only [branchesText_singleton, List.length_append, List.length_cons] at hbound
    exact readsAll_singleton h.1 (reads_of_legible body h.2.1 (by omega))
  | ⟨pattern, body⟩ :: next :: others, bound + 1, h, hbound, _ => by
    simp only [branchesText_cons_cons, List.length_append, List.length_cons] at hbound
    exact readsAll_cons h.1 (reads_of_legible body h.2.1 (by omega))
      (readsAll_of_legible (next :: others) h.2.2 (by omega) (List.cons_ne_nil _ _))

end

/-- A whole text in tree notation is read back. -/
theorem ofTree?_tree (h : e.Legible script) : ofTree? script e.tree = some e := by
  have hread : reader script (e.tree.toList.length + 1) (e.tree.toList ++ []) = .ok e [] :=
    reads_of_legible e h (Nat.lt_succ_self _) [] closes_nil
  rw [List.append_nil] at hread
  exact Reader.whole?_of_ok hread

/-- **Tree notation is unambiguous.** Two expressions have the same text only if they are the same, however
their nodes, branches and texts in quotes are nested. -/
theorem tree_eq_iff {script : Script} {e e' : Expr} (h : e.Legible script) (h' : e'.Legible script) :
    e.tree = e'.tree ↔ e = e' := by
  constructor
  · intro htree
    have hread : some e = some e' := by rw [← ofTree?_tree h, htree, ofTree?_tree h']
    exact Option.some.inj hread
  · exact congrArg tree

/-- Two branches, and one branch with a text that looks as if another one followed. -/
theorem tree_ne_of_quoted_branch :
    let two := case (lower "l") [⟨.constructor "Cons" ["h", "t"], str "\"a\""⟩, ⟨.var "d", upper "PLUS"⟩]
    let one := case (lower "l") [⟨.constructor "Cons" ["h", "t"], str "\"a, d => PLUS\""⟩]
    two.Legible .ascii ∧ one.Legible .ascii ∧ two.tree ≠ one.tree := by
  intro two one
  have hl : Script.ascii.Lower "l" := by decide
  have hcons : (Pattern.constructor "Cons" ["h", "t"]).Legible .ascii := by decide
  have hd : (Pattern.var "d").Legible .ascii := by decide
  have hplus : Script.ascii.Upper "PLUS" := by decide
  have htwo : two.Legible .ascii := ⟨hl, hcons, ⟨['a'], rfl, by decide⟩, hd, hplus, trivial⟩
  have hone : one.Legible .ascii := ⟨hl, hcons, ⟨"a, d => PLUS".toList, by decide, by decide⟩, trivial⟩
  refine ⟨htwo, hone, fun htree => ?_⟩
  have heq : two = one := (tree_eq_iff htwo hone).mp htree
  simp [two, one] at heq

/-- A lone quote would not do as a text: with it, two sums have the same notation. -/
example : (binary .plus (str "\", \"") (str "\"")).tree = (binary .plus (str "\"") (str "\", \"")).tree := by
  decide

end Expr

end Monotype
