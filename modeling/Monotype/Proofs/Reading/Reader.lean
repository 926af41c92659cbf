import Monotype.Outcome

/-!
# `Monotype.Proofs.Reading.Reader` — readers of printed text

A reader that finds again what was printed shows that print loses nothing: two things with the same text are
what it reads there. Readers go through a text from the front. They look for a text that stands next, or take a
word, which goes on up to the next mark. So a word is read whole if a mark or nothing follows it.

Words are identifiers. Which letters and digits they are written with is left open, since print does not depend
on it. All that matters is that no mark is a letter and, where names of two sorts are printed alike, that the
names of one sort start lower and those of the other upper.

## Contents
- **`Script`**: the letters and digits of identifiers. **`Script.ascii`**.
- **`Script.Word`**, **`Script.Lower`**, **`Script.Upper`**: identifiers.
- **`Script.Spells.isMark_eq_false`**: words hold no marks.
- **`Closes`**: what may follow a part of a text.
- **`Reader`**, **`Reader.run`**, **`Reader.ifNext`**, **`Reader.whole?`**: reading from the front.
-/

namespace Monotype.Text

/-! ## Identifiers -/

/-- The characters that stand between words. -/
def isMark (c : Char) : Bool := ['(', ')', '[', ']', ',', ' ', '=', '\x22', '\x27'].contains c

/-- A text starts with a character of a class. -/
theorem exists_cons_of_any {text : List Char} {p : Char → Bool} (h : text.head?.any p = true) :
    ∃ c others, text = c :: others ∧ p c = true := by
  cases text with
  | nil => exact absurd h (by simp)
  | cons c others => exact ⟨c, others, rfl, h⟩

/-- A text whose first character is of a class is not empty. -/
theorem ne_nil_of_any {text : List Char} {p : Char → Bool} (h : text.head?.any p = true) : text ≠ [] := by
  obtain ⟨c, others, rfl, _⟩ := exists_cons_of_any h
  exact List.cons_ne_nil c others

/-- A text that starts with a word does not start with a mark. -/
theorem head?_append_ne {taken rest : List Char} (hne : taken ≠ [])
    (htaken : ∀ c ∈ taken, isMark c = false) {mark : Char} (hmark : isMark mark = true) :
    (taken ++ rest).head? ≠ some mark := by
  obtain ⟨c, others, rfl⟩ := List.exists_cons_of_ne_nil hne
  intro hhead
  have hc : isMark c = false := htaken c List.mem_cons_self
  rw [Option.some.inj hhead, hmark] at hc
  cases hc

/-- The letters and digits that identifiers are written with, and which letters are lower case and which are
upper case. Those of ASCII are the usual ones, and the underscore; beyond ASCII they may be any. -/
structure Script where
  isLower : Char → Bool
  isUpper : Char → Bool
  isWord : Char → Bool
  isLower_eq_false : ∀ c, isUpper c = true → isLower c = false
  isDigit_eq_false : ∀ c, isLower c = true ∨ isUpper c = true → c.isDigit = false
  isAlphanum_of_isWord : ∀ c, isWord c = true → c.isAlphanum = true ∨ c = '_' ∨ 128 ≤ c.toNat

namespace Script

variable {script : Script} {c low high : Char} {name : String} {text : List Char}

/-- Ranges of characters are ranges of their codes. -/
theorem inRange_iff : (decide (low.val ≤ c.val) && decide (c.val ≤ high.val)) = true ↔
    low.toNat ≤ c.toNat ∧ c.toNat ≤ high.toNat := by
  rw [Bool.and_eq_true, decide_eq_true_iff, decide_eq_true_iff]
  exact Iff.rfl

theorem isDigit_iff_toNat : c.isDigit = true ↔ 48 ≤ c.toNat ∧ c.toNat ≤ 57 :=
  show (decide ('0'.val ≤ c.val) && decide (c.val ≤ '9'.val)) = true ↔ _ from inRange_iff

theorem isLower_iff_toNat : c.isLower = true ↔ 97 ≤ c.toNat ∧ c.toNat ≤ 122 :=
  show (decide ('a'.val ≤ c.val) && decide (c.val ≤ 'z'.val)) = true ↔ _ from inRange_iff

theorem isUpper_iff_toNat : c.isUpper = true ↔ 65 ≤ c.toNat ∧ c.toNat ≤ 90 :=
  show decide ('A'.val ≤ c.val ∧ c.val ≤ 'Z'.val) = true ↔ _ from decide_eq_true_iff

/-- The letters and digits of ASCII, and the underscore. -/
def ascii : Script where
  isLower := Char.isLower
  isUpper := Char.isUpper
  isWord c := c.isAlphanum || c == '_'
  isLower_eq_false c h := by
    have hupper := isUpper_iff_toNat.mp h
    refine Bool.eq_false_iff.mpr fun hlower => ?_
    have hlower := isLower_iff_toNat.mp hlower
    omega
  isDigit_eq_false c h := by
    refine Bool.eq_false_iff.mpr fun hdigit => ?_
    have hdigit := isDigit_iff_toNat.mp hdigit
    rcases h with h | h
    · have hlower := isLower_iff_toNat.mp h
      omega
    · have hupper := isUpper_iff_toNat.mp h
      omega
  isAlphanum_of_isWord c h := by
    rcases (Bool.or_eq_true _ _).mp h with h | h
    · exact .inl h
    · exact .inr (.inl (beq_iff_eq.mp h))

/-- All characters are letters and digits. -/
def Spells (script : Script) (text : List Char) : Prop := ∀ c ∈ text, script.isWord c = true

/-- An identifier. -/
def Word (script : Script) (name : String) : Prop := name ≠ "" ∧ script.Spells name.toList

/-- An identifier that starts lower. -/
def Lower (script : Script) (name : String) : Prop :=
  name.toList.head?.any script.isLower = true ∧ script.Spells name.toList

/-- An identifier that starts upper. -/
def Upper (script : Script) (name : String) : Prop :=
  name.toList.head?.any script.isUpper = true ∧ script.Spells name.toList

-- Other instances would try all characters that there are, and not only those of the text.
instance (script : Script) (text : List Char) : Decidable (script.Spells text) :=
  List.decidableBAll (fun c => script.isWord c = true) text

instance (script : Script) (name : String) : Decidable (script.Word name) :=
  inferInstanceAs (Decidable (_ ∧ _))

instance (script : Script) (name : String) : Decidable (script.Lower name) :=
  inferInstanceAs (Decidable (_ ∧ _))

instance (script : Script) (name : String) : Decidable (script.Upper name) :=
  inferInstanceAs (Decidable (_ ∧ _))

/-- Identifiers are told from marks and signs, which are of ASCII. -/
theorem ne_of_isWord (h : script.isWord c = true) {mark : Char}
    (hmark : mark.isAlphanum = false ∧ mark ≠ '_' ∧ mark.toNat < 128) : c ≠ mark := by
  rintro rfl
  obtain ⟨halphanum, hunderscore, hascii⟩ := hmark
  rcases script.isAlphanum_of_isWord c h with h | h | h
  · exact absurd h (by simp [halphanum])
  · exact hunderscore h
  · omega

/-- **No character of an identifier is a mark**, so an identifier ends where one stands. -/
theorem isMark_eq_false (h : script.isWord c = true) : isMark c = false := by
  rw [isMark, List.contains_eq_mem, decide_eq_false_iff_not]
  intro hc
  simp only [List.mem_cons, List.not_mem_nil, or_false] at hc
  rcases hc with hc | hc | hc | hc | hc | hc | hc | hc | hc
  all_goals exact ne_of_isWord h (by decide) hc

theorem Spells.isMark_eq_false (h : script.Spells text) : ∀ c ∈ text, isMark c = false :=
  fun c hc => Script.isMark_eq_false (h c hc)

/-- A name that starts upper does not start lower. -/
theorem Upper.not_lower (h : script.Upper name) : ¬ name.toList.head?.any script.isLower = true := by
  obtain ⟨c, others, hname, hc⟩ := exists_cons_of_any h.1
  rw [hname]
  exact Bool.eq_false_iff.mp (script.isLower_eq_false c hc)

end Script

/-- Digits are not marks. -/
theorem isMark_of_isDigit {c : Char} (h : c.isDigit = true) : isMark c = false := by
  have hword : Script.ascii.isWord c = true := by
    show (c.isAlphanum || c == '_') = true
    rw [Char.isAlphanum, h, Bool.or_true, Bool.true_or]
  exact Script.isMark_eq_false hword

/-! ## What follows -/

/-- A text may follow a part of another one: it is empty, or it starts with a mark that separates or ends
parts. -/
def Closes (rest : List Char) : Prop := ∀ c ∈ rest.head?, c ∈ [',', ')', ']']

section Closes

variable {c : Char} {rest : List Char}

@[simp] theorem closes_nil : Closes [] := fun _ h => absurd h (by simp)

@[simp] theorem closes_cons_iff : Closes (c :: rest) ↔ c ∈ [',', ')', ']'] :=
  ⟨fun h => h c rfl, fun h _ hc => Option.some.inj hc ▸ h⟩

/-- What may follow a part starts with a mark. -/
theorem Closes.isMark (h : Closes rest) : ∀ c ∈ rest.head?, isMark c = true := by
  intro c hc
  have hclosing := h c hc
  simp only [List.mem_cons, List.not_mem_nil, or_false] at hclosing
  rcases hclosing with rfl | rfl | rfl
  all_goals rfl

theorem Closes.head?_ne (h : Closes rest) (hc : c ∉ [',', ')', ']']) : rest.head? ≠ some c :=
  fun hhead => hc (h c hhead)

end Closes

/-! ## Readers -/

/-- A reader takes characters from the front of a text, or fails. -/
abbrev Reader (α : Type) : Type := Run Unit (List Char) α

namespace Reader

variable {α β : Type} {found other : Reader α} {x : Reader α} {f : α → Reader β} {a : α} {p : Char → Bool}
  {c : Char} {taken text rest : List Char}

/-- All characters of a class, up to the first of another class. -/
def run (p : Char → Bool) : Reader (List Char) := fun text =>
  .ok (text.takeWhile p) (text.dropWhile p)

/-- Go on after a text if it stands next, and in another way if it does not. -/
def ifNext (text : List Char) (found other : Reader α) : Reader α := fun rest =>
  if text <+: rest then found (rest.drop text.length) else other rest

/-- A text, and nothing else. -/
def exactly (text : List Char) : Reader Unit := ifNext text (return ()) (Run.fail ())

/-- A word, up to the next mark. -/
def word : Reader (List Char) := run fun c => !isMark c

/-- What is read if the text holds nothing more. -/
def whole? (x : Reader α) (text : String) : Option α :=
  match x text.toList with
  | .ok a [] => some a
  | .ok _ (_ :: _) => none
  | .error _ _ => none
  | .endless => none

/-- A sequence reads on from where its first part has stopped. -/
theorem bind_of_ok (h : x text = .ok a rest) : (x >>= f) text = f a rest := by
  rw [Run.run_bind, h, Outcome.bind_ok]

/-- Characters of a class are taken up to the first one of another class. -/
theorem run_append (htaken : ∀ c ∈ taken, p c = true) (hrest : ∀ c ∈ rest.head?, p c = false) :
    run p (taken ++ rest) = .ok taken rest := by
  have hnone : rest.takeWhile p = [] ∧ rest.dropWhile p = rest := by
    cases rest with
    | nil => exact ⟨rfl, rfl⟩
    | cons c rest =>
      have hc : ¬ p c = true := Bool.eq_false_iff.mp (hrest c rfl)
      exact ⟨List.takeWhile_cons_of_neg hc, List.dropWhile_cons_of_neg hc⟩
  unfold run
  rw [List.takeWhile_append_of_pos htaken, List.dropWhile_append_of_pos htaken, hnone.1, hnone.2,
    List.append_nil]

/-- A word is read whole before a mark. -/
theorem word_append (htaken : ∀ c ∈ taken, isMark c = false)
    (hrest : ∀ c ∈ rest.head?, isMark c = true) : word (taken ++ rest) = .ok taken rest :=
  run_append (fun c hc => by rw [htaken c hc]; rfl) (fun c hc => by rw [hrest c hc]; rfl)

/-- A text that stands next is passed by. -/
theorem ifNext_append : ifNext text found other (text ++ rest) = found rest := by
  unfold ifNext
  rw [if_pos (List.prefix_append text rest), List.drop_left]

/-- A text does not stand next if its first character does not. -/
theorem ifNext_of_head_ne (h : rest.head? ≠ some c) :
    ifNext (c :: text) found other rest = other rest := by
  refine if_neg ?_
  rintro ⟨tail, rfl⟩
  exact h rfl

theorem whole?_of_ok {text : String} (h : x text.toList = .ok a []) : x.whole? text = some a := by
  unfold whole?
  rw [h]

theorem exactly_append : exactly text (text ++ rest) = .ok () rest := ifNext_append

end Reader

end Monotype.Text
