import Monotype.Proofs.Reading.Reader
import Monotype.Proofs.Text.Integer
import Monotype.Typing.Check

/-!
# `Monotype.Proofs.Reading.Types` — types read back from print

Of the arrows of a type only those that stand to the left of another arrow are put in parentheses. What is on
the left of an arrow is so either in parentheses or without any arrow at all, and the first arrow outside
parentheses is the one at the root. A reader that follows this finds the type again, however deep its arrows
are nested on either side, with its base types and the numbers of its variables. So a text is the text of one
type only.

## Contents
- **`Ty.Named`**: the base types are named by identifiers.
- **`Ty.operand`**, **`Ty.reader`**: reading a type. **`Ty.ofText?`**, **`Signature.ofText?`**: whole texts.
- **`Ty.reader_pretty`**: what is printed is read.
- **`Ty.pretty_unambiguous`**.
-/

namespace Monotype

open Text

namespace Ty

/-- All base types are named by identifiers. -/
def Named (script : Script) : Ty → Prop
  | var _ => True
  | base name => script.Word name
  | arrow domain codomain => domain.Named script ∧ codomain.Named script

instance decidableNamed (script : Script) : ∀ t : Ty, Decidable (t.Named script)
  | var _ => isTrue trivial
  | base name => inferInstanceAs (Decidable (script.Word name))
  | arrow domain codomain =>
    have := decidableNamed script domain
    have := decidableNamed script codomain
    inferInstanceAs (Decidable (_ ∧ _))

/-! ## Reading -/

/-- What stands between the sides of an arrow. -/
def arrowSign : List Char := [' ', '-', '>', ' ']

/-- What stands before the number of a variable. -/
def varSign : List Char := ['\x27', 't']

/-- A type without an arrow, or any type in parentheses. -/
def operand (inner : Reader Ty) : Reader Ty :=
  .ifNext ['('] (do
    let t ← inner
    .exactly [')']
    return t) <|
  .ifNext varSign (do
    let digits ← .word
    match Integer.digitsValue? digits with
    | some id => return var id
    | none => Run.fail ()) <| do
  let name ← .word
  return base (String.ofList name)

/-- A type with a text shorter than a bound. What follows an arrow is the whole rest of the type. -/
def reader : Nat → Reader Ty
  | 0 => Run.fail ()
  | bound + 1 => do
    let domain ← operand (reader bound)
    .ifNext arrowSign (do
      let codomain ← reader bound
      return arrow domain codomain) (return domain)

/-- The type that a whole text writes. -/
def ofText? (text : String) : Option Ty := (reader (text.toList.length + 1)).whole? text

/-! ## What is printed is read -/

variable {script : Script} {t u domain codomain : Ty} {inner : Reader Ty} {rest : List Char} {bound : Nat}

/-- The text of a type on the left of an arrow. -/
def asDomain (t : Ty) : List Char :=
  if t.isArrow then '(' :: (t.pretty.toList ++ [')']) else t.pretty.toList

theorem toList_pretty_var (id : Nat) : (var id).pretty.toList = varSign ++ Nat.toDigits 10 id := by
  show ("'t" ++ Nat.repr id).toList = _
  rw [String.toList_append, Nat.toList_repr]
  rfl

/-- What is printed for an arrow. The domain is in parentheses if it is an arrow itself. -/
theorem toList_pretty_arrow :
    (arrow domain codomain).pretty.toList = domain.asDomain ++ (arrowSign ++ codomain.pretty.toList) := by
  rw [pretty, asDomain]
  split
  · simp [String.toList_append, arrowSign]
  · simp [String.toList_append, arrowSign]

theorem length_pretty_le_asDomain (t : Ty) : t.pretty.toList.length ≤ t.asDomain.length := by
  unfold asDomain
  split
  · simp only [List.length_cons, List.length_append]
    omega
  · exact Nat.le_refl _

/-- A variable is read back by its sign and its digits. -/
theorem operand_var (id : Nat) (hrest : ∀ c ∈ rest.head?, isMark c = true) :
    operand inner ((var id).pretty.toList ++ rest) = .ok (var id) rest := by
  have hvalue : Integer.digitsValue? (Nat.toDigits 10 id) = some id := Integer.digitsValue?_toDigits id
  have hdigits : ∀ c ∈ Nat.toDigits 10 id, isMark c = false := fun c hc =>
    isMark_of_isDigit ((Integer.digitsValue?_eq_some_iff.mp hvalue).2.1 c hc)
  have hparen : (varSign ++ (Nat.toDigits 10 id ++ rest)).head? ≠ some '(' := by simp [varSign]
  rw [toList_pretty_var, List.append_assoc, operand, Reader.ifNext_of_head_ne hparen, Reader.ifNext_append,
    Reader.bind_of_ok (Reader.word_append hdigits hrest), hvalue]
  rfl

theorem operand_base {name : String} (hname : script.Word name)
    (hrest : ∀ c ∈ rest.head?, isMark c = true) :
    operand inner ((base name).pretty.toList ++ rest) = .ok (base name) rest := by
  have hne : name.toList ≠ [] := fun h => hname.1 (String.toList_eq_nil_iff.mp h)
  have hmarks : ∀ c ∈ name.toList, isMark c = false := hname.2.isMark_eq_false
  have hparen : (name.toList ++ rest).head? ≠ some '(' := head?_append_ne hne hmarks rfl
  have hquote : (name.toList ++ rest).head? ≠ some '\x27' := head?_append_ne hne hmarks rfl
  rw [pretty, operand, Reader.ifNext_of_head_ne hparen, varSign, Reader.ifNext_of_head_ne hquote,
    Reader.bind_of_ok (Reader.word_append hmarks hrest), String.ofList_toList]
  rfl

/-- A type is read before a mark from how it stands on the left of an arrow, if it is read in parentheses. -/
theorem operand_asDomain (ht : t.Named script)
    (hinner : inner (t.pretty.toList ++ ')' :: rest) = .ok t (')' :: rest))
    (hrest : ∀ c ∈ rest.head?, isMark c = true) : operand inner (t.asDomain ++ rest) = .ok t rest := by
  cases t with
  | var id => exact operand_var id hrest
  | base name => exact operand_base ht hrest
  | arrow domain codomain =>
    show operand inner (['('] ++ ((arrow domain codomain).pretty.toList ++ [')']) ++ rest) = _
    rw [List.append_assoc, List.append_assoc, operand, Reader.ifNext_append]
    show (inner >>= _) (_ ++ ')' :: rest) = _
    rw [Reader.bind_of_ok hinner]
    show (Reader.exactly [')'] >>= _) ([')'] ++ rest) = _
    rw [Reader.bind_of_ok Reader.exactly_append]
    rfl

/-- Where nothing but a closing mark follows, there are no further arrows. -/
theorem reader_of_operand {text : List Char} (h : operand (reader bound) text = .ok t rest)
    (hrest : Closes rest) : reader (bound + 1) text = .ok t rest := by
  have hspace : rest.head? ≠ some ' ' := hrest.head?_ne (by decide)
  rw [reader, Reader.bind_of_ok h, arrowSign, Reader.ifNext_of_head_ne hspace]
  rfl

/-- **A type is read from its text**, where that ends or a closing mark follows. The induction is on the type:
both sides of an arrow have texts shorter than that of the arrow. -/
theorem reader_pretty : ∀ (t : Ty) {bound : Nat} {rest : List Char}, t.Named script →
    t.pretty.toList.length < bound → Closes rest → reader bound (t.pretty.toList ++ rest) = .ok t rest
  | var id, bound + 1, _, _, _, hrest => reader_of_operand (operand_var id hrest.isMark) hrest
  | base name, bound + 1, _, ht, _, hrest => reader_of_operand (operand_base ht hrest.isMark) hrest
  | arrow domain codomain, bound + 1, rest, ht, hbound, hrest => by
    have hlength := length_pretty_le_asDomain domain
    rw [toList_pretty_arrow, List.length_append, List.length_append] at hbound
    have hsign : 0 < arrowSign.length := by decide
    have hinner : ∀ {tail}, reader bound (domain.pretty.toList ++ ')' :: tail) = .ok domain (')' :: tail) :=
      reader_pretty domain ht.1 (by omega) (by simp)
    have hdomain : operand (reader bound)
        (domain.asDomain ++ (arrowSign ++ (codomain.pretty.toList ++ rest))) = .ok domain _ :=
      operand_asDomain ht.1 hinner (by simp [arrowSign, isMark])
    have hcodomain : reader bound (codomain.pretty.toList ++ rest) = .ok codomain rest :=
      reader_pretty codomain ht.2 (by omega) hrest
    rw [toList_pretty_arrow, List.append_assoc, List.append_assoc, reader, Reader.bind_of_ok hdomain,
      Reader.ifNext_append, Reader.bind_of_ok hcodomain]
    rfl

/-- **A type is read back from what is printed for it.** -/
theorem ofText?_pretty (ht : t.Named script) : ofText? t.pretty = some t := by
  have hread : reader (t.pretty.toList.length + 1) (t.pretty.toList ++ []) = .ok t [] :=
    reader_pretty t ht (Nat.lt_succ_self _) closes_nil
  rw [List.append_nil] at hread
  exact Reader.whole?_of_ok hread

end Ty

/-! ## Signatures -/

namespace Signature

/-- The name of a signature ends at the first blank. -/
def reader (bound : Nat) : Reader Signature := do
  let name ← .word
  .exactly [' ', ':', ' ']
  let ty ← Ty.reader bound
  return ⟨String.ofList name, ty⟩

/-- The signature that a whole text writes. -/
def ofText? (text : String) : Option Signature := (reader (text.toList.length + 1)).whole? text

variable {script : Script} {signature : Signature}

theorem ofText?_text (hname : script.Word signature.name) (hty : signature.ty.Named script) :
    ofText? signature.text = some signature := by
  have hmarks : ∀ c ∈ signature.name.toList, isMark c = false := hname.2.isMark_eq_false
  have htext : signature.text.toList =
      signature.name.toList ++ ([' ', ':', ' '] ++ (signature.ty.pretty.toList ++ [])) := by
    simp [text, String.toList_append]
  have hlength : signature.ty.pretty.toList.length < signature.text.toList.length + 1 := by
    rw [htext, List.length_append, List.length_append, List.append_nil]
    omega
  have hread : Ty.reader (signature.text.toList.length + 1) (signature.ty.pretty.toList ++ []) = _ :=
    Ty.reader_pretty signature.ty hty hlength closes_nil
  refine Reader.whole?_of_ok ?_
  rw [htext, reader, Reader.bind_of_ok (Reader.word_append hmarks (by simp [isMark])),
    Reader.bind_of_ok Reader.exactly_append, ← htext, Reader.bind_of_ok hread, String.ofList_toList]
  rfl

end Signature

namespace Ty

/-- **Printed types are unambiguous.** Two types whose base types are named by identifiers have the same text
only if they are the same, since a type is read back from its text: how its arrows are nested, and what
the numbers of its variables are. So is a name with its type from the text of a signature. -/
theorem pretty_unambiguous {script : Script} {t u : Ty} (ht : t.Named script) (hu : u.Named script) :
    (t.pretty = u.pretty → t = u) ∧ ofText? t.pretty = some t ∧
      ∀ name, script.Word name → Signature.ofText? (Signature.text ⟨name, t⟩) = some ⟨name, t⟩ := by
  refine ⟨fun htext => ?_, ofText?_pretty ht, fun name hname => Signature.ofText?_text hname ht⟩
  have hread : some t = some u := by rw [← ofText?_pretty ht, htext, ofText?_pretty hu]
  exact Option.some.inj hread

/-- Parentheses tell apart the two ways to group two arrows, here under a name. -/
theorem pretty_unambiguous_of_two_groupings :
    (arrow (arrow int (var 12)) string).Named .ascii ∧ (arrow int (arrow (var 12) string)).Named .ascii ∧
      (arrow (arrow int (var 12)) string).pretty ≠ (arrow int (arrow (var 12) string)).pretty ∧
      Signature.ofText? (Signature.text ⟨"Apply", arrow (arrow int (var 12)) string⟩) =
        some ⟨"Apply", arrow (arrow int (var 12)) string⟩ := by
  have ht : (arrow (arrow int (var 12)) string).Named .ascii := by decide
  have hu : (arrow int (arrow (var 12) string)).Named .ascii := by decide
  obtain ⟨hinjective, -, hsignature⟩ := pretty_unambiguous ht hu
  exact ⟨ht, hu, fun htext => absurd (hinjective htext) (by decide), hsignature "Apply" (by decide)⟩

end Ty

end Monotype
