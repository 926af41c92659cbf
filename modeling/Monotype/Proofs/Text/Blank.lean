import Mathlib.Data.List.DropRight
import Monotype.Text.Blank

/-!
# `Monotype.Proofs.Text.Blank` — trimmed texts and lines

## Contents
- **`Text.trim_padded`**: blanks around a text do not change what is left of it.
- **`Text.trim_eq_self`**, **`Text.trim_trim`**: a text that is left alone at both ends is its own rest.
- **`Text.lines_eq_splitOn`**, **`Text.lines_intercalate`**: lines put together come apart again.
-/

namespace Monotype.Text

variable {text before after front : List Char} {c : Char}

/-! ## Blank texts -/

theorem allBlank_iff : allBlank text = true ↔ ∀ c ∈ text, isBlank c = true := List.all_eq_true

@[simp] theorem allBlank_append :
    allBlank (before ++ after) = (allBlank before && allBlank after) := List.all_append

/-- Nothing that is not blank is a line end. -/
theorem ne_lineEnd (h : isBlank c = false) : c ≠ '\n' := by
  rintro rfl
  revert h
  decide

/-! ## Trimming -/

theorem trimStart_padded (h : allBlank before = true) :
    trimStart (before ++ text) = trimStart text :=
  List.dropWhile_append_of_pos (allBlank_iff.mp h)

theorem trimEnd_padded (h : allBlank after = true) : trimEnd (text ++ after) = trimEnd text := by
  have hreverse : ∀ c ∈ after.reverse, isBlank c = true := fun c hc =>
    allBlank_iff.mp h c (List.mem_reverse.mp hc)
  unfold trimEnd
  rw [List.reverse_append, List.dropWhile_append_of_pos hreverse]

/-- A text is blank if nothing is left of its start. -/
theorem trimStart_eq_nil : trimStart text = [] ↔ allBlank text = true :=
  List.dropWhile_eq_nil_iff.trans allBlank_iff.symm

/-- What follows a text that is not blank stays where it is. -/
theorem trimStart_append (h : allBlank text = false) :
    trimStart (text ++ after) = trimStart text ++ after := by
  have hnonempty : (trimStart text).isEmpty = false := by
    rw [List.isEmpty_eq_false_iff, Ne, trimStart_eq_nil, h]
    exact Bool.false_ne_true
  unfold trimStart at hnonempty ⊢
  rw [List.dropWhile_append, hnonempty, if_neg Bool.false_ne_true]

/-- Blanks around a text do not change what trimming leaves of it. -/
theorem trim_padded (hbefore : allBlank before = true) (hafter : allBlank after = true) :
    trim (before ++ text ++ after) = trim text := by
  unfold trim
  rw [List.append_assoc, trimStart_padded hbefore]
  cases htext : allBlank text with
  | true =>
    have hboth : allBlank (text ++ after) = true := by rw [allBlank_append, htext, hafter]; rfl
    rw [trimStart_eq_nil.mpr htext, trimStart_eq_nil.mpr hboth]
  | false => rw [trimStart_append htext, trimEnd_padded hafter]

/-- A text that ends in something else than a blank keeps its end. -/
theorem trimEnd_concat (h : isBlank c = false) : trimEnd (text ++ [c]) = text ++ [c] := by
  unfold trimEnd
  rw [List.reverse_append, List.reverse_singleton, List.singleton_append, List.dropWhile_cons_of_neg]
  · rw [List.reverse_cons, List.reverse_reverse]
  · rw [h]
    exact Bool.false_ne_true

/-- A text without blanks is left as it is. -/
theorem trim_eq_self (h : ∀ c ∈ text, isBlank c = false) : trim text = text := by
  have hdrop : ∀ {text : List Char}, (∀ c ∈ text, isBlank c = false) →
      text.dropWhile isBlank = text := by
    intro text h
    cases text with
    | nil => rfl
    | cons c text =>
      refine List.dropWhile_cons_of_neg ?_
      rw [h c List.mem_cons_self]
      exact Bool.false_ne_true
  unfold trim trimEnd trimStart
  rw [hdrop h, hdrop fun c hc => h c (List.mem_reverse.mp hc), List.reverse_reverse]

/-- A text between two characters that are not blank is left as it is. -/
theorem trim_front_concat (hfront : trimStart front = front) (hne : allBlank front = false)
    (hc : isBlank c = false) : trim (front ++ text ++ [c]) = front ++ text ++ [c] := by
  unfold trim
  rw [List.append_assoc, trimStart_append hne, hfront, ← List.append_assoc, trimEnd_concat hc]

/-- A text that is trimmed has no blanks left to trim. -/
theorem trim_trim (text : List Char) : trim (trim text) = trim text := by
  have hinitial : trim text <+: trimStart text := List.rdropWhile_prefix isBlank (trimStart text)
  have hfirst : ∀ h : 0 < (trimStart text).length, ¬ isBlank (trimStart text)[0] = true :=
    List.dropWhile_eq_self_iff.mp (List.dropWhile_idempotent isBlank text)
  have hstart : trimStart (trim text) = trim text := by
    refine List.dropWhile_eq_self_iff.mpr fun h => ?_
    rw [hinitial.getElem h]
    exact hfirst _
  show trimEnd (trimStart (trim text)) = trim text
  rw [hstart]
  exact List.rdropWhile_idempotent isBlank (trimStart text)

/-! ## Lines -/

theorem lines_eq_splitOn : lines text = text.splitOn '\n' := by
  induction text with
  | nil => rfl
  | cons c text ih =>
    rw [List.splitOn_cons_eq_if_modifyHead, ← ih]
    by_cases hc : c = '\n'
    · rw [if_pos (beq_iff_eq.mpr hc)]
      exact if_pos hc
    · rw [if_neg fun h => hc (beq_iff_eq.mp h)]
      have hne : lines text ≠ [] := ih ▸ List.splitOn_ne_nil _ _
      obtain ⟨line, others, hlines⟩ := List.exists_cons_of_ne_nil hne
      rw [hlines]
      unfold lines at hlines ⊢
      rw [List.foldr_cons, if_neg hc, hlines]
      rfl

/-- Lines put together come apart again. -/
theorem lines_intercalate {parts : List (List Char)} (hne : parts ≠ [])
    (h : ∀ line ∈ parts, '\n' ∉ line) : lines (['\n'].intercalate parts) = parts := by
  rw [lines_eq_splitOn]
  exact List.splitOn_intercalate '\n' h hne

end Monotype.Text
