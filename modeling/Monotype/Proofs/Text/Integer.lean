import Mathlib.Data.Nat.Digits.Defs
import Monotype.Text.Blank
import Monotype.Text.Integer

/-!
# `Monotype.Proofs.Text.Integer` — decimal notation reads back

Reading goes through the digits from the left and carries along the value of those before. What a text
writes is said without that: the digits have their value to base ten, and there may be a sign.

## Contents
- **`digitsFrom?_toDigits`**: the digits of a number are read as that number.
- **`signedValue?_toString`**: so is the notation of an integer, of any size.
- **`Denotes`**, **`signedValue?_eq_some_iff`**: what a text writes is what is read.
- **`parse?_toString`**: an integer of 128 bits is read back from its notation.
-/

namespace Monotype.Text.Integer

variable {c : Char} {d n value : Nat} {text digits xs ys : List Char}

/-! ## Digits -/

theorem digit?_digitChar (h : d < 10) : digit? (Nat.digitChar d) = some d := by
  have hall : ∀ d : Fin 10, digit? (Nat.digitChar d) = some d.val := by decide
  exact hall ⟨d, h⟩

/-- A digit is no blank. -/
theorem isBlank_of_digit? (h : digit? c = some d) : isBlank c = false := by
  unfold digit? at h
  split at h
  · rename_i hrange
    obtain ⟨hlow, hhigh⟩ : 48 ≤ c.toNat ∧ c.toNat ≤ 57 := hrange
    simp only [isBlank, blankRanges, List.any_cons, List.any_nil, Bool.or_false, Bool.or_eq_false_iff,
      Bool.and_eq_false_iff, decide_eq_false_iff_not]
    omega
  · cases h

theorem digitsFrom?_append :
    digitsFrom? value (xs ++ ys) = (digitsFrom? value xs).bind fun value => digitsFrom? value ys := by
  induction xs generalizing value with
  | nil => rfl
  | cons c xs ih =>
    show (digit? c).bind _ = ((digit? c).bind _).bind _
    rw [Option.bind_assoc]
    exact congrArg _ (funext fun d => ih)

/-- What is read as digits holds no blank. -/
theorem isBlank_of_digitsFrom? (h : digitsFrom? value text = some n) :
    ∀ c ∈ text, isBlank c = false := by
  induction text generalizing value with
  | nil => exact fun c hc => absurd hc List.not_mem_nil
  | cons first text ih =>
    obtain ⟨d, hd, hrest⟩ := Option.bind_eq_some_iff.mp h
    intro c hc
    obtain rfl | hc := List.mem_cons.mp hc
    · exact isBlank_of_digit? hd
    · exact ih hrest c hc

/-- The decimal digits of a number are read as that number. The induction drops the last digit, which is
the one that is read last. -/
theorem digitsFrom?_toDigits (n : Nat) : digitsFrom? 0 (Nat.toDigits 10 n) = some n := by
  induction n using Nat.strongRecOn with
  | ind n ih =>
    rw [Nat.toDigits_eq_if (by decide)]
    split
    · rename_i hsmall
      show (digit? (Nat.digitChar n)).bind _ = _
      rw [digit?_digitChar hsmall]
      show some (10 * 0 + n) = some n
      rw [Nat.mul_zero, Nat.zero_add]
    · rename_i hlarge
      rw [digitsFrom?_append, ih (n / 10) (by omega)]
      show (digit? (Nat.digitChar (n % 10))).bind _ = _
      rw [digit?_digitChar (Nat.mod_lt n (by decide))]
      show some (10 * (n / 10) + n % 10) = some n
      rw [Nat.div_add_mod]

/-- **A number is read back from its digits.** -/
theorem digitsValue?_toDigits (n : Nat) : digitsValue? (Nat.toDigits 10 n) = some n := by
  rw [← digitsFrom?_toDigits n]
  cases hdigits : Nat.toDigits 10 n with
  | nil => exact absurd hdigits Nat.toDigits_ne_nil
  | cons c digits => rfl

/-! ## Signs -/

/-- Digits may stand without a sign, since no digit looks like one. -/
theorem signedValue?_of_digits (h : digitsValue? text = some n) :
    signedValue? text = some (Int.ofNat n) := by
  unfold signedValue?
  split
  · cases h
  · cases h
  · rw [h]
    rfl

theorem toList_toString_natCast (n : Nat) :
    (toString (Int.ofNat n)).toList = Nat.toDigits 10 n := Nat.toList_repr

theorem toList_toString_negSucc (n : Nat) :
    (toString (Int.negSucc n)).toList = '-' :: Nat.toDigits 10 (n + 1) := by
  show ("-" ++ Nat.repr (n + 1)).toList = _
  rw [String.toList_append, Nat.toList_repr]
  rfl

/-- An integer is read back from its decimal notation. -/
theorem signedValue?_toString (value : Int) :
    signedValue? (toString value).toList = some value := by
  cases value with
  | ofNat n =>
    rw [toList_toString_natCast]
    exact signedValue?_of_digits (digitsValue?_toDigits n)
  | negSucc n =>
    rw [toList_toString_negSucc]
    show (digitsValue? (Nat.toDigits 10 (n + 1))).map _ = _
    rw [digitsValue?_toDigits]
    rfl

/-- Decimal notation holds no blank. -/
theorem isBlank_toString (value : Int) : ∀ c ∈ (toString value).toList, isBlank c = false := by
  cases value with
  | ofNat n =>
    rw [toList_toString_natCast]
    exact isBlank_of_digitsFrom? (digitsFrom?_toDigits n)
  | negSucc n =>
    rw [toList_toString_negSucc]
    intro c hc
    obtain rfl | hc := List.mem_cons.mp hc
    · decide
    · exact isBlank_of_digitsFrom? (digitsFrom?_toDigits (n + 1)) c hc

/-! ## What is read -/

/-- The value of digits to base ten. -/
def decimalValue (digits : List Char) : Nat :=
  Nat.ofDigits 10 (digits.reverse.map fun c => c.toNat - '0'.toNat)

/-- A text writes an integer: after an optional sign there are one or more of the digits `0` to `9`, and
they have the value to base ten. -/
inductive Denotes : List Char → Int → Prop
  | unsigned {digits : List Char} (hne : digits ≠ []) (hdigits : ∀ c ∈ digits, c.isDigit = true) :
      Denotes digits (decimalValue digits)
  | plus {digits : List Char} (hne : digits ≠ []) (hdigits : ∀ c ∈ digits, c.isDigit = true) :
      Denotes ('+' :: digits) (decimalValue digits)
  | minus {digits : List Char} (hne : digits ≠ []) (hdigits : ∀ c ∈ digits, c.isDigit = true) :
      Denotes ('-' :: digits) (-(decimalValue digits))

/-- What writes an integer is not empty, and holds digits and signs only. -/
theorem Denotes.isDigit_or_sign {value : Int} (h : Denotes text value) :
    text ≠ [] ∧ ∀ c ∈ text, c.isDigit = true ∨ c = '+' ∨ c = '-' := by
  cases h with
  | unsigned hne hdigits => exact ⟨hne, fun c hc => .inl (hdigits c hc)⟩
  | plus _ hdigits =>
    exact ⟨List.cons_ne_nil _ _, List.forall_mem_cons.mpr ⟨by simp, fun c hc => .inl (hdigits c hc)⟩⟩
  | minus _ hdigits =>
    exact ⟨List.cons_ne_nil _ _, List.forall_mem_cons.mpr ⟨by simp, fun c hc => .inl (hdigits c hc)⟩⟩

theorem digit?_eq_some_iff : digit? c = some d ↔ c.isDigit = true ∧ d = c.toNat - '0'.toNat := by
  have hrange : ('0' ≤ c ∧ c ≤ '9') ↔ c.isDigit = true := by
    rw [Char.isDigit, Bool.and_eq_true, decide_eq_true_eq, decide_eq_true_eq]
    exact Iff.rfl
  unfold digit?
  by_cases h : '0' ≤ c ∧ c ≤ '9'
  · rw [if_pos h, Option.some.injEq, and_iff_right (hrange.mp h), eq_comm]
  · rw [if_neg h]
    simp [mt hrange.mpr h]

@[simp] theorem decimalValue_nil : decimalValue [] = 0 := rfl

/-- The first digit counts for as many tens as digits follow it. -/
theorem decimalValue_cons (c : Char) (digits : List Char) :
    decimalValue (c :: digits) =
      (c.toNat - '0'.toNat) * 10 ^ digits.length + decimalValue digits := by
  unfold decimalValue
  rw [List.reverse_cons, List.map_append, Nat.ofDigits_append, List.map_singleton,
    Nat.ofDigits_singleton, List.length_map, List.length_reverse, Nat.mul_comm, Nat.add_comm]

/-- Each digit that is read makes ten times as much of the value before it. -/
theorem digitsFrom?_eq_some_iff : digitsFrom? value digits = some n ↔
    (∀ c ∈ digits, c.isDigit = true) ∧
      n = value * 10 ^ digits.length + decimalValue digits := by
  induction digits generalizing value with
  | nil =>
    have hvalue : value * 10 ^ ([] : List Char).length + decimalValue [] = value := by simp
    rw [hvalue, digitsFrom?, Option.some.injEq, eq_comm]
    exact (and_iff_right fun _ hc => absurd hc List.not_mem_nil).symm
  | cons c digits ih =>
    have hvalue : (10 * value + (c.toNat - '0'.toNat)) * 10 ^ digits.length + decimalValue digits =
        value * 10 ^ (c :: digits).length + decimalValue (c :: digits) := by
      rw [decimalValue_cons, List.length_cons]
      ring
    rw [digitsFrom?, Option.bind_eq_some_iff, List.forall_mem_cons, and_assoc, ← hvalue]
    constructor
    · rintro ⟨d, hd, hrest⟩
      obtain ⟨hdigit, rfl⟩ := digit?_eq_some_iff.mp hd
      exact ⟨hdigit, ih.mp hrest⟩
    · rintro ⟨hdigit, hrest⟩
      exact ⟨_, digit?_eq_some_iff.mpr ⟨hdigit, rfl⟩, ih.mpr hrest⟩

/-- Digits have a value, the decimal one, if there are any and nothing else is among them. -/
theorem digitsValue?_eq_some_iff : digitsValue? digits = some n ↔
    digits ≠ [] ∧ (∀ c ∈ digits, c.isDigit = true) ∧ n = decimalValue digits := by
  cases digits with
  | nil => simp [digitsValue?]
  | cons c digits =>
    show digitsFrom? 0 (c :: digits) = some n ↔ _
    rw [digitsFrom?_eq_some_iff, Nat.zero_mul, Nat.zero_add]
    exact (and_iff_right (List.cons_ne_nil c digits)).symm

/-- **What is read as an integer** is what writes it. A sign is no digit, so it is clear where the digits
start. -/
theorem signedValue?_eq_some_iff {value : Int} : signedValue? text = some value ↔ Denotes text value := by
  constructor
  · intro h
    unfold signedValue? at h
    split at h
    · obtain ⟨n, hn, rfl⟩ := Option.map_eq_some_iff.mp h
      obtain ⟨hne, hdigits, rfl⟩ := digitsValue?_eq_some_iff.mp hn
      exact .plus hne hdigits
    · obtain ⟨n, hn, rfl⟩ := Option.map_eq_some_iff.mp h
      obtain ⟨hne, hdigits, rfl⟩ := digitsValue?_eq_some_iff.mp hn
      exact .minus hne hdigits
    · obtain ⟨n, hn, rfl⟩ := Option.map_eq_some_iff.mp h
      obtain ⟨hne, hdigits, rfl⟩ := digitsValue?_eq_some_iff.mp hn
      exact .unsigned hne hdigits
  · intro h
    cases h with
    | unsigned hne hdigits =>
      exact signedValue?_of_digits (digitsValue?_eq_some_iff.mpr ⟨hne, hdigits, rfl⟩)
    | @plus digits hne hdigits =>
      show (digitsValue? digits).map Int.ofNat = _
      rw [digitsValue?_eq_some_iff.mpr ⟨hne, hdigits, rfl⟩]
      rfl
    | @minus digits hne hdigits =>
      show ((digitsValue? digits).map fun n => -(Int.ofNat n)) = _
      rw [digitsValue?_eq_some_iff.mpr ⟨hne, hdigits, rfl⟩]
      rfl

/-! ## Integers of 128 bits -/

theorem fits_of_parse? {value : Int} (h : parse? text = some value) : Fits value :=
  of_decide_eq_true (Option.filter_eq_some_iff.mp h).2

theorem parse?_toString {value : Int} (h : Fits value) :
    parse? (toString value).toList = some value := by
  unfold parse?
  rw [signedValue?_toString, Option.filter_some, if_pos (decide_eq_true h)]

/-- **An integer is read from exactly the texts that denote it**, if it fits. -/
theorem parse?_eq_some_iff {value : Int} :
    parse? text = some value ↔ Denotes text value ∧ Fits value := by
  unfold parse?
  rw [Option.filter_eq_some_iff, signedValue?_eq_some_iff, decide_eq_true_eq]

end Monotype.Text.Integer
