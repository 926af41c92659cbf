/-!
# `Monotype.Text.Integer` — decimal integers of 128 bits

An integer is written as an optional sign and one or more of the digits `0` to `9`; its exact value
must fit in 128 bits, one of them for the sign.

## Contents
- **`digitsValue?`**: the value of a run of digits.
- **`Fits`**: the range of values.
- **`parse?`**: reading a whole text as an integer.
-/

namespace Monotype.Text.Integer

/-- The value of a digit. -/
def digit? (c : Char) : Option Nat :=
  if '0' ≤ c ∧ c ≤ '9' then some (c.toNat - '0'.toNat) else none

/-- The value of a run of digits that follows the value read so far. -/
def digitsFrom? (value : Nat) : List Char → Option Nat
  | [] => some value
  | c :: rest => (digit? c).bind fun d => digitsFrom? (10 * value + d) rest

/-- The value of one or more digits. -/
def digitsValue? : List Char → Option Nat
  | [] => none
  | digits => digitsFrom? 0 digits

/-- The value fits in 128 bits, one of them for the sign. -/
def Fits (value : Int) : Prop := -Int.pow 2 127 ≤ value ∧ value < Int.pow 2 127

instance (value : Int) : Decidable (Fits value) := inferInstanceAs (Decidable (_ ∧ _))

/-- The exact value of a signed run of digits, of any size. -/
def signedValue? : List Char → Option Int
  | '+' :: digits => (digitsValue? digits).map Int.ofNat
  | '-' :: digits => (digitsValue? digits).map fun n => -(Int.ofNat n)
  | digits => (digitsValue? digits).map Int.ofNat

/-- The integer that a whole text writes. -/
def parse? (text : List Char) : Option Int :=
  (signedValue? text).filter fun value => decide (Fits value)

example : parse? ['-', '0', '7'] = some (-7) := by decide

example : parse? ['+'] = none := by decide

end Monotype.Text.Integer
