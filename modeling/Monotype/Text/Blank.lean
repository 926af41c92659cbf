/-!
# `Monotype.Text.Blank` — blank characters and trimmed text

## Contents
- **`isBlank`**: the property White_Space of Unicode, as a table of its ranges.
- **`trim`**: a text without the blanks at its two ends.
- **`lines`**: a text cut at its line ends.
-/

namespace Monotype.Text

/-- The ranges of code points with the property White_Space, both ends included. -/
def blankRanges : List (Nat × Nat) :=
  [(0x09, 0x0D), (0x20, 0x20), (0x85, 0x85), (0xA0, 0xA0), (0x1680, 0x1680), (0x2000, 0x200A),
    (0x2028, 0x2029), (0x202F, 0x202F), (0x205F, 0x205F), (0x3000, 0x3000)]

/-- Blanks are the characters with the property White_Space. -/
def isBlank (c : Char) : Bool :=
  blankRanges.any fun range => range.1 ≤ c.toNat && c.toNat ≤ range.2

/-- A text without the blanks at its start. -/
def trimStart (text : List Char) : List Char := text.dropWhile isBlank

/-- A text without the blanks at its end. -/
def trimEnd (text : List Char) : List Char := (text.reverse.dropWhile isBlank).reverse

/-- A text without the blanks at its two ends. -/
def trim (text : List Char) : List Char := trimEnd (trimStart text)

/-- The text holds nothing but blanks. -/
def allBlank (text : List Char) : Bool := text.all isBlank

/-- The lines of a text: one more than it has line ends. -/
def lines (text : List Char) : List (List Char) :=
  text.foldr
    (fun c found =>
      if c = '\n' then [] :: found
      else match found with
        | [] => [[c]]
        | line :: others => (c :: line) :: others)
    [[]]

example : lines ['a', '\n', '\n', 'b'] = [['a'], [], ['b']] := rfl

end Monotype.Text
