import Mundart.Text.Rune

/-!
# White space

The characters with the Unicode property White_Space, and the text between the blanks at its two
ends.
-/

namespace Mundart.Text

/-- The property White_Space: 25 characters. -/
def isBlank (c : Char) : Bool :=
  let n := c.toNat
  (9 ≤ n && n ≤ 13) || n == 0x20 || n == 0x85 || n == 0xA0 || n == 0x1680
    || (0x2000 ≤ n && n ≤ 0x200A) || n == 0x2028 || n == 0x2029 || n == 0x202F || n == 0x205F
    || n == 0x3000

/-- A stray byte is no blank. -/
def isBlankRune : Rune → Bool
  | .char c => isBlank c
  | .stray _ => false

/-- A text without the blanks at its start and at its end. -/
def trim (t : Text) : Text :=
  let inner := ((runes t).dropWhile isBlankRune).reverse.dropWhile isBlankRune
  inner.reverse.flatMap Rune.bytes

end Mundart.Text
