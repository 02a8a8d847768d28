import Mundart.Text.Printable

/-!
# Quoted text

The form in which a text of unknown content is shown inside a message: double quotes around it,
printable characters as they are, everything else escaped, so that a stray byte and an invisible
character stay visible.
-/

namespace Mundart.Text

/-- The letter of the short escape of a character, where it has one. -/
def shortEscape? (c : Char) : Option Char :=
  match c.toNat with
  | 7 => some 'a'
  | 8 => some 'b'
  | 9 => some 't'
  | 10 => some 'n'
  | 11 => some 'v'
  | 12 => some 'f'
  | 13 => some 'r'
  | 34 => some '"'
  | 92 => some '\\'
  | _ => none

/-- One rune inside double quotes. -/
def quotedRune : Rune → Text
  | .stray b => "\\x" ++ hex 2 b.toNat
  | .char c =>
    match shortEscape? c with
    | some letter => [ascii '\\', ascii letter]
    | none =>
      if isPrintable c then String.utf8EncodeChar c
      else if c.toNat < 0x80 then "\\x" ++ hex 2 c.toNat
      else if c.toNat < 0x10000 then "\\u" ++ hex 4 c.toNat
      else "\\U" ++ hex 8 c.toNat

/-- A text in double quotes with everything unprintable escaped. -/
def quoted (t : Text) : Text := "\"" ++ (runes t).flatMap quotedRune ++ "\""

end Mundart.Text
