/-!
# Text

The language works on byte strings: a source file, a string value and a name are any bytes,
usually but not always UTF-8. This module holds the type, the bridge from character strings,
the ASCII classes that the token rules speak of, and the few list operations on bytes that the
rest of the library shares.
-/

namespace Mundart

/-- A text is a finite sequence of bytes. -/
abbrev Text := List UInt8

/-- The UTF-8 bytes of a character string. -/
def utf8 (s : String) : Text := s.toByteArray.data.toList

instance : Coe String Text := ⟨utf8⟩

/-- The single byte of an ASCII character. -/
def ascii (c : Char) : UInt8 := c.toNat.toUInt8

namespace Text

/-! ### ASCII classes

Classes of single bytes. No byte of a character beyond ASCII is in any of them. -/

/-- `[0-9]`. -/
def isDigit (b : UInt8) : Bool := 48 ≤ b && b ≤ 57

/-- `[a-z]`. -/
def isLower (b : UInt8) : Bool := 97 ≤ b && b ≤ 122

/-- `[A-Z]`. -/
def isUpper (b : UInt8) : Bool := 65 ≤ b && b ≤ 90

/-- `[a-zA-Z]`. -/
def isLetter (b : UInt8) : Bool := isLower b || isUpper b

/-- `[0-9A-Za-z_]`, the bytes a word is made of. -/
def isWord (b : UInt8) : Bool := isLetter b || isDigit b || b == 95

/-- `[a-zA-Z_]`, the bytes a name starts with. -/
def isNameStart (b : UInt8) : Bool := isLetter b || b == 95

/-- The blanks between two words of one keyword: tab, line feed, form feed, carriage return and
space. -/
def isSpace (b : UInt8) : Bool := b == 9 || b == 10 || b == 12 || b == 13 || b == 32

/-- The value of a hexadecimal digit. -/
def hexValue? (b : UInt8) : Option Nat :=
  if isDigit b then some (b.toNat - 48)
  else if 97 ≤ b && b ≤ 102 then some (b.toNat - 87)
  else if 65 ≤ b && b ≤ 70 then some (b.toNat - 55)
  else none

theorem isWord_of_isNameStart {b : UInt8} (h : isNameStart b = true) : isWord b = true := by
  simp only [isNameStart, isWord, Bool.or_eq_true] at *
  exact h.elim (fun h => Or.inl (Or.inl h)) Or.inr

/-! ### Case

Only the letters of ASCII have another case here. -/

/-- The ASCII lower-case form of a byte. -/
def lowerByte (b : UInt8) : UInt8 := if isUpper b then b + 32 else b

/-- The ASCII upper-case form of a byte. -/
def upperByte (b : UInt8) : UInt8 := if isLower b then b - 32 else b

/-- A text with its ASCII letters in lower case. -/
def toLower (t : Text) : Text := t.map lowerByte

/-- A text with its ASCII letters in upper case. -/
def toUpper (t : Text) : Text := t.map upperByte

/-! ### Parts of a text

Looking for parts, cutting, joining and comparing, all of it byte by byte. -/

/-- The text after `lead`, when it starts with it. -/
def after? (lead t : Text) : Option Text :=
  if lead.isPrefixOf t then some (t.drop lead.length) else none

/-- Whether `part` stands somewhere in the text. -/
def hasPart (part : Text) : Text → Bool
  | [] => part.isEmpty
  | b :: t => part.isPrefixOf (b :: t) || hasPart part t

/-- The text before the first `sep` and, when there is one, the text after it. -/
def cut (sep : UInt8) (t : Text) : Text × Option Text :=
  match t.span (· != sep) with
  | (before, []) => (before, none)
  | (before, _ :: rest) => (before, some rest)

/-- The pieces of a text between separators, in front of them the piece begun in `piece`. -/
def splitFrom (sep : UInt8) (piece : Text) (pieces : List Text) : Text → List Text
  | [] => (piece.reverse :: pieces).reverse
  | b :: t =>
    if b == sep then splitFrom sep [] (piece.reverse :: pieces) t
    else splitFrom sep (b :: piece) pieces t

/-- The pieces of a text between separators; a text without one is its own single piece. -/
def splitOn (sep : UInt8) (t : Text) : List Text := splitFrom sep [] [] t

/-- Texts joined by a separator. -/
def join (sep : Text) (ts : List Text) : Text := List.intercalate sep ts

/-- The text without one given ending, when it has it. -/
def dropEnding (ending t : Text) : Text :=
  if ending.reverse.isPrefixOf t.reverse then t.take (t.length - ending.length) else t

/-- Every `old` byte replaced by a text. -/
def replaceByte (old : UInt8) (new t : Text) : Text :=
  t.flatMap fun b => if b == old then new else [b]

/-- The byte order on texts: a proper start comes first. -/
def compare : Text → Text → Ordering
  | [], [] => .eq
  | [], _ :: _ => .lt
  | _ :: _, [] => .gt
  | a :: s, b :: t => if a < b then .lt else if b < a then .gt else compare s t

/-- Whether one text comes strictly before another in byte order. -/
def before (s t : Text) : Bool := compare s t == .lt

/-! ### Numbers as text

Numbers in decimal and hexadecimal digits, and the number that decimal digits write. -/

/-- The decimal digits of a natural number. -/
def ofNat (n : Nat) : Text := (Nat.toDigits 10 n).map ascii

/-- The decimal text of an integer, with a minus sign in front of a negative one. -/
def ofInt : Int → Text
  | .ofNat n => ofNat n
  | .negSucc n => ascii '-' :: ofNat (n + 1)

/-- A decimal number with zeros in front up to the given width. -/
def padNat (width n : Nat) : Text :=
  let digits := ofNat n
  List.replicate (width - digits.length) 48 ++ digits

/-- The lower-case hexadecimal text of a number with zeros in front up to the given width. -/
def hex (width n : Nat) : Text :=
  let digits := (Nat.toDigits 16 n).map ascii
  List.replicate (width - digits.length) 48 ++ digits

/-- The number that a run of decimal digits writes; other bytes have no meaning here. -/
def digitsValue (t : Text) : Nat := t.foldl (fun n b => n * 10 + (b.toNat - 48)) 0

end Text

end Mundart
