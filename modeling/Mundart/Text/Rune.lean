import Mundart.Text.Basic

/-!
# Characters in a text

A text is read as UTF-8 from left to right. Where the bytes at hand start no well-formed
character, one byte is taken on its own: it is a `stray` byte, counts as one character and reads
as U+FFFD. This one decoder serves everything that counts, indexes, cuts, quotes or escapes
characters.
-/

namespace Mundart

/-- What stands next in a text: a well-formed character, or a byte that is part of none. -/
inductive Rune where
  | char (c : Char)
  | stray (b : UInt8)
  deriving DecidableEq, Repr

namespace Rune

/-- U+FFFD, which a stray byte reads as. -/
def replacement : Char := Char.ofNat 0xFFFD

/-- The character that a rune reads as. -/
def toChar : Rune → Char
  | .char c => c
  | .stray _ => replacement

/-- The bytes that a rune stands for. -/
def bytes : Rune → Text
  | .char c => String.utf8EncodeChar c
  | .stray b => [b]

def isStray : Rune → Bool
  | .char _ => false
  | .stray _ => true

end Rune

namespace Text

/-- The low six bits of a continuation byte `10xxxxxx`. -/
def tail? (b : UInt8) : Option Nat :=
  if 0x80 ≤ b && b ≤ 0xBF then some (b.toNat - 0x80) else none

/-- A scalar value as a character, when it is one and is not smaller than `least`: an overlong
form, a surrogate and a value past U+10FFFF are no characters. -/
def scalar? (least n : Nat) : Option Char :=
  if least ≤ n && (n < 0xD800 || (0xDFFF < n && n < 0x110000)) then some (Char.ofNat n) else none

/-- The well-formed character of more than one byte that starts with `b`, and its width. -/
def wideChar? (b : UInt8) (t : Text) : Option (Char × Nat) :=
  if b < 0xC0 then none
  else if b < 0xE0 then
    match t with
    | x :: _ => do
      let x ← tail? x
      let c ← scalar? 0x80 ((b.toNat - 0xC0) * 64 + x)
      pure (c, 2)
    | _ => none
  else if b < 0xF0 then
    match t with
    | x :: y :: _ => do
      let x ← tail? x
      let y ← tail? y
      let c ← scalar? 0x800 (((b.toNat - 0xE0) * 64 + x) * 64 + y)
      pure (c, 3)
    | _ => none
  else if b < 0xF8 then
    match t with
    | x :: y :: z :: _ => do
      let x ← tail? x
      let y ← tail? y
      let z ← tail? z
      let c ← scalar? 0x10000 ((((b.toNat - 0xF0) * 64 + x) * 64 + y) * 64 + z)
      pure (c, 4)
    | _ => none
  else none

/-- The rune that a text starting with `b` starts with, and its width in bytes. -/
def runeAt (b : UInt8) (t : Text) : Rune × Nat :=
  if b < 0x80 then (.char (Char.ofNat b.toNat), 1)
  else
    match wideChar? b t with
    | some (c, width) => (.char c, width)
    | none => (.stray b, 1)

/-- The runes of a text after those already taken (the last one first), where the first `covered`
bytes still belong to the last one. -/
def runesFrom (covered : Nat) (taken : List Rune) : Text → List Rune
  | [] => taken.reverse
  | b :: t =>
    match covered with
    | n + 1 => runesFrom n taken t
    | 0 => runesFrom ((runeAt b t).2 - 1) ((runeAt b t).1 :: taken) t

/-- The runes of a text from left to right. -/
def runes (t : Text) : List Rune := runesFrom 0 [] t

/-- The characters of a text, each stray byte read as U+FFFD. -/
def chars (t : Text) : List Char := (runes t).map Rune.toChar

/-- The UTF-8 text of some characters. -/
def ofChars (cs : List Char) : Text := cs.flatMap String.utf8EncodeChar

/-- Whether a text is well-formed UTF-8 throughout. -/
def isUtf8 (t : Text) : Bool := (runes t).all fun r => !r.isStray

/-- The number of characters of a text, a stray byte counting as one. -/
def size (t : Text) : Nat := (runes t).length

/-- A text with every stray byte replaced by U+FFFD. -/
def repair (t : Text) : Text := ofChars (chars t)

/-- The characters of a text as a string, stray bytes replaced. -/
def toString (t : Text) : String := String.ofList (chars t)

/-! ### How the decoder walks

The decoder passes over the bytes that it has taken already, so that its walk is one by single bytes. These
lemmas say it in terms of the text that is left. -/

theorem runesFrom_taken (n : Nat) (taken : List Rune) (t : Text) :
    runesFrom n taken t = taken.reverse ++ runesFrom n [] t := by
  induction t generalizing n taken with
  | nil => simp [runesFrom]
  | cons b t ih => cases n with
    | zero => simp only [runesFrom]; rw [ih, ih _ [(runeAt b t).1]]; simp
    | succ n => simpa only [runesFrom] using ih n taken

theorem runesFrom_eq_drop (n : Nat) (t : Text) : runesFrom n [] t = runes (t.drop n) := by
  induction n generalizing t with
  | zero => rfl
  | succ n ih => cases t with
    | nil => rfl
    | cons b t => simpa [runesFrom] using ih t

@[simp] theorem runes_nil : runes [] = [] := rfl

theorem runes_cons (b : UInt8) (t : Text) :
    runes (b :: t) = (runeAt b t).1 :: runes (t.drop ((runeAt b t).2 - 1)) := by
  rw [runes, runesFrom, runesFrom_taken, runesFrom_eq_drop]; rfl

theorem runes_ascii {b : UInt8} (h : b < 0x80) (t : Text) :
    runes (b :: t) = .char (Char.ofNat b.toNat) :: runes t := by
  rw [runes_cons]; simp [runeAt, h]

end Text

end Mundart
