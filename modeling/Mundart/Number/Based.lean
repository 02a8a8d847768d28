import Mundart.Number.Reading
import Mundart.Text.Quoted

/-!
# Integers in a base

Integers as settings give them: decimal, or with a mark for another base and separators between the
digits. A text is read from left to right, and what comes first decides why it is refused: a byte
that is no digit, or a number that no longer fits.
-/

namespace Mundart.Number

/-- The natural number that digits in a base write, starting from the ones already read. -/
def readDigits (base : Nat) (separators : Bool) (n : Nat) : Text → Except Refusal Nat
  | [] => .ok n
  | b :: t =>
    if separators && b == 95 then readDigits base separators n t
    else
      match Text.hexValue? b with
      | none => .error .malformed
      | some d =>
        if base ≤ d then .error .malformed
        else if Nat.pow 2 64 ≤ n * base + d then .error .outOfRange
        else readDigits base separators (n * base + d) t

/-- A signed number, if it fits into 64 bits. -/
def fitInt64 (negative : Bool) (n : Nat) : Except Refusal Int64 :=
  let n : Int := if negative then -n else n
  if -(Nat.pow 2 63 : Int) ≤ n && n < Nat.pow 2 63 then .ok (Int64.ofInt n) else .error .outOfRange

/-- A decimal integer with an optional sign. -/
def readDecimal (t : Text) : Except Refusal Int64 := do
  let (negative, digits) := takeSign t
  if digits.isEmpty then .error .malformed
  else fitInt64 negative (← readDigits 10 false 0 digits)

/-- The base that an unsigned literal is marked with, and its digits: `0b`, `0o` and `0x` are marks
if anything follows them, and a zero in front alone marks base eight. -/
def takeBase : Text → Nat × Text
  | 48 :: mark :: b :: t =>
    match Text.lowerByte mark with
    | 98 => (2, b :: t)
    | 111 => (8, b :: t)
    | 120 => (16, b :: t)
    | _ => (8, mark :: b :: t)
  | 48 :: t => (8, t)
  | t => (10, t)

/-- Whether the separators of an unsigned literal stand between digits; the mark of a base counts as
a digit. -/
def separatorsFitBased : Text → Bool
  | 48 :: mark :: t =>
    match Text.lowerByte mark with
    | 98 | 111 => separatorsFit false 48 t
    | 120 => separatorsFit true 48 t
    | _ => separatorsFit false 94 (48 :: mark :: t)
  | t => separatorsFit false 94 t

/-- An integer with an optional sign and an optional mark of its base. -/
def readBased (t : Text) : Except Refusal Int64 := do
  let (negative, literal) := takeSign t
  let (base, digits) := takeBase literal
  if literal.isEmpty then .error .malformed
  else
    let n ← readDigits base true 0 digits
    if literal.contains 95 && !separatorsFitBased literal then .error .malformed
    else fitInt64 negative n

/-- The spellings of a truth value. -/
def readBool (t : Text) : Except Refusal Bool :=
  let isOneOf (spellings : List String) : Bool := spellings.any fun s => utf8 s == t
  if isOneOf ["1", "t", "T", "true", "TRUE", "True"] then .ok true
  else if isOneOf ["0", "f", "F", "false", "FALSE", "False"] then .ok false
  else .error .malformed

/-- What is told when `reader` refused a text. -/
def Refusal.message (reader text : Text) : Refusal → Text
  | .malformed => "strconv." ++ reader ++ ": parsing " ++ Text.quoted text ++ ": invalid syntax"
  | .outOfRange =>
    "strconv." ++ reader ++ ": parsing " ++ Text.quoted text ++ ": value out of range"

end Mundart.Number
