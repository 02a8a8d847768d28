import Mundart.Text.Basic
import Mundart.Number.Double

/-!
# Numbers read from text

The two grammars in which a text is a number: a 64-bit decimal integer, and a floating-point
literal (decimal or hexadecimal, with digit separators, or the names of the infinities and NaN).
A number that no double can hold is refused, a number too small for any becomes zero.
-/

namespace Mundart.Number

/-- Why a text is no number. -/
inductive Refusal where
  | malformed
  | outOfRange
  deriving DecidableEq, Repr

/-- The sign in front of a number and the text after it. -/
def takeSign : Text → Bool × Text
  | 43 :: t => (false, t)
  | 45 :: t => (true, t)
  | t => (false, t)

/-- A decimal integer with an optional sign that fits into 64 bits. -/
def readInt64 (t : Text) : Except Refusal Int64 :=
  let (negative, digits) := takeSign t
  if digits.isEmpty || !digits.all Text.isDigit then .error .malformed
  else
    let n : Int := Text.digitsValue digits
    let n := if negative then -n else n
    if -(Nat.pow 2 63 : Int) ≤ n && n < Nat.pow 2 63 then .ok (Int64.ofInt n) else .error .outOfRange

/-- Whether the separators in a literal stand between digits, the mark of a base counting as one. -/
def separatorsFit (hexadecimal : Bool) : UInt8 → Text → Bool
  | last, [] => last != 95
  | last, b :: t =>
    if Text.isDigit b || (hexadecimal && (Text.hexValue? b).isSome) then separatorsFit hexadecimal 48 t
    else if b == 95 then last == 48 && separatorsFit hexadecimal 95 t
    else last != 95 && separatorsFit hexadecimal 33 t

/-- The digits of a literal up to the first byte that is neither a digit, a separator nor its one
point: their value, how many stand after the point, whether there is any, and the rest. -/
structure Significand where
  value : Nat := 0
  fraction : Nat := 0
  any : Bool := false
  rest : Text := []

def readSignificand (base : Nat) (sawPoint : Bool) (s : Significand) : Text → Significand
  | [] => { s with rest := [] }
  | b :: t =>
    let digit := if base = 16 then Text.hexValue? b
      else if Text.isDigit b then some (b.toNat - 48) else none
    match digit with
    | some d =>
      readSignificand base sawPoint
        { s with value := s.value * base + d, any := true
                 fraction := if sawPoint then s.fraction + 1 else s.fraction } t
    | none =>
      if b == 95 then readSignificand base sawPoint s t
      else if b == 46 && !sawPoint then readSignificand base true s t
      else { s with rest := b :: t }

/-- An exponent after its mark; past 10000 its exact size no longer matters. -/
def readExponent? (t : Text) : Option Int :=
  let (negative, digits) := takeSign t
  match digits with
  | b :: _ =>
    if Text.isDigit b && digits.all (fun b => Text.isDigit b || b == 95) then
      let n := (digits.filter Text.isDigit).foldl
        (fun (n : Nat) b => if n < 10000 then n * 10 + (b.toNat - 48) else n) 0
      some (if negative then -(n : Int) else n)
    else none
  | [] => none

/-- The double nearest to `m * 10 ^ e`; sizes far outside the range of doubles are cut short. -/
def ofDecimal (m : Nat) (e : Int) : Float :=
  let size : Int := (Nat.log2 m : Int) * 30103 / 100000 + e
  if m = 0 then 0.0
  else if 400 < size then 1.0 / 0.0
  else if size < -400 then 0.0
  else if 0 ≤ e then Float.ofScientific m false e.toNat
  else Float.ofScientific m true (-e).toNat

/-- The double nearest to `m * 2 ^ e`. -/
def ofBinary (m : Nat) (e : Int) : Float :=
  let size : Int := (Nat.log2 m : Int) + e
  if m = 0 then 0.0
  else if 1100 < size then 1.0 / 0.0
  else if size < -1200 then 0.0
  else if 0 ≤ e then Float.ofScientific (m * Nat.pow 2 e.toNat) false 0
  else Float.ofScientific (m * Nat.pow 5 (-e).toNat) true (-e).toNat

/-- An unsigned literal that starts with a digit or a point. -/
def readLiteral (t : Text) : Except Refusal Float :=
  let lower := Text.toLower t
  let hexadecimal := (utf8 "0x").isPrefixOf lower && 2 < t.length
  let base := if hexadecimal then 16 else 10
  let body := if hexadecimal then lower.drop 2 else lower
  let s := readSignificand base false {} body
  if !s.any then .error .malformed
  else
    let exponent? : Option Int :=
      match s.rest with
      | [] => if hexadecimal then none else some 0
      | mark :: t => if mark == (if hexadecimal then 112 else 101) then readExponent? t else none
    match exponent? with
    | none => .error .malformed
    | some e =>
      let tidy := !t.contains 95 || separatorsFit hexadecimal (if hexadecimal then 48 else 94) body
      if !tidy then .error .malformed
      else
        let x := if hexadecimal then ofBinary s.value (e - 4 * s.fraction)
          else ofDecimal s.value (e - s.fraction)
        if x.isInf then .error .outOfRange else .ok x

/-- A floating-point literal with an optional sign, an infinity by name with an optional sign, or
NaN by name. -/
def readDouble (t : Text) : Except Refusal Float :=
  let (negative, body) := takeSign t
  let lower := Text.toLower body
  let signed (x : Float) : Float := if negative then -x else x
  if lower == "inf" || lower == "infinity" then .ok (signed (1.0 / 0.0))
  else if lower == "nan" && body.length == t.length then .ok (0.0 / 0.0)
  else (readLiteral body).map signed

end Mundart.Number
