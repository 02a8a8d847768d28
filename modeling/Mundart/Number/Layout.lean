import Mundart.Number.Shortest
import Mundart.Text.Basic

/-!
# Decimals as text

Two layouts of a decimal, positional and with an exponent, and the three forms in which this
library writes a double: the display form (always positional), the form of JSON documents
(positional between 10^-6 and 10^21) and a fixed number of places.
-/

namespace Mundart

namespace Decimal

/-- The digits of a decimal and the place of its point, counted from the first digit. -/
def point (d : Decimal) : Int := (Text.ofNat d.digits).length + d.exponent

def zeros (n : Int) : Text := List.replicate n.toNat 48

/-- All places written out, the point only where a digit follows it. -/
def positional (d : Decimal) : Text :=
  let digits := Text.ofNat d.digits
  let p := d.point
  if d.digits = 0 then "0"
  else if p ≤ 0 then "0." ++ zeros (-p) ++ digits
  else if (digits.length : Int) ≤ p then digits ++ zeros (p - digits.length)
  else digits.take p.toNat ++ "." ++ digits.drop p.toNat

/-- One digit in front of the point, then the exponent with its sign and no leading zero. -/
def scientific (d : Decimal) : Text :=
  let digits := Text.ofNat d.digits
  let e := d.point - 1
  let fraction : Text := if digits.length ≤ 1 then [] else "." ++ digits.drop 1
  let sign : Text := if e < 0 then "-" else "+"
  digits.take 1 ++ fraction ++ "e" ++ sign ++ Text.ofNat e.natAbs

end Decimal

namespace Double

/-- The texts of the doubles that are no numbers. -/
def special? (x : Float) : Option Text :=
  if x.isNaN then some "NaN"
  else if x.isInf then some (if isNegative x then "-Inf" else "+Inf")
  else none

def sign (x : Float) : Text := if isNegative x then "-" else []

/-- The display form: the shortest decimal, all places written out. -/
def display (x : Float) : Text :=
  match special? x with
  | some t => t
  | none => sign x ++ (Decimal.shortest x).positional

/-- The form in JSON documents, which have no text for infinities and NaN. -/
def json? (x : Float) : Option Text :=
  match special? x with
  | some _ => none
  | none =>
    let d := Decimal.shortest x
    let p := d.point
    let body := if d.digits ≠ 0 && (p ≤ -6 || 21 < p) then d.scientific else d.positional
    some (sign x ++ body)

/-- `num / den` rounded to the nearest natural number, a half to the even neighbour. -/
def roundDiv (num den : Nat) : Nat :=
  let q := num / den
  let twice := 2 * (num % den)
  if twice < den then q else if den < twice then q + 1 else if q % 2 = 0 then q else q + 1

/-- The magnitude of a finite double with one place after the point, rounded on its exact value. -/
def onePlace (x : Float) : Text :=
  let r := magnitude x
  let tenths := roundDiv (r.num * 10) r.den
  sign x ++ Text.ofNat (tenths / 10) ++ "." ++ Text.ofNat (tenths % 10)

end Double

end Mundart
