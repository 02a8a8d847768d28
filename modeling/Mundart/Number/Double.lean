/-!
# Doubles

The binary64 numbers of the language, seen as an exact fraction where they are finite. A finite
double is `mantissa * 2 ^ exponent` with a sign; every exact rule about doubles in this library
(shortest text, fixed places, whole numbers) starts from these three parts.
-/

namespace Mundart.Double

/-- A finite double without its sign is `mantissa * 2 ^ exponent`. -/
structure Parts where
  mantissa : Nat
  exponent : Int
  deriving DecidableEq, Repr

/-- The stored fraction field, 52 bits wide. -/
def fractionBits (x : Float) : Nat := x.toBits.toNat % Nat.pow 2 52

/-- The stored exponent field, 11 bits wide. -/
def exponentBits (x : Float) : Nat := x.toBits.toNat / Nat.pow 2 52 % Nat.pow 2 11

/-- The sign bit, set also for minus zero. -/
def isNegative (x : Float) : Bool := x.toBits.toNat / Nat.pow 2 63 == 1

/-- The magnitude of a finite double. -/
def parts (x : Float) : Parts :=
  if exponentBits x = 0 then ⟨fractionBits x, -1074⟩
  else ⟨Nat.pow 2 52 + fractionBits x, (exponentBits x : Int) - 1075⟩

/-- A fraction `num / den` of natural numbers. -/
structure Ratio where
  num : Nat
  den : Nat
  deriving DecidableEq, Repr

/-- `m * 2 ^ e` as a fraction. -/
def Ratio.ofBinary (m : Nat) (e : Int) : Ratio :=
  if 0 ≤ e then ⟨m * Nat.pow 2 e.toNat, 1⟩ else ⟨m, Nat.pow 2 (-e).toNat⟩

/-- The magnitude of a finite double as a fraction. -/
def magnitude (x : Float) : Ratio := Ratio.ofBinary (parts x).mantissa (parts x).exponent

/-- The double nearest to a 64-bit integer, ties to even. -/
def ofInt64 (n : Int64) : Float :=
  if n.toInt < 0 then -(n.toInt.natAbs.toUInt64.toFloat) else n.toInt.natAbs.toUInt64.toFloat

/-- The integer that a finite double is equal to, if it is a whole number. -/
def toInt? (x : Float) : Option Int :=
  if x.isNaN || x.isInf then none
  else
    let r := magnitude x
    if r.num % r.den = 0 then
      let n : Int := (r.num / r.den : Nat)
      some (if isNegative x then -n else n)
    else none

/-- The 64-bit integer that a whole double between `-2^63` and `2^63` is. -/
def toInt64? (x : Float) : Option Int64 :=
  match toInt? x with
  | some n => if -(Nat.pow 2 63 : Int) ≤ n && n ≤ Nat.pow 2 63 then some (Int64.ofInt n) else none
  | none => none

end Mundart.Double
