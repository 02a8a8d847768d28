import Mundart.Number.Double

/-!
# The shortest decimal of a double

Of the decimals that read back as a given double, `shortest` is the one with the fewest digits,
and of those the nearest to the double; if two are equally near, the one with the even last digit.
The search is exact: the reals that round to `m * 2 ^ e` form an interval, and for 1, 2, … 17
digits the two neighbours of the value on that decimal grid are tried.
-/

namespace Mundart

/-- The decimal `digits * 10 ^ exponent`. -/
structure Decimal where
  digits : Nat
  exponent : Int
  deriving DecidableEq, Repr

namespace Decimal

/-- `10 ^ e` as a fraction. -/
def powerOfTen (e : Int) : Double.Ratio :=
  if 0 ≤ e then ⟨Nat.pow 10 e.toNat, 1⟩ else ⟨1, Nat.pow 10 (-e).toNat⟩

/-- The interval of the reals that round to a double, over one denominator. The ends belong to it
when the mantissa is even. -/
structure Cell where
  low : Nat
  value : Nat
  high : Nat
  den : Nat
  closed : Bool
  deriving Repr

/-- The cell of `m * 2 ^ e`. Below a power of two the spacing is half as wide, except at the
smallest exponent. -/
def cell (p : Double.Parts) : Cell :=
  let unit := Double.Ratio.ofBinary 1 (p.exponent - 2)
  let below := if p.mantissa = Nat.pow 2 52 && p.exponent ≠ -1074 then 1 else 2
  { low := (4 * p.mantissa - below) * unit.num
    value := 4 * p.mantissa * unit.num
    high := (4 * p.mantissa + 2) * unit.num
    den := unit.den
    closed := p.mantissa % 2 = 0 }

/-- Whether `n * 10 ^ e` lies in the cell. -/
def Cell.holds (c : Cell) (n : Nat) (e : Int) : Bool :=
  let p := powerOfTen e
  let x := n * p.num * c.den
  let lo := c.low * p.den
  let hi := c.high * p.den
  if c.closed then lo ≤ x && x ≤ hi else lo < x && x < hi

/-- The decimal in the cell on the grid of step `10 ^ e`, if there is one: the nearer of the value's
two neighbours. -/
def Cell.onGrid (c : Cell) (e : Int) : Option Nat :=
  let p := powerOfTen e
  let step := p.num * c.den
  let scaled := c.value * p.den
  let below := scaled / step
  let twice := 2 * (scaled - below * step)
  let lowerIn := c.holds below e
  let upperIn := c.holds (below + 1) e
  if lowerIn && upperIn then
    if twice < step then some below
    else if step < twice then some (below + 1)
    else if below % 2 = 0 then some below else some (below + 1)
  else if lowerIn then some below
  else if upperIn then some (below + 1)
  else none

/-- The number of decimal places of the value in front of the point: the least `k` with
`value < 10 ^ k`, looked for upwards from an estimate that is not too large. -/
def Cell.magnitude (c : Cell) : Nat → Int → Int
  | 0, k => k
  | tries + 1, k =>
    let p := powerOfTen k
    if c.value * p.den < p.num * c.den then k else c.magnitude tries (k + 1)

/-- An estimate of `Cell.magnitude` from the binary size, never too large and at most two below. -/
def estimate (p : Double.Parts) : Int :=
  let size : Int := (Nat.log2 p.mantissa : Int) + p.exponent
  Int.fdiv (size * 30103) 100000 - 1

/-- `n * 10 ^ e` with as few digits as possible. -/
def strip : Nat → Nat → Int → Decimal
  | 0, n, e => ⟨n, e⟩
  | k + 1, n, e => if n % 10 = 0 then strip k (n / 10) (e + 1) else ⟨n, e⟩

/-- Tries grids of `digits`, `digits + 1`, … digits. -/
def Cell.search (c : Cell) (places : Int) : Nat → Nat → Decimal
  | 0, _ => ⟨0, 0⟩
  | tries + 1, digits =>
    match c.onGrid (places - digits) with
    | some n => strip 20 n (places - digits)
    | none => c.search places tries (digits + 1)

/-- The shortest decimal that reads back as a finite double, without its sign. -/
def shortest (x : Float) : Decimal :=
  let p := Double.parts x
  if p.mantissa = 0 then ⟨0, 0⟩
  else
    let c := cell p
    c.search (c.magnitude 6 (estimate p)) 17 1

end Decimal

end Mundart
