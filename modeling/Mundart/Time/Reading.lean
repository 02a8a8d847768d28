import Mundart.Time.Basic

/-!
# Spans read from text

A span is written as a sequence of decimal numbers with units, such as `1h30m` or `1.5s`, with an
optional sign in front.
-/

namespace Mundart.Span

/-- Why a text is no span. -/
inductive Defect where
  | malformed (text : Text)
  | noUnit (text : Text)
  | unknownUnit (unit text : Text)
  deriving DecidableEq, Repr

/-- A text in quotes of which only ASCII is shown. -/
def shown (t : Text) : Text :=
  "\"" ++ (t.flatMap fun b =>
    if 128 ≤ b || b < 32 then utf8 "\\x" ++ Text.hex 2 b.toNat
    else if b == ascii '"' || b == ascii '\\' then [ascii '\\', b]
    else [b]) ++ "\""

def Defect.message : Defect → Text
  | .malformed text => "time: invalid duration " ++ shown text
  | .noUnit text => "time: missing unit in duration " ++ shown text
  | .unknownUnit unit text => "time: unknown unit " ++ shown unit ++ " in duration " ++ shown text

/-- The units in nanoseconds. -/
def unit? (name : Text) : Option Nat :=
  if name == utf8 "ns" then some 1
  else if name == utf8 "us" || name == utf8 "µs" || name == utf8 "μs" then some 1000
  else if name == utf8 "ms" then some 1000000
  else if name == utf8 "s" then some 1000000000
  else if name == utf8 "m" then some 60000000000
  else if name == utf8 "h" then some 3600000000000
  else none

/-- The digits after a point, if one follows. -/
def takeFraction : Text → Text × Text
  | b :: t => if b == ascii '.' then t.span Text.isDigit else ([], b :: t)
  | [] => ([], [])

/-- One number with its unit, in nanoseconds, and the text after it. -/
def readPart (whole t : Text) : Except Defect (Nat × Text) :=
  let (digits, rest) := t.span Text.isDigit
  let (fraction, rest) := takeFraction rest
  let (name, rest) := rest.span fun b => b != ascii '.' && !Text.isDigit b
  if digits.isEmpty && fraction.isEmpty then .error (.malformed whole)
  else if Nat.pow 2 63 < Text.digitsValue digits then .error (.malformed whole)
  else if name.isEmpty then .error (.noUnit whole)
  else
    match unit? name with
    | none => .error (.unknownUnit name whole)
    | some unit =>
      let n := Text.digitsValue digits * unit
        + Text.digitsValue fraction * unit / Nat.pow 10 fraction.length
      if Nat.pow 2 63 < n then .error (.malformed whole) else .ok (n, rest)

/-- All numbers with their units, added up. -/
def readParts (whole : Text) : (fuel : Nat) → (sum : Nat) → Text → Except Defect Nat
  | _, sum, [] => .ok sum
  | 0, _, _ => .error (.malformed whole)
  | fuel + 1, sum, t => do
    let (n, rest) ← readPart whole t
    if Nat.pow 2 63 < sum + n then .error (.malformed whole) else readParts whole fuel (sum + n) rest

/-- Reads a span. A lone zero needs no unit. -/
def read (t : Text) : Except Defect Span :=
  let (negative, body) : Bool × Text := match t with
    | 43 :: rest => (false, rest)
    | 45 :: rest => (true, rest)
    | t => (false, t)
  if body == utf8 "0" then .ok 0
  else if body.isEmpty then .error (.malformed t)
  else do
    let n ← readParts t body.length 0 body
    if negative then return -(n : Int)
    else if Nat.pow 2 63 ≤ n then .error (.malformed t)
    else return n

end Mundart.Span
