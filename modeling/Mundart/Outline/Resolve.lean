import Mundart.Outline.Basic
import Mundart.Number.Reading

/-!
# What a plain YAML scalar means

Written without quotes, a scalar of YAML is a string only if it reads as nothing else. `resolve`
gives the meaning of a plain text: null, a truth value, an integer, a float, a date, or a string.
-/

namespace Mundart.Outline

/-- The meanings of plain scalars. -/
inductive Meaning where
  | text | null | bool | int | float | date
  deriving DecidableEq, Repr

/-! ### Integers

An integer may carry a sign and the mark of its base. It has to fit 64 bits. -/

/-- The value of digits of a base; none if there is none or one does not belong to the base. -/
def digitsIn? (base : Nat) (t : Text) : Option Nat :=
  if t.isEmpty then none
  else
    t.foldl (fun acc b => do
      let n ← acc
      let d ← Text.hexValue? b
      if d < base then some (n * base + d) else none) (some 0)

/-- The magnitude of an integer whose base is told by its start: `0x`, `0o`, `0b`, a leading zero
for octal, decimal otherwise. -/
def magnitude? (t : Text) : Option Nat :=
  match t with
  | [48] => some 0
  | 48 :: mark :: rest =>
    let mark := Text.lowerByte mark
    if mark == 98 && !rest.isEmpty then digitsIn? 2 rest
    else if mark == 111 && !rest.isEmpty then digitsIn? 8 rest
    else if mark == 120 && !rest.isEmpty then digitsIn? 16 rest
    else digitsIn? 8 t.tail
  | t => if t.all Text.isDigit then digitsIn? 10 t else none

/-- Whether a magnitude with an optional sign fits: 64 bits with a sign, or 64 bits without one
where no sign is written. -/
def inRange (t : Text) (read : Text → Option Nat) : Bool :=
  let (negative, body) := Number.takeSign t
  match read body with
  | none => false
  | some n =>
    if negative then n ≤ Nat.pow 2 63
    else if body.length = t.length then n < Nat.pow 2 64
    else n < Nat.pow 2 63

/-- A number after the mark of its base, which may carry a sign of its own. -/
def marked (mark : Text) (base : Nat) (t : Text) : Bool :=
  match Text.after? mark t, Text.after? ("-" ++ mark) t with
  | some rest, _ => inRange rest (digitsIn? base)
  | none, some rest =>
    match digitsIn? base rest with
    | some n => n ≤ Nat.pow 2 63
    | none => false
  | none, none => false

/-! ### Floats

The shape of a decimal number, with at most one point and an exponent. The words for infinities and NaN are
listed on their own. -/

/-- Digits with at most one point and an optional exponent. -/
def hasFloatShape (t : Text) : Bool :=
  let (_, body) := Number.takeSign t
  let (mantissa, exponent?) := match body.span fun b => b != 101 && b != 69 with
    | (m, []) => (m, none)
    | (m, _ :: e) => (m, some e)
  let (whole, fraction?) := Text.cut 46 mantissa
  let fractionFits := match fraction? with
    | none => true
    | some f => f.all Text.isDigit && !(whole.isEmpty && f.isEmpty)
  let exponentFits := match exponent? with
    | none => true
    | some e =>
      let (_, digits) := Number.takeSign e
      !digits.isEmpty && digits.all Text.isDigit
  whole.all Text.isDigit && !(whole.isEmpty && fraction?.isNone) && fractionFits && exponentFits

/-! ### Dates

A date, alone or with a time of day. A day that the month does not have makes it none. -/

/-- One or two digits. -/
def shortNumber? : Text → Option (Nat × Text)
  | a :: b :: t =>
    if !Text.isDigit a then none
    else if Text.isDigit b then some ((a.toNat - 48) * 10 + (b.toNat - 48), t)
    else some (a.toNat - 48, b :: t)
  | [a] => if Text.isDigit a then some (a.toNat - 48, []) else none
  | [] => none

def daysIn (year month : Nat) : Nat :=
  if month == 2 then
    if year % 4 == 0 && (year % 100 != 0 || year % 400 == 0) then 29 else 28
  else if month == 4 || month == 6 || month == 9 || month == 11 then 30
  else 31

/-- A calendar date `YYYY-M-D` and the text after it. -/
def date? (t : Text) : Option Text := do
  let year := Text.digitsValue (t.take 4)
  let t ← Text.after? "-" (t.drop 4)
  let (month, t) ← shortNumber? t
  let t ← Text.after? "-" t
  let (day, t) ← shortNumber? t
  if 1 ≤ month && month ≤ 12 && 1 ≤ day && day ≤ daysIn year month then some t else none

/-- An optional fraction of a second: a point or comma and digits. -/
def dropFraction (t : Text) : Text :=
  match t with
  | p :: d :: _ => if (p == 46 || p == 44) && Text.isDigit d then t.tail.dropWhile Text.isDigit else t
  | _ => t

/-- A time of day `h:m:s` with an optional fraction. -/
def clock? (t : Text) : Option Text := do
  let (hour, t) ← shortNumber? t
  let t ← Text.after? ":" t
  let (minute, t) ← shortNumber? t
  let t ← Text.after? ":" t
  let (second, t) ← shortNumber? t
  if hour < 24 && minute < 60 && second < 60 then some (dropFraction t) else none

/-- A time zone: `Z`, or a sign with hours and minutes of two digits each. -/
def isZone (t : Text) : Bool :=
  match t with
  | [90] => true
  | [s, a, b, 58, c, d] =>
    (s == 43 || s == 45) && [a, b, c, d].all Text.isDigit
      && Text.digitsValue [a, b] ≤ 24 && Text.digitsValue [c, d] ≤ 60
  | _ => false

/-- A date, alone or with a time of day behind a `T` and a zone, or behind spaces without one. -/
def isDate (t : Text) : Bool :=
  let leading := (t.takeWhile Text.isDigit).length
  leading == 4 && (t.drop 4).head? == some 45 &&
    match date? t with
    | none => false
    | some [] => true
    | some (b :: rest) =>
      if b == 84 || b == 116 then ((clock? rest).map isZone).getD false
      else if b == 32 then (clock? (rest.dropWhile (· == 32))) == some []
      else false

/-! ### All together

Words come first, and then what starts like a number. Underscores among digits are left out before a number
is read, but not before a date is. -/

def nullWords : List Text := ["", "~", "null", "Null", "NULL"]

def boolWords : List Text := ["true", "True", "TRUE", "false", "False", "FALSE"]

def floatWords : List Text := [
  ".nan", ".NaN", ".NAN", ".inf", ".Inf", ".INF", "+.inf", "+.Inf", "+.INF", "-.inf", "-.Inf",
  "-.INF"]

/-- The meaning of a text that starts with a digit or a sign. -/
def resolveNumber (t : Text) : Meaning :=
  if isDate t then .date
  else
    let plain := t.filter (· != 95)
    if inRange plain magnitude? then .int
    else if hasFloatShape plain && (Number.readDouble plain).isOk then .float
    else if marked "0b" 2 plain || marked "0o" 8 plain then .int
    else .text

/-- What a text means when it is written plainly. -/
def resolve (t : Text) : Meaning :=
  if nullWords.contains t then .null
  else if boolWords.contains t then .bool
  else if floatWords.contains t then .float
  else
    match t with
    | b :: _ =>
      if Text.isDigit b || b == 43 || b == 45 then resolveNumber t
      else if b == 46 && (Number.readDouble t).isOk then .float
      else .text
    | [] => .text

/-- The meaning that a scalar of an outline has. -/
def Tag.meaning : Tag → Meaning
  | .text => .text
  | .int => .int
  | .float => .float
  | .bool => .bool
  | .null => .null

end Mundart.Outline
