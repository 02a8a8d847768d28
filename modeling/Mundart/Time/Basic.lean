import Mundart.Number.Layout

/-!
# Moments and spans

A moment is counted in nanoseconds from the start of 1970, a span is the number of nanoseconds
between two moments. The texts are the ones that the pages and the services show: a date with a
clock time in UTC, and a length in milliseconds, seconds or minutes.
-/

namespace Mundart

/-- A moment, in nanoseconds from the start of 1970. -/
abbrev Instant := Int

/-- A length of time in nanoseconds. -/
abbrev Span := Int

/-- A day of the calendar. -/
structure Date where
  year : Int
  month : Nat
  day : Nat
  deriving DecidableEq, Repr

namespace Date

/-- The date of the day with the given number, day zero being the first of 1970. Years are counted
from March here, so that the leap day is the last of its year. -/
def ofDayNumber (n : Int) : Date :=
  let shifted := n + 719468
  let era := shifted / 146097
  let day := (shifted % 146097).toNat
  let year := (day - day / 1460 + day / 36524 - day / 146096) / 365
  let dayOfYear := day - (365 * year + year / 4 - year / 100)
  let month := (5 * dayOfYear + 2) / 153
  let dayOfMonth := dayOfYear - (153 * month + 2) / 5 + 1
  if month < 10 then ⟨year + era * 400, month + 3, dayOfMonth⟩
  else ⟨year + era * 400 + 1, month - 9, dayOfMonth⟩

/-- Year, month and day with hyphens between them. -/
def text (d : Date) : Text :=
  let year := (if d.year < 0 then utf8 "-" else []) ++ Text.padNat 4 d.year.natAbs
  year ++ "-" ++ Text.padNat 2 d.month ++ "-" ++ Text.padNat 2 d.day

end Date

namespace Instant

def secondsPerDay : Int := 86400

/-- The first moment of the year one, from which an unset clock counts. -/
def yearOne : Instant := -62135596800 * 1000000000

def second (t : Instant) : Int := t / 1000000000

def date (t : Instant) : Date := Date.ofDayNumber (second t / secondsPerDay)

/-- Hours, minutes and seconds of the day. -/
def clock (t : Instant) : Text :=
  let s := (second t % secondsPerDay).toNat
  Text.padNat 2 (s / 3600) ++ ":" ++ Text.padNat 2 (s / 60 % 60) ++ ":" ++ Text.padNat 2 (s % 60)

/-- The form that people read. -/
def text (t : Instant) : Text := (date t).text ++ " " ++ clock t

/-- The form that programs exchange. -/
def rfc3339 (t : Instant) : Text := (date t).text ++ "T" ++ clock t ++ "Z"

end Instant

namespace Span

def millisecond : Span := 1000000
def second : Span := 1000000000
def minute : Span := 60 * second
def hour : Span := 60 * minute

/-- The span from one moment to another, at most what sixty-four bits hold. -/
def between (start stop : Instant) : Span :=
  max (-(Nat.pow 2 63 : Int)) (min (Nat.pow 2 63 - 1 : Int) (stop - start))

/-- A span in some unit, rounded as the sum of its whole part and its fraction. -/
def inUnit (unit d : Span) : Float :=
  Double.ofInt64 (Int64.ofInt (d.tdiv unit))
    + Double.ofInt64 (Int64.ofInt (d.tmod unit)) / Double.ofInt64 (Int64.ofInt unit)

/-- A double without its fraction. -/
def whole (x : Float) : Int :=
  let r := Double.magnitude x
  let n : Int := r.num / r.den
  if Double.isNegative x then -n else n

/-- A span as a run's duration: milliseconds below a second, tenths of seconds below a minute, else
minutes and seconds. -/
def text (d : Span) : Text :=
  if d < second then Text.ofInt (d.tdiv millisecond) ++ "ms"
  else if d < minute then Double.onePlace (inUnit second d) ++ "s"
  else
    Text.ofInt (whole (inUnit minute d)) ++ "m "
      ++ Text.ofInt ((whole (inUnit second d)).tmod 60) ++ "s"

/-- A count of some unit, `places` of whose digits stand after the point; zeros at the end of the
fraction are left out. -/
def decimalText (places n : Nat) : Text :=
  let fraction := (Text.padNat places (n % Nat.pow 10 places)).reverse.dropWhile (· == ascii '0')
  let point : Text := if n % Nat.pow 10 places = 0 then [] else "." ++ fraction.reverse
  Text.ofNat (n / Nat.pow 10 places) ++ point

/-- A span to the nanosecond: hours, minutes and seconds, or the largest smaller unit below a
second. -/
def exactText (d : Span) : Text :=
  let n := d.natAbs
  let sign : Text := if d < 0 then "-" else []
  let seconds := n / 1000000000
  let size : Text :=
    if n = 0 then "0s"
    else if n < 1000 then Text.ofNat n ++ "ns"
    else if n < 1000000 then decimalText 3 n ++ "µs"
    else if n < 1000000000 then decimalText 6 n ++ "ms"
    else
      let hours : Text := if seconds < 3600 then [] else Text.ofNat (seconds / 3600) ++ "h"
      let minutes : Text := if seconds < 60 then [] else Text.ofNat (seconds / 60 % 60) ++ "m"
      hours ++ minutes ++ decimalText 9 (n % 60000000000) ++ "s"
  sign ++ size

/-- A number of things that lie back. -/
def countBack (n : Int) (unit : String) : Text :=
  if n = 1 then "1 " ++ utf8 unit ++ " ago" else Text.ofInt n ++ " " ++ utf8 unit ++ "s ago"

/-- How long something is ago. -/
def agoText (d : Span) : Text :=
  if d < minute then "just now"
  else if d < hour then countBack (whole (inUnit minute d)) "minute"
  else if d < 24 * hour then countBack (whole (inUnit hour d)) "hour"
  else countBack (whole (inUnit hour d / 24.0)) "day"

end Span

end Mundart
