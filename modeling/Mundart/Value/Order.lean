import Mundart.Value.Basic

/-!
# Equality and order of values

There is one equality, used by every comparison and by membership: integers and doubles compare
as numbers, all other values only equal values of their own type. The order knows numbers and
strings; numbers are ordered as doubles, strings by their bytes.
-/

namespace Mundart.Value

mutual

def equal : Value → Value → Bool
  | .absent, .absent => true
  | .bool a, .bool b => a == b
  | .int a, .int b => a == b
  | .double a, .double b => a == b
  | .int a, .double b => Double.ofInt64 a == b
  | .double a, .int b => a == Double.ofInt64 b
  | .text a, .text b => a == b
  | .func a, .func b => a == b
  | .array a, .array b => equalItems a b
  | .assoc a, .assoc b => equalEntries a b
  | _, _ => false

def equalItems : List Value → List Value → Bool
  | [], [] => true
  | a :: as, b :: bs => equal a b && equalItems as bs
  | _, _ => false

def equalEntries : List (Text × Value) → List (Text × Value) → Bool
  | [], [] => true
  | (j, a) :: as, (k, b) :: bs => j == k && equal a b && equalEntries as bs
  | _, _ => false

end

/-- Doubles in order; a NaN counts as equal to everything. -/
def compareDoubles (a b : Float) : Ordering :=
  if a < b then .lt else if b < a then .gt else .eq

/-- The order of two numbers or of two strings; no other two values are comparable. -/
def compare? : Value → Value → Option Ordering
  | .text a, .text b => some (Text.compare a b)
  | a, b =>
    match a.number?, b.number? with
    | some x, some y => some (compareDoubles x y)
    | _, _ => none

end Mundart.Value
