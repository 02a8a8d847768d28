import Mundart.Failure

/-!
# Operations that trust their caller

Reading a value as one type, taking an item by its position, dividing an integer: each has no answer
for some arguments and trusts that it is not given them. Where it is, the answer is a defect. The
operators and methods test a value's type, a position or a divisor before they use one of these.
-/

namespace Mundart

/-! ### Values of one type

The kind that was met is part of the defect, and so is the name of the reader. -/

namespace Value

/-- Reads a value as one type. -/
def trusted {α : Type} (reader : Text) (read : Value → Option α) (v : Value) : Except Failure α :=
  match read v with
  | some a => .ok a
  | none => .error (.defect (.wrongKind reader v.kind))

def asInt (v : Value) : Except Failure Int64 := v.trusted "AsInt" asInt?

def asDouble (v : Value) : Except Failure Float := v.trusted "AsDouble" asDouble?

def asText (v : Value) : Except Failure Text := v.trusted "AsString" asText?

def asArray (v : Value) : Except Failure (List Value) := v.trusted "AsList" asArray?

def asAssoc (v : Value) : Except Failure (Dict Value) := v.trusted "AsMap" asAssoc?

end Value

/-! ### Positions

A position that is outside of its list is told with the length of the list. -/

namespace Trusted

variable {α β : Type}

/-- The item at a position. -/
def item (xs : List α) (i : Nat) : Except Failure α :=
  match xs[i]? with
  | some x => .ok x
  | none => .error (.defect (.outOfRange i xs.length))

/-- The list with the item at a position replaced. -/
def replace (xs : List α) (i : Nat) (x : α) : Except Failure (List α) :=
  if i < xs.length then .ok (xs.set i x) else .error (.defect (.outOfRange i xs.length))

/-- The items from a position on. -/
def rest (xs : List α) (i : Nat) : Except Failure (List α) :=
  if i ≤ xs.length then .ok (xs.drop i) else .error (.defect (.outOfRange i xs.length))

/-- Every item of a list with the item of another one at the same position. -/
def pairs (xs : List α) (ys : List β) : Except Failure (List (α × β)) :=
  if xs.length ≤ ys.length then .ok (xs.zip ys)
  else .error (.defect (.outOfRange ys.length ys.length))

/-! ### Integers

Division rounds towards zero, and the smallest integer divided by minus one is itself. -/

def remainder (a b : Int64) : Except Failure Int64 :=
  if b = 0 then .error (.defect .zeroDivisor) else .ok (a % b)

def quotient (a b : Int64) : Except Failure Int64 :=
  if b = 0 then .error (.defect .zeroDivisor) else .ok (a / b)

end Trusted

end Mundart
