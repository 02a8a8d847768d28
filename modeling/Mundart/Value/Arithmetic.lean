import Mundart.Value.Order
import Mundart.Value.Trusted

/-!
# Operators on values

Arithmetic, comparison, counting up and down, reading and writing by index. These are the operations
that an expression applies once its parts have values.
-/

namespace Mundart.Value

/-! ### Arithmetic

Two integers stay integers as far as they can, and any other pair of numbers is computed in doubles. -/

inductive ArithOp where
  | plus | minus | times | divide
  deriving DecidableEq, Repr

def ArithOp.ofWord? (word : Text) : Option ArithOp :=
  if word == "plus" then some .plus
  else if word == "minus" then some .minus
  else if word == "mal" then some .times
  else if word == "dividier" then some .divide
  else none

/-- Arithmetic on integers stays in the integers and wraps around at 64 bits; only an inexact
division leaves them. -/
def ArithOp.onInts (op : ArithOp) (a b : Int64) : Except Failure (Option Int64) :=
  match op with
  | .plus => .ok (some (a + b))
  | .minus => .ok (some (a - b))
  | .times => .ok (some (a * b))
  | .divide => do
    if (← Trusted.remainder a b) = 0 then do
      let n ← Trusted.quotient a b
      .ok (some n)
    else .ok none

def ArithOp.onDoubles (op : ArithOp) (a b : Float) : Float :=
  match op with
  | .plus => a + b
  | .minus => a - b
  | .times => a * b
  | .divide => a / b

/-- Numbers under an operator; a divisor of zero is refused, as integer and as double. -/
def ArithOp.onNumbers (op : ArithOp) (left right : Value) (a b : Float) : Except Failure Value :=
  if op = .divide && b == 0.0 then .error .divisionByZero
  else
    if left.kind = .int ∧ right.kind = .int then do
      match ← op.onInts (← left.asInt) (← right.asInt) with
      | some n => .ok (.int n)
      | none => .ok (.double (op.onDoubles a b))
    else .ok (.double (op.onDoubles a b))

/-- A binary operator. `plus` joins texts as soon as one side is a string; the operands are looked
at before the operator. -/
def arithmetic (word : Text) (left right : Value) : Except Failure Value :=
  if word == "plus" && (left.kind == .text || right.kind == .text) then
    .ok (.text (left.display ++ right.display))
  else
    match left.number?, right.number? with
    | some a, some b =>
      match ArithOp.ofWord? word with
      | some op => op.onNumbers left right a b
      | none => .error (.unknownOperator word)
    | _, _ => .error (.mismatch (.operands word left.kind right.kind))

/-- Counts a number up or down by one. -/
def step (word : Text) (v : Value) : Except Failure Value :=
  let delta? : Option (Int64 × Float) :=
    if word == "plusplus" then some (1, 1.0)
    else if word == "minusminus" then some (-1, -1.0)
    else none
  match delta? with
  | none => .error (.unknownOperator word)
  | some (i, x) =>
    match v.kind with
    | .int => do
      let n ← v.asInt
      .ok (.int (n + i))
    | .double => do
      let y ← v.asDouble
      .ok (.double (y + x))
    | kind => .error (.mismatch (.operand word kind))

/-! ### Comparison

Words for equality apply to all values. Order goes through doubles, also for two integers. -/

/-- The orderings that an ordering word accepts. -/
def orderTest? (word : Text) : Option (Ordering → Bool) :=
  if word == "klana" then some (· == .lt)
  else if word == "größer" then some (· == .gt)
  else if word == "klanaglei" then some (· != .gt)
  else if word == "größerglei" || word == "gößerglei" then some (· != .lt)
  else none

/-- A comparison. Equality is defined for all values, order for two numbers or two strings. -/
def compareBy (word : Text) (left right : Value) : Except Failure Bool :=
  if word == "gleich" then .ok (left.equal right)
  else if word == "isned" then .ok (!left.equal right)
  else
    match orderTest? word with
    | none => .error (.unknownOperator word)
    | some test =>
      match left.compare? right with
      | some order => .ok (test order)
      | none => .error (.mismatch (.compared word left.kind right.kind))

/-- Truth values folded from the left, without precedence. A chain with too few operands is no chain
that the grammar knows; it is only looked at as far as the result needs it. -/
def foldChain (results : List Bool) (ops : List Text) : Except Failure Bool :=
  let rec fold (acc : Bool) (i : Nat) : List Text → Except Failure Bool
    | [] => .ok acc
    | op :: ops =>
      if op == "und" then
        if acc then do fold (← Trusted.item results i) (i + 1) ops else fold false (i + 1) ops
      else if op == "oda" then
        if acc then fold true (i + 1) ops else do fold (← Trusted.item results i) (i + 1) ops
      else .error (.unknownOperator op)
  do fold (← Trusted.item results 0) 1 ops

/-! ### Indexes and keys

Lists and texts are indexed by integers, associative arrays by keys. Only lists and associative arrays are
written to. -/

/-- An index into a sequence of a length. -/
def positionIn (index : Value) (length : Nat) : Except Failure Nat :=
  if index.kind = .int then do
    let i ← index.asInt
    if 0 ≤ i.toInt ∧ i.toInt < length then .ok i.toInt.toNat
    else .error (.missed (.position i.toInt (length - 1)))
  else .error (.mismatch (.index index.kind))

/-- A value as the key of an associative array. -/
def asKey (v : Value) : Except Failure Text :=
  match v.key? with
  | some key => .ok key
  | none => .error (.mismatch (.key v.kind))

/-- The element of a collection, or the character of a text, at an index. -/
def itemAt (collection index : Value) : Except Failure Value :=
  match collection.kind with
  | .array => do
    let items ← collection.asArray
    let i ← positionIn index items.length
    Trusted.item items i
  | .assoc => do
    let key ← asKey index
    match Dict.get? (← collection.asAssoc) key with
    | some v => .ok v
    | none => .error (.missed (.missingKey key))
  | .text => do
    let cs := (← collection.asText).chars
    let i ← positionIn index cs.length
    let c ← Trusted.item cs i
    .ok (.text (Text.ofChars [c]))
  | kind => .error (.mismatch (.indexed kind))

/-- The collection held by a named variable with one place written. Writing just behind the end of a
list appends. -/
def withItem (name : Text) (collection index v : Value) : Except Failure Value :=
  match collection.kind with
  | .array => do
    let items ← collection.asArray
    if index.kind = .int then do
      let i ← index.asInt
      if 0 ≤ i.toInt ∧ i.toInt < items.length then do
        let items ← Trusted.replace items i.toInt.toNat v
        .ok (.array items)
      else if i.toInt = items.length then .ok (.array (items ++ [v]))
      else .error (.missed (.position i.toInt items.length))
    else .error (.mismatch (.index index.kind))
  | .assoc => do
    let key ← asKey index
    let entries ← collection.asAssoc
    .ok (.assoc (Dict.set entries key v))
  | _ => .error (.mismatch (.notAnArray name))

end Mundart.Value
