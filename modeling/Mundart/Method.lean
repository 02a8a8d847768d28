import Mundart.Value.Order
import Mundart.Value.Trusted
import Mundart.Number.Reading
import Mundart.Text.Blank
import Mundart.Random
import Mundart.Sorting

/-!
# Property methods

The methods that a value answers, `xs.umfang` or `xs.ane(4)`. A method takes no argument or exactly
one. The result of a method that stores back replaces the variable it was called on.
-/

namespace Mundart

inductive Method where
  | length | count | contains | isText | isArray | isNoArray | isNumber
  | sliceFrom | pick | push | sort | toText | toNumber
  deriving DecidableEq, Repr

namespace Method

def name : Method → Text
  | .length => "umfang"
  | .count => "numma"
  | .contains => "gibts"
  | .isText => "isText"
  | .isArray => "isArray"
  | .isNoArray => "keinArray"
  | .isNumber => "isNumma"
  | .sliceFrom => "ausse"
  | .pick => "nimmIrgendwas"
  | .push => "ane"
  | .sort => "ordne"
  | .toText => "zuText"
  | .toNumber => "zuNumma"

/-- All methods in the byte order of their names. -/
def all : List Method :=
  [.push, .sliceFrom, .contains, .isArray, .isNumber, .isText, .isNoArray, .pick, .count, .sort,
    .length, .toNumber, .toText]

def ofName? (name : Text) : Option Method := all.find? fun m => m.name == name

def takesArg : Method → Bool
  | .contains | .sliceFrom | .push => true
  | _ => false

def storesBack : Method → Bool
  | .push | .sort => true
  | _ => false

/-! ### What the methods do

Each method looks at its receiver first, and what it cannot be used on is a mismatch. The only one with an
effect of its own is the choice of a random element, which draws from the random state. -/

def receiverFailure (m : Method) (v : Value) : Failure := .mismatch (.receiver m.name v.kind)

/-- The number of characters or entries. -/
def lengthOf (m : Method) (receiver : Value) : Except Failure Value :=
  match receiver.kind with
  | .text => do
    let t ← receiver.asText
    .ok (.int (Int64.ofNat t.size))
  | .array => do
    let items ← receiver.asArray
    .ok (.int (Int64.ofNat items.length))
  | .assoc => do
    let entries ← receiver.asAssoc
    .ok (.int (Int64.ofNat entries.length))
  | _ => .error (receiverFailure m receiver)

/-- Membership: an equal item, a key, or a part of a text. -/
def containsIn (arg receiver : Value) : Except Failure Value :=
  match receiver.kind with
  | .array => do
    let items ← receiver.asArray
    .ok (.bool (items.any fun item => item.equal arg))
  | .assoc =>
    match arg.key? with
    | some key => do
      let entries ← receiver.asAssoc
      .ok (.bool (Dict.has entries key))
    | none => .ok (.bool false)
  | .text =>
    if arg.kind = .text then do
      let part ← arg.asText
      let t ← receiver.asText
      .ok (.bool (Text.hasPart part t))
    else .error (.mismatch (.searchedFor arg.kind))
  | _ => .error (receiverFailure .contains receiver)

/-- What is left of a list or text from an index on. -/
def slice (arg receiver : Value) : Except Failure Value :=
  if arg.kind = .int then do
    let start ← arg.asInt
    if start < 0 then .error (.missed (.negative start.toInt))
    else
      match receiver.kind with
      | .array => do
        let items ← receiver.asArray
        if items.length ≤ start.toInt then .ok (.array [])
        else do
          let rest ← Trusted.rest items start.toInt.toNat
          .ok (.array rest)
      | .text => do
        let cs := (← receiver.asText).chars
        if cs.length ≤ start.toInt then .ok (.text [])
        else do
          let rest ← Trusted.rest cs start.toInt.toNat
          .ok (.text (Text.ofChars rest))
      | _ => .error (receiverFailure .sliceFrom receiver)
  else .error (.mismatch (.sliceStart arg.kind))

/-- Any element of a collection; an empty one has none and uses no draw. -/
def pickFrom (random : Random) (receiver : Value) : Except Failure Value × Random :=
  match receiver.elements? with
  | none => (.error (receiverFailure .pick receiver), random)
  | some [] => (.ok .absent, random)
  | some items =>
    let (i, random) := random.below items.length
    (Trusted.item items i, random)

def pushTo (arg receiver : Value) : Except Failure Value :=
  if receiver.kind = .array then do
    let items ← receiver.asArray
    .ok (.array (items ++ [arg]))
  else .error (.mismatch (.notAList (name .push) receiver.kind))

/-- Whether one value sorts before another, noting the first pair that cannot be compared. Such a
pair counts as already in order. -/
def sortsBefore (a b : Value) : StateM (Option (Value × Value)) Bool := do
  match a.compare? b with
  | some order => return order == .lt
  | none =>
    modify fun seen => seen <|> some (a, b)
    return false

def sorted (receiver : Value) : Except Failure Value :=
  if receiver.kind = .array then do
    let items ← receiver.asArray
    match (Sorting.stableSort sortsBefore items).run none with
    | (_, some (a, b)) => .error (.mismatch (.sorted a.kind b.kind))
    | (items, none) => .ok (.array items)
  else .error (.mismatch (.notAList (name .sort) receiver.kind))

def textOf (v : Value) : Text :=
  match v.elements? with
  | some vs => Value.displayAll vs
  | none => v.display

/-- The number that a text writes, blanks around it allowed. -/
def numberOf (receiver : Value) : Except Failure Value :=
  match receiver.kind with
  | .int | .double => .ok receiver
  | .text => do
    let t ← receiver.asText
    match Number.readInt64 t.trim, Number.readDouble t.trim with
    | .ok n, _ => .ok (.int n)
    | .error _, .ok x => .ok (.double x)
    | .error _, .error _ => .error (.mismatch (.notNumeric t))
  | _ => .error (receiverFailure .toNumber receiver)

/-- Applies a method whose argument count was checked. -/
def apply (m : Method) (receiver arg : Value) (random : Random) : Except Failure Value × Random :=
  match m with
  | .length | .count => (lengthOf m receiver, random)
  | .contains => (containsIn arg receiver, random)
  | .isText => (.ok (.bool (receiver.kind == .text)), random)
  | .isArray => (.ok (.bool receiver.isCollection), random)
  | .isNoArray => (.ok (.bool (!receiver.isCollection)), random)
  | .isNumber => (.ok (.bool receiver.isNumber), random)
  | .sliceFrom => (slice arg receiver, random)
  | .pick => pickFrom random receiver
  | .push => (pushTo arg receiver, random)
  | .sort => (sorted receiver, random)
  | .toText => (.ok (.text (textOf receiver)), random)
  | .toNumber => (numberOf receiver, random)

/-- Calls a method: an argument has to be there exactly when the method takes one. -/
def invoke (m : Method) (receiver : Value) (arg : Option Value) (random : Random) :
    Except Failure Value × Random :=
  if m.takesArg = arg.isSome then m.apply receiver (arg.getD .absent) random
  else
    (.error (.arity ("." ++ m.name) (if m.takesArg then 1 else 0) (if arg.isSome then 1 else 0)),
      random)

end Method

end Mundart
