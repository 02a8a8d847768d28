import Mundart.Dict
import Mundart.Number.Double

/-!
# Values

The dynamic values of the language. Lists and associative arrays are plain values: an operation
that changes one yields a new value, so nothing is ever shared between two variables.
-/

namespace Mundart

/-- A value of the language. A function is referred to by its name. -/
inductive Value where
  | absent
  | bool (b : Bool)
  | int (n : Int64)
  | double (x : Float)
  | text (t : Text)
  | array (items : List Value)
  | assoc (entries : List (Text × Value))
  | func (name : Text)
  deriving Repr, Inhabited

namespace Value

/-- The type of a value. -/
inductive Kind where
  | absent | bool | int | double | text | array | assoc | func
  deriving DecidableEq, Repr

/-- The type's name in messages. -/
def Kind.name : Kind → Text
  | .absent => "nix"
  | .bool => "bool"
  | .int => "int"
  | .double => "double"
  | .text => "text"
  | .array => "array"
  | .assoc => "assoc"
  | .func => "hawara"

def kind : Value → Kind
  | .absent => .absent
  | .bool _ => .bool
  | .int _ => .int
  | .double _ => .double
  | .text _ => .text
  | .array _ => .array
  | .assoc _ => .assoc
  | .func _ => .func

def isAbsent : Value → Bool
  | .absent => true
  | _ => false

/-- An integer or a double. -/
def isNumber : Value → Bool
  | .int _ | .double _ => true
  | _ => false

/-- A list or an associative array. -/
def isCollection : Value → Bool
  | .array _ | .assoc _ => true
  | _ => false

/-- A number as a double. -/
def number? : Value → Option Float
  | .int n => some (Double.ofInt64 n)
  | .double x => some x
  | _ => none

/-- The items of a list, or the values of an associative array in key order. -/
def elements? : Value → Option (List Value)
  | .array items => some items
  | .assoc entries => some (entries.map Prod.snd)
  | _ => none

/-- The truth of a value as a condition: absence, zero and everything empty are false, and so is
`sichaned`. -/
def truthy : Value → Bool
  | .absent => false
  | .bool b => b
  | .int n => n != 0
  | .double x => x != 0.0
  | .text t => !t.isEmpty
  | .array items => !items.isEmpty
  | .assoc entries => !entries.isEmpty
  | .func _ => true

/-! ### Reading a value as one type

Each reader has an answer for values of its own type and for no others. -/

def asBool? : Value → Option Bool
  | .bool b => some b
  | _ => none

def asInt? : Value → Option Int64
  | .int n => some n
  | _ => none

def asDouble? : Value → Option Float
  | .double x => some x
  | _ => none

def asText? : Value → Option Text
  | .text t => some t
  | _ => none

def asArray? : Value → Option (List Value)
  | .array items => some items
  | _ => none

def asAssoc? : Value → Option (Dict Value)
  | .assoc entries => some entries
  | _ => none

end Value

end Mundart
