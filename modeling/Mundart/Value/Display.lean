import Mundart.Value.Basic
import Mundart.Number.Layout

/-!
# How values are shown

`display` is what printing and conversion to text give; `nested` is how a value appears inside a
collection. Inside a collection a string stands in double quotes without any escape: a string
literal cannot hold a double quote, so the shown form of a collection reads back as a literal.
-/

namespace Mundart.Value

/-- The words of the truth values. -/
def boolWord (b : Bool) : Text := if b then "basst" else "sichaned"

/-- A text between double quotes, as it is. -/
def inQuotes (t : Text) : Text := "\"" ++ t ++ "\""

mutual

/-- A value inside a collection. -/
def nested : Value → Text
  | .absent => "nix"
  | .bool b => boolWord b
  | .int n => Text.ofInt n.toInt
  | .double x => Double.display x
  | .text t => inQuotes t
  | .func name => "<hawara " ++ name ++ ">"
  | .array items => "[" ++ Text.join ", " (nestedItems items) ++ "]"
  | .assoc entries =>
    "[" ++ Text.join ", " (entries.map fun e => inQuotes e.1) ++ "] : ["
      ++ Text.join ", " (nestedValues entries) ++ "]"

def nestedItems : List Value → List Text
  | [] => []
  | v :: vs => nested v :: nestedItems vs

def nestedValues : List (Text × Value) → List Text
  | [] => []
  | (_, v) :: es => nested v :: nestedValues es

end

/-- A value on its own: a string as it is, absence as nothing. -/
def display : Value → Text
  | .text t => t
  | .absent => []
  | v => nested v

/-- Values shown one after the other with a space between. -/
def displayAll (vs : List Value) : Text := Text.join " " (vs.map display)

/-- The key under which a scalar is stored in an associative array: its shown form, so `1` and
`"1"` are one key. Absence, collections and functions are no keys. -/
def key? : Value → Option Text
  | .text t => some t
  | .bool b => some (display (.bool b))
  | .int n => some (display (.int n))
  | .double x => some (display (.double x))
  | _ => none

end Mundart.Value
