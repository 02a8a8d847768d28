import Mundart.Node.Basic
import Mundart.Value.Display
import Mundart.Json.Read
import Mundart.Text.Quoted

/-!
# Outlines of programs

The outline of a program is a tree of mappings, one per node, each with the node's kind first and
then its fields. It is what a program listing shows, in YAML or in JSON.
-/

namespace Mundart

/-- What a scalar of an outline is. -/
inductive Outline.Tag where
  | text | int | float | bool | null
  deriving DecidableEq, Repr

inductive Outline where
  | scalar (tag : Outline.Tag) (text : Text)
  | sequence (items : List Outline)
  | mapping (fields : List (Text × Outline))
  deriving Repr, Inhabited

namespace Outline

def text (t : Text) : Outline := .scalar .text t

def null : Outline := .scalar .null "null"

def texts (ts : List Text) : Outline := .sequence (ts.map text)

/-- A literal's value; only scalars have a written form. -/
def ofLiteral : Value → Outline
  | .bool b => .scalar .bool (if b then "true" else "false")
  | .int n => .scalar .int (Value.display (.int n))
  | .double x => .scalar .float (Value.display (.double x))
  | .text t => text t
  | _ => null

mutual

/-- The outline of one node. -/
def ofNode (node : Node) : Outline :=
  let tree (fields : List (Text × Outline)) : Outline := .mapping (("kind", text node.kind) :: fields)
  match node with
  | .literal value => tree [("value", ofLiteral value)]
  | .identifier name => tree [("name", text name)]
  | .declare name init => tree [("name", text name), ("init", ofNode init)]
  | .assign name value => tree [("name", text name), ("value", ofNode value)]
  | .array elements => tree [("elements", .sequence (ofNodes elements))]
  | .assoc keys values =>
    tree [("keys", .sequence (ofNodes keys)), ("values", .sequence (ofNodes values))]
  | .index collection position => tree [("array", ofNode collection), ("index", ofNode position)]
  | .indexAssign name position value =>
    tree [("name", text name), ("index", ofNode position), ("value", ofNode value)]
  | .property object name => tree [("object", ofNode object), ("property", text name)]
  | .propertyCall object name =>
    tree [("object", ofNode object), ("property", text name), ("arg", null)]
  | .propertyWith object name arg =>
    tree [("object", ofNode object), ("property", text name), ("arg", ofNode arg)]
  | .binary left op right =>
    tree [("left", ofNode left), ("op", text op), ("right", ofNode right)]
  | .unary op operand => tree [("op", text op), ("operand", ofNode operand)]
  | .comparison left op right =>
    tree [("left", ofNode left), ("op", text op), ("right", ofNode right)]
  | .chain operands ops => tree [("operands", .sequence (ofNodes operands)), ("ops", texts ops)]
  | .ifThen test body => tree [("cond", ofNode test), ("body", .sequence (ofNodes body))]
  | .ifElse test body otherwise =>
    tree [("cond", ofNode test), ("body", .sequence (ofNodes body)),
      ("else", .sequence (ofNodes otherwise))]
  | .forLoop start test update body =>
    tree [("init", ofNode start), ("cond", ofNode test), ("update", ofNode update),
      ("body", .sequence (ofNodes body))]
  | .whileLoop test body => tree [("cond", ofNode test), ("body", .sequence (ofNodes body))]
  | .forEach collection item body =>
    tree [("array", ofNode collection), ("item", text item), ("body", .sequence (ofNodes body))]
  | .filter collection item predicate =>
    tree [("array", ofNode collection), ("item", text item), ("predicate", ofNode predicate)]
  | .function name params body =>
    tree [("name", text name), ("params", texts params), ("body", .sequence (ofNodes body))]
  | .call name args => tree [("name", text name), ("args", .sequence (ofNodes args))]
  | .print values => tree [("values", .sequence (ofNodes values))]
  | .ret => tree []
  | .retWith value => tree [("value", ofNode value)]
  | .fetch url => tree [("url", ofNode url)]
  | .comment t => tree [("text", text t)]
  | .missing => null
  | .foreign _ => tree []

def ofNodes : List Node → List Outline
  | [] => []
  | n :: ns => ofNode n :: ofNodes ns

end

/-- The outline of a program. -/
def ofProgram (program : Program) : Outline := .sequence (ofNodes program)

/-! ### JSON

An outline as a document of JSON, its fields in the order in which they stand. Two things keep it from being
written: a double without a text in JSON, and lists and mappings that are nested too deep. -/

mutual

/-- An outline as a document, numbers as they are shown. -/
def toJson : Outline → Json
  | .scalar .text t => .string t
  | .scalar .null _ => .null
  | .scalar .bool t => .bool (t == "true")
  | .scalar _ t => .number t
  | .sequence items => .array (itemsToJson items)
  | .mapping fields => .object (fieldsToJson fields)

def itemsToJson : List Outline → List Json
  | [] => []
  | o :: os => toJson o :: itemsToJson os

def fieldsToJson : List (Text × Outline) → List (Text × Json)
  | [] => []
  | (k, o) :: fs => (k, toJson o) :: fieldsToJson fs

end

mutual

/-- The scalars of an outline from left to right. -/
def scalars : Outline → List (Tag × Text)
  | .scalar tag t => [(tag, t)]
  | .sequence items => scalarsOfItems items
  | .mapping fields => scalarsOfFields fields

def scalarsOfItems : List Outline → List (Tag × Text)
  | [] => []
  | o :: os => scalars o ++ scalarsOfItems os

def scalarsOfFields : List (Text × Outline) → List (Tag × Text)
  | [] => []
  | (_, o) :: fs => scalars o ++ scalarsOfFields fs

end

/-- Why an outline cannot be written. -/
inductive WriteError where
  /-- JSON has no text for this number. -/
  | noJsonNumber (text : Text)
  /-- Lists and mappings are nested deeper than JSON is read. -/
  | tooDeep
  /-- YAML holds no bytes that are no UTF-8. -/
  | notUtf8
  | unknownFormat (name : Text)
  deriving DecidableEq, Repr

def WriteError.message : WriteError → Text
  | .noJsonNumber t =>
    match t with
    | 45 :: b :: _ => "encoding json: invalid character '" ++ [b] ++ "' in numeric literal"
    | b :: _ => "encoding json: invalid character '" ++ [b] ++ "' looking for beginning of value"
    | [] => "encoding json: unexpected end of JSON input"
  | .tooDeep => "encoding json: exceeded max depth"
  | .notUtf8 => "encoding yaml: yaml: cannot marshal invalid UTF-8 data as !!str"
  | .unknownFormat name => "unknown dump format " ++ name.quoted

/-- The texts of doubles that are no numbers. -/
def isSpecial (t : Text) : Bool := t == "NaN" || t == "+Inf" || t == "-Inf"

mutual

/-- What comes first in an outline that its JSON text may not have: a list or mapping below the levels
that are left, or a number without a text. -/
def jsonFault? (levels : Nat) : Outline → Option WriteError
  | .scalar tag t => if tag == .float && isSpecial t then some (.noJsonNumber t) else none
  | .sequence items =>
    match levels with
    | 0 => some .tooDeep
    | levels + 1 => jsonFaultOfItems? levels items
  | .mapping fields =>
    match levels with
    | 0 => some .tooDeep
    | levels + 1 => jsonFaultOfFields? levels fields

def jsonFaultOfItems? (levels : Nat) : List Outline → Option WriteError
  | [] => none
  | o :: os => (jsonFault? levels o).or (jsonFaultOfItems? levels os)

def jsonFaultOfFields? (levels : Nat) : List (Text × Outline) → Option WriteError
  | [] => none
  | (_, o) :: fs => (jsonFault? levels o).or (jsonFaultOfFields? levels fs)

end

/-- An outline as JSON over several lines, unless it has a fault. -/
def writeJson (o : Outline) : Except WriteError Text :=
  match o.jsonFault? Json.maxDepth with
  | some fault => .error fault
  | none => .ok (o.toJson.renderIndented ++ "\n")

end Outline

end Mundart
