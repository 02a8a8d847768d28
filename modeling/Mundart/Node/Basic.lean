import Mundart.Value.Basic

/-!
# Program trees

A program is a list of nodes. Statements and expressions are nodes of one type: what the grammar
allows where is the reader's affair, and evaluation gives every node a meaning.
-/

namespace Mundart

inductive Node where
  | literal (value : Value)
  | identifier (name : Text)
  /-- `heast name = init` -/
  | declare (name : Text) (init : Node)
  /-- `name = value` -/
  | assign (name : Text) (value : Node)
  | array (elements : List Node)
  /-- `[keys] : [values]`, paired by position -/
  | assoc (keys values : List Node)
  | index (collection position : Node)
  /-- `name[position] = value` -/
  | indexAssign (name : Text) (position value : Node)
  /-- `object.name` -/
  | property (object : Node) (name : Text)
  /-- `object.name()` -/
  | propertyCall (object : Node) (name : Text)
  /-- `object.name(arg)` -/
  | propertyWith (object : Node) (name : Text) (arg : Node)
  | binary (left : Node) (op : Text) (right : Node)
  | unary (op : Text) (operand : Node)
  | comparison (left : Node) (op : Text) (right : Node)
  /-- Operands joined by `und` and `oda`, one operator fewer than operands. -/
  | chain (operands : List Node) (ops : List Text)
  | ifThen (test : Node) (body : List Node)
  | ifElse (test : Node) (body otherwise : List Node)
  | forLoop (start test update : Node) (body : List Node)
  | whileLoop (test : Node) (body : List Node)
  | forEach (collection : Node) (item : Text) (body : List Node)
  /-- `collection.nimmAusse(item => { predicate })` -/
  | filter (collection : Node) (item : Text) (predicate : Node)
  | function (name : Text) (params : List Text) (body : List Node)
  | call (name : Text) (args : List Node)
  | print (values : List Node)
  /-- `speicher` without a value -/
  | ret
  /-- `speicher value` -/
  | retWith (value : Node)
  | fetch (url : Node)
  | comment (text : Text)
  /-- A place where a node is missing. -/
  | missing
  /-- A node of a kind that the language does not know. -/
  | foreign (kind : Text)
  deriving Repr, Inhabited

abbrev Program := List Node

namespace Node

/-- The word for a node's kind in listings and log lines. -/
def kind : Node → Text
  | .literal _ => "literal"
  | .identifier _ => "identifier"
  | .declare _ _ => "variable_declaration"
  | .assign _ _ => "assignment"
  | .array _ => "array"
  | .assoc _ _ => "associative_array"
  | .index _ _ => "array_access"
  | .indexAssign _ _ _ => "array_assignment"
  | .property _ _ | .propertyCall _ _ | .propertyWith _ _ _ => "property_access"
  | .binary _ _ _ => "arithmetic"
  | .unary _ _ => "unary_arithmetic"
  | .comparison _ _ _ => "comparison"
  | .chain _ _ => "logical_chain"
  | .ifThen _ _ | .ifElse _ _ _ => "if"
  | .forLoop _ _ _ _ => "for"
  | .whileLoop _ _ => "while"
  | .forEach _ _ _ => "foreach"
  | .filter _ _ _ => "filter"
  | .function _ _ _ => "function"
  | .call _ _ => "function_call"
  | .print _ => "print"
  | .ret | .retWith _ => "return"
  | .fetch _ => "fetch"
  | .comment _ => "comment"
  | .missing => "nil"
  | .foreign kind => kind

end Node

end Mundart
