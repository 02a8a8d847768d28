import Mundart.Text.Rune

/-!
# JSON documents

A number keeps the text it is written with, so that reading decides later what it means and
writing repeats it. An object is the list of its members in the order they stand.
-/

namespace Mundart

inductive Json where
  | null
  | bool (b : Bool)
  | number (literal : Text)
  | string (t : Text)
  | array (items : List Json)
  | object (members : List (Text × Json))
  deriving Repr, Inhabited

namespace Json

def ofNat (n : Nat) : Json := .number (Text.ofNat n)

def ofInt (n : Int) : Json := .number (Text.ofInt n)

/-! ### Writing

A document is written without any blanks, or over several lines. The texts in it are safe to be put into a
page. -/

/-- One rune inside a JSON string. Besides what JSON demands, the characters that could end a
script element or a line are escaped, and a stray byte is written as U+FFFD. -/
def escapeRune : Rune → Text
  | .stray _ => String.utf8EncodeChar Rune.replacement
  | .char c =>
    match c.toNat with
    | 34 => "\\\""
    | 92 => "\\\\"
    | 8 => "\\b"
    | 12 => "\\f"
    | 10 => "\\n"
    | 13 => "\\r"
    | 9 => "\\t"
    | n =>
      if n < 0x20 || n == 0x3C || n == 0x3E || n == 0x26 || n == 0x2028 || n == 0x2029 then
        "\\u" ++ Text.hex 4 n
      else String.utf8EncodeChar c

/-- A text as a JSON string. -/
def quote (t : Text) : Text := "\"" ++ (Text.runes t).flatMap escapeRune ++ "\""

mutual

/-- A document without any blanks. -/
def render : Json → Text
  | .null => "null"
  | .bool b => if b then "true" else "false"
  | .number literal => literal
  | .string t => quote t
  | .array items => "[" ++ Text.join "," (renderItems items) ++ "]"
  | .object members => "\x7b" ++ Text.join "," (renderMembers members) ++ "\x7d"

def renderItems : List Json → List Text
  | [] => []
  | v :: vs => render v :: renderItems vs

def renderMembers : List (Text × Json) → List Text
  | [] => []
  | (k, v) :: ms => (quote k ++ ":" ++ render v) :: renderMembers ms

end

/-- A line break followed by the indentation of a nesting depth. -/
def newline (depth : Nat) : Text := 10 :: List.replicate (2 * depth) 32

mutual

/-- The pieces of a document over several lines, two more spaces for each level; an empty list or
object stays on its line. -/
def indentedPieces (depth : Nat) : Json → List Text
  | .array [] => ["[]"]
  | .array (v :: vs) =>
    utf8 "[" :: newline (depth + 1) :: indentedPieces (depth + 1) v ++ moreItems depth vs
  | .object [] => ["\x7b\x7d"]
  | .object ((k, v) :: ms) =>
    utf8 "\x7b" :: newline (depth + 1) :: quote k :: utf8 ": " :: indentedPieces (depth + 1) v
      ++ moreMembers depth ms
  | .null => ["null"]
  | .bool b => [if b then "true" else "false"]
  | .number literal => [literal]
  | .string t => [quote t]

def moreItems (depth : Nat) : List Json → List Text
  | [] => [newline depth, "]"]
  | v :: vs =>
    utf8 "," :: newline (depth + 1) :: indentedPieces (depth + 1) v ++ moreItems depth vs

def moreMembers (depth : Nat) : List (Text × Json) → List Text
  | [] => [newline depth, "\x7d"]
  | (k, v) :: ms =>
    utf8 "," :: newline (depth + 1) :: quote k :: utf8 ": " :: indentedPieces (depth + 1) v
      ++ moreMembers depth ms

end

/-- A document over several lines. -/
def renderIndented (v : Json) : Text := (indentedPieces 0 v).flatten

/-- The member of an object with the given name. -/
def field? (name : Text) : Json → Option Json
  | .object members => (members.find? fun m => m.1 = name).map Prod.snd
  | _ => none

end Json

end Mundart
