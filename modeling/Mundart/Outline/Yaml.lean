import Mundart.Outline.Resolve

/-!
# Outlines as YAML

Block style with two spaces for each level. A string is written in the first of these styles that
keeps it: literal lines if it has a line break, double quotes if its plain text would mean something
else, plain, single quotes, double quotes. A scalar that is no string and whose plain text would
mean something else gets an explicit tag.
-/

namespace Mundart.Outline

/-! ### Characters

Characters are told apart by whether they can stand in a text as they are, end a line or separate words. -/

/-- The characters that YAML lets stand as they are. -/
def isYamlPrintable (c : Char) : Bool :=
  let n := c.toNat
  n == 0x0A || (0x20 ≤ n && n ≤ 0x7E) || (0xA0 ≤ n && n ≤ 0xFFFD && n != 0xFEFF)

/-- Line feed, carriage return, next line, line separator, paragraph separator. -/
def isYamlBreak (c : Char) : Bool :=
  let n := c.toNat
  n == 0x0A || n == 0x0D || n == 0x85 || n == 0x2028 || n == 0x2029

def isYamlBlank : Option Char → Bool
  | none => true
  | some c => c == ' ' || c == '\t'

/-! ### Which styles keep a string

A string can be written plainly, in single quotes, as literal lines or in double quotes. Only the last style
keeps every string. -/

/-- The styles that keep a string as it is. -/
structure Styles where
  plain : Bool := true
  single : Bool := true
  literal : Bool := true

/-- Signs that may not start a plain scalar. -/
def leadingSigns : List Char := "#,[]\x7b\x7d&*!|>'\"%@`".toList

/-- Whether a sign at some place would be read as structure. -/
def isStructure (first : Bool) (before : Option Char) (c : Char) (next : Option Char) : Bool :=
  if first then
    leadingSigns.contains c || ((c == '?' || c == ':' || c == '-') && isYamlBlank next)
  else (c == ':' && isYamlBlank next) || (c == '#' && (isYamlBlank before || before.any isYamlBreak))

/-- Whether some sign of a string would be read as structure. -/
def hasStructure (first : Bool) (before : Option Char) : List Char → Bool
  | [] => false
  | c :: cs => isStructure first before c cs.head? || hasStructure false (some c) cs

/-- Whether a character with one property is directly followed by one with another. -/
def adjacent (p q : Char → Bool) : List Char → Bool
  | a :: b :: cs => (p a && q b) || adjacent p q (b :: cs)
  | _ => false

/-- The styles that keep a string. -/
def stylesFor (cs : List Char) : Styles :=
  let blank (c : Char) : Bool := c == ' '
  let edge := cs.head?.any (fun c => blank c || isYamlBreak c)
    || cs.getLast?.any (fun c => blank c || isYamlBreak c)
  let special := cs.any fun c => c != '\t' && !isYamlPrintable c
  let tab := cs.contains '\t'
  let spaceBreak := adjacent blank isYamlBreak cs
  let breakSpace := adjacent isYamlBreak blank cs
  let marker := cs.take 3 == ['-', '-', '-'] || cs.take 3 == ['.', '.', '.']
  { plain := !(edge || special || tab || spaceBreak || breakSpace || marker
      || cs.any isYamlBreak || hasStructure true none cs)
    single := !(special || tab || spaceBreak || breakSpace)
    literal := !(special || spaceBreak || cs.getLast?.any blank || cs.isEmpty) }

/-! ### The styles

Each style is a function of the characters, and of the indentation where there can be more than one line. -/

def spaces (n : Nat) : Text := List.replicate n 32

/-- The letter of the short escape of a character in double quotes, where it has one. -/
def yamlEscape? (c : Char) : Option Char :=
  match c.toNat with
  | 0 => some '0'
  | 7 => some 'a'
  | 8 => some 'b'
  | 9 => some 't'
  | 10 => some 'n'
  | 11 => some 'v'
  | 12 => some 'f'
  | 13 => some 'r'
  | 27 => some 'e'
  | 34 => some '"'
  | 92 => some '\\'
  | 0x85 => some 'N'
  | 0xA0 => some '_'
  | 0x2028 => some 'L'
  | 0x2029 => some 'P'
  | _ => none

def doubleQuotedChar (c : Char) : Text :=
  if isYamlPrintable c && !isYamlBreak c && c != '"' && c != '\\' then String.utf8EncodeChar c
  else
    match yamlEscape? c with
    | some letter => [92, ascii letter]
    | none =>
      let n := c.toNat
      if n ≤ 0xFF then "\\x" ++ Text.toUpper (Text.hex 2 n)
      else if n ≤ 0xFFFF then "\\u" ++ Text.toUpper (Text.hex 4 n)
      else "\\U" ++ Text.toUpper (Text.hex 8 n)

def doubleQuoted (cs : List Char) : Text := "\"" ++ cs.flatMap doubleQuotedChar ++ "\""

/-- Characters with the indentation put in front of each line after a break. -/
def indentLines (indent : Nat) (atStart : Bool) (encode : Char → Text) : List Char → List Text
  | [] => []
  | c :: cs =>
    if isYamlBreak c then String.utf8EncodeChar c :: indentLines indent true encode cs
    else
      let lead := if atStart then spaces indent else []
      (lead ++ encode c) :: indentLines indent false encode cs

def singleQuoted (indent : Nat) (cs : List Char) : Text :=
  let encode (c : Char) : Text := if c.toNat = 39 then [39, 39] else String.utf8EncodeChar c
  [39] ++ (indentLines indent false encode cs).flatten ++ [39]

/-- The marks behind the bar of a literal scalar: the indentation when the first line starts with
blanks, and what happens to the breaks at the end. -/
def literalMarks (cs : List Char) : Text :=
  let indentMark : Text := if cs.head?.any (fun c => c == ' ' || isYamlBreak c) then "2" else []
  let chompMark : Text :=
    match cs.reverse with
    | [] => "-"
    | [last] => if isYamlBreak last then "+" else "-"
    | last :: previous :: _ =>
      if !isYamlBreak last then "-" else if isYamlBreak previous then "+" else []
  indentMark ++ chompMark

/-- A literal scalar: the bar, then the lines as they are. A leading break ends the bar's line. -/
def literalLines (indent : Nat) (cs : List Char) : Text :=
  let start : Text := if cs.head?.any isYamlBreak then [] else "\n"
  "|" ++ literalMarks cs ++ start ++ (indentLines indent true String.utf8EncodeChar cs).flatten

/-- What a document is put together from: text, and the start of a line at some indentation. A text
may have ended its line already. -/
inductive Piece where
  | text (t : Text)
  | endedLine (t : Text)
  | line (indent : Nat)

/-- A string as a scalar whose further lines, if it has any, are indented by `indent`. -/
def yamlText (indent : Nat) (t : Text) : Piece :=
  let cs := t.chars
  let styles := stylesFor cs
  if cs.contains '\n' then
    if styles.literal then
      let lines := literalLines indent cs
      if cs.getLast?.any isYamlBreak then .endedLine lines else .text lines
    else .text (doubleQuoted cs)
  else if resolve t != .text then .text (doubleQuoted cs)
  else if styles.plain then .text t
  else if styles.single then .text (singleQuoted indent cs)
  else .text (doubleQuoted cs)

/-- The explicit tags. -/
def Tag.yamlName : Tag → Text
  | .text => "!!str"
  | .int => "!!int"
  | .float => "!!float"
  | .bool => "!!bool"
  | .null => "!!null"

def yamlScalar (indent : Nat) (tag : Tag) (t : Text) : Piece :=
  match tag with
  | .text => yamlText indent t
  | tag => .text (if resolve t == tag.meaning then t else tag.yamlName ++ " " ++ t)

/-! ### Collections

A collection is made of pieces, which are put on lines at the end. Only an empty one stands on the line of
its field. -/

mutual

/-- A node whose own lines are indented by `indent`; the first of them is not started here. -/
def pieces (indent : Nat) : Outline → List Piece
  | .scalar tag t => [yamlScalar indent tag t]
  | .sequence [] => [.text "[]"]
  | .sequence (o :: os) => .text "- " :: pieces (indent + 2) o ++ itemPieces indent os
  | .mapping [] => [.text "\x7b\x7d"]
  | .mapping ((k, o) :: fs) => .text k :: valuePieces indent o ++ fieldPieces indent fs

/-- The items of a sequence after its first. -/
def itemPieces (indent : Nat) : List Outline → List Piece
  | [] => []
  | o :: os => .line indent :: .text "- " :: pieces (indent + 2) o ++ itemPieces indent os

/-- The fields of a mapping after its first. -/
def fieldPieces (indent : Nat) : List (Text × Outline) → List Piece
  | [] => []
  | (k, o) :: fs => .line indent :: .text k :: valuePieces indent o ++ fieldPieces indent fs

/-- What follows a field's name: a scalar or something empty on the same line, a collection on lines
of its own. -/
def valuePieces (indent : Nat) : Outline → List Piece
  | .scalar tag t => [.text ": ", yamlScalar (indent + 2) tag t]
  | .sequence [] => [.text ": []"]
  | .mapping [] => [.text ": \x7b\x7d"]
  | .sequence (o :: os) =>
    .text ":" :: .line (indent + 2) :: .text "- " :: pieces (indent + 4) o
      ++ itemPieces (indent + 2) os
  | .mapping ((k, o) :: fs) =>
    .text ":" :: .line (indent + 2) :: .text k :: valuePieces (indent + 2) o
      ++ fieldPieces (indent + 2) fs

end

/-- Pieces as text. A line starts with a break unless the text before it has ended its own. -/
def assemble (ended : Bool) : List Piece → List Text
  | [] => [if ended then [] else "\n"]
  | .text t :: ps => t :: assemble false ps
  | .endedLine t :: ps => t :: assemble true ps
  | .line indent :: ps => (if ended then [] else "\n") :: spaces indent :: assemble false ps

/-- An outline as a YAML document. -/
def writeYaml (o : Outline) : Except WriteError Text :=
  if o.scalars.any fun (_, t) => !t.isUtf8 then .error .notUtf8
  else .ok (assemble false (pieces 0 o)).flatten

/-- An outline in a named format; YAML if none is named. -/
def write (format : Text) (o : Outline) : Except WriteError Text :=
  if format == "yaml" || format.isEmpty then o.writeYaml
  else if format == "json" then o.writeJson
  else .error (.unknownFormat format)

end Mundart.Outline
