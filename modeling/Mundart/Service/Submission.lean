import Mundart.Http.Message
import Mundart.Json.Read

/-!
# Submitted programs

Clients send a program in the body of a request, as a JSON object or as a form. A request looks for certain
fields of it: for `source` alone, if the program is only run, and for `description` too, if it is saved. The
names are compared without regard to case, and fields with other names are passed over, whatever they hold.

Bodies of two more kinds are taken, multipart forms and XML. How these are read is a parameter.
-/

namespace Mundart

/-- What a client sends to be run or saved. -/
structure Submission where
  source : Text := []
  description : Text := []
  deriving DecidableEq, Repr

namespace Submission

/-- The fields that can be looked for. -/
inductive Field where
  | source | description
  deriving DecidableEq, Repr

def Field.name : Field → String
  | .source => "source"
  | .description => "description"

def set (s : Submission) (f : Field) (t : Text) : Submission :=
  match f with
  | .source => { s with source := t }
  | .description => { s with description := t }

/-- Why a body is not taken. -/
inductive Defect where
  | mediaType
  | notJson
  | notAnObject
  | notAString (field : Text)
  /-- What a decoder of another media type complains about. -/
  | undecodable (complaint : Text)
  deriving DecidableEq, Repr

def Defect.message : Defect → Text
  | .mediaType => "Unprocessable Entity"
  | .notJson => "not a JSON document"
  | .notAnObject => "not a JSON object"
  | .notAString field => "field " ++ field ++ " is not a string"
  | .undecodable complaint => complaint

/-- A character with regard to case; two letters outside ASCII belong to ASCII ones. -/
def foldChar (c : Char) : Char :=
  if c = 'ſ' then 's' else if c = '\u212a' then 'k' else c.toLower

/-- Whether a field has the given name, without regard to case. -/
def Field.isNamed (name : Text) (f : Field) : Bool :=
  (Text.chars name).map foldChar == f.name.toList

/-- One member of a JSON body. Nothing is left as it is by `null`, and by a member that is not looked for. -/
def addMember (known : List Field) (s : Submission) (member : Text × Json) : Except Defect Submission :=
  match known.find? (Field.isNamed member.1) with
  | none => .ok s
  | some f =>
    match member.2 with
    | .null => .ok s
    | .string t => .ok (s.set f t)
    | _ => .error (.notAString member.1)

def ofJson (known : List Field) : Json → Except Defect Submission
  | .null => .ok {}
  | .object members => members.foldlM (addMember known) {}
  | _ => .error .notAnObject

/-- One field of a form. -/
def addField (known : List Field) (s : Submission) (field : Text × Text) : Submission :=
  match known.find? (Field.isNamed field.1) with
  | none => s
  | some f => s.set f field.2

/-- The submission of a form; the last of several fields with one name counts. -/
def ofForm (known : List Field) (fields : List (Text × Text)) : Submission :=
  fields.foldl (addField known) {}

/-- How bodies of other media types are read: a decoder is told the fields that are looked for, and it
complains about a body that it cannot read. -/
abbrev Decoder := List Field → Http.Request → Except Text Submission

/-- A decoder that reads nothing. -/
def noDecoder : Decoder := fun _ _ => .error Defect.mediaType.message

/-- Reads the fields that are looked for from the body of a request. -/
def read (decoder : Decoder) (known : List Field) (r : Http.Request) : Except Defect Submission :=
  if r.isJson then
    match Json.read? r.body with
    | some document => ofJson known document
    | none => .error .notJson
  else if r.isForm then .ok (ofForm known r.form)
  else if r.isMultipart || r.isXml then (decoder known r).mapError .undecodable
  else .error .mediaType

end Submission

end Mundart
