import Mundart.Json.Basic
import Mundart.Dict

/-!
# Requests and responses

The part of HTTP that the service speaks: a request with its target, content type and body, and a
response with a document or a text. Query strings and forms are lists of encoded fields.
-/

namespace Mundart.Http

structure Request where
  method : Text
  /-- The path with the query. -/
  target : Text
  contentType : Text := []
  body : Text := []

inductive Body where
  | json (document : Json)
  | text (t : Text)

structure Response where
  status : Nat := 200
  contentType : Text := []
  location : Option Text := none
  body : Body

namespace Response

def ofJson (document : Json) (status : Nat) : Response :=
  { status := status, contentType := "application/json", body := .json document }

def plain (status : Nat) (t : Text) : Response :=
  { status := status, contentType := "text/plain", body := .text t }

def page (t : Text) (status : Nat) : Response :=
  { status := status, contentType := "text/html", body := .text t }

/-- Sends the client elsewhere. -/
def redirect (location : Text) : Response :=
  { status := 302, location := some location, body := .text [] }

/-- The response without its body, as it answers a request for the head only. -/
def withoutBody (r : Response) : Response := { r with body := .text [] }

end Response

/-! ### Fields

The parts of a request line and the fields of a form. A field may be given more than once; its first value
counts. -/

/-- A field's text: a plus sign is a blank, a percent sign with two hexadecimal digits a byte, and a
percent sign without them stands for itself. -/
def decodeField : Text → Text
  | [] => []
  | b :: rest =>
    if b == ascii '%' then
      match rest with
      | h :: l :: more =>
        match Text.hexValue? h, Text.hexValue? l with
        | some high, some low => (high * 16 + low).toUInt8 :: decodeField more
        | _, _ => b :: decodeField (h :: l :: more)
      | short => b :: short
    else (if b == ascii '+' then ascii ' ' else b) :: decodeField rest

/-- The fields of a query or a form, in order. -/
def fields (t : Text) : List (Text × Text) :=
  (Text.splitOn (ascii '&') t).filterMap fun part =>
    if part.isEmpty then none
    else
      let (name, value) := Text.cut (ascii '=') part
      some (decodeField name, decodeField (value.getD []))

/-- The first value of a field, empty if there is none. -/
def fieldValue (name : Text) (fs : List (Text × Text)) : Text :=
  ((fs.find? fun f => f.1 == name).map Prod.snd).getD []

namespace Request

/-- The target without what only the client uses. -/
def resource (r : Request) : Text := (Text.cut (ascii '#') r.target).1

def path (r : Request) : Text := (Text.cut (ascii '?') r.resource).1

def query (r : Request) : List (Text × Text) :=
  fields ((Text.cut (ascii '?') r.resource).2.getD [])

/-- The content type in lower case, without parameters; of a compound type only the last part of its
structure counts. -/
def mediaType (r : Request) : Text :=
  let (type, _) := Text.cut (ascii ';') r.contentType.toLower
  match Text.cut (ascii '+') type with
  | (_, none) => type
  | (_, some suffix) =>
    match Text.cut (ascii '/') type with
    | (_, none) => type
    | (family, some _) => family ++ "/" ++ suffix

def isJson (r : Request) : Bool := (utf8 "json").isSuffixOf r.mediaType

def isForm (r : Request) : Bool := (utf8 "application/x-www-form-urlencoded").isPrefixOf r.mediaType

def isMultipart (r : Request) : Bool := (utf8 "multipart/form-data").isPrefixOf r.mediaType

def isXml (r : Request) : Bool :=
  (utf8 "text/xml").isPrefixOf r.mediaType || (utf8 "application/xml").isPrefixOf r.mediaType

/-- The fields of a body that is a form. -/
def form (r : Request) : List (Text × Text) := if r.isForm then fields r.body else []

/-- A field of the query or else of the form. -/
def formValue (r : Request) (name : Text) : Text :=
  match fieldValue name r.query with
  | [] => fieldValue name r.form
  | value => value

end Request

end Mundart.Http
