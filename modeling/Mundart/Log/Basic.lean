import Mundart.Text.Blank
import Mundart.Text.Quoted
import Mundart.Number.Reading
import Mundart.Time.Basic

/-!
# Log records

A record has a severity, a message and named fields, and is written on one line. A threshold decides
which records are written. Thresholds are numbers: the four severities have fixed places on the
scale, and a threshold may lie anywhere, as in `info+1`.
-/

namespace Mundart.Log

/-- How much a record matters. -/
inductive Severity where
  | debug | info | warn | error
  deriving DecidableEq, Repr

namespace Severity

def name : Severity → Text
  | .debug => "DEBUG"
  | .info => "INFO"
  | .warn => "WARN"
  | .error => "ERROR"

/-- The place of a severity on the scale of thresholds. -/
def level : Severity → Int64
  | .debug => -4
  | .info => 0
  | .warn => 4
  | .error => 8

def all : List Severity := [.debug, .info, .warn, .error]

def ofName? (t : Text) : Option Severity := all.find? fun s => s.name == t

end Severity

/-- The least level of a record that is written. -/
abbrev Threshold := Int64

/-- A letter in upper case, as far as the names of severities can tell: the dotless i is an `I`. -/
def upperChar (c : Char) : Char := if c == 'ı' then 'I' else c.toUpper

/-- Reads a threshold: a severity in letters of either case, and an optional signed distance. -/
def Threshold.read? (t : Text) : Option Threshold := do
  let (name, distance) := t.span fun b => b != ascii '+' && b != ascii '-'
  let severity ← Severity.ofName? (Text.ofChars ((Text.chars name).map upperChar))
  if distance.isEmpty then some severity.level
  else (Number.readInt64 distance).toOption.map (severity.level + ·)

/-- Whether a threshold lets a severity through. -/
def Threshold.admits (t : Threshold) (s : Severity) : Bool := t ≤ s.level

/-- What a field of a record says. -/
inductive Content where
  | text (t : Text)
  /-- The time since the start, which only the writer of the record knows. -/
  | elapsed
  deriving DecidableEq, Repr

structure Record where
  severity : Severity
  message : Text
  fields : List (Text × Content) := []
  deriving DecidableEq, Repr

/-- Whether a rune in a value would blur where the value ends, or could not be seen. -/
def blurs : Rune → Bool
  | .stray _ => true
  | .char c =>
    if c.toNat < 0x80 then c.toNat < 0x20 || c == ' ' || c == '=' || c == '"'
    else c == Rune.replacement || Text.isBlank c || !Text.isPrintable c

/-- A value on the line of a record: as it is where that is clear, else in quotes. -/
def valueText (t : Text) : Text :=
  if t.isEmpty || (Text.runes t).any blurs then t.quoted else t

def fieldText (elapsed : Text) : Text × Content → Text
  | (name, .text t) => " " ++ name ++ "=" ++ valueText t
  | (name, .elapsed) => " " ++ name ++ "=" ++ valueText elapsed

/-- The line of a record, without the time of writing. -/
def Record.text (elapsed : Text) (r : Record) : Text :=
  "level=" ++ r.severity.name ++ " msg=" ++ valueText r.message
    ++ r.fields.flatMap (fieldText elapsed) ++ "\n"

/-- The time of writing, in front of a record. -/
def stampText (t : Instant) : Text :=
  "time=" ++ (Instant.date t).text ++ "T" ++ Instant.clock t ++ "."
    ++ Text.padNat 3 (t / Span.millisecond % 1000).toNat ++ "Z "

end Mundart.Log
