import Mundart.Value.Display
import Mundart.Text.Quoted
import Mundart.Token.Basic

/-!
# Failures

Everything that can go wrong while a program is read or run, as causes. The wording of every cause
stands in `message`, the word that services report for it in `kind`.
-/

namespace Mundart

/-- What is wrong with a sequence of tokens. -/
inductive Complaint where
  | leftover (kind : Token.Kind) (value : Text)
  | expected (construct : Text) (kind : Token.Kind)
  | emptyBody (construct : Text)
  | noCondition (construct : Text)
  | noStart
  | noComparison
  | noUpdate
  | noCollection
  | noItemName
  | noFunctionName
  | assignOperator (op : Text)
  | noIndexValue (name : Text)
  | noVariableName
  | noEquals (name : Text)
  | noInitial (name : Text)
  | noValue (name : Text)
  | noCommentText
  | noChainOperand (op : Text)
  | noRightSide (op : Text)
  | noOperand (op : Text)
  | noValueList
  | noPropertyName
  | noArgument (property : Text)
  | noFilterName (property : Text)
  | noPredicate (property : Text)
  | noUrl
  | badNumber (digits : Text)
  deriving DecidableEq, Repr

def Complaint.message : Complaint → Text
  | .leftover kind value => "unerwartetes Token " ++ kind.name ++ " " ++ value.quoted
  | .expected construct kind => construct ++ " erwartet " ++ kind.name
  | .emptyBody construct => "Körper von " ++ construct ++ " is leer"
  | .noCondition construct => construct ++ " erwartet a Bedingung"
  | .noStart => "aufi erwartet a Zuweisung"
  | .noComparison => "aufi erwartet an Vergleich als Bedingung"
  | .noUpdate => "aufi erwartet an Schritt"
  | .noCollection => "fiaOis erwartet a Array"
  | .noItemName => "fiaOis erwartet an Namen nach als"
  | .noFunctionName => "hawara erwartet an Namen"
  | .assignOperator op => "Operator '" ++ op ++ "' wird ned unterstützt, nur '='"
  | .noIndexValue name => "Zuweisung an " ++ name ++ "[...] erwartet an Wert"
  | .noVariableName => "heast erwartet an Namen"
  | .noEquals name => "heast " ++ name ++ " erwartet '='"
  | .noInitial name => "heast " ++ name ++ " erwartet an Wert"
  | .noValue name => "Zuweisung an " ++ name ++ " erwartet an Wert"
  | .noCommentText => "kommentar erwartet an Text in Anführungszeichen"
  | .noChainOperand op => "nach '" ++ op ++ "' fehlt a Bedingung"
  | .noRightSide op => "nach '" ++ op ++ "' fehlt a Ausdruck"
  | .noOperand op => "nach '" ++ op ++ "' fehlt a Operand"
  | .noValueList => "nach ':' erwartet a Werteliste"
  | .noPropertyName => "nach '.' erwartet an Eigenschaftsnamen"
  | .noArgument property => property ++ " erwartet an Ausdruck"
  | .noFilterName property => property ++ " erwartet an Namen"
  | .noPredicate property => "Bedingung von " ++ property ++ " is leer"
  | .noUrl => "holma erwartet a URL"
  | .badNumber digits => "ungültige Zahl " ++ digits.quoted

/-- A syntax error: the complaint, and the byte position of the token it is about, or none at the
end of the source. -/
structure SyntaxError where
  position : Option Nat
  complaint : Complaint
  deriving DecidableEq, Repr

def SyntaxError.message (e : SyntaxError) : Text :=
  match e.position with
  | some n => "Syntaxfehler bei Position " ++ Text.ofNat n ++ ": " ++ e.complaint.message
  | none => "Syntaxfehler am Ende: " ++ e.complaint.message

/-- What a value of some type was not fit for. -/
inductive Mismatch where
  | key (kind : Value.Kind)
  | index (kind : Value.Kind)
  | indexed (kind : Value.Kind)
  | notAnArray (name : Text)
  | receiverNotVariable (method : Text)
  | filtered (kind : Value.Kind)
  | iterated (kind : Value.Kind)
  | operands (op : Text) (left right : Value.Kind)
  | operand (op : Text) (kind : Value.Kind)
  | compared (op : Text) (left right : Value.Kind)
  | url (kind : Value.Kind)
  | badUrl (address : Text)
  | receiver (method : Text) (kind : Value.Kind)
  | notAList (method : Text) (kind : Value.Kind)
  | searchedFor (kind : Value.Kind)
  | sliceStart (kind : Value.Kind)
  | sorted (left right : Value.Kind)
  | notNumeric (text : Text)
  deriving DecidableEq, Repr

def Mismatch.message : Mismatch → Text
  | .key kind => kind.name ++ " taugt ned als Schlüssel"
  | .index kind => "Index muss a ganze Zahl sein, ned " ++ kind.name
  | .indexed kind => kind.name ++ " kann ma ned indizieren"
  | .notAnArray name => name ++ " is ka Array"
  | .receiverNotVariable method => "." ++ method ++ " braucht a Variable"
  | .filtered kind => "nimmAusse braucht an Array, ned " ++ kind.name
  | .iterated kind => "fiaOis braucht an Array, ned " ++ kind.name
  | .operands op left right =>
    "'" ++ op ++ "' geht ned mit " ++ left.name ++ " und " ++ right.name
  | .operand op kind => "'" ++ op ++ "' geht ned mit " ++ kind.name
  | .compared op left right =>
    left.name ++ " und " ++ right.name ++ " kann ma ned mit '" ++ op ++ "' vergleichen"
  | .url kind => "holma braucht a URL als Text, ned " ++ kind.name
  | .badUrl address => "holma braucht a gültige http(s) URL, ned " ++ address.quoted
  | .receiver method kind => "." ++ method ++ " geht ned auf " ++ kind.name
  | .notAList method kind => "." ++ method ++ " geht nur auf an Array, ned " ++ kind.name
  | .searchedFor kind => ".gibts auf Text braucht an Text, ned " ++ kind.name
  | .sliceStart kind => ".ausse braucht a ganze Zahl, ned " ++ kind.name
  | .sorted left right => ".ordne kann " ++ left.name ++ " und " ++ right.name ++ " ned vergleichen"
  | .notNumeric text => text.quoted ++ " is ka Numma"

/-- Where an index or a key points to nothing. -/
inductive Miss where
  | position (index last : Int)
  | missingKey (key : Text)
  | negative (index : Int)
  deriving DecidableEq, Repr

def Miss.message : Miss → Text
  | .position index last => "Index " ++ Text.ofInt index ++ " außerhalb von 0.." ++ Text.ofInt last
  | .missingKey key => "Schlüssel " ++ key.quoted ++ " gibt's ned"
  | .negative index => "Index " ++ Text.ofInt index ++ " is negativ"

/-- Why a run was stopped from outside. -/
inductive Interruption where
  | cancelled
  | deadline
  deriving DecidableEq, Repr

def Interruption.message : Interruption → Text
  | .cancelled => "context canceled"
  | .deadline => "context deadline exceeded"

/-- What no program that was read runs into: an operation was trusted with something that it has no
answer for. -/
inductive Defect where
  /-- A value was read as one of another type. -/
  | wrongKind (reader : Text) (found : Value.Kind)
  /-- A sequence was asked for a position that it does not have. -/
  | outOfRange (index length : Nat)
  /-- An integer was divided by zero. -/
  | zeroDivisor
  deriving DecidableEq, Repr

def Defect.message : Defect → Text
  | .wrongKind reader found => reader ++ " called on " ++ found.name ++ " value"
  | .outOfRange index length =>
    "runtime error: index out of range [" ++ Text.ofNat index ++ "] with length " ++ Text.ofNat length
  | .zeroDivisor => "runtime error: integer divide by zero"

/-- A failure of reading or running a program. -/
inductive Failure where
  | badSyntax (e : SyntaxError)
  | unknownVariable (name : Text)
  | unknownFunction (name : Text)
  | unknownProperty (name : Text)
  | mismatch (cause : Mismatch)
  | arity (callee : Text) (want got : Int)
  | divisionByZero
  | unknownOperator (op : Text)
  | unknownNode (kind : Text)
  | missed (cause : Miss)
  | recursionLimit (max : Int)
  | stepLimit (max : Int)
  | fetch (status : Int) (message : Text)
  /-- Printing did not work; not a failure of the program. -/
  | output (cause : Text)
  /-- The run was stopped from outside; not a failure of the program. -/
  | interrupted (cause : Interruption)
  /-- The evaluator itself went wrong. -/
  | defect (cause : Defect)
  deriving DecidableEq, Repr

namespace Failure

/-- The kinds of failure that a program itself can cause. -/
inductive Kind where
  | syntaxFailure | unknownIdentifier | typeMismatch | arityMismatch | arithmeticFailure
  | unknownOperator | unknownNodeKind | indexOutOfRange | recursionLimit | stepLimit | fetchFailure
  deriving DecidableEq, Repr

def Kind.name : Kind → Text
  | .syntaxFailure => "SyntaxFailure"
  | .unknownIdentifier => "UnknownIdentifier"
  | .typeMismatch => "TypeMismatch"
  | .arityMismatch => "ArityMismatch"
  | .arithmeticFailure => "ArithmeticFailure"
  | .unknownOperator => "UnknownOperator"
  | .unknownNodeKind => "UnknownNodeKind"
  | .indexOutOfRange => "IndexOutOfRange"
  | .recursionLimit => "RecursionLimit"
  | .stepLimit => "StepLimit"
  | .fetchFailure => "FetchFailure"

/-- The kind of a failure; none when the program is not to blame. -/
def kind? : Failure → Option Kind
  | .badSyntax _ => some .syntaxFailure
  | .unknownVariable _ | .unknownFunction _ | .unknownProperty _ => some .unknownIdentifier
  | .mismatch _ => some .typeMismatch
  | .arity _ _ _ => some .arityMismatch
  | .divisionByZero => some .arithmeticFailure
  | .unknownOperator _ => some .unknownOperator
  | .unknownNode _ => some .unknownNodeKind
  | .missed _ => some .indexOutOfRange
  | .recursionLimit _ => some .recursionLimit
  | .stepLimit _ => some .stepLimit
  | .fetch _ _ => some .fetchFailure
  | .output _ | .interrupted _ | .defect _ => none

def message : Failure → Text
  | .badSyntax e => e.message
  | .unknownVariable name => "Variable '" ++ name ++ "' is ned definiert"
  | .unknownFunction name => "Funktion '" ++ name ++ "' is ned definiert"
  | .unknownProperty name => "Unbekannte Eigenschaft '" ++ name ++ "'"
  | .mismatch cause => cause.message
  | .arity callee want got =>
    "Funktion '" ++ callee ++ "' erwartet " ++ Text.ofInt want ++ " Argumente, kriagt hat's "
      ++ Text.ofInt got
  | .divisionByZero => "Division durch null"
  | .unknownOperator op => "Unbekannter Operator '" ++ op ++ "'"
  | .unknownNode kind => "Unbekannter Knoten-Typ '" ++ kind ++ "'"
  | .missed cause => cause.message
  | .recursionLimit max => "Rekursion z'tief (max " ++ Text.ofInt max ++ ")"
  | .stepLimit max => "Schrittlimit erreicht (max " ++ Text.ofInt max ++ ")"
  | .fetch _ message => message
  | .output cause => "writing output: " ++ cause
  | .interrupted cause => cause.message
  | .defect cause => cause.message

/-- The HTTP status behind a failed fetch, zero for everything else. -/
def status : Failure → Int
  | .fetch status _ => status
  | _ => 0

end Failure

/-- What the surfaces tell about a failure: its kind where it has one, the text, and the HTTP status
of a failed fetch. -/
structure Report where
  kind : Option Failure.Kind
  message : Text
  status : Int := 0
  deriving DecidableEq, Repr

def Failure.report (f : Failure) : Report := ⟨f.kind?, f.message, f.status⟩

namespace Report

/-- The kind's word, empty when there is none. -/
def kindName (r : Report) : Text :=
  match r.kind with
  | some k => k.name
  | none => []

/-- A report told by someone else, who puts a text in front. -/
def within (context : Text) (r : Report) : Report := { r with message := context ++ r.message }

/-- A report as an associative array. -/
def toValue (r : Report) : Value :=
  .assoc [("message", .text r.message), ("kind", .text r.kindName),
    ("code", .int (Int64.ofInt r.status))]

end Report

end Mundart
