import Mundart.Service.Record

/-!
# Remote calls

The second surface of the service. A call carries a text or a few named texts, and its answer is a
message: a value whose numbers are all doubles and whose texts are all UTF-8. Unlike a run over HTTP,
a called run is carried out before the answer.
-/

namespace Mundart.Rpc

/-- What can be called. -/
inductive Call where
  | eval (source : Text)
  | check (source : Text)
  | createScript (fields : Json)
  | getScript (id : Text)
  | listScripts
  | runScript (id : Text)

/-- The codes of failed calls. -/
inductive Code where
  | invalidArgument | notFound | alreadyExists | failedPrecondition | internal
  deriving DecidableEq, Repr

def Code.name : Code → Text
  | .invalidArgument => "InvalidArgument"
  | .notFound => "NotFound"
  | .alreadyExists => "AlreadyExists"
  | .failedPrecondition => "FailedPrecondition"
  | .internal => "Internal"

structure Problem where
  code : Code
  message : Text
  deriving DecidableEq, Repr

def Problem.ofRefusal (r : Store.Refusal) : Problem :=
  match r with
  | .scriptMissing _ | .runMissing _ => ⟨.notFound, r.message⟩
  | .scriptExists _ => ⟨.alreadyExists, r.message⟩
  | .runFinished _ _ => ⟨.failedPrecondition, r.message⟩

/-! ### Messages

A message carries numbers as doubles and texts as UTF-8. One text that is not well-formed, also in a name,
fails the whole answer. -/

/-- A text that a message can carry. -/
def messageText (t : Text) : Except Text Text := if t.isUtf8 then .ok t else .error t

mutual

/-- A value as a message, or the text that stops it. -/
def message : Value → Except Text Value
  | .absent => .ok .absent
  | .bool b => .ok (.bool b)
  | .int n => .ok (.double (Double.ofInt64 n))
  | .double x => .ok (.double x)
  | .text t => (messageText t).map .text
  | .func name => (messageText (Value.display (.func name))).map .text
  | .array items => (messageItems items).map .array
  | .assoc entries => (messageEntries entries).map .assoc

def messageItems : List Value → Except Text (List Value)
  | [] => .ok []
  | v :: vs => do return (← message v) :: (← messageItems vs)

def messageEntries : List (Text × Value) → Except Text (List (Text × Value))
  | [] => .ok []
  | (k, v) :: es => do
    let k ← messageText k
    let v ← message v
    let es ← messageEntries es
    return (k, v) :: es

end

/-- An answer made of a value. -/
def reply (v : Value) : Except Problem Value :=
  match message v with
  | .ok m => .ok m
  | .error t =>
    .error ⟨.internal, "failed to encode response: invalid UTF-8 in string: " ++ t.quoted⟩

/-- An associative array of the members that have a value. -/
def record (members : List (String × Option Value)) : Value :=
  .assoc (members.filterMap fun m => m.2.map fun v => (utf8 m.1, v))

def texts (ts : List Text) : Value := .array (ts.map .text)

def whole (n : Int) : Value := .int (Int64.ofInt n)

def scriptRecord (s : Script) : Value :=
  .assoc [("createTime", .text (Instant.rfc3339 s.created)), ("description", .text s.description),
    ("id", .text s.id), ("revisionId", .text s.revision.text), ("source", .text s.source),
    ("state", .text Script.stateName), ("updateTime", .text (Instant.rfc3339 s.updated))]

def errorRecord (e : Run.Error) : Value :=
  .assoc [("kind", .text e.kind), ("message", .text e.message)]

/-- A run as a message, with output, diagnostics and steps also where there is nothing to tell. -/
def runRecord (r : Run) : Value :=
  record
    [("diagnostics", some (texts r.diagnostics)),
      ("endTime", r.ended.map fun t => .text (Instant.rfc3339 t)),
      ("error", r.error.map errorRecord),
      ("id", some (.text r.id)),
      ("output", some (.text r.output)),
      ("scriptId", some (.text r.script)),
      ("scriptRevisionId", some (.text r.revision.text)),
      ("startTime", some (.text (Instant.rfc3339 r.started))),
      ("state", some (.text r.state.name)),
      ("steps", some (whole r.steps))]

def executionRecord (e : Execution) : Value :=
  record
    [("diagnostics", some (texts e.diagnostics)), ("error", e.error.map Report.toValue),
      ("output", some (.text e.output)), ("steps", some (whole e.steps)), ("value", some e.value)]

/-! ### Calls

The checks of a call are not all those of a request over HTTP: a source that consists of blanks is there for
a call. -/

/-- What lives from one call to the next. -/
structure Service where
  store : Store := {}
  random : Random := Random.ofSeed 1 2

/-- The context of a call. -/
structure Context where
  settings : Settings
  stamp : Stamp
  /-- Whether the caller has given up already. -/
  cancelled : Bool := false

def Context.machine (x : Context) (s : Service) : Machine :=
  { random := s.random, interruption := if x.cancelled then some .cancelled else none }

/-- A named text of a call; anything else is no text. -/
def textField (name : String) (fields : Json) : Text :=
  match fields.field? (utf8 name) with
  | some (.string t) => t
  | _ => []

def eval (fuel : Nat) (x : Context) (s : Service) (source : Text) :
    Option (Except Problem Value × Service) :=
  (execute fuel x.settings source (x.machine s)).map fun (e, m) =>
    let s := { s with random := m.random }
    match e.error with
    | some ⟨some .syntaxFailure, message, _⟩ => (.error ⟨.invalidArgument, message⟩, s)
    | _ => (reply (executionRecord e), s)

/-- Whether a source is a program; a syntax error is an answer, not a failed call. -/
def check (source : Text) : Except Problem Value :=
  match Program.parse source with
  | .ok _ => reply (record [("ok", some (.bool true))])
  | .error e =>
    reply (record [("error", some (Failure.badSyntax e).report.toValue), ("ok", some (.bool false))])

def createScript (x : Context) (s : Service) (fields : Json) : Except Problem Value × Service :=
  let id := textField "id" fields
  let source := textField "source" fields
  if id.isEmpty then (.error ⟨.invalidArgument, "id is required"⟩, s)
  else if !Script.validId id then (.error ⟨.invalidArgument, "invalid id " ++ id.quoted⟩, s)
  else if source.isEmpty then (.error ⟨.invalidArgument, "source is required"⟩, s)
  else
    match Program.parse source with
    | .error e => (.error ⟨.invalidArgument, "invalid script: " ++ e.message⟩, s)
    | .ok _ =>
      match s.store.createScript id source (textField "description" fields) x.stamp with
      | (.error r, store) => (.error (.ofRefusal r), { s with store := store })
      | (.ok script, store) => (reply (scriptRecord script), { s with store := store })

/-- Runs a script to its end and answers with the recorded run. A run whose caller gave up is
recorded as cancelled. -/
def runScript (fuel : Nat) (x : Context) (s : Service) (id : Text) :
    Option (Except Problem Value × Service) :=
  match s.store.getScript id with
  | .error r => some (.error (.ofRefusal r), s)
  | .ok script =>
    match s.store.createRun id x.stamp with
    | (.error r, store) => some (.error (.ofRefusal r), { s with store := store })
    | (.ok run, store) =>
      (execute fuel x.settings script.source (x.machine s)).map fun (e, m) =>
        let s : Service := { store := store, random := m.random }
        let ending := if m.interruption.isSome then .cancelled else e.ending
        match store.finishRun id run.id ending x.stamp.time with
        | (.error r, store) => (.error (.ofRefusal r), { s with store := store })
        | (.ok _, store) =>
          let s := { s with store := store }
          match store.getRun id run.id with
          | .error r => (.error (.ofRefusal r), s)
          | .ok run => (reply (runRecord run), s)

/-- Answers a call. -/
def handle (fuel : Nat) (x : Context) (s : Service) : Call → Option (Except Problem Value × Service)
  | .eval source => eval fuel x s source
  | .check source => some (check source, s)
  | .createScript fields => some (createScript x s fields)
  | .getScript id =>
    match s.store.getScript id with
    | .ok script => some (reply (scriptRecord script), s)
    | .error r => some (.error (.ofRefusal r), s)
  | .listScripts =>
    some (reply (record [("scripts", some (.array (s.store.listScripts.map scriptRecord)))]), s)
  | .runScript id => runScript fuel x s id

end Mundart.Rpc
